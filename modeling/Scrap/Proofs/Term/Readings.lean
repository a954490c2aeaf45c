import Scrap.Proofs.Runs
import Scrap.Proofs.Term.Grammar

/-! # What the parser does

The parser puts tokens together in a few ways. A relation between tokens and terms that is kept by each of them holds
of what the parser takes and makes. -/

namespace Scrap

open List

variable {l : Lexeme} {ls : List Lexeme} {p : Strength} {t : Term}

def Reader.lexemes (r : Reader) : List Lexeme := r.tokens.map Token.lexeme

namespace Parser

section Steps
variable {r r' : Reader} {e : String × Term}

theorem next_returns {t : Token} (h : outcome next r = (.ok t, r')) :
    r.lexemes = t.lexeme :: r'.lexemes ∧ r'.generated = r.generated := by
  obtain ⟨_ | ⟨u, us⟩, g⟩ := r
  · cases h
  · cases h
    exact ⟨rfl, rfl⟩

theorem peek?_returns {o : Option Token} (h : outcome peek? r = (.ok o, r')) :
    r = r' ∧ o.map Token.lexeme = r.lexemes.head? := by
  cases h
  refine ⟨rfl, ?_⟩
  rw [Reader.lexemes, head?_map]

theorem peek_returns {t : Token} (h : outcome peek r = (.ok t, r')) : r = r' ∧ r.lexemes.head? = some t.lexeme := by
  obtain ⟨_ | ⟨u, us⟩, g⟩ := r
  · cases h
  · cases h
    exact ⟨rfl, rfl⟩

theorem next_peeked {t : Token} (h : outcome next r = (.ok t, r')) (hl : r.lexemes.head? = some l) :
    r.lexemes = l :: r'.lexemes := by
  have hnext := (next_returns h).1
  rw [hnext, head?_cons, Option.some.injEq] at hl
  rwa [hl] at hnext

def parameter (k : Nat) : String := "$v" ++ toString k

theorem freshName_returns {x : String} (h : outcome freshName r = (.ok x, r')) :
    x = parameter r.generated ∧ r'.lexemes = r.lexemes ∧ r'.generated = r.generated + 1 := by
  cases h
  exact ⟨rfl, rfl, rfl⟩

theorem caseOf_returns {c : Term × Term} (h : outcome (caseOf t) r = (.ok c, r')) :
    r = r' ∧ ∃ i, t = .function i c.1 c.2 := by
  cases t with
  | function i p b =>
    cases h
    exact ⟨rfl, i, rfl⟩
  | _ => cases h

theorem entryOf_returns (h : outcome (entryOf t) r = (.ok e, r')) : r = r' ∧ entryOf t = pure e := by
  cases t with
  | spread | assign =>
    cases h
    exact ⟨rfl, rfl⟩
  | _ => cases h

theorem entryOf_eq_pure (h : entryOf t = pure e) : e.2 = t ∨ t.parts = [e.2] := by
  have hrun : outcome (entryOf t) default = (.ok e, default) := by rw [h]; rfl
  cases t with
  | spread =>
    cases hrun
    exact .inl rfl
  | assign =>
    cases hrun
    exact .inr rfl
  | _ => cases hrun

theorem negated_returns {u : Term} (h : outcome (negated t) r = (.ok u, r')) : r = r' ∧ negated t = pure u := by
  unfold negated at h ⊢
  split at h
  · split at h
    · rename_i hn
      cases h
      exact ⟨rfl, if_pos hn⟩
    · cases h
  · split at h
    · rename_i hn
      cases h
      exact ⟨rfl, if_pos hn⟩
    · cases h
  · cases h
    exact ⟨rfl, rfl⟩

theorem negated_eq_pure {u : Term} (h : negated t = pure u) : (∃ i n, t = .int i n ∧ u = .int 0 (-n)) ∨
    (∃ i x, t = .float i x ∧ u = .float 0 x.neg) ∨ u = .binop 0 .sub (.int 0 0) t := by
  have hrun : outcome (negated t) default = (.ok u, default) := by rw [h]; rfl
  unfold negated at hrun
  split at hrun
  · split at hrun <;> cases hrun
    exact .inl ⟨_, _, rfl, rfl⟩
  · split at hrun <;> cases hrun
    exact .inr (.inl ⟨_, _, rfl, rfl⟩)
  · cases hrun
    exact .inr (.inr rfl)

theorem bytesOf_returns {token : Token} {text : String} {base : Int}
    (h : outcome (bytesOf token text base) r = (.ok t, r')) :
    r = r' ∧ ∃ bs, Text.unarmor? base text = some (.ok bs) ∧ t = .bytes 0 bs := by
  unfold bytesOf at h
  split at h
  · rename_i bs hbs
    cases h
    exact ⟨rfl, bs, hbs, rfl⟩
  · cases h
  · cases h

end Steps

/-! ### What may follow an expression -/

/-- What stands behind a term that was read with the strength `p`. -/
def Stops (p : Strength) (ls : List Lexeme) : Prop :=
  ∀ l, ls.head? = some l → l.isCloser = true ∨ Operator.juxtaposition.left < p ∨
    ∃ s b, l = .operator s ∧ Operator.binding? s = some b ∧ b.left < p

theorem Stops.closer (h : Stops 0 ls) (hl : ls.head? = some l) : l.isCloser = true := by
  have hpos : ∀ p ∈ Operator.table, 0 ≤ p.2.left := by decide
  rcases h l hl with hc | hj | ⟨s, b, -, hb, hlt⟩
  · exact hc
  · exact absurd hj (by decide)
  · have := hpos _ (Dict.mem_of_get? hb)
    exact absurd hlt (Int.not_lt.mpr this)

theorem Stops.separator (h : Stops entryStrength ls) (hl : ls.head? = some l) :
    l.isCloser = true ∨ l = .operator "," ∨ l = .operator "..." := by
  have hlow : ∀ p ∈ Operator.table, p.2.left < entryStrength → p.1 = "," ∨ p.1 = "..." := by decide
  rcases h l hl with hc | hj | ⟨s, b, rfl, hb, hlt⟩
  · exact .inl hc
  · exact absurd hj (by decide)
  · rcases hlow _ (Dict.mem_of_get? hb) hlt with hs | hs <;> cases hs
    · exact .inr (.inl rfl)
    · exact .inr (.inr rfl)

theorem separates_of_stops {c : Lexeme} (h : Stops entryStrength (l :: ls)) (hne : l ≠ c) :
    Punctuation.lax.separates c l := by
  rcases h.separator rfl with hcl | hl | hl
  · exact .inr (.inr ⟨hcl, hne⟩)
  · exact .inl hl
  · exact .inr (.inl hl)

end Parser

/-! ### Relations between tokens and terms -/

/-- Relations between tokens, the counter of generated names before and after them, and what they are read as. An item
of a list and an entry of a record are read behind the one before. -/
structure Readings where
  term : List Lexeme → Nat → Nat → Term → Prop
  cases : List Lexeme → Nat → Nat → List (Term × Term) → Prop
  items : Term → List Lexeme → Nat → Nat → List Term → Prop
  fields : Term → List Lexeme → Nat → Nat → List (String × Term) → Prop
  int {a n} : term [.int n] a a (.int 0 n)
  float {a x} : term [.float x] a a (.float 0 x)
  name {a x} : term [.name x] a a (.var 0 x)
  string {a s} : term [.string s] a a (.string 0 s)
  bytes {a text base bs} : Text.unarmor? base text = some (.ok bs) → term [.bytes text base] a a (.bytes 0 bs)
  variant {a b x ls v} : term ls a b v → term (.hash :: .name x :: ls) a b (.variant 0 x v)
  spread {a} : term [.operator "..."] a a (.spread 0 none)
  namedSpread {a x} : term [.operator "...", .name x] a a (.spread 0 (some x))
  matchFunction {a b c ls ls' i p body cs} : term ls a b (.function i p body) → cases ls' b c cs →
    term (.operator "|" :: (ls ++ ls')) a c (.matchFunction 0 ((p, body) :: cs))
  hole {a} : term [.leftParen, .rightParen] a a (.hole 0)
  paren {a b ls l t} : term ls a b t → l.isCloser = true → term (.leftParen :: (ls ++ [l])) a b t
  emptyList {a} : term [.leftBracket, .rightBracket] a a (.list 0 [])
  list {a b c ls ls' t ts} : term ls a b t → items t ls' b c ts →
    term (.leftBracket :: (ls ++ (ls' ++ [.rightBracket]))) a c (.list 0 (t :: ts))
  emptyRecord {a} : term [.leftBrace, .rightBrace] a a (.record 0 [])
  record {a b c ls ls' t e es} : term ls a b t → Parser.entryOf t = pure e → fields e.2 ls' b c es →
    term (.leftBrace :: (ls ++ (ls' ++ [.rightBrace]))) a c (.record 0 (Dict.ofEntries (e :: es)))
  negative {a b ls t u} : term ls a b t → Parser.negated t = pure u → term (.operator "-" :: ls) a b u
  apply {a b c ls ls' f x} : term ls a b f → term ls' b c x → (∀ l, ls'.head? = some l → l.isOperator = false) →
    term (ls ++ ls') a c (.apply 0 f x)
  operator {a b c ls ls' s l r t} : term ls a b l → term ls' b c r → s ≠ ">>" → s ≠ "<<" → Combined s l r t →
    term (ls ++ .operator s :: ls') a c t
  andThen {a b c ls ls' l r} : term ls a b l → term ls' b c r →
    term (ls ++ .operator ">>" :: ls') a (c + 1) (Parser.composed (Parser.parameter c) l r)
  after {a b c ls ls' l r} : term ls a b l → term ls' b c r →
    term (ls ++ .operator "<<" :: ls') a (c + 1) (Parser.composed (Parser.parameter c) r l)
  noCases {a} : cases [] a a []
  moreCases {a b c ls ls' i p body cs} : term ls a b (.function i p body) → cases ls' b c cs →
    cases (.operator "|" :: (ls ++ ls')) a c ((p, body) :: cs)
  noItems {a last} : items last [] a a []
  moreItems {a b c last s ls ls' t ts} : Parser.isSpread last = false → Punctuation.lax.separates .rightBracket s →
    term ls a b t → items t ls' b c ts → items last (s :: (ls ++ ls')) a c (t :: ts)
  noFields {a last} : fields last [] a a []
  moreFields {a b c last s ls ls' t e es} : Parser.isSpread last = false → Punctuation.lax.separates .rightBrace s →
    term ls a b t → Parser.entryOf t = pure e → fields e.2 ls' b c es → fields last (s :: (ls ++ ls')) a c (e :: es)

namespace Parser

/-! ### The tokens that are taken -/

/-- If the computation returns from the tokens `us` and the counter `a`, it has taken tokens so that `Q` holds of them,
of what is left, of the counter and of the result. -/
def Takes {α : Type} (us : List Lexeme) (a : Nat) (m : Parser α) (Q : List Lexeme → List Lexeme → Nat → α → Prop) :
    Prop :=
  ∀ r r' x, r.lexemes = us → r.generated = a → outcome m r = (.ok x, r') →
    ∃ ls, us = ls ++ r'.lexemes ∧ Q ls r'.lexemes r'.generated x

section Takes
variable {α β : Type} {us : List Lexeme} {a : Nat} {m : Parser α} {f : α → Parser β}
  {Q : List Lexeme → List Lexeme → Nat → α → Prop} {Q' : List Lexeme → List Lexeme → Nat → β → Prop}

theorem Takes.returns {r r' : Reader} {x : α} (hm : Takes r.lexemes r.generated m Q) (h : outcome m r = (.ok x, r')) :
    ∃ ls, r.lexemes = ls ++ r'.lexemes ∧ Q ls r'.lexemes r'.generated x :=
  hm r r' x rfl rfl h

theorem Takes.pure {x : α} (h : Q [] us a x) : Takes us a (Pure.pure x) Q := by
  rintro r r' y rfl rfl hy
  cases hy
  exact ⟨[], rfl, h⟩

theorem Takes.throw {e : ParseError} : Takes us a (MonadExcept.throw e) Q := fun _ _ _ _ _ h => by cases h

theorem Takes.mono (hm : Takes us a m Q) {Q1 : List Lexeme → List Lexeme → Nat → α → Prop}
    (h : ∀ ls vs b x, Q ls vs b x → Q1 ls vs b x) : Takes us a m Q1 := by
  intro r r' x hr ha hx
  obtain ⟨ls, hls, hQ⟩ := hm r r' x hr ha hx
  exact ⟨ls, hls, h _ _ _ _ hQ⟩

theorem Takes.bind (hm : Takes us a m Q)
    (hf : ∀ ls vs b x, us = ls ++ vs → Q ls vs b x → Takes vs b (f x) fun ls' => Q' (ls ++ ls')) :
    Takes us a (m >>= f) Q' := by
  intro r r' y hr ha h
  obtain ⟨x, r1, hx, h⟩ := bind_returns h
  obtain ⟨ls, hls, hQ⟩ := hm r r1 x hr ha hx
  obtain ⟨ls', hls', hQ'⟩ := hf ls _ _ x hls hQ r1 r' y rfl rfl h
  exact ⟨ls ++ ls', by rw [hls, hls', append_assoc], hQ'⟩

theorem Takes.map (hm : Takes us a m Q) {F : α → β} (h : ∀ ls vs b x, Q ls vs b x → Q' ls vs b (F x)) :
    Takes us a (m >>= fun x => Pure.pure (F x)) Q' :=
  hm.bind fun ls vs b x _ hQ => .pure (by rw [append_nil]; exact h ls vs b x hQ)

theorem Takes.next {f : Token → Parser β}
    (hf : ∀ t vs, us = t.lexeme :: vs → Takes vs a (f t) fun ls => Q' (t.lexeme :: ls)) :
    Takes us a (Parser.next >>= f) Q' := by
  rintro r r' y rfl rfl h
  obtain ⟨t, r1, ht, h⟩ := bind_returns h
  obtain ⟨hr, ha⟩ := next_returns ht
  obtain ⟨ls, hls, hQ⟩ := hf t _ hr r1 r' y rfl ha h
  exact ⟨t.lexeme :: ls, by rw [hr, hls, cons_append], hQ⟩

theorem Takes.seen {f : Token → Parser β} (hl : us.head? = some l)
    (hf : ∀ t vs, us = l :: vs → Takes vs a (f t) fun ls => Q' (l :: ls)) : Takes us a (Parser.next >>= f) Q' := by
  refine .next fun t vs ht => ?_
  rw [ht, head?_cons, Option.some.injEq] at hl
  rw [hl] at ht ⊢
  exact hf t vs ht

theorem Takes.peek? {f : Option Token → Parser β} (hf : ∀ o, o.map Token.lexeme = us.head? → Takes us a (f o) Q') :
    Takes us a (Parser.peek? >>= f) Q' := by
  rintro r r' y rfl rfl h
  obtain ⟨o, r1, hpeek, h⟩ := bind_returns h
  obtain ⟨rfl, ho⟩ := peek?_returns hpeek
  exact hf o ho r r' y rfl rfl h

theorem Takes.peek {f : Token → Parser β} (hf : ∀ t, us.head? = some t.lexeme → Takes us a (f t) Q') :
    Takes us a (Parser.peek >>= f) Q' := by
  rintro r r' y rfl rfl h
  obtain ⟨t, r1, hpeek, h⟩ := bind_returns h
  obtain ⟨rfl, ht⟩ := peek_returns hpeek
  exact hf t ht r r' y rfl rfl h

theorem Takes.freshName {f : String → Parser β} (hf : Takes us (a + 1) (f (parameter a)) Q') :
    Takes us a (Parser.freshName >>= f) Q' := by
  rintro r r' y rfl rfl h
  obtain ⟨x, r1, hx, h⟩ := bind_returns h
  obtain ⟨rfl, hr, ha⟩ := freshName_returns hx
  exact hf r1 r' y hr ha h

theorem Takes.still {P : α → Prop} (hm : ∀ {r r' x}, outcome m r = (.ok x, r') → r = r' ∧ P x)
    (hf : ∀ x, P x → Takes us a (f x) Q') : Takes us a (m >>= f) Q' := by
  intro r r' y hr ha h
  obtain ⟨x, r1, hx, h⟩ := bind_returns h
  obtain ⟨rfl, hP⟩ := hm hx
  exact hf x hP r r' y hr ha h

end Takes

/-- What the functions of the parser make if they return, with `n` calls left. -/
structure Reads (R : Readings) (n : Nat) : Prop where
  operand : ∀ {us a}, Takes us a (operand n) fun ls _ b t => R.term ls a b t
  moreCases : ∀ {us a}, Takes us a (moreCases n) fun ls _ b cs => R.cases ls a b cs
  moreItems : ∀ {last us a}, Stops entryStrength us →
    Takes us a (moreItems n last) fun ls _ b ts => ∃ vs, ls = vs ++ [.rightBracket] ∧ R.items last vs a b ts
  moreFields : ∀ {last us a}, Stops entryStrength us →
    Takes us a (moreFields n last) fun ls _ b es => ∃ vs, ls = vs ++ [.rightBrace] ∧ R.fields last vs a b es
  expression : ∀ {p us a}, Takes us a (expression n p) fun ls vs b t => R.term ls a b t ∧ Stops p vs
  extended : ∀ {p left ks us a b}, R.term ks a b left →
    Takes us b (extended n p left) fun ls vs c t => R.term (ks ++ ls) a c t ∧ Stops p vs
  operation : ∀ {s p left ks us a b}, R.term ks a b left →
    Takes us b (operation n s p left) fun ls _ c t => R.term (ks ++ .operator s :: ls) a c t

section Reads
variable {R : Readings} {n : Nat} {us : List Lexeme} {a : Nat} {ks : List Lexeme}

theorem reads_operand (hn : Reads R n) : Takes us a (operand (n + 1)) fun ls _ b t => R.term ls a b t := by
  rw [operand]
  refine .next fun token us _ => ?_
  split <;> rename_i hl <;> try rw [hl]
  · exact .pure R.int
  · exact .pure R.float
  · exact .pure R.name
  · refine .next fun tag us _ => ?_
    split
    · rename_i x hx
      rw [hx]
      exact hn.expression.map fun _ _ _ _ hv => R.variant hv.1
    · exact .throw
  · unfold bytesOf
    split
    · exact .pure (R.bytes ‹_›)
    · exact .throw
    · exact .throw
  · exact .pure R.string
  · refine .peek? fun o ho => ?_
    split
    · rename_i x hx
      exact .seen (ho.symm.trans hx) fun _ _ _ => .pure R.namedSpread
    · exact .pure R.spread
  · refine hn.expression.bind fun _ _ _ _ _ hf => .still caseOf_returns fun c hc => ?_
    obtain ⟨i, rfl⟩ := hc
    exact hn.moreCases.map fun _ _ _ _ hcs => R.matchFunction hf.1 hcs
  · refine .peek fun first hfirst => ?_
    dsimp only
    split
    · rename_i hright
      rw [hright] at hfirst
      rw [pure_bind]
      exact .seen hfirst fun _ _ _ => .pure R.hole
    · refine hn.expression.bind fun _ _ _ _ _ ht => .next fun c vs hvs => .pure (R.paren ht.1 ?_)
      exact (hvs ▸ ht.2).closer rfl
  · refine .peek fun first hfirst => ?_
    split
    · rename_i hright
      rw [hright] at hfirst
      exact .seen hfirst fun _ _ _ => .pure R.emptyList
    · refine hn.expression.bind fun _ _ _ _ _ ht => (hn.moreItems ht.2).map fun _ _ _ _ hts => ?_
      obtain ⟨vs, rfl, hvs⟩ := hts
      exact R.list ht.1 hvs
  · refine .peek fun first hfirst => ?_
    split
    · rename_i hright
      rw [hright] at hfirst
      exact .seen hfirst fun _ _ _ => .pure R.emptyRecord
    · refine hn.expression.bind fun _ _ _ _ _ ht => .still entryOf_returns fun e he => ?_
      refine (hn.moreFields ht.2).map fun _ _ _ _ hes => ?_
      obtain ⟨vs, rfl, hvs⟩ := hes
      exact R.record ht.1 he hvs
  · refine hn.expression.bind fun _ _ _ t _ ht => ?_
    rw [← bind_pure (negated t)]
    exact .still negated_returns fun u hu => .pure (by rw [append_nil]; exact R.negative ht.1 hu)
  · exact .throw

theorem reads_moreCases (hn : Reads R n) : Takes us a (moreCases (n + 1)) fun ls _ b cs => R.cases ls a b cs := by
  rw [moreCases]
  refine .peek? fun o ho => ?_
  split
  · rename_i hbar
    refine .seen (ho.symm.trans hbar) fun _ _ _ => hn.expression.bind fun _ _ _ _ _ hf => ?_
    refine .still caseOf_returns fun c hc => ?_
    obtain ⟨i, rfl⟩ := hc
    exact hn.moreCases.map fun _ _ _ _ hcs => R.moreCases hf.1 hcs
  · exact .pure R.noCases

theorem reads_moreItems (hn : Reads R n) {last : Term} (hus : Stops entryStrength us) :
    Takes us a (moreItems (n + 1) last) fun ls _ b ts => ∃ vs, ls = vs ++ [.rightBracket] ∧ R.items last vs a b ts := by
  rw [moreItems]
  refine .next fun c vs hvs => ?_
  split
  · rename_i hright
    rw [hright]
    exact .pure ⟨[], rfl, R.noItems⟩
  · rename_i hright
    have hsep : Punctuation.lax.separates .rightBracket c.lexeme := separates_of_stops (hvs ▸ hus) hright
    split
    · exact .throw
    · rename_i hlast
      refine hn.expression.bind fun ls _ _ _ _ ht => (hn.moreItems ht.2).map fun _ _ _ _ hts => ?_
      obtain ⟨vs, rfl, hvs⟩ := hts
      exact ⟨c.lexeme :: (ls ++ vs), by simp, R.moreItems (by simpa using hlast) hsep ht.1 hvs⟩

theorem reads_moreFields (hn : Reads R n) {last : Term} (hus : Stops entryStrength us) :
    Takes us a (moreFields (n + 1) last) fun ls _ b es => ∃ vs, ls = vs ++ [.rightBrace] ∧ R.fields last vs a b es := by
  rw [moreFields]
  refine .next fun c vs hvs => ?_
  split
  · rename_i hright
    rw [hright]
    exact .pure ⟨[], rfl, R.noFields⟩
  · rename_i hright
    have hsep : Punctuation.lax.separates .rightBrace c.lexeme := separates_of_stops (hvs ▸ hus) hright
    split
    · exact .throw
    · rename_i hlast
      refine hn.expression.bind fun ls _ _ _ _ ht => .still entryOf_returns fun e he => ?_
      refine (hn.moreFields ht.2).map fun _ _ _ _ hes => ?_
      obtain ⟨vs, rfl, hvs⟩ := hes
      exact ⟨c.lexeme :: (ls ++ vs), by simp, R.moreFields (by simpa using hlast) hsep ht.1 he hvs⟩

theorem reads_extended (hn : Reads R n) {left : Term} {b : Nat} (hleft : R.term ks a b left) :
    Takes us b (extended (n + 1) p left) fun ls vs c t => R.term (ks ++ ls) a c t ∧ Stops p vs := by
  rw [extended]
  refine .peek? fun o ho => ?_
  have stays (hstop : Stops p us) :
      Takes us b (pure left) fun ls vs c t => R.term (ks ++ ls) a c t ∧ Stops p vs :=
    .pure ⟨by rwa [append_nil], hstop⟩
  split
  · rename_i hnone
    refine stays fun l hl => ?_
    rw [← ho, hnone] at hl
    cases hl
  · rename_i s hs
    rw [hs] at ho
    split
    · exact .throw
    · rename_i b hb
      split
      · rename_i hlt
        refine stays fun l hl => ?_
        rw [← ho, Option.some.injEq] at hl
        exact .inr (.inr ⟨s, b, hl.symm, hb, hlt⟩)
      · refine .seen ho.symm fun _ _ _ => (hn.operation hleft).bind fun _ _ _ _ _ ht => ?_
        exact (hn.extended ht).mono fun _ _ _ _ hu => by simpa using hu
  · rename_i l hop hl
    rw [hl] at ho
    split
    · rename_i hstop
      refine stays fun l' hl' => ?_
      rw [← ho, Option.some.injEq] at hl'
      subst hl'
      simp only [Bool.or_eq_true, decide_eq_true_eq] at hstop
      exact hstop.imp_right Or.inl
    · -- the token that was seen is the first one of the argument
      refine hn.expression.bind fun ls vs _ _ hls harg => ?_
      have hplain : ∀ l', ls.head? = some l' → l'.isOperator = false := fun l' hl' => by
        rw [hls, head?_append, hl', Option.some_or, Option.some.injEq] at ho
        subst ho
        cases l with
        | operator s => exact absurd rfl (hop s)
        | _ => rfl
      exact (hn.extended (R.apply hleft harg.1 hplain)).mono fun _ _ _ _ hu => by simpa using hu

theorem reads_operation (hn : Reads R n) {s : String} {left : Term} {b : Nat} (hleft : R.term ks a b left) :
    Takes us b (operation (n + 1) s p left) fun ls _ c t => R.term (ks ++ .operator s :: ls) a c t := by
  have combined : ∀ {F : Term → Term}, s ≠ ">>" → s ≠ "<<" → (∀ u, Combined s left u (F u)) →
      Takes us b (do return F (← expression n p)) fun ls _ c t => R.term (ks ++ .operator s :: ls) a c t :=
    fun h h' hF => hn.expression.map fun _ _ _ u hu => R.operator hleft hu.1 h h' (hF u)
  unfold operation
  split
  · split
    · exact combined (by decide) (by decide) fun _ => .assign
    · exact .throw
  · exact combined (by decide) (by decide) fun _ => .function
  · exact combined (by decide) (by decide) fun _ => .pipe
  · exact combined (by decide) (by decide) fun _ => .reversePipe
  · refine hn.expression.bind fun _ _ _ _ _ hu => .freshName (.pure ?_)
    rw [append_nil]
    exact R.andThen hleft hu.1
  · refine hn.expression.bind fun _ _ _ _ _ hu => .freshName (.pure ?_)
    rw [append_nil]
    exact R.after hleft hu.1
  · exact combined (by decide) (by decide) fun _ => .scope
  · exact combined (by decide) (by decide) fun _ => .assert
  · exact combined (by decide) (by decide) fun _ => .access
  · rename_i hthen hafter _ _ _
    split
    · exact .throw
    · rename_i op hop
      exact combined hthen hafter fun _ => .binop hop

theorem reads (R : Readings) (n : Nat) : Reads R n := by
  induction n with
  | zero => exact ⟨.throw, .throw, fun _ => .throw, fun _ => .throw, .throw, fun _ => .throw, fun _ => .throw⟩
  | succ n ih =>
    refine ⟨reads_operand ih, reads_moreCases ih, reads_moreItems ih, reads_moreFields ih, ?_,
      reads_extended ih, reads_operation ih⟩
    intro us a p
    rw [expression]
    exact ih.operand.bind fun _ _ _ _ _ ht => ih.extended ht

end Reads

end Parser

end Scrap
