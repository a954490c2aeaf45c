import Scrap.Proofs.Term.Lexemes
import Scrap.Proofs.Term.Printed

/-! # Reading written terms back

Where the printer leaves parentheses out, the operators of a term bind tighter than their place, and what follows binds
less tightly than its last operator. The rules of `ReadAs` follow the forms of a term, and one rule serves all
operators. -/

namespace Scrap

open List

variable {op : BinaryOp} {b : Binding} {l : Lexeme} {us : List Token}

namespace Parser

open Term

variable {lists : List (List Lexeme)} {cs : List (Term × Term)} {ts : List Token} {m q : Strength} {s : String}
  {p : Strength} {t : Term}

section Steps
variable {t : Token} {g : Nat}

theorem outcome_next : outcome next ⟨t :: ts, g⟩ = (.ok t, ⟨ts, g⟩) := rfl

theorem outcome_peek? : outcome peek? ⟨ts, g⟩ = (.ok ts.head?, ⟨ts, g⟩) := rfl

theorem outcome_peek : outcome peek ⟨t :: ts, g⟩ = (.ok t, ⟨t :: ts, g⟩) := rfl

theorem outcome_extended_operator (ht : t.lexeme = .operator s) (hb : Operator.binding? s = some b)
    (hq : q ≤ b.left) (fuel : Nat) (left : Term) : outcome (extended (fuel + 1) q left) ⟨t :: ts, g⟩ =
      outcome (operation fuel s b.right left >>= extended fuel q) ⟨ts, g⟩ := by
  rw [extended, bind_ok outcome_peek?]
  simp only [head?_cons, Option.map_some, ht, hb, if_neg (Int.not_lt.mpr hq)]
  rw [bind_ok outcome_next]

theorem outcome_extended_operand (hop : t.lexeme.isOperator = false) (q : Strength) (fuel : Nat) (left : Term) :
    outcome (extended (fuel + 1) q left) ⟨t :: ts, g⟩ =
      if t.lexeme.isCloser || Operator.juxtaposition.left < q then (.ok left, ⟨t :: ts, g⟩)
      else outcome (expression fuel Operator.juxtaposition.right >>= fun arg => extended fuel q (.apply 0 left arg))
        ⟨t :: ts, g⟩ := by
  rw [extended, bind_ok outcome_peek?]
  simp only [head?_cons, Option.map_some]
  split
  · contradiction
  · rename_i s hs
    rw [Option.some.inj hs] at hop
    cases hop
  · rename_i l hl
    cases hl
    split <;> rfl

/-- What may follow a term without becoming part of it, if it is read at a strength greater than `m`. -/
inductive Follows (m : Strength) : List Token → Prop
  | nil : Follows m []
  | closer {t : Token} {ts : List Token} (ht : t.lexeme.isCloser = true) : Follows m (t :: ts)
  | operator {t : Token} {ts : List Token} {s : String} {b : Binding} (ht : t.lexeme = .operator s)
    (hb : Operator.binding? s = some b) (hm : b.left ≤ m) : Follows m (t :: ts)
  | operand {t : Token} {ts : List Token} (hop : t.lexeme.isOperator = false) (hm : Operator.juxtaposition.left ≤ m) :
    Follows m (t :: ts)

theorem Follows.mono {n : Strength} (h : Follows m us) (hle : m ≤ n) : Follows n us := by
  cases h with
  | nil => exact .nil
  | closer ht => exact .closer ht
  | operator ht hb hm => exact .operator ht hb (Int.le_trans hm hle)
  | operand hop hm => exact .operand hop (Int.le_trans hm hle)

theorem isOperator_of_isCloser (h : l.isCloser = true) : l.isOperator = false := by
  cases l <;> first | rfl | cases h

theorem outcome_extended_stop (h : Follows m us) (hlt : m < q) (fuel : Nat) (left : Term) :
    outcome (extended (fuel + 1) q left) ⟨us, g⟩ = (.ok left, ⟨us, g⟩) := by
  cases h with
  | nil =>
    rw [extended]
    rfl
  | closer ht => rw [outcome_extended_operand (isOperator_of_isCloser ht), ht, Bool.true_or, if_pos rfl]
  | operator ht hb hm =>
    rw [extended, bind_ok outcome_peek?]
    simp only [head?_cons, Option.map_some, ht, hb, if_pos (Int.lt_of_le_of_lt hm hlt)]
    rfl
  | operand hop hm =>
    rw [outcome_extended_operand hop, decide_eq_true (Int.lt_of_le_of_lt hm hlt), Bool.or_true, if_pos rfl]

end Steps

/-! ### Tokens that are read as a term -/

/-- The tokens are read as `t` where `q` is asked for and what follows binds no tighter than `m`: what is left then is
to extend `t`. -/
def ReadAs (ls : List Lexeme) (t : Term) (q m : Strength) : Prop :=
  ∀ (ts us : List Token) (g fuel : Nat), ts.map Token.lexeme = ls → Follows m us → 6 * ls.length ≤ fuel →
    ∃ fuel', fuel < fuel' + 6 * ls.length ∧
      outcome (expression fuel q) ⟨ts ++ us, g⟩ = outcome (extended fuel' q t) ⟨us, g⟩

section Rules
variable {ls ls' : List Lexeme} {t u : Term} {fuel : Nat} {l' : Lexeme}

theorem ReadAs.returns (h : ReadAs ls t q m) (hlt : m < q) (hts : ts.map Token.lexeme = ls) (hus : Follows m us)
    (hfuel : 6 * ls.length ≤ fuel) (g : Nat) : outcome (expression fuel q) ⟨ts ++ us, g⟩ = (.ok t, ⟨us, g⟩) := by
  obtain ⟨fuel', hlt', hout⟩ := h ts us g fuel hts hus hfuel
  obtain ⟨k, rfl⟩ : ∃ k, fuel' = k + 1 := ⟨fuel' - 1, by omega⟩
  rw [hout, outcome_extended_stop hus hlt]

theorem ReadAs.of_operand (hne : ls ≠ [])
    (h : ∀ (ts us : List Token) (g fuel : Nat), ts.map Token.lexeme = ls → Follows m us → 6 * ls.length ≤ fuel + 2 →
      outcome (operand (fuel + 1)) ⟨ts ++ us, g⟩ = (.ok t, ⟨us, g⟩)) : ReadAs ls t q m := by
  intro ts us g fuel hts hus hfuel
  have hlen : 0 < ls.length := length_pos_iff.mpr hne
  obtain ⟨k, rfl⟩ : ∃ k, fuel = k + 2 := ⟨fuel - 2, by omega⟩
  refine ⟨k + 1, by omega, ?_⟩
  rw [expression, bind_ok (h ts us g k hts hus hfuel)]

theorem ReadAs.operator (hs : Operator.binding? s = some b) (hq : q ≤ b.left) (hm : m < b.right)
    {C : Term → Term} (hform : ∀ fuel p, operation (fuel + 1) s p t = (C <$> expression fuel p))
    (hl : ReadAs ls t q b.left) (hr : ReadAs ls' u b.right m) : ReadAs (ls ++ .operator s :: ls') (C u) q m := by
  intro ts us g fuel hts hus hfuel
  obtain ⟨ts1, ts2, rfl, hts1, hts2⟩ := map_eq_append_iff.mp hts
  obtain ⟨tok, ts3, rfl, htok, hts3⟩ := map_eq_cons_iff.mp hts2
  rw [length_append, length_cons] at hfuel ⊢
  obtain ⟨f1, hf1, hout⟩ := hl ts1 (tok :: ts3 ++ us) g fuel hts1 (.operator htok hs (Int.le_refl _)) (by omega)
  obtain ⟨f, rfl⟩ : ∃ f, f1 = f + 2 := ⟨f1 - 2, by omega⟩
  refine ⟨f + 1, by omega, ?_⟩
  rw [append_assoc, hout, cons_append, outcome_extended_operator htok hs hq, hform]
  have hright := hr.returns hm hts3 hus (show 6 * ls'.length ≤ f by omega) g
  have hop : outcome (C <$> expression f b.right) ⟨ts3 ++ us, g⟩ = (.ok (C u), ⟨us, g⟩) := by
    rw [map_eq_pure_bind, bind_ok hright]
    rfl
  rw [bind_ok hop]

theorem ReadAs.apply (hq : q ≤ Operator.juxtaposition.left) (hm : m < Operator.juxtaposition.right)
    (hopens : Opens (Operator.binding "|").left ls') (hl : ReadAs ls t q Operator.juxtaposition.left)
    (hr : ReadAs ls' u Operator.juxtaposition.right m) : ReadAs (ls ++ ls') (.apply 0 t u) q m := by
  intro ts us g fuel hts hus hfuel
  obtain ⟨ts1, ts2, rfl, hts1, hts2⟩ := map_eq_append_iff.mp hts
  obtain ⟨l, more, rfl, hcl, hop⟩ := hopens
  obtain ⟨tok, ts3, rfl, rfl, -⟩ := map_eq_cons_iff.mp hts2
  have hop : tok.lexeme.isOperator = false := by
    rw [← Bool.not_eq_true]
    exact fun h => Int.lt_irrefl _ (hop h)
  rw [length_append, length_cons] at hfuel ⊢
  obtain ⟨f1, hf1, hout⟩ := hl ts1 (tok :: ts3 ++ us) g fuel hts1 (.operand hop (Int.le_refl _)) (by omega)
  obtain ⟨f, rfl⟩ : ∃ f, f1 = f + 1 := ⟨f1 - 1, by omega⟩
  refine ⟨f, by omega, ?_⟩
  have hright := hr.returns hm hts2 hus (show 6 * _ ≤ f by rw [length_cons]; omega) g
  rw [append_assoc, hout, cons_append, outcome_extended_operand hop, hcl, Bool.false_or,
    decide_eq_false (Int.not_lt.mpr hq), if_neg Bool.false_ne_true]
  rw [cons_append] at hright
  rw [bind_ok hright]

/-! ### Operands -/

theorem readAs_token
    (h : ∀ (tok : Token) (us : List Token) (g fuel : Nat), tok.lexeme = l →
      outcome (operand (fuel + 1)) ⟨tok :: us, g⟩ = (.ok t, ⟨us, g⟩)) : ReadAs [l] t q m := by
  refine .of_operand (cons_ne_nil _ _) fun ts us g fuel hts _ _ => ?_
  obtain ⟨tok, ts, rfl, htok, hnil⟩ := map_eq_cons_iff.mp hts
  cases map_eq_nil_iff.mp hnil
  exact h tok us g fuel htok

theorem readAs_int (n : Int) : ReadAs [.int n] (.int 0 n) q m := by
  refine readAs_token fun tok us g fuel htok => ?_
  rw [operand, bind_ok outcome_next]
  simp only [htok]
  rfl

theorem readAs_string (s : String) : ReadAs [.string s] (.string 0 s) q m := by
  refine readAs_token fun tok us g fuel htok => ?_
  rw [operand, bind_ok outcome_next]
  simp only [htok]
  rfl

theorem readAs_name (x : String) : ReadAs [.name x] (.var 0 x) q m := by
  refine readAs_token fun tok us g fuel htok => ?_
  rw [operand, bind_ok outcome_next]
  simp only [htok]
  rfl

theorem readAs_hole : ReadAs [.leftParen, .rightParen] (.hole 0) q m := by
  refine .of_operand (cons_ne_nil _ _) fun ts us g fuel hts _ hfuel => ?_
  obtain ⟨left, ts, rfl, hleft, hts⟩ := map_eq_cons_iff.mp hts
  obtain ⟨right, ts, rfl, hright, hnil⟩ := map_eq_cons_iff.mp hts
  cases map_eq_nil_iff.mp hnil
  rw [operand, cons_append, bind_ok outcome_next]
  simp only [hleft]
  rw [singleton_append, bind_ok outcome_peek, if_pos hright]
  rfl

theorem readAs_spread (hm : m < Operator.juxtaposition.left) (x : Option String) :
    ReadAs (.operator "..." :: x.toList.map .name) (.spread 0 x) q m := by
  refine .of_operand (cons_ne_nil _ _) fun ts us g fuel hts hus hfuel => ?_
  obtain ⟨dots, ts, rfl, hdots, hts⟩ := map_eq_cons_iff.mp hts
  rw [operand, cons_append, bind_ok outcome_next]
  simp only [hdots]
  rw [bind_ok outcome_peek?]
  cases x with
  | some x =>
    obtain ⟨tok, ts, rfl, htok, hnil⟩ := map_eq_cons_iff.mp hts
    cases map_eq_nil_iff.mp hnil
    simp only [singleton_append, head?_cons, Option.map_some, htok]
    rfl
  | none =>
    cases map_eq_nil_iff.mp hts
    have hname : ∀ x, us.head?.map Token.lexeme ≠ some (.name x) := by
      intro x hx
      cases hus with
      | nil => cases hx
      | closer ht =>
        rw [head?_cons, Option.map_some, Option.some.injEq] at hx
        rw [hx] at ht
        cases ht
      | operator ht hb hm =>
        rw [head?_cons, Option.map_some, ht, Option.some.injEq] at hx
        cases hx
      | operand hop hle => exact Int.lt_irrefl _ (Int.lt_of_le_of_lt hle hm)
    simp only [nil_append]
    rfl

/-- The tokens of a lexeme and of two lists of lexemes. -/
theorem exists_split {ts : List Token} {l : Lexeme} {ls rest : List Lexeme}
    (hts : ts.map Token.lexeme = l :: (ls ++ rest)) : ∃ tok ts1 ts2, ts = tok :: (ts1 ++ ts2) ∧ tok.lexeme = l ∧
      ts1.map Token.lexeme = ls ∧ ts2.map Token.lexeme = rest ∧
      (tok :: (ts1 ++ ts2)).length = ls.length + ts2.length + 1 := by
  obtain ⟨tok, ts, rfl, htok, hts⟩ := map_eq_cons_iff.mp hts
  obtain ⟨ts1, ts2, rfl, rfl, hts2⟩ := map_eq_append_iff.mp hts
  exact ⟨tok, ts1, ts2, rfl, htok, rfl, hts2, by rw [length_cons, length_append, length_map]⟩


theorem exists_brackets (h : ts.map Token.lexeme = l :: (ls ++ [l'])) :
    ∃ left ts' right, ts = left :: (ts' ++ [right]) ∧ left.lexeme = l ∧ ts'.map Token.lexeme = ls ∧ right.lexeme = l' := by
  obtain ⟨left, ts, rfl, hleft, hts⟩ := map_eq_cons_iff.mp h
  obtain ⟨ts', more, rfl, hts', hmore⟩ := map_eq_append_iff.mp hts
  obtain ⟨right, more, rfl, hright, hnil⟩ := map_eq_cons_iff.mp hmore
  cases map_eq_nil_iff.mp hnil
  exact ⟨left, ts', right, rfl, hleft, hts', hright⟩

theorem exists_token_of_opens (h : Opens p ls) (hts : ts.map Token.lexeme = ls) :
    ∃ tok more, ts = tok :: more ∧ tok.lexeme.isCloser = false := by
  obtain ⟨l, more, rfl, hcl, -⟩ := h
  obtain ⟨tok, ts, rfl, rfl, -⟩ := map_eq_cons_iff.mp hts
  exact ⟨tok, ts, rfl, hcl⟩

theorem ne_of_isCloser (h : l.isCloser = false) (h' : l'.isCloser = true) : l ≠ l' := by
  intro heq
  rw [heq, h'] at h
  cases h

theorem readAs_parens (h : ReadAs ls t 0 (-1)) (hopens : Opens p ls) :
    ReadAs (.leftParen :: (ls ++ [.rightParen])) t q m := by
  refine .of_operand (cons_ne_nil _ _) fun ts us g fuel hts _ hfuel => ?_
  obtain ⟨left, ts, right, rfl, hleft, hts, hright⟩ := exists_brackets hts
  rw [length_cons, length_append] at hfuel
  have hinner : outcome (expression fuel 0) ⟨ts ++ right :: us, g⟩ = (.ok t, ⟨right :: us, g⟩) :=
    h.returns (by decide) hts (.closer (by rw [hright]; rfl)) (by omega) g
  obtain ⟨tok, ts, rfl, hcl⟩ := exists_token_of_opens hopens hts
  rw [cons_append] at hinner
  rw [operand, cons_append, bind_ok outcome_next]
  simp only [hleft, append_assoc, nil_append, cons_append]
  rw [bind_ok outcome_peek, if_neg (ne_of_isCloser hcl rfl), bind_ok hinner]
  rfl

/-! ### Lists and records -/

/-- How the entries between two brackets are read: the first one, then one after each comma up to the closing bracket. -/
structure Bracketed (α : Type) where
  opening : Lexeme
  closing : Lexeme
  entry : Term → Parser α
  item : α → Term
  more : Nat → Term → Parser (List α)
  whole : List α → Term
  what : String
  isCloser_closing : closing.isCloser = true
  more_succ : ∀ fuel last, more (fuel + 1) last = next >>= fun c =>
    if c.lexeme = closing then pure [] else if isSpread last then throw (.spreadBeforeEnd what) else
      expression fuel entryStrength >>= fun t => entry t >>= fun e => more fuel (item e) >>= fun es => pure (e :: es)
  operand_succ : ∀ (fuel : Nat) (tok : Token) (us : List Token) (g : Nat), tok.lexeme = opening →
    outcome (operand (fuel + 1)) ⟨tok :: us, g⟩ = outcome (peek >>= fun c =>
      if c.lexeme = closing then next >>= fun _ => pure (whole []) else
        expression fuel entryStrength >>= fun t => entry t >>= fun e => more fuel (item e) >>= fun es =>
          pure (whole (e :: es))) ⟨us, g⟩

def listEntries : Bracketed Term where
  opening := .leftBracket
  closing := .rightBracket
  entry := pure
  item := id
  more := moreItems
  whole := .list 0
  what := "list"
  isCloser_closing := rfl
  more_succ fuel last := by rw [moreItems]; rfl
  operand_succ fuel tok us g h := by
    rw [operand, bind_ok outcome_next]
    simp only [h]
    rfl

def recordEntries : Bracketed (String × Term) where
  opening := .leftBrace
  closing := .rightBrace
  entry := entryOf
  item := Prod.snd
  more := moreFields
  whole es := .record 0 (Dict.ofEntries es)
  what := "record"
  isCloser_closing := rfl
  more_succ fuel last := by rw [moreFields]; rfl
  operand_succ fuel tok us g h := by
    rw [operand, bind_ok outcome_next]
    simp only [h]
    rfl

section Entries
variable {α : Type} (B : Bracketed α)

def Bracketed.Reads (ls : List Lexeme) (e : α) : Prop :=
  (∃ p, Opens p ls) ∧ ∃ t, ReadAs ls t entryStrength (Operator.binding ",").left ∧ B.entry t = pure e

variable {B} {es : List α}

theorem Bracketed.follows (hts : ts.map Token.lexeme = lists.flatMap ([.operator ","] ++ ·) ++ [B.closing])
    (us : List Token) : Follows (Operator.binding ",").left (ts ++ us) := by
  cases lists with
  | nil =>
    obtain ⟨tok, ts, rfl, htok, -⟩ := map_eq_cons_iff.mp hts
    exact .closer (by rw [htok, B.isCloser_closing])
  | cons ls lists =>
    obtain ⟨tok, ts, rfl, htok, -⟩ := map_eq_cons_iff.mp hts
    exact .operator htok rfl (by decide)

theorem Bracketed.outcome_more (h : Forall₂ B.Reads lists es) {last : Term}
    (hspread : ∀ u ∈ (last :: es.map B.item).dropLast, isSpread u = false)
    (hts : ts.map Token.lexeme = lists.flatMap ([.operator ","] ++ ·) ++ [B.closing]) (g : Nat)
    (hfuel : 6 * ts.length ≤ fuel) : outcome (B.more fuel last) ⟨ts ++ us, g⟩ = (.ok es, ⟨us, g⟩) := by
  induction h generalizing last ts fuel with
  | nil =>
    obtain ⟨tok, ts, rfl, htok, hnil⟩ := map_eq_cons_iff.mp hts
    cases map_eq_nil_iff.mp hnil
    rw [length_singleton] at hfuel
    obtain ⟨fuel, rfl⟩ : ∃ k, fuel = k + 1 := ⟨fuel - 1, by omega⟩
    rw [B.more_succ, singleton_append, bind_ok outcome_next, if_pos htok]
    rfl
  | @cons ls e lists es hfirst htail ih =>
    obtain ⟨-, t, ht, he⟩ := hfirst
    rw [flatMap_cons, append_assoc, append_assoc, singleton_append] at hts
    obtain ⟨comma, ts1, ts2, rfl, hcomma, hts1, hts2, hlen⟩ := exists_split hts
    have hlast : isSpread last = false := hspread last (by simp)
    have hspread' : ∀ u ∈ (B.item e :: es.map B.item).dropLast, isSpread u = false := fun u hu =>
      hspread u (.tail _ hu)
    obtain ⟨fuel, rfl⟩ : ∃ k, fuel = k + 1 := ⟨fuel - 1, by omega⟩
    have hne : comma.lexeme ≠ B.closing := ne_of_isCloser (by rw [hcomma]; rfl) B.isCloser_closing
    have hexpr := ht.returns (by decide) hts1 (B.follows hts2 us) (show 6 * ls.length ≤ fuel by omega) g
    have hrest := ih hspread' hts2 (show 6 * ts2.length ≤ fuel by omega)
    rw [B.more_succ, cons_append, bind_ok outcome_next, if_neg hne, hlast, if_neg Bool.false_ne_true,
      append_assoc, bind_ok hexpr, he, pure_bind, bind_ok hrest]
    rfl

theorem intercalate_cons (sep l : List Lexeme) (lists : List (List Lexeme)) :
    List.intercalate sep (l :: lists) = l ++ lists.flatMap (sep ++ ·) := by
  induction lists generalizing l with
  | nil => rw [intercalate_singleton, flatMap_nil, append_nil]
  | cons l' lists ih => rw [intercalate_cons_cons, ih, flatMap_cons, append_assoc, append_assoc]

theorem Bracketed.readAs (h : Forall₂ B.Reads lists es)
    (hspread : ∀ u ∈ (es.map B.item).dropLast, isSpread u = false) :
    ReadAs (B.opening :: (List.intercalate [.operator ","] lists ++ [B.closing])) (B.whole es) q m := by
  refine .of_operand (cons_ne_nil _ _) fun ts us g fuel hts _ hfuel => ?_
  cases h with
  | nil =>
    obtain ⟨left, ts, right, rfl, hleft, hnil, hright⟩ := exists_brackets hts
    cases map_eq_nil_iff.mp hnil
    rw [nil_append, cons_append, B.operand_succ _ _ _ _ hleft, singleton_append,
      bind_ok outcome_peek, if_pos hright]
    rfl
  | @cons ls e lists es hfirst htail =>
    obtain ⟨⟨p, hls⟩, t, ht, he⟩ := hfirst
    rw [← hts, length_map] at hfuel
    rw [intercalate_cons, append_assoc] at hts
    obtain ⟨left, ts1, ts2, rfl, hleft, hts1, hts2, hlen⟩ := exists_split hts
    have hexpr := ht.returns (by decide) hts1 (B.follows hts2 us) (show 6 * ls.length ≤ fuel by omega) g
    have hmore : outcome (B.more fuel (B.item e)) ⟨ts2 ++ us, g⟩ = (.ok es, ⟨us, g⟩) :=
      B.outcome_more htail hspread hts2 g (by omega)
    obtain ⟨tok, ts1, rfl, hcl⟩ := exists_token_of_opens hls hts1
    rw [cons_append] at hexpr
    rw [cons_append, B.operand_succ _ _ _ _ hleft, append_assoc, cons_append,
      bind_ok outcome_peek, if_neg (ne_of_isCloser hcl B.isCloser_closing), bind_ok hexpr, he, pure_bind,
      bind_ok hmore]
    rfl

end Entries

/-! ### Match functions -/

/-- The tokens of a case: a bar, and what is read as a function. -/
def CaseReads (ls : List Lexeme) (c : Term × Term) : Prop :=
  ∃ ls', ls = .operator "|" :: ls' ∧ ReadAs ls' (.function 0 c.1 c.2) caseStrength (Operator.binding "|").left

theorem follows_cases (h : Forall₂ CaseReads lists cs) (hts : ts.map Token.lexeme = lists.flatten)
    (hus : Follows m us) (hm : m < (Operator.binding "|").left) : Follows (Operator.binding "|").left (ts ++ us) := by
  cases h with
  | nil =>
    cases map_eq_nil_iff.mp hts
    exact hus.mono (Int.le_of_lt hm)
  | cons hfirst _ =>
    obtain ⟨ls', rfl, -⟩ := hfirst
    obtain ⟨tok, ts, rfl, htok, -⟩ := map_eq_cons_iff.mp hts
    exact .operator htok rfl (Int.le_refl _)

theorem Follows.ne_bar (h : Follows m us) (hm : m < (Operator.binding "|").left) :
    us.head?.map Token.lexeme ≠ some (.operator "|") := by
  intro hbar
  cases h with
  | nil => cases hbar
  | closer ht | operand ht =>
    rw [head?_cons, Option.map_some, Option.some.injEq] at hbar
    rw [hbar] at ht
    cases ht
  | operator ht hb hle =>
    rw [head?_cons, Option.map_some, Option.some.injEq] at hbar
    rw [hbar] at ht
    cases ht
    cases hb
    exact Int.lt_irrefl _ (Int.lt_of_le_of_lt hle hm)

theorem outcome_moreCases (h : Forall₂ CaseReads lists cs)
    (hts : ts.map Token.lexeme = lists.flatten) (hus : Follows m us) (hm : m < (Operator.binding "|").left) (g : Nat)
    (hfuel : 6 * ts.length < fuel) : outcome (moreCases fuel) ⟨ts ++ us, g⟩ = (.ok cs, ⟨us, g⟩) := by
  induction h generalizing ts fuel with
  | nil =>
    cases map_eq_nil_iff.mp hts
    obtain ⟨fuel, rfl⟩ : ∃ k, fuel = k + 1 := ⟨fuel - 1, by omega⟩
    rw [moreCases, bind_ok outcome_peek?, nil_append]
    split
    · rename_i hbar
      exact absurd hbar (hus.ne_bar hm)
    · rfl
  | @cons ls c lists cs hfirst htail ih =>
    obtain ⟨ls', rfl, hread⟩ := hfirst
    obtain ⟨bar, ts1, ts2, rfl, hbar, hts1, hts2, hlen⟩ := exists_split hts
    obtain ⟨fuel, rfl⟩ : ∃ k, fuel = k + 1 := ⟨fuel - 1, by omega⟩
    have hexpr := hread.returns (by decide) hts1 (follows_cases htail hts2 hus hm) (show 6 * ls'.length ≤ fuel by omega) g
    have hrest := ih hts2 (show 6 * ts2.length < fuel by omega)
    rw [moreCases, cons_append, bind_ok outcome_peek?]
    simp only [head?_cons, Option.map_some, hbar]
    rw [bind_ok outcome_next, append_assoc, bind_ok hexpr]
    show outcome (pure c >>= _) _ = _
    rw [pure_bind, bind_ok hrest]
    rfl

theorem readAs_matchFunction (h : Forall₂ CaseReads lists cs) (hne : cs ≠ [])
    (hm : m < (Operator.binding "|").left) : ReadAs lists.flatten (.matchFunction 0 cs) q m := by
  cases h with
  | nil => exact absurd rfl hne
  | @cons ls c lists cs hfirst htail =>
    obtain ⟨ls', rfl, hread⟩ := hfirst
    refine .of_operand (cons_ne_nil _ _) fun ts us g fuel hts hus hfuel => ?_
    rw [← hts, length_map] at hfuel
    obtain ⟨bar, ts1, ts2, rfl, hbar, hts1, hts2, hlen⟩ := exists_split hts
    have hexpr := hread.returns (by decide) hts1 (follows_cases htail hts2 hus hm) (show 6 * ls'.length ≤ fuel by omega) g
    have hrest := outcome_moreCases htail hts2 hus hm g (show 6 * ts2.length < fuel by omega)
    rw [operand, cons_append, bind_ok outcome_next]
    simp only [hbar]
    rw [append_assoc, bind_ok hexpr]
    show outcome (pure c >>= _) _ = _
    rw [pure_bind, bind_ok hrest]
    rfl

theorem readAs_parenthesized {edge place : Strength} (hleft : 0 ≤ b.left) (hedge : 0 ≤ edge)
    (hopens : Opens p ls) (h : ∀ q m, q ≤ b.left → m < edge → ReadAs ls t q m)
    (hplace : place < b.left → q ≤ b.left ∧ m < edge) : ReadAs (parenthesized b place ls) t q m := by
  unfold parenthesized
  split
  · exact readAs_parens (h 0 (-1) hleft (Int.lt_of_lt_of_le (by decide) hedge)) hopens
  · rename_i hle
    obtain ⟨hq, hm⟩ := hplace (Int.not_le.mp hle)
    exact h q m hq hm

end Rules

/-! ### Strengths -/

/-- The strengths with which an operation is written. A match function takes no further case after it. -/
def binding? : Term → Option Binding
  | .assign _ _ _ => some (Operator.binding "=")
  | .binop _ op _ _ => some (Operator.binding op.symbol)
  | .function _ _ _ => some (Operator.binding "->")
  | .matchFunction _ _ => some (.even (Operator.binding "|").left)
  | .scope _ _ _ => some (Operator.binding ".")
  | .apply _ _ _ => some Operator.juxtaposition
  | .access _ _ _ => some (Operator.binding "@")
  | _ => none

/-- Strengths are five apart, and the two of an operator at most one. -/
def Regular (b : Binding) : Prop := 30 ≤ b.left ∧ b.left % 5 = 0 ∧ b.left ≤ b.right + 1

instance (b : Binding) : Decidable (Regular b) := inferInstanceAs (Decidable (_ ∧ _))

theorem Regular.nonneg (h : Regular b) : 0 ≤ b.left ∧ 0 ≤ b.right := by
  obtain ⟨hleft, -, hright⟩ := h
  constructor <;> lia

theorem regular_symbol (h : op.isWritten = true) : Regular (Operator.binding op.symbol) := by
  cases op <;> first | (cases h; done) | decide

/-- A term without parentheses at `place` is read as a whole where `q` is asked for, before what binds no tighter than
`m`. -/
def Fits (t : Term) (place q m : Strength) : Prop :=
  ∀ b, binding? t = some b → place < b.left → q ≤ b.left ∧ m < b.right

section Fits
variable (ht : t.isWritable = true)
include ht

theorem regular_of_binding? (hb : binding? t = some b) : Regular b := by
  cases t with
  | binop i op l r =>
    simp only [isWritable, Bool.and_eq_true] at ht
    cases hb
    exact regular_symbol ht.1.1
  | _ => cases hb <;> decide

theorem fits_left (hb : Regular b) (hq : q ≤ b.left) : Fits t b.left q b.left := by
  intro c hc hlt
  obtain ⟨-, hmod, hright⟩ := regular_of_binding? ht hc
  obtain ⟨-, hmod', -⟩ := hb
  constructor <;> lia

theorem fits_right (hm : m < p) : Fits t p p m := by
  intro c hc hlt
  obtain ⟨-, -, hright⟩ := regular_of_binding? ht hc
  constructor <;> lia

theorem fits_field (hloose : t.isLoose = false) :
    Fits t 0 (Operator.binding "=").right (Operator.binding ",").left := by
  intro b hb _
  cases t with
  | binop i op l r =>
    simp only [isWritable, Bool.and_eq_true] at ht
    cases hb
    cases op <;> first | (cases ht.1.1; done) | (cases hloose; done) | decide
  | _ => cases hb <;> first | (cases hloose; done) | decide

theorem fits_item : Fits t 0 entryStrength (Operator.binding ",").left := by
  intro b hb _
  obtain ⟨hleft, -, hright⟩ := regular_of_binding? ht hb
  have h1 : entryStrength = 20 := rfl
  have h2 : (Operator.binding ",").left = 10 := rfl
  constructor <;> lia

theorem fits_whole : Fits t 0 0 (-1) := by
  intro b hb _
  have hb := (regular_of_binding? ht hb).nonneg
  constructor <;> lia

theorem fits_body :
    Fits t (Operator.binding "|").right (Operator.binding "->").right (Operator.binding "|").left := by
  intro b hb hlt
  obtain ⟨-, hmod, hright⟩ := regular_of_binding? ht hb
  have h1 : (Operator.binding "|").right = 46 := rfl
  have h2 : (Operator.binding "->").right = 49 := rfl
  have h3 : (Operator.binding "|").left = 45 := rfl
  constructor <;> lia

theorem isSpread_bare : isSpread t.bare = false := by
  cases t <;> first | rfl | cases ht

end Fits

/-! ### Every term is read back -/

section Forms
variable (fuel : Nat) (p : Strength)

theorem operation_assign (i : Nat) (x : String) :
    operation (fuel + 1) "=" p (.var i x) = Term.assign 0 x <$> expression fuel p := by
  rw [operation, map_eq_pure_bind]

theorem operation_function (t : Term) : operation (fuel + 1) "->" p t = Term.function 0 t <$> expression fuel p := by
  rw [operation, map_eq_pure_bind]

theorem operation_symbol (h : op.isWritten = true) (t : Term) :
    operation (fuel + 1) op.symbol p t = Term.binop 0 op t <$> expression fuel p := by
  have hne : ∀ s ∈ ["=", "->", "|>", "<|", ">>", "<<", ".", "?", "@"], op.symbol ≠ s := by
    cases op <;> first | (cases h; done) | decide
  rw [operation, BinaryOp.ofSymbol?_symbol h, map_eq_pure_bind]
  all_goals exact hne _ (by decide)

end Forms

theorem binding?_symbol (h : op.isWritten = true) :
    Operator.binding? op.symbol = some (Operator.binding op.symbol) := by
  cases op <;> first | (cases h; done) | rfl

theorem fits_pattern (ht : t.isClosed = true) (place q m : Strength) : Fits t place q m := by
  intro b hb
  cases t <;> first | (cases hb; done) | cases ht

theorem isSpread_items {ts : List Term} (ht : areItems ts = true) :
    ∀ u ∈ ((bareAll ts).map listEntries.item).dropLast, isSpread u = false := by
  induction ts with
  | nil => exact fun _ hu => by cases hu
  | cons t ts ih =>
    rw [bareAll, map_cons]
    by_cases hspread : ∃ i x, t = .spread i x
    · obtain ⟨i, x, rfl⟩ := hspread
      rw [areItems, Bool.and_eq_true, List.isEmpty_iff] at ht
      rw [ht.2]
      exact fun _ hu => by cases hu
    · rw [areItems, Bool.and_eq_true] at ht
      · cases ts with
        | nil => exact fun _ hu => by cases hu
        | cons t' ts =>
          intro u hu
          rcases mem_cons.mp hu with rfl | hu
          · exact isSpread_bare ht.1
          · exact ih ht.2 u hu
      · exact fun i x heq => hspread ⟨i, x, heq⟩

theorem isSpread_fields {fs : List (String × Term)} (hf : areFields fs = true) :
    ∀ u ∈ ((bareFields fs).map recordEntries.item).dropLast, isSpread u = false := by
  intro u hu
  replace hu := dropLast_subset _ hu
  induction fs with
  | nil => cases hu
  | cons f fs ih =>
    obtain ⟨k, t⟩ := f
    simp only [areFields, Bool.and_eq_true] at hf
    rw [bareFields, map_cons] at hu
    rcases mem_cons.mp hu with rfl | hu
    · exact isSpread_bare hf.1.1.2
    · exact ih hf.2 hu

theorem ofEntries_bareFields {fs : Dict Term} (h : fs.Proper) : Dict.ofEntries (bareFields fs) = bareFields fs := by
  refine Dict.ofEntries_of_proper ?_
  rw [Dict.Proper, bareFields_eq_mapValues, Dict.mapValues_keys]
  exact h

theorem bareCases_ne_nil (h : (!cs.isEmpty) = true) : bareCases cs ≠ [] := by
  cases cs with
  | nil => cases h
  | cons c cs => exact cons_ne_nil _ _

theorem opens_cases (h : (!cs.isEmpty) = true) : Opens 0 (caseLexemes cs).flatten := by
  cases cs with
  | nil => cases h
  | cons c cs => exact ⟨.operator "|", _, rfl, rfl, fun _ => by decide⟩

mutual

theorem readAs_lexemes (t : Term) (ht : t.isWritable = true) (place q m : Strength) (hfits : Fits t place q m) :
    ReadAs (lexemes t place) t.bare q m := by
  cases t with
  | int i n =>
    rw [lexemes, bare]
    exact readAs_int n
  | string i s =>
    rw [lexemes, bare]
    exact readAs_string s
  | var i x =>
    rw [lexemes, bare]
    exact readAs_name x
  | hole i =>
    rw [lexemes, bare]
    exact readAs_hole
  | list i items =>
    rw [lexemes, bare]
    exact listEntries.readAs (readAs_items items ht) (isSpread_items ht)
  | record i fields =>
    rw [isWritable, Bool.and_eq_true, decide_eq_true_eq] at ht
    rw [lexemes, bare, ← ofEntries_bareFields ht.1]
    exact recordEntries.readAs (readAs_fields fields ht.2) (isSpread_fields ht.2)
  | assign i x v =>
    rw [isWritable, Bool.and_eq_true] at ht
    rw [lexemes, bare]
    refine readAs_parenthesized (by decide) (by decide) (p := place) (opens_atom rfl rfl _) (fun q m hq hm => ?_)
      (hfits _ rfl)
    exact .operator rfl hq hm (fun fuel p => operation_assign fuel p 0 x) (readAs_name x)
      (readAs_lexemes v ht.2 _ _ _ (fits_right ht.2 hm))
  | function i p b =>
    cases p <;> simp only [isWritable, Bool.false_eq_true, Bool.and_eq_true] at ht
    rename_i j x
    rw [lexemes, bare, bare]
    refine readAs_parenthesized (by decide) (by decide) (p := place) (opens_atom rfl rfl _) (fun q m hq hm => ?_)
      (hfits _ rfl)
    exact .operator rfl hq hm (fun fuel p => operation_function fuel p (.var 0 x)) (readAs_name x)
      (readAs_lexemes b ht.2 _ _ _ (fits_right ht.2 hm))
  | binop i op l r =>
    simp only [isWritable, Bool.and_eq_true] at ht
    have hb := regular_symbol ht.1.1
    rw [lexemes, bare]
    refine readAs_parenthesized hb.nonneg.1 hb.nonneg.2 ((opens_lexemes l ht.1.2 _).append _) (fun q m hq hm => ?_)
      (hfits _ rfl)
    exact .operator (binding?_symbol ht.1.1) hq hm (fun fuel p => operation_symbol fuel p ht.1.1 l.bare)
      (readAs_lexemes l ht.1.2 _ _ _ (fits_left ht.1.2 hb hq)) (readAs_lexemes r ht.2 _ _ _ (fits_right ht.2 hm))
  | scope i l r | access i l r =>
    rw [isWritable, Bool.and_eq_true] at ht
    rw [lexemes, bare]
    refine readAs_parenthesized (by decide) (by decide) ((opens_lexemes l ht.1 _).append _) (fun q m hq hm => ?_) (hfits _ rfl)
    exact .operator rfl hq hm (fun _ _ => by rw [operation, map_eq_pure_bind])
      (readAs_lexemes l ht.1 _ _ _ (fits_left ht.1 (by decide) hq)) (readAs_lexemes r ht.2 _ _ _ (fits_right ht.2 hm))
  | apply i l r =>
    rw [isWritable, Bool.and_eq_true] at ht
    rw [lexemes, bare]
    refine readAs_parenthesized (by decide) (by decide) ((opens_lexemes l ht.1 _).append _) (fun q m hq hm => ?_) (hfits _ rfl)
    exact .apply hq hm ((opens_lexemes r ht.2 _).mono (by decide))
      (readAs_lexemes l ht.1 _ _ _ (fits_left ht.1 (by decide) hq)) (readAs_lexemes r ht.2 _ _ _ (fits_right ht.2 hm))
  | matchFunction i cases =>
    rw [isWritable, Bool.and_eq_true] at ht
    rw [lexemes, bare]
    refine readAs_parenthesized (by decide) (by decide) (opens_cases ht.1) (fun q m _ hm => ?_)
      (hfits (.even (Operator.binding "|").left) rfl)
    exact readAs_matchFunction (readAs_cases cases ht.2) (bareCases_ne_nil ht.1) hm
  | _ => cases ht
termination_by structural t

theorem readAs_items (ts : List Term) (ht : areItems ts = true) :
    Forall₂ listEntries.Reads (itemLexemes ts) (bareAll ts) := by
  cases ts with
  | nil => exact .nil
  | cons t ts =>
    rw [itemLexemes, bareAll]
    by_cases hspread : ∃ i x, t = .spread i x
    · obtain ⟨i, x, rfl⟩ := hspread
      rw [areItems, Bool.and_eq_true, List.isEmpty_iff] at ht
      obtain ⟨hx, rfl⟩ := ht
      rw [lexemes, bare]
      exact .cons ⟨⟨0, .operator "...", _, rfl, rfl, fun _ => by decide⟩, _, readAs_spread (by decide) x, rfl⟩ .nil
    · rw [areItems, Bool.and_eq_true] at ht
      · exact .cons ⟨⟨0, opens_lexemes t ht.1 0⟩, _, readAs_lexemes t ht.1 _ _ _ (fits_item ht.1), rfl⟩
          (readAs_items ts ht.2)
      · exact fun i x heq => hspread ⟨i, x, heq⟩
termination_by structural ts

theorem readAs_fields (fs : List (String × Term)) (hf : areFields fs = true) :
    Forall₂ recordEntries.Reads (fieldLexemes fs) (bareFields fs) := by
  cases fs with
  | nil => exact .nil
  | cons f fs =>
    obtain ⟨k, t⟩ := f
    simp only [areFields, Bool.and_eq_true, Bool.not_eq_true'] at hf
    obtain ⟨⟨⟨-, ht⟩, hloose⟩, hfs⟩ := hf
    rw [fieldLexemes, bareFields]
    refine .cons ⟨⟨0, opens_atom rfl rfl _⟩, .assign 0 k t.bare, ?_, rfl⟩ (readAs_fields fs hfs)
    exact .operator rfl (by decide) (by decide) (fun fuel p => operation_assign fuel p 0 k) (readAs_name k)
      (readAs_lexemes t ht _ _ _ (fits_field ht hloose))
termination_by structural fs

theorem readAs_cases (cs : List (Term × Term)) (hc : areCases cs = true) :
    Forall₂ CaseReads (caseLexemes cs) (bareCases cs) := by
  cases cs with
  | nil => exact .nil
  | cons c cs =>
    obtain ⟨p, b⟩ := c
    simp only [areCases, Bool.and_eq_true] at hc
    obtain ⟨⟨⟨hp, hclosed⟩, hb⟩, hcs⟩ := hc
    rw [caseLexemes, bareCases]
    refine .cons ⟨_, rfl, ?_⟩ (readAs_cases cs hcs)
    exact .operator rfl (by decide) (by decide) (fun fuel s => operation_function fuel s p.bare)
      (readAs_lexemes p hp _ _ _ (fits_pattern hclosed _ _ _)) (readAs_lexemes b hb _ _ _ (fits_body hb))
termination_by structural cs

end

end Parser

/-- A written term is read back: printing it gives a text whose tokens make the term again, all of them, and the term
read is equal to the one printed. -/
theorem Term.parse_tokenize_pretty (h : Heap) {e : Term} (hw : e.isWritable = true) (hc : e.Coherent) (g : Nat) :
    ∃ text tokens t, e.pretty h = .ok text ∧ tokenize text = .ok tokens ∧
      Reader.parse { tokens := tokens, generated := g } = (.ok t, { tokens := [], generated := g }) ∧
      t.equal h e = true ∧ e.equal h t = true := by
  obtain ⟨tokens, htokens, hmap⟩ := tokenize_of_scans (Scanner.scans_written e hw 0)
  obtain ⟨envs, far, heq⟩ := equal_eq_equalWith h
  refine ⟨written e 0, tokens, e.bare, pretty_eq_written hc hw, htokens, ?_, ?_, ?_⟩
  · have hlen := congrArg List.length hmap
    rw [length_map] at hlen
    have hread := Parser.readAs_lexemes e hw 0 0 (-1) (Parser.fits_whole hw)
    have hparse := hread.returns (by decide) hmap .nil (show 6 * _ ≤ 6 * tokens.length + 6 by omega) g
    rwa [append_nil] at hparse
  · rw [heq]
    exact equalWith_of_bare_eq h envs far _ _ (isPart_of_isWritable (isWritable_bare e hw)) (bare_bare e)
  · rw [heq]
    exact equalWith_of_bare_eq h envs far _ _ (isPart_of_isWritable hw) (bare_bare e).symm

/-- The length of a list in a program with most forms of terms: a scope, definitions, an application, a match function
with list patterns, a record, an access and operators that need parentheses. -/
def Term.lengthProgram : Term :=
  .scope 0
    (.apply 0 (.var 0 "f") (.access 0 (.record 0 [("items", .list 0 [.int 0 1, .hole 0, .string 0 "a b"]),
      ("rest", .function 0 (.var 0 "x") (.binop 0 .mul (.binop 0 .add (.var 0 "x") (.int 0 2)) (.int 0 3)))])
      (.var 0 "items")))
    (.assign 0 "f" (.matchFunction 0
      [(.list 0 [], .int 0 0),
       (.list 0 [.var 0 "x", .spread 0 (some "xs")], .binop 0 .add (.int 0 1) (.apply 0 (.var 0 "f") (.var 0 "xs")))]))

theorem Term.lengthProgram_read_back :
    ∃ text tokens t, lengthProgram.pretty {} = .ok text ∧ tokenize text = .ok tokens ∧
      Reader.parse { tokens := tokens, generated := 0 } = (.ok t, { tokens := [], generated := 0 }) ∧
      t.equal {} lengthProgram = true ∧ lengthProgram.equal {} t = true :=
  have hw : lengthProgram.isWritable = true := by decide +kernel
  parse_tokenize_pretty {} hw (coherent_of_unplaced fun _ hu => hu.unplaced (isPart_of_isWritable hw)) 0

theorem Term.pretty_tooManyDigits (h : Heap) (i : Nat) {n : Int} (hn : Nat.pow 10 Text.maxDigits ≤ n.natAbs) :
    (Term.int i n).pretty h = .error .tooManyDigits := by
  have hnone : Text.intText? n = none := by rw [Text.intText?, if_pos hn]
  have hbody : ∀ seen, outcome (Printer.integer n) seen = (.error .tooManyDigits, seen) := by
    intro seen
    unfold Printer.integer
    simp only [hnone]
    rfl
  have hprint : outcome (Printer.printWith h (Printer.printWithin h h.knots.length) (.int i n) 0) [] =
      (.error .tooManyDigits, [.int i n]) := by
    rw [Printer.printWith, Printer.outcome_inside, hbody]
    rfl
  exact congrArg Prod.fst hprint

theorem Term.powerOfTen_not_printed :
    (Term.int 0 (Nat.pow 10 Text.maxDigits : Nat)).pretty {} = .error .tooManyDigits :=
  pretty_tooManyDigits {} 0 (Nat.le_of_eq (Int.natAbs_natCast _).symm)

end Scrap
