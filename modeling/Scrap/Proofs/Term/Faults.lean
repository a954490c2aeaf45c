import Scrap.Proofs.Term.Bars
import Scrap.Proofs.Token.Faults

/-! # Programs that fail other than by their form

A text that is no program is reported as such, except for numerals without a value, bytes that cannot be decoded, a
minus before a negative number, and five operators without a meaning between operands. Each such failure is traced to
its place: the tokens before it bring the parser to an expression of a certain strength (`Reached`). -/

namespace Scrap

open List

variable {b : Binding} {l : Lexeme} {rest : List Lexeme} {s : String} {left t : Term} {P : Punctuation}
  {us : List Lexeme} {i : Nat} {t : Term} {e : String × Term} {text : String} {ts : List Token}

def Operator.unread : List String := ["::", ">*", "|", ",", "..."]

/-- A literal below zero, or one that is not a number. -/
def Term.isNegative : Term → Bool
  | .int _ n => n < 0
  | .float _ x => x.isNaN || (x.negative && !x.isZero)
  | _ => false

/-! ### Entries that are read one after the other -/

theorem CasePhrases.concat {ls : List Lexeme} {cs : List (Term × Term)} {a b : Term}
    (h : Phrase P us (.function i a b)) : CasePhrases P ls cs →
      CasePhrases P (ls ++ .operator "|" :: us) (cs ++ [(a, b)])
  | .nil => by simpa using CasePhrases.cons h .nil
  | .cons hc hcs => by simpa using CasePhrases.cons hc (hcs.concat h)

theorem ItemPhrases.concat {ls : List Lexeme} {ts : List Term} (hl : P.separates .rightBracket l)
    (h : Phrase P us t) : ItemPhrases P ls ts →
      ItemPhrases P (ls ++ l :: us) (ts ++ [t])
  | .nil => by simpa using ItemPhrases.cons hl h .nil
  | .cons hs ht hts => by simpa using ItemPhrases.cons hs ht (hts.concat hl h)

theorem FieldPhrases.concat {ls : List Lexeme} {es : List (String × Term)} {l : Lexeme}
    (hl : P.separates .rightBrace l) (h : Phrase P us t) (he : Parser.entryOf t = pure e) :
    FieldPhrases P ls es → FieldPhrases P (ls ++ l :: us) (es ++ [e])
  | .nil => by simpa using FieldPhrases.cons hl h he .nil
  | .cons hs ht he' hes => by simpa using FieldPhrases.cons hs ht he' (hes.concat hl h he)

namespace Parser

variable {ls : List Lexeme} {r1 : Reader}

/-- Reading the tokens `ls`, the parser comes to the last ones of them and reads an expression of the given strength
there. -/
inductive Reached (ls : List Lexeme) : List Lexeme → Strength → Prop
  | start : Reached ls ls 0
  | paren {ws : List Lexeme} {p : Strength} : Reached ls (.leftParen :: ws) p → Reached ls ws 0
  | firstItem {ws : List Lexeme} {p : Strength} : Reached ls (.leftBracket :: ws) p → Reached ls ws entryStrength
  | nextItem {us vs ws : List Lexeme} {l : Lexeme} {t : Term} {ts : List Term} {p : Strength} :
      Reached ls (.leftBracket :: (us ++ (vs ++ l :: ws))) p → Phrase .lax us t → ItemPhrases .lax vs ts →
      Punctuation.lax.separates .rightBracket l → Reached ls ws entryStrength
  | firstField {ws : List Lexeme} {p : Strength} : Reached ls (.leftBrace :: ws) p → Reached ls ws entryStrength
  | nextField {us vs ws : List Lexeme} {l : Lexeme} {t : Term} {e : String × Term} {es : List (String × Term)}
      {p : Strength} : Reached ls (.leftBrace :: (us ++ (vs ++ l :: ws))) p → Phrase .lax us t → entryOf t = pure e →
      FieldPhrases .lax vs es → Punctuation.lax.separates .rightBrace l → Reached ls ws entryStrength
  | firstCase {ws : List Lexeme} {p : Strength} : Reached ls (.operator "|" :: ws) p → Reached ls ws caseStrength
  | nextCase {us vs ws : List Lexeme} {i : Nat} {a b : Term} {cs : List (Term × Term)} {p : Strength} :
      Reached ls (.operator "|" :: (us ++ (vs ++ .operator "|" :: ws))) p → Phrase .lax us (.function i a b) →
      CasePhrases .lax vs cs → Reached ls ws caseStrength
  | variant {x : String} {ws : List Lexeme} {p : Strength} : Reached ls (.hash :: .name x :: ws) p →
      Reached ls ws variantStrength
  | minus {ws : List Lexeme} {p : Strength} : Reached ls (.operator "-" :: ws) p →
      Reached ls ws (Operator.highest + 10)
  | right {us ws : List Lexeme} {s : String} {b : Binding} {l r t : Term} {p : Strength} :
      Reached ls (us ++ .operator s :: ws) p → Phrase .lax us l → Operator.binding? s = some b → p ≤ b.left →
      Combined s l r t → Reached ls ws b.right
  | argument {us ws : List Lexeme} {l : Lexeme} {t : Term} {p : Strength} : Reached ls (us ++ l :: ws) p →
      Phrase .lax us t → l.isOperator = false → l.isCloser = false → p ≤ Operator.juxtaposition.left →
      Reached ls (l :: ws) Operator.juxtaposition.right

/-- A failure of the parser that does not lie in the form of the tokens `ls`, and the place of its cause. -/
inductive Fault (ls : List Lexeme) : ParseError → Prop
  | operator {us ws : List Lexeme} {s : String} {b : Binding} {t : Term} {p : Strength} :
      Reached ls (us ++ .operator s :: ws) p → Phrase .lax us t → s ∈ Operator.unread →
      Operator.binding? s = some b → p ≤ b.left → (s = "|" → barred [] us = false) → Fault ls (.unknownOperator s)
  | minus {us ws : List Lexeme} {t : Term} {p : Strength} : Reached ls (.operator "-" :: (us ++ ws)) p →
      Phrase .lax us t → t.isNegative = true → Fault ls .negativeLiteral
  | bytes {ws : List Lexeme} {text : String} {base : Int} {cause : Text.ArmorError} {p : Strength} :
      Reached ls (.bytes text base :: ws) p → Text.unarmor? base text = some (.error cause) →
      Fault ls (.badBytes cause)

theorem Reached.subset {ws : List Lexeme} {p : Strength} (h : Reached ls ws p) : ws ⊆ ls := by
  induction h with
  | start => exact List.Subset.refl ls
  | paren _ ih | firstItem _ ih | firstField _ ih | firstCase _ ih | variant _ ih | minus _ ih =>
    exact fun l hl => ih (by simp [hl])
  | nextItem _ _ _ _ ih | nextField _ _ _ _ _ ih | nextCase _ _ _ ih | right _ _ _ _ _ ih =>
    exact fun l hl => ih (by simp [hl])
  | argument _ _ _ _ _ ih => exact fun l hl => ih (mem_append_right _ hl)

/-! ### How a computation ends -/

/-- From the state `r`, the computation returns as `Q` says or fails as `E` says. -/
structure Ends {α : Type} (E : ParseError → Prop) (Q : α → Reader → Prop) (m : Parser α) (r : Reader) : Prop where
  returns : ∀ {a r'}, outcome m r = (.ok a, r') → Q a r'
  fails : ∀ {e r'}, outcome m r = (.error e, r') → E e

section Ends
variable {α β : Type} {E : ParseError → Prop} {Q : α → Reader → Prop} {Q' : β → Reader → Prop} {r : Reader}

theorem Ends.bind {m : Parser α} {f : α → Parser β} (h : Ends E Q m r)
    (hf : ∀ {a r1}, outcome m r = (.ok a, r1) → Q a r1 → Ends E Q' (f a) r1) : Ends E Q' (m >>= f) r := by
  refine ⟨fun hrun => ?_, fun hrun => ?_⟩
  · obtain ⟨a, r1, hm, hrun⟩ := bind_returns hrun
    exact (hf hm (h.returns hm)).returns hrun
  · rw [outcome_bind] at hrun
    rcases hm : outcome m r with ⟨e | a, r1⟩ <;> rw [hm] at hrun
    · cases hrun
      exact h.fails hm
    · exact (hf hm (h.returns hm)).fails hrun

theorem Ends.pure {a : α} (h : Q a r) : Ends E Q (Pure.pure a : Parser α) r :=
  ⟨fun hrun => by cases hrun; exact h, fun hrun => by cases hrun⟩

theorem Ends.throw {e : ParseError} (h : E e) : Ends E Q (MonadExcept.throw e : Parser α) r :=
  ⟨fun hrun => (by cases hrun), fun hrun => by cases hrun; exact h⟩

theorem Ends.mono {m : Parser α} {Q1 : α → Reader → Prop} (h : Ends E Q m r)
    (hQ : ∀ {a r'}, outcome m r = (.ok a, r') → Q a r' → Q1 a r') : Ends E Q1 m r :=
  ⟨fun hrun => hQ hrun (h.returns hrun), h.fails⟩

theorem Ends.next (hE : E .endOfInput) : Ends E (fun t r' => r.lexemes = t.lexeme :: r'.lexemes) next r := by
  refine ⟨fun hrun => (next_returns hrun).1, fun hrun => ?_⟩
  obtain ⟨_ | ⟨u, us⟩, g⟩ := r <;> cases hrun
  exact hE

theorem Ends.peek? : Ends E (fun o r' => r = r' ∧ o.map Token.lexeme = r.lexemes.head?) peek? r :=
  ⟨peek?_returns, fun hrun => by cases hrun⟩

theorem Ends.peek (hE : E .endOfInput) : Ends E (fun t r' => r = r' ∧ r.lexemes.head? = some t.lexeme) peek r := by
  refine ⟨peek_returns, fun hrun => ?_⟩
  obtain ⟨_ | ⟨u, us⟩, g⟩ := r <;> cases hrun
  exact hE

theorem Ends.freshName : Ends E (fun _ r' => r'.lexemes = r.lexemes) freshName r :=
  ⟨fun hrun => (freshName_returns hrun).2.1, fun hrun => by cases hrun⟩

theorem Ends.caseOf (hE : ∀ s, E (.notAFunction s)) :
    Ends E (fun c r' => r = r' ∧ ∃ i, t = .function i c.1 c.2) (caseOf t) r := by
  refine ⟨caseOf_returns, fun hrun => ?_⟩
  cases t <;> cases hrun <;> exact hE _

theorem Ends.entryOf (hE : E .notAnAssignment) :
    Ends E (fun e r' => r = r' ∧ entryOf t = Pure.pure e) (entryOf t) r := by
  refine ⟨entryOf_returns, fun hrun => ?_⟩
  cases t <;> cases hrun <;> exact hE

theorem Ends.negated (hE : t.isNegative = true → E .negativeLiteral) : Ends E (fun _ r' => r = r') (negated t) r := by
  refine ⟨fun hrun => (negated_returns hrun).1, fun hrun => ?_⟩
  unfold Parser.negated at hrun
  split at hrun
  · split at hrun <;> cases hrun
    exact hE (decide_eq_true (Int.not_le.mp ‹¬ _›))
  · split at hrun <;> cases hrun
    refine hE ?_
    rename_i x hx
    simp only [Term.isNegative]
    revert hx
    cases x.isNaN <;> cases x.negative <;> cases x.isZero <;> simp
  · cases hrun

theorem Ends.bytesOf {token : Token} {base : Int} (hE : ∀ b t, E (.unknownBase b t))
    (hE' : ∀ cause, Text.unarmor? base text = some (.error cause) → E (.badBytes cause)) :
    Ends E (fun _ r' => r = r') (bytesOf token text base) r := by
  refine ⟨fun hrun => (bytesOf_returns hrun).1, fun hrun => ?_⟩
  unfold Parser.bytesOf at hrun
  split at hrun <;> cases hrun
  · exact hE' _ ‹_›
  · exact hE _ _

end Ends

/-! ### Bars behind a phrase -/

/-- What follows a match: a further case would have been read. -/
def AfterBar (rest : List Lexeme) : Prop :=
  ∀ l, rest.head? = some l → l.isCloser = true ∨
    ∃ s b, l = .operator s ∧ s ≠ "|" ∧ Operator.binding? s = some b ∧ b.left < caseStrength

/-- Behind tokens with a bar outside of brackets stands what may follow a match. -/
def BarStops (us rest : List Lexeme) : Prop := barred [] us = true → AfterBar rest

def Leaves (us : List Lexeme) (r r' : Reader) : Prop :=
  ∀ vs, r.lexemes = vs ++ r'.lexemes → BarStops (us ++ vs) r'.lexemes

section Bars
variable {r r' : Reader} {us vs : List Lexeme}

theorem Leaves.intro (hr : r.lexemes = vs ++ r'.lexemes) (h : BarStops (us ++ vs) r'.lexemes) : Leaves us r r' := by
  intro ws hws
  cases append_cancel_right (hws.symm.trans hr)
  exact h

theorem leaves_unbarred (hr : r.lexemes = vs ++ r'.lexemes) (h : barred [] vs = false) : Leaves [] r r' :=
  .intro hr fun hbar => by rw [nil_append, h] at hbar; cases hbar

theorem leaves_token (hr : r.lexemes = l :: r'.lexemes) (h : barred [] [l] = false) : Leaves [] r r' := by
  have htotal : r.lexemes = [l] ++ r'.lexemes := hr
  exact leaves_unbarred htotal h

theorem Leaves.plain (hr : r.lexemes = l :: r1.lexemes) (hopen : l.closing? = none) (hclose : l.isCloser = false)
    (hbar : l ≠ .operator "|") (h : Leaves [] r1 r') : Leaves [] r r' := by
  intro ws hws
  cases ws with
  | nil => exact fun hnil => by cases hnil
  | cons l' ws =>
    obtain ⟨rfl, htail⟩ := List.cons.inj (hr.symm.trans hws)
    intro hbarred
    rw [nil_append, barred_plain hopen hclose hbar] at hbarred
    exact h ws htail hbarred

theorem afterBar_of_stops (hb : Operator.binding? s = some b) (hs : s ≠ "|") (hlt : b.left < caseStrength)
    (h : Stops b.right rest) : AfterBar rest := by
  have hlow : ∀ p ∈ Operator.table, p.2.left < caseStrength → p.1 ≠ "|" → p.2.right < (Operator.binding "|").left := by
    decide
  have hright := hlow _ (Dict.mem_of_get? hb) hlt hs
  intro l hl
  rcases h l hl with hc | hj | ⟨s', b', rfl, hb', hlt'⟩
  · exact .inl hc
  · exact absurd (Int.lt_trans hj hright) (by decide)
  · refine .inr ⟨s', b', rfl, ?_, hb', ?_⟩
    · rintro rfl
      cases hb'
      exact absurd (Int.lt_trans hlt' hright) (by decide)
    · exact Int.lt_trans (Int.lt_trans hlt' hright) (by decide)

theorem afterBar_of_case (h : Stops caseStrength rest) (hbar : rest.head? ≠ some (.operator "|")) : AfterBar rest := by
  intro l hl
  rcases h l hl with hc | hj | ⟨s, b, rfl, hb, hlt⟩
  · exact .inl hc
  · exact absurd hj (by decide)
  · exact .inr ⟨s, b, rfl, fun hs => hbar (by rw [hl, hs]), hb, hlt⟩

end Bars

/-! ### Failures and their places -/

/-- The failure lies in the form of the tokens, or has one of the other causes. -/
def Blamed (ls : List Lexeme) (e : ParseError) : Prop := SourceError.isSyntax (.parse e) = true ∨ Fault ls e

/-- The computation reads on behind `us`, or fails as the text makes it fail. -/
abbrev EndsBehind {α : Type} (ls us : List Lexeme) (r : Reader) : Parser α → Reader → Prop :=
  Ends (Blamed ls) fun _ r' => Leaves us r r'

/-- How the functions of the parser end at a place that is reached, with `n` calls left and enough of them for the
tokens that are left. -/
structure Located (ls : List Lexeme) (n : Nat) : Prop where
  operand : ∀ {r p}, Reached ls r.lexemes p → 6 * r.lexemes.length + 1 ≤ n →
    EndsBehind ls [] r (operand n) r
  moreCases : ∀ {r p us vs i a b cs}, Reached ls (.operator "|" :: (us ++ (vs ++ r.lexemes))) p →
    Phrase .lax us (.function i a b) → CasePhrases .lax vs cs → Stops caseStrength r.lexemes →
    6 * r.lexemes.length + 1 ≤ n → Ends (Blamed ls) (fun _ r' => AfterBar r'.lexemes) (moreCases n) r
  moreItems : ∀ {last r p us vs t ts}, Reached ls (.leftBracket :: (us ++ (vs ++ r.lexemes))) p → Phrase .lax us t →
    ItemPhrases .lax vs ts → Stops entryStrength r.lexemes → 6 * r.lexemes.length + 1 ≤ n →
    Ends (Blamed ls) (fun _ _ => True) (moreItems n last) r
  moreFields : ∀ {last r p us vs t e es}, Reached ls (.leftBrace :: (us ++ (vs ++ r.lexemes))) p → Phrase .lax us t →
    entryOf t = pure e → FieldPhrases .lax vs es → Stops entryStrength r.lexemes → 6 * r.lexemes.length + 1 ≤ n →
    Ends (Blamed ls) (fun _ _ => True) (moreFields n last) r
  expression : ∀ {r p}, Reached ls r.lexemes p → 6 * r.lexemes.length + 2 ≤ n →
    EndsBehind ls [] r (expression n p) r
  extended : ∀ {r p us left}, Reached ls (us ++ r.lexemes) p → Phrase .lax us left → BarStops us r.lexemes →
    6 * r.lexemes.length + 3 ≤ n → EndsBehind ls us r (extended n p left) r
  operation : ∀ {r p us left s b}, Reached ls (us ++ .operator s :: r.lexemes) p → Phrase .lax us left →
    Operator.binding? s = some b → p ≤ b.left → (barred [] us = true → s ≠ "|" ∧ b.left < caseStrength) →
    6 * r.lexemes.length + 3 ≤ n →
    EndsBehind ls (us ++ [.operator s]) r (operation n s b.right left) r

section Located
variable {n : Nat} {r : Reader} {p : Strength} {vs : List Lexeme}

theorem length_behind {r' : Reader} (h : Phrase .lax us t) (hr : r.lexemes = us ++ r'.lexemes) :
    r'.lexemes.length < r.lexemes.length := by
  have := length_pos_iff.mpr h.ne_nil
  rw [hr, length_append]
  omega

theorem length_next {r' : Reader} (hr : r.lexemes = l :: r'.lexemes) : r.lexemes.length = r'.lexemes.length + 1 := by
  rw [hr, length_cons]

theorem located_expression (hn : Located ls n) (hr : Reached ls r.lexemes p)
    (hfuel : 6 * r.lexemes.length + 2 ≤ n + 1) :
    EndsBehind ls [] r (expression (n + 1) p) r := by
  rw [expression]
  refine (hn.operand hr (by omega)).bind fun {t r1} hrun hbar => ?_
  obtain ⟨us, hus, ht⟩ := (sound n).operand.returns hrun
  have hlen := length_behind ht hus
  refine (hn.extended (hus ▸ hr) ht (hbar us hus) (by omega)).mono fun {u r'} hrun' hbar' => ?_
  obtain ⟨vs, hvs, -, -⟩ := ((sound n).extended (a := 0) ht).returns hrun'
  have htotal : r.lexemes = (us ++ vs) ++ r'.lexemes := by rw [hus, hvs, append_assoc]
  exact .intro htotal (hbar' vs hvs)

theorem located_moreCases (hn : Located ls n) {a b : Term} {cs : List (Term × Term)}
    (hr : Reached ls (.operator "|" :: (us ++ (vs ++ r.lexemes))) p) (hus : Phrase .lax us (.function i a b))
    (hvs : CasePhrases .lax vs cs) (hstop : Stops caseStrength r.lexemes) (hfuel : 6 * r.lexemes.length + 1 ≤ n + 1) :
    Ends (Blamed ls) (fun _ r' => AfterBar r'.lexemes) (moreCases (n + 1)) r := by
  rw [moreCases]
  refine Ends.peek?.bind fun {o r1} _ ho => ?_
  obtain ⟨rfl, ho⟩ := ho
  split
  · rename_i hbar
    refine (Ends.next (.inl rfl)).bind fun {t r1} hnext _ => ?_
    have hr1 := next_peeked hnext (ho.symm.trans hbar)
    have hlen := length_next hr1
    rw [hr1] at hr
    refine (hn.expression (.nextCase hr hus hvs) (by omega)).bind fun {f r2} hrun _ => ?_
    obtain ⟨ws, hws, hf, hstop'⟩ := (sound n).expression.returns hrun
    have hlen' := length_behind hf hws
    refine (Ends.caseOf fun s => .inl rfl).bind fun {c r3} _ hc => ?_
    obtain ⟨rfl, i, rfl⟩ := hc
    have hr2 : Reached ls (.operator "|" :: (us ++ (vs ++ .operator "|" :: ws ++ r2.lexemes))) p := by
      rw [hws] at hr
      simpa using hr
    exact (hn.moreCases hr2 hus (hvs.concat hf) hstop' (by omega)).bind fun _ hafter => .pure hafter
  · rename_i hbar
    exact .pure (afterBar_of_case hstop fun h => hbar (ho.trans h))

theorem located_moreItems (hn : Located ls n) {last : Term} {ts : List Term}
    (hr : Reached ls (.leftBracket :: (us ++ (vs ++ r.lexemes))) p) (hus : Phrase .lax us t)
    (hvs : ItemPhrases .lax vs ts) (hstop : Stops entryStrength r.lexemes) (hfuel : 6 * r.lexemes.length + 1 ≤ n + 1) :
    Ends (Blamed ls) (fun _ _ => True) (moreItems (n + 1) last) r := by
  rw [moreItems]
  refine (Ends.next (.inl rfl)).bind fun {c r1} _ hr1 => ?_
  have hlen := length_next hr1
  split
  · exact .pure trivial
  · rename_i hne
    have hsep : Punctuation.lax.separates .rightBracket c.lexeme := separates_of_stops (hr1 ▸ hstop) hne
    split
    · exact .throw (.inl rfl)
    · rw [hr1] at hr
      refine (hn.expression (.nextItem hr hus hvs hsep) (by omega)).bind fun {u r2} hrun _ => ?_
      obtain ⟨ws, hws, hu, hstop'⟩ := (sound n).expression.returns hrun
      have hlen' := length_behind hu hws
      have hr2 : Reached ls (.leftBracket :: (us ++ (vs ++ c.lexeme :: ws ++ r2.lexemes))) p := by
        rw [hws] at hr
        simpa using hr
      exact (hn.moreItems hr2 hus (hvs.concat hsep hu) hstop' (by omega)).bind fun _ _ => .pure trivial

theorem located_moreFields (hn : Located ls n) {last : Term}
    {es : List (String × Term)} (hr : Reached ls (.leftBrace :: (us ++ (vs ++ r.lexemes))) p) (hus : Phrase .lax us t)
    (he : entryOf t = pure e) (hvs : FieldPhrases .lax vs es) (hstop : Stops entryStrength r.lexemes)
    (hfuel : 6 * r.lexemes.length + 1 ≤ n + 1) : Ends (Blamed ls) (fun _ _ => True) (moreFields (n + 1) last) r := by
  rw [moreFields]
  refine (Ends.next (.inl rfl)).bind fun {c r1} _ hr1 => ?_
  have hlen := length_next hr1
  split
  · exact .pure trivial
  · rename_i hne
    have hsep : Punctuation.lax.separates .rightBrace c.lexeme := separates_of_stops (hr1 ▸ hstop) hne
    split
    · exact .throw (.inl rfl)
    · rw [hr1] at hr
      refine (hn.expression (.nextField hr hus he hvs hsep) (by omega)).bind fun {u r2} hrun _ => ?_
      obtain ⟨ws, hws, hu, hstop'⟩ := (sound n).expression.returns hrun
      have hlen' := length_behind hu hws
      refine (Ends.entryOf (.inl rfl)).bind fun {e' r3} _ he' => ?_
      obtain ⟨rfl, he'⟩ := he'
      have hr2 : Reached ls (.leftBrace :: (us ++ (vs ++ c.lexeme :: ws ++ r2.lexemes))) p := by
        rw [hws] at hr
        simpa using hr
      exact (hn.moreFields hr2 hus he (hvs.concat hsep hu he') hstop' (by omega)).bind fun _ _ => .pure trivial

/-- The operators of tokens are in the table, apart from the empty one and the sign of a variant. -/
def Listed (ls : List Lexeme) : Prop :=
  ∀ s, .operator s ∈ ls → s ≠ "" ∧ s ≠ "#" ∧ Operator.table.has s = true

theorem located_extended (hls : Listed ls) (hn : Located ls n)
    (hr : Reached ls (us ++ r.lexemes) p) (hus : Phrase .lax us left) (hbar : BarStops us r.lexemes)
    (hfuel : 6 * r.lexemes.length + 3 ≤ n + 1) :
    EndsBehind ls us r (extended (n + 1) p left) r := by
  have stays : Leaves us r r := .intro (nil_append _).symm (by rwa [append_nil])
  rw [extended]
  refine Ends.peek?.bind fun {o r1} _ ho => ?_
  obtain ⟨rfl, ho⟩ := ho
  split
  · exact .pure stays
  · rename_i s hs
    rw [hs] at ho
    obtain ⟨l, rest, hrest⟩ : ∃ l rest, r.lexemes = l :: rest := by
      cases h : r.lexemes with
      | nil => rw [h] at ho; cases ho
      | cons l rest => exact ⟨l, rest, rfl⟩
    split
    · rename_i hnone
      have hmem : .operator s ∈ ls := hr.subset (mem_append_right _ (mem_of_head? ho.symm))
      have hhas := (hls s hmem).2.2
      rw [Dict.has, ← Operator.binding?, hnone] at hhas
      cases hhas
    · rename_i b hb
      split
      · exact .pure stays
      · rename_i hle
        refine (Ends.next (.inl rfl)).bind fun {t r1} hnext _ => ?_
        have hr1 := next_peeked hnext ho.symm
        have hlen := length_next hr1
        have hlow : barred [] us = true → s ≠ "|" ∧ b.left < caseStrength := fun hbarred => by
          rcases hbar hbarred _ ho.symm with hc | ⟨s', b', hs', hne, hb', hlt⟩
          · cases hc
          · cases hs'
            rw [hb, Option.some.injEq] at hb'
            exact ⟨hne, hb' ▸ hlt⟩
        rw [hr1] at hr
        refine (hn.operation hr hus hb (Int.not_lt.mp hle) hlow (by omega)).bind fun {u r2} hrun hbar' => ?_
        obtain ⟨vs, hvs, hu⟩ := ((sound n).operation (a := 0) hus).returns hrun
        have hlen' : r2.lexemes.length ≤ r1.lexemes.length := by rw [hvs, length_append]; omega
        have hr2 : Reached ls (us ++ .operator s :: vs ++ r2.lexemes) p := by
          rw [hvs] at hr
          simpa using hr
        have hbar2 : BarStops (us ++ .operator s :: vs) r2.lexemes := by simpa using hbar' vs hvs
        refine (hn.extended hr2 hu hbar2 (by omega)).mono fun {v r'} hrun' hbar3 => ?_
        obtain ⟨ws, hws, -, -⟩ := ((sound n).extended (a := 0) hu).returns hrun'
        have htotal : r.lexemes = (.operator s :: vs ++ ws) ++ r'.lexemes := by rw [hr1, hvs, hws]; simp
        exact .intro htotal (by simpa using hbar3 ws hws)
  · rename_i l hop hl
    rw [hl] at ho
    split
    · exact .pure stays
    · -- the token that was seen is the first one of the argument
      rename_i hgo
      obtain ⟨rest, hrest⟩ : ∃ rest, r.lexemes = l :: rest := by
        cases h : r.lexemes with
        | nil => rw [h] at ho; cases ho
        | cons l' rest =>
          rw [h, head?_cons, Option.some.injEq] at ho
          exact ⟨rest, by rw [ho]⟩
      have hplain : l.isOperator = false := by
        cases l with
        | operator s => exact absurd rfl (hop s)
        | _ => rfl
      simp only [Bool.or_eq_true, decide_eq_true_eq, not_or, Bool.not_eq_true, Int.not_lt] at hgo
      have hnobar : barred [] us = false := by
        by_contra hbarred
        rcases hbar (by simpa using hbarred) l ho.symm with hc | ⟨s, b, rfl, -⟩
        · rw [hgo.1] at hc
          cases hc
        · cases hplain
      have hr1 : Reached ls r.lexemes Operator.juxtaposition.right := by
        rw [hrest] at hr ⊢
        exact .argument hr hus hplain hgo.1 hgo.2
      refine (hn.expression hr1 (by omega)).bind fun {a r2} hrun hbar' => ?_
      obtain ⟨_ | ⟨l', vs⟩, hvs, ha, -⟩ := (sound n).expression.returns hrun
      · exact absurd rfl ha.ne_nil
      have hlen := length_behind ha hvs
      obtain ⟨rfl, -⟩ := List.cons.inj (hrest.symm.trans hvs)
      have hr2 : Reached ls (us ++ l :: vs ++ r2.lexemes) p := by
        rw [hvs] at hr
        simpa using hr
      have hbar2 : BarStops (us ++ l :: vs) r2.lexemes := fun hbarred => by
        rw [hus.barred_append, hnobar] at hbarred
        exact hbar' _ hvs hbarred
      have happly : Phrase .lax (us ++ l :: vs) (.apply 0 left a) := .apply hus ha hplain
      refine (hn.extended hr2 happly hbar2 (by omega)).mono fun {v r'} hrun' hbar3 => ?_
      obtain ⟨ws, hws, -, -⟩ := ((sound n).extended (a := 0) happly).returns hrun'
      have htotal : r.lexemes = (l :: vs ++ ws) ++ r'.lexemes := by rw [hvs, hws]; simp
      exact .intro htotal (by simpa using hbar3 ws hws)

theorem located_right (hn : Located ls n) (hr : Reached ls (us ++ .operator s :: r.lexemes) p)
    (hus : Phrase .lax us left) (hb : Operator.binding? s = some b) (hp : p ≤ b.left)
    (hbar : barred [] us = true → s ≠ "|" ∧ b.left < caseStrength) (hfuel : 6 * r.lexemes.length + 3 ≤ n + 1)
    {right : Term} (hc : Combined s left right t) :
    EndsBehind ls (us ++ [.operator s]) r (expression n b.right) r := by
  refine (hn.expression (.right hr hus hb hp hc) (by omega)).mono fun {u r'} hrun hright vs hvs hbarred => ?_
  rw [append_assoc, singleton_append, hus.barred_append, barred_plain rfl rfl (by simpa using hc.ne_bar),
    Bool.or_eq_true] at hbarred
  rcases hbarred with hbarred | hbarred
  · obtain ⟨hs, hlt⟩ := hbar hbarred
    obtain ⟨-, -, -, hstop⟩ := (sound n).expression.returns hrun
    exact afterBar_of_stops hb hs hlt hstop
  · exact hright vs hvs hbarred

theorem located_operation (hls : Listed ls) (hn : Located ls n)
    (hr : Reached ls (us ++ .operator s :: r.lexemes) p) (hus : Phrase .lax us left)
    (hb : Operator.binding? s = some b) (hp : p ≤ b.left)
    (hbar : barred [] us = true → s ≠ "|" ∧ b.left < caseStrength) (hfuel : 6 * r.lexemes.length + 3 ≤ n + 1) :
    EndsBehind ls (us ++ [.operator s]) r (operation (n + 1) s b.right left) r := by
  have right : ∀ {t : Term}, Combined s left (.hole 0) t →
      EndsBehind ls (us ++ [.operator s]) r (expression n b.right) r :=
    located_right hn hr hus hb hp hbar hfuel
  -- a generated name takes no token
  have named : ∀ {r1 r2 : Reader}, Leaves (us ++ [.operator s]) r r1 → r2.lexemes = r1.lexemes →
      Leaves (us ++ [.operator s]) r r2 := fun h hr2 vs hvs => by
    rw [hr2] at hvs ⊢
    exact h vs hvs
  unfold operation
  split
  · split
    · exact (right .assign).bind fun _ h => .pure h
    · exact .throw (.inl rfl)
  · exact (right .function).bind fun _ h => .pure h
  · exact (right .pipe).bind fun _ h => .pure h
  · exact (right .reversePipe).bind fun _ h => .pure h
  · exact (right (.andThen (x := ""))).bind fun _ h => Ends.freshName.bind fun _ hx => .pure (named h hx)
  · exact (right (.after (x := ""))).bind fun _ h => Ends.freshName.bind fun _ hx => .pure (named h hx)
  · exact (right .scope).bind fun _ h => .pure h
  · exact (right .assert).bind fun _ h => .pure h
  · exact (right .access).bind fun _ h => .pure h
  · rename_i hassign hfunction hpipe hreverse hthen hafter hscope hassert haccess
    split
    · rename_i hnone
      obtain ⟨hempty, hhash, hhas⟩ := hls s (hr.subset (mem_append_right _ (.head _)))
      have hall : ∀ s ∈ Operator.table.keys, BinaryOp.ofSymbol? s = none → s ∈ ["", "#", "=", "->", "|>", "<|", ">>", "<<",
          ".", "?", "@"] ∨ s ∈ Operator.unread := by decide
      rcases hall s (Dict.get?_isSome_iff.mp hhas) hnone with hmem | hmem
      · simp only [mem_cons, not_mem_nil, or_false] at hmem
        grind
      · refine .throw (.inr (.operator hr hus hmem hb hp fun hs => ?_))
        by_contra hbarred
        exact (hbar (by simpa using hbarred)).1 hs
    · rename_i op hop
      exact (right (.binop hop)).bind fun _ h => .pure h

theorem located_spread (hr1 : r.lexemes = .operator "..." :: r1.lexemes) :
    EndsBehind ls [] r (do
      match (← peek?).map Token.lexeme with
      | some (.name x) =>
        let _ ← next
        return Term.spread 0 (some x)
      | _ => return .spread 0 none) r1 := by
  refine Ends.peek?.bind fun {o r2} _ ho => ?_
  obtain ⟨rfl, ho⟩ := ho
  split
  · rename_i x hx
    refine (Ends.next (.inl rfl)).bind fun {t r2} hnext _ => .pure ?_
    have hr2 := next_peeked hnext (ho.symm.trans hx)
    have htotal : r.lexemes = [.operator "...", .name x] ++ r2.lexemes := by rw [hr1, hr2]; rfl
    exact leaves_unbarred htotal rfl
  · exact .pure (leaves_token hr1 rfl)

theorem located_empty {a b : Lexeme} (hr1 : r.lexemes = a :: r1.lexemes)
    (hpeek : r1.lexemes.head? = some b) (hpass : barred [] [a, b] = false) :
    EndsBehind ls [] r (do
      let _ ← next
      return t) r1 := by
  refine (Ends.next (.inl rfl)).bind fun {c r2} hnext _ => .pure ?_
  have hr2 := next_peeked hnext hpeek
  have htotal : r.lexemes = [a, b] ++ r2.lexemes := by rw [hr1, hr2]; rfl
  exact leaves_unbarred htotal hpass

section Operands
variable (hn : Located ls n) (hr : Reached ls r.lexemes p) (hfuel : 6 * r.lexemes.length + 1 ≤ n + 1)
include hn hr hfuel

theorem located_variant (hr1 : r.lexemes = .hash :: r1.lexemes) :
    EndsBehind ls [] r (do
      let tag ← next
      match tag.lexeme with
      | .name x => return Term.variant 0 x (← expression n variantStrength)
      | _ => throw (.unexpected tag)) r1 := by
  refine (Ends.next (.inl rfl)).bind fun {tag r2} _ hr2 => ?_
  split
  · rename_i x hx
    rw [hx] at hr2
    rw [hr1, hr2] at hr
    have hlen : r.lexemes.length = r2.lexemes.length + 2 := by rw [hr1, hr2]; rfl
    refine (hn.expression (.variant hr) (by omega)).bind fun {v r3} _ hbar => .pure ?_
    exact .plain hr1 rfl rfl (by simp) (.plain hr2 rfl rfl (by simp) hbar)
  · exact .throw (.inl rfl)

theorem located_matchFunction (hr1 : r.lexemes = .operator "|" :: r1.lexemes) :
    EndsBehind ls [] r (do
      let first ← caseOf (← expression n caseStrength)
      return Term.matchFunction 0 (first :: (← moreCases n))) r1 := by
  rw [hr1] at hr
  have hlen := length_next hr1
  refine (hn.expression (.firstCase hr) (by omega)).bind fun {f r2} hrun _ => ?_
  obtain ⟨us, hus, hf, hstop⟩ := (sound n).expression.returns hrun
  have hlen' := length_behind hf hus
  refine (Ends.caseOf fun s => .inl rfl).bind fun {c r3} _ hc => ?_
  obtain ⟨rfl, i, rfl⟩ := hc
  rw [hus] at hr
  exact (hn.moreCases hr hf .nil hstop (by omega)).bind fun _ hafter => .pure fun _ _ _ => hafter

theorem located_paren (hr1 : r.lexemes = .leftParen :: r1.lexemes) :
    EndsBehind ls [] r (do
      let t ← if (← peek).lexeme = .rightParen then pure (.hole 0) else expression n 0
      let _ ← next
      return t) r1 := by
  rw [hr1] at hr
  have hlen := length_next hr1
  refine (Ends.peek (.inl rfl)).bind fun {f r2} _ hf => ?_
  obtain ⟨rfl, hf⟩ := hf
  dsimp only
  split
  · rename_i hright
    refine Ends.bind (Q := fun _ r' => r1 = r') (.pure rfl) fun {t r2} _ heq => ?_
    subst heq
    exact located_empty hr1 (hright ▸ hf) rfl
  · refine (hn.expression (.paren hr) (by omega)).bind fun {t r2} hrun _ => ?_
    obtain ⟨us, hus, ht, hstop⟩ := (sound n).expression.returns hrun
    refine (Ends.next (.inl rfl)).bind fun {c r3} _ hr3 => .pure ?_
    have htotal : r.lexemes = (.leftParen :: (us ++ [c.lexeme])) ++ r3.lexemes := by rw [hr1, hus, hr3]; simp
    have hpass : barred [] (.leftParen :: (us ++ [c.lexeme])) = false := by
      rw [barred_open rfl, ht.barred_append, barred_close ((hr3 ▸ hstop).closer rfl) (.inl rfl)]
      rfl
    exact leaves_unbarred htotal hpass

theorem located_list (hr1 : r.lexemes = .leftBracket :: r1.lexemes) :
    EndsBehind ls [] r (do
      if (← peek).lexeme = .rightBracket then
        let _ ← next
        return Term.list 0 []
      else
        let first ← expression n entryStrength
        return .list 0 (first :: (← moreItems n first))) r1 := by
  rw [hr1] at hr
  have hlen := length_next hr1
  refine (Ends.peek (.inl rfl)).bind fun {f r2} _ hf => ?_
  obtain ⟨rfl, hf⟩ := hf
  split
  · rename_i hright
    exact located_empty hr1 (hright ▸ hf) rfl
  · refine (hn.expression (.firstItem hr) (by omega)).bind fun {t r2} hrun _ => ?_
    obtain ⟨us, hus, ht, hstop⟩ := (sound n).expression.returns hrun
    have hlen' := length_behind ht hus
    rw [hus] at hr
    refine (hn.moreItems hr ht .nil hstop (by omega)).bind fun {ts r3} hrun' _ => .pure ?_
    obtain ⟨_, hvs, vs, rfl, hts⟩ := ((sound n).moreItems hstop).returns hrun'
    have htotal : r.lexemes = (.leftBracket :: (us ++ (vs ++ [.rightBracket]))) ++ r3.lexemes := by
      rw [hr1, hus, hvs]; simp
    have hpass : barred [] (.leftBracket :: (us ++ (vs ++ [.rightBracket]))) = false := by
      rw [barred_open rfl, ht.barred_append, hts.barred_append, barred_close rfl (.inr rfl)]
      rfl
    exact leaves_unbarred htotal hpass

theorem located_record (hr1 : r.lexemes = .leftBrace :: r1.lexemes) :
    EndsBehind ls [] r (do
      if (← peek).lexeme = .rightBrace then
        let _ ← next
        return Term.record 0 []
      else
        let first ← entryOf (← expression n entryStrength)
        return .record 0 (Dict.ofEntries (first :: (← moreFields n first.2)))) r1 := by
  rw [hr1] at hr
  have hlen := length_next hr1
  refine (Ends.peek (.inl rfl)).bind fun {f r2} _ hf => ?_
  obtain ⟨rfl, hf⟩ := hf
  split
  · rename_i hright
    exact located_empty hr1 (hright ▸ hf) rfl
  · refine (hn.expression (.firstField hr) (by omega)).bind fun {t r2} hrun _ => ?_
    obtain ⟨us, hus, ht, hstop⟩ := (sound n).expression.returns hrun
    have hlen' := length_behind ht hus
    rw [hus] at hr
    refine (Ends.entryOf (.inl rfl)).bind fun {e r3} _ he => ?_
    obtain ⟨rfl, he⟩ := he
    refine (hn.moreFields hr ht he .nil hstop (by omega)).bind fun {es r3} hrun' _ => .pure ?_
    obtain ⟨_, hvs, vs, rfl, hes⟩ := ((sound n).moreFields hstop).returns hrun'
    have htotal : r.lexemes = (.leftBrace :: (us ++ (vs ++ [.rightBrace]))) ++ r3.lexemes := by
      rw [hr1, hus, hvs]; simp
    have hpass : barred [] (.leftBrace :: (us ++ (vs ++ [.rightBrace]))) = false := by
      rw [barred_open rfl, ht.barred_append, hes.barred_append, barred_close rfl (.inr rfl)]
      rfl
    exact leaves_unbarred htotal hpass

theorem located_negative (hr1 : r.lexemes = .operator "-" :: r1.lexemes) :
    EndsBehind ls [] r (do negated (← expression n (Operator.highest + 10))) r1 := by
  rw [hr1] at hr
  have hlen := length_next hr1
  refine (hn.expression (.minus hr) (by omega)).bind fun {t r2} hrun hbar => ?_
  obtain ⟨us, hus, ht, -⟩ := (sound n).expression.returns hrun
  rw [hus] at hr
  refine (Ends.negated fun hneg => .inr (.minus hr ht hneg)).mono fun {u r3} _ heq => ?_
  subst heq
  exact .plain hr1 rfl rfl (by decide) hbar

theorem located_operand : EndsBehind ls [] r (operand (n + 1)) r := by
  rw [operand]
  refine (Ends.next (.inl rfl)).bind fun {token r1} _ hr1 => ?_
  split <;> rename_i hl <;> try rw [hl] at hr1
  · exact .pure (leaves_token hr1 rfl)
  · exact .pure (leaves_token hr1 rfl)
  · exact .pure (leaves_token hr1 rfl)
  · exact located_variant hn hr hfuel hr1
  · rw [hr1] at hr
    refine (Ends.bytesOf (fun _ _ => .inl rfl) fun cause hcause => .inr (.bytes hr hcause)).mono
      fun {t r'} _ heq => ?_
    subst heq
    exact leaves_token hr1 rfl
  · exact .pure (leaves_token hr1 rfl)
  · exact located_spread hr1
  · exact located_matchFunction hn hr hfuel hr1
  · exact located_paren hn hr hfuel hr1
  · exact located_list hn hr hfuel hr1
  · exact located_record hn hr hfuel hr1
  · exact located_negative hn hr hfuel hr1
  · exact .throw (.inl rfl)

end Operands

theorem located (hls : Listed ls) (n : Nat) : Located ls n := by
  induction n with
  | zero =>
    exact ⟨fun _ h => absurd h (by omega), fun _ _ _ _ h => absurd h (by omega), fun _ _ _ _ h => absurd h (by omega),
      fun _ _ _ _ _ h => absurd h (by omega), fun _ h => absurd h (by omega), fun _ _ _ h => absurd h (by omega),
      fun _ _ _ _ _ h => absurd h (by omega)⟩
  | succ n ih =>
    exact ⟨located_operand ih, located_moreCases ih, located_moreItems ih, located_moreFields ih, located_expression ih,
      located_extended hls ih, located_operation hls ih⟩

end Located

end Parser

/-! ### Texts -/

theorem Tiled.spelled {text : List Char} (h : Tiled text i ts) : ∀ t ∈ ts, ∃ cs, t.lexeme.Spelled cs := by
  induction h with
  | nil => exact fun t ht => by cases ht
  | cons _ _ _ _ hl _ _ ih => exact forall_mem_cons.mpr ⟨⟨_, (hl _).mpr rfl⟩, ih⟩

theorem listed_of_tokenize (h : tokenize text = .ok ts) : Parser.Listed (ts.map Token.lexeme) := by
  intro s hs
  obtain ⟨t, ht, hl⟩ := mem_map.mp hs
  obtain ⟨cs, hcs⟩ := (tokenize_tiled h).spelled t ht
  rw [hl] at hcs
  exact hcs.2

/-- A failure to read a text that does not lie in its form, and the place of its cause. -/
inductive Source.Fault (text : String) : SourceError → Prop
  | scan {ts : List Token} {s : Scanner} {gap cs rest : List Char} {e : ScanError} :
      Scanner.Passes (.ofText text) ts s → s.rest = gap ++ (cs ++ rest) → Filler gap → Misread cs rest e →
      Fault text (.scan e)
  | parse {ts : List Token} {e : ParseError} : tokenize text = .ok ts → Parser.Fault (ts.map Token.lexeme) e →
      Fault text (.parse e)

/-- A text that is no program is reported as such, except at characters that are taken for a number or bytes and have no
value, and at tokens that show one of the parser's faults. Reading never runs out of fuel. -/
theorem Source.isSyntax_eq_false_iff_fault {g : Nat} {text : String} {e : SourceError} (h : (Source.read g text).1 = .error e) :
    e.isSyntax = false ↔ Source.Fault text e := by
  constructor
  · intro hsyntax
    unfold Source.read at h
    split at h
    · rename_i cause htokens
      cases h
      have hstart : Scanner.Stands text.toList [] (.ofText text) := ⟨rfl, rfl⟩
      rcases Scanner.readAllWithin_fails hstart htokens with hform | ⟨ts, s, gap, cs, rest, hpasses, hrest, hgap, hmisread⟩
      · rw [hform] at hsyntax
        cases hsyntax
      · exact .scan hpasses hrest hgap hmisread
    · rename_i tokens htokens
      split at h
      · cases h
      · rename_i cause r hparse
        cases h
        have hlen : ({ tokens, generated := g } : Reader).lexemes.length = tokens.length := length_map _
        have hends := (Parser.located (listed_of_tokenize htokens) (6 * tokens.length + 6)).expression
          (r := { tokens, generated := g }) .start (by omega)
        rcases hends.fails hparse with hform | hfault
        · rw [hform] at hsyntax
          cases hsyntax
        · exact .parse htokens hfault
  · rintro (⟨-, -, -, hmisread⟩ | ⟨-, hfault⟩)
    · cases hmisread <;> rfl
    · cases hfault <;> rfl

theorem commaInParentheses_fault :
    (Source.read 0 "[(1 , x), 2]").1 = .error (.parse (.unknownOperator ",")) ∧
      Source.Fault "[(1 , x), 2]" (.parse (.unknownOperator ",")) := by
  have htokens : tokenize "[(1 , x), 2]" = .ok [⟨.leftBracket, ⟨1, 1, 0⟩, ⟨1, 1, 0⟩⟩, ⟨.leftParen, ⟨1, 2, 1⟩, ⟨1, 2, 1⟩⟩,
      ⟨.int 1, ⟨1, 3, 2⟩, ⟨1, 3, 2⟩⟩, ⟨.operator ",", ⟨1, 5, 4⟩, ⟨1, 5, 4⟩⟩, ⟨.name "x", ⟨1, 7, 6⟩, ⟨1, 7, 6⟩⟩,
      ⟨.rightParen, ⟨1, 8, 7⟩, ⟨1, 8, 7⟩⟩, ⟨.operator ",", ⟨1, 9, 8⟩, ⟨1, 9, 8⟩⟩, ⟨.int 2, ⟨1, 11, 10⟩, ⟨1, 11, 10⟩⟩,
      ⟨.rightBracket, ⟨1, 12, 11⟩, ⟨1, 12, 11⟩⟩] := by decide +kernel
  have hread : (Source.read 0 "[(1 , x), 2]").1 = .error (.parse (.unknownOperator ",")) := by
    unfold Source.read
    rw [htokens]
    rfl
  exact ⟨hread, (Source.isSyntax_eq_false_iff_fault hread).mp rfl⟩

/-- Not every text that is no program is reported as such: not a second minus, not a digit that is no decimal one, and
not bytes that cannot be decoded. -/
theorem doubleMinus_not_isSyntax :
    (∃ e, (Source.read 0 "- -1").1 = .error e ∧ e.isSyntax = false) ∧
      (∃ e, (Source.read 0 "²").1 = .error e ∧ e.isSyntax = false) ∧
      ∃ e, (Source.read 0 "~~a").1 = .error e ∧ e.isSyntax = false := by
  have hminus : tokenize "- -1" = .ok [⟨.operator "-", ⟨1, 1, 0⟩, ⟨1, 1, 0⟩⟩, ⟨.operator "-", ⟨1, 3, 2⟩, ⟨1, 3, 2⟩⟩,
      ⟨.int 1, ⟨1, 4, 3⟩, ⟨1, 4, 3⟩⟩] := by decide +kernel
  have hdigit : tokenize "²" = .error (.integer (.notAnInteger "²")) := by decide +kernel
  have hbytes : tokenize "~~a" = .ok [⟨.bytes "a" 64, ⟨1, 1, 0⟩, ⟨1, 3, 2⟩⟩] := by decide +kernel
  refine ⟨⟨.parse .negativeLiteral, ?_, rfl⟩, ⟨.scan (.integer (.notAnInteger "²")), ?_, rfl⟩,
    ⟨.parse (.badBytes (.lengthOneOver 1)), ?_, rfl⟩⟩
  · unfold Source.read
    rw [hminus]
    rfl
  · unfold Source.read
    rw [hdigit]
  · unfold Source.read
    rw [hbytes]
    rfl

end Scrap
