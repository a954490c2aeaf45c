import Scrap.Proofs.Token.Tiling
import Scrap.Term.Source

/-! # Characters without a value

Scanning fails for the form of the text, or at characters that have the form of a number or of bytes but no value. -/

namespace Scrap

open List

variable {before text : List Char} {fuel : Nat} {e : ScanError}

/-- The characters `cs`, with `rest` behind them, are taken for a number or for bytes and have no value. -/
inductive Misread : List Char → List Char → ScanError → Prop
  | integer : ds ≠ [] → (∀ d ∈ ds, Text.isDigit d = true) → (∀ c r, rest = c :: r → Text.isDigit c = false ∧ c ≠ '.') →
      Text.readInt (String.ofList ds) = .error cause → Misread ds rest (.integer cause)
  | fraction : whole ≠ [] → (∀ d ∈ whole ++ part, Text.isDigit d = true) → (∀ c r, rest = c :: r →
      Text.isDigit c = false ∧ c ≠ '.') → Text.decimalValues? (whole ++ part) = none →
      Misread (whole ++ '.' :: part) rest (.notANumber (String.ofList (whole ++ '.' :: part)))
  | base : lead ≠ [] → (∀ c ∈ lead ++ '\'' :: value, Text.isBlank c = false) → '\'' ∉ value → (∀ c r, rest = c :: r →
      Text.isBlank c = true) → Text.readInt (String.ofList lead) = .error cause →
      Misread ('~' :: '~' :: (lead ++ '\'' :: value)) rest (.integer cause)

namespace Scanner

/-- The scanner reads the tokens one after the other. -/
inductive Passes : Scanner → List Token → Scanner → Prop
  | nil : Passes s [] s
  | cons : s.readToken = (.ok t, s1) → t.lexeme ≠ .endOfInput → Passes s1 ts s' → Passes s (t :: ts) s'

/-- Characters with no value start the text `cs`, or the failure is one of form. -/
def Blames (cs : List Char) (e : ScanError) : Prop :=
  SourceError.isSyntax (.scan e) = true ∨ ∃ us rest, cs = us ++ rest ∧ Misread us rest e

section Failing
variable {s s' : Scanner} {c : Char}

theorem intLexeme_fails {ds : List Char} (h : intLexeme ds = .error e) :
    ∃ cause, e = .integer cause ∧ Text.readInt (String.ofList ds) = .error cause := by
  unfold intLexeme at h
  split at h
  · cases h
  · cases h
    exact ⟨_, rfl, ‹_›⟩

theorem floatLexeme_fails {whole part : List Char} (h : floatLexeme whole part = .error e) :
    e = .notANumber (String.ofList (whole ++ '.' :: part)) ∧ Text.decimalValues? (whole ++ part) = none := by
  unfold floatLexeme at h
  split at h
  · cases h
  · cases h
    rw [append_assoc]
    exact ⟨rfl, ‹_›⟩

theorem readString_fails (h : s.readString = (.error e, s')) : SourceError.isSyntax (.scan e) = true := by
  unfold readString at h
  dsimp only at h
  split at h <;> cases h
  rfl

theorem readOperator_fails (h : s.readOperator c = (.error e, s')) : SourceError.isSyntax (.scan e) = true := by
  unfold readOperator at h
  dsimp only at h
  split at h <;> cases h
  rfl

theorem readNumber_fails (hdigit : Text.isDigit c = true) (h : s.readNumber c = (.error e, s')) :
    Blames (c :: s.rest) e := by
  have hall := isDigit_run s.rest hdigit
  have hsplit : s.rest = s.rest.takeWhile Text.isDigit ++ s.rest.dropWhile Text.isDigit :=
    takeWhile_append_dropWhile.symm
  have hrest : (s.advanceOver (s.rest.takeWhile Text.isDigit)).rest = s.rest.dropWhile Text.isDigit := by
    rw [advanceOver_rest]
    exact (congrArg (List.drop _) hsplit).trans drop_left
  unfold readNumber at h
  dsimp only at h
  split at h
  · rename_i after hafter
    rw [hrest] at hafter
    have hbehind : (((s.advanceOver (s.rest.takeWhile Text.isDigit)).advance '.').advanceOver
        (after.takeWhile Text.isDigit)).rest = after.dropWhile Text.isDigit := by
      rw [advanceOver_rest, advance_rest, hrest, hafter, tail_cons]
      exact (congrArg (List.drop _) takeWhile_append_dropWhile.symm).trans drop_left
    split at h
    · cases h
      exact .inl rfl
    · rename_i hpoint
      split at h
      · cases h
      · rename_i hfloat
        cases h
        obtain ⟨rfl, hnone⟩ := floatLexeme_fails hfloat
        refine .inr ⟨_, after.dropWhile Text.isDigit, ?_, .fraction (cons_ne_nil c _) ?_ ?_ hnone⟩
        · rw [append_assoc, cons_append, cons_append, takeWhile_append_dropWhile, ← hafter,
            ← hsplit]
        · exact fun d hd => (mem_append.mp hd).elim (hall d) mem_takeWhile_imp
        · exact fun d r hd => ⟨not_of_dropWhile hd, fun hdot => hpoint r (by rw [hbehind, hd, hdot])⟩
  · rename_i hpoint
    split at h
    · cases h
    · rename_i hint
      cases h
      obtain ⟨cause, rfl, hcause⟩ := intLexeme_fails hint
      refine .inr ⟨_, s.rest.dropWhile Text.isDigit, ?_, .integer (cons_ne_nil c _) hall ?_ hcause⟩
      · rw [cons_append, ← hsplit]
      · exact fun d r hd => ⟨not_of_dropWhile hd, fun hdot => hpoint r (by rw [hrest, hd, hdot])⟩

theorem readBytes_fails {r : List Char} (hs : s.rest = r) (h : s.readBytes = (.error e, s')) :
    Blames ('~' :: '~' :: r) e := by
  unfold readBytes at h
  dsimp only at h
  rw [hs] at h
  generalize hb : r.takeWhile (fun c => !Text.isBlank c) = body at h
  generalize hv : (body.reverse.takeWhile (· ≠ '\'')).reverse = value at h
  obtain ⟨hquote, lead, hbody, hfront, hlead⟩ := split_last_quote hv
  rw [hfront] at h
  split at h
  · cases h
  rename_i hnonempty
  split at h
  · cases h
  rename_i hread
  cases h
  rcases hlead with rfl | ⟨front, rfl⟩
  · exact absurd rfl hnonempty
  rw [dropLast_concat] at hnonempty hread
  rw [append_assoc, singleton_append] at hbody
  refine .inr ⟨_, r.dropWhile fun c => !Text.isBlank c, ?_,
    .base (fun hnil => hnonempty (by rw [hnil])) ?_ hquote ?_ hread⟩
  · rw [← hbody, ← hb, cons_append, cons_append, takeWhile_append_dropWhile]
  · intro c hc
    rw [← hbody, ← hb] at hc
    simpa using mem_takeWhile_imp hc
  · exact fun c r hc => by simpa using not_of_dropWhile hc

theorem readFrom_fails (h : s.readFrom c = (.error e, s')) : Blames (c :: s.rest) e := by
  unfold readFrom at h
  split at h
  · exact .inl (readString_fails h)
  split at h
  · cases h
  split at h
  · rename_i hc
    subst hc
    split at h
    · rename_i r hr
      rw [hr]
      exact readBytes_fails (by rw [advance_rest, hr]; rfl) h
    · cases h
      exact .inl rfl
  split at h
  · exact readNumber_fails ‹_› h
  split at h
  · cases h
  split at h
  · exact .inl (readOperator_fails h)
  split at h
  · cases h
  · cases h
    exact .inl rfl

/-- Where no token is read, the failure lies behind filler. -/
theorem readTokenWithin_fails (h : Stands text before s)
    (ht : s.readTokenWithin fuel = (.error e, s')) :
    SourceError.isSyntax (.scan e) = true ∨ ∃ gap cs rest, s.rest = gap ++ (cs ++ rest) ∧ Filler gap ∧ Misread cs rest e := by
  induction fuel generalizing before s with
  | zero => cases ht
  | succ fuel ih =>
    obtain ⟨gap, hblanks, hsplit, hstands⟩ := h.skipBlanks
    have hgap : Filler gap := filler_of_blanks hblanks
    rw [readTokenWithin] at ht
    dsimp only at ht
    generalize s.skipBlanks = u at ht hsplit hstands
    split at ht
    · cases ht
    rename_i c after hrest
    split at ht
    · rename_i hcomment
      obtain ⟨taken, hstands', hsplit', -, htaken⟩ := hstands.comment hrest hcomment
      rcases ih hstands' ht with hsyntax | ⟨gap', cs, rest, hsplit'', hgap', hcs⟩
      · exact .inl hsyntax
      · rcases htaken with htaken | ⟨-, hnil⟩
        · refine .inr ⟨gap ++ (taken ++ gap'), cs, rest, ?_, hgap.append (htaken.append hgap'), hcs⟩
          rw [hsplit, hsplit', hsplit'', append_assoc, append_assoc]
        · -- a comment that ends with the text leaves nothing that could be misread
          rw [hnil] at hsplit''
          obtain ⟨rfl, rfl⟩ : cs = [] ∧ rest = [] := by simpa using (append_eq_nil_iff.mp hsplit''.symm).2
          generalize hcs' : ([] : List Char) = cs at hcs
          cases hcs with
          | integer hne => exact absurd hcs'.symm hne
          | fraction => simp at hcs'
          | base => cases hcs'
    · rcases readFrom_fails ht with hsyntax | ⟨cs, rest, hcs, hmisread⟩
      · exact .inl hsyntax
      · rw [advance_rest, markStart_rest, hrest, tail_cons] at hcs
        exact .inr ⟨gap, cs, rest, by rw [hsplit, hrest, hcs], hgap, hmisread⟩

theorem readAllWithin_fails (h : Stands text before s)
    (ht : s.readAllWithin fuel = .error e) :
    SourceError.isSyntax (.scan e) = true ∨ ∃ ts s1 gap cs rest, Passes s ts s1 ∧ s1.rest = gap ++ (cs ++ rest) ∧
      Filler gap ∧ Misread cs rest e := by
  induction fuel generalizing before s with
  | zero => cases ht
  | succ fuel ih =>
    rw [readAllWithin] at ht
    split at ht
    · rename_i hread
      cases ht
      exact (readTokenWithin_fails h hread).imp_right fun hmisread => ⟨[], s, hmisread.imp fun gap h =>
        h.imp fun cs h => h.imp fun rest h => ⟨.nil, h⟩⟩
    rename_i t s1 hread
    split at ht
    · cases ht
    rename_i hend
    cases hrest : s1.readAllWithin fuel with
    | ok us =>
      rw [hrest] at ht
      cases ht
    | error cause =>
      rw [hrest] at ht
      cases ht
      rcases readTokenWithin_cases h (Nat.lt_succ_self _) hread with ⟨hend', -⟩ | ⟨gap, cs, -, -, -, -, htaken, -⟩
      · exact absurd hend' hend
      · rcases ih htaken.stands hrest with hsyntax | ⟨ts, s2, gap, cs, rest, hpasses, hmisread⟩
        · exact .inl hsyntax
        · exact .inr ⟨t :: ts, s2, gap, cs, rest, .cons hread hend hpasses, hmisread⟩

end Failing

end Scanner

end Scrap
