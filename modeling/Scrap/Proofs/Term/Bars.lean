import Scrap.Proofs.Term.Nesting

/-! # Bars outside of brackets

A phrase with a bar outside of brackets ends with the last case of a match, or goes on behind it with an operator that
binds less tightly than a case is read; a further bar would have been read as a case. -/

namespace Scrap

open List

variable {c : Lexeme}

/-- Whether a bar stands outside of brackets, of which those on the stack are open. A parenthesis is closed by any
closing bracket, a list or a record by its own. -/
def barred (stack : List Lexeme) : List Lexeme → Bool
  | [] => false
  | l :: ls =>
    match l.closing? with
    | some c => barred (c :: stack) ls
    | none =>
      if l.isCloser then
        barred (if stack.head? = some .rightParen ∨ stack.head? = some l then stack.tail else stack) ls
      else (stack.isEmpty && l = .operator "|") || barred stack ls

section Walk
variable {stack rest : List Lexeme} {l : Lexeme}

theorem barred_open (hl : l.closing? = some c) : barred stack (l :: rest) = barred (c :: stack) rest := by
  rw [barred, hl]

theorem closing?_of_isCloser (hl : l.isCloser = true) : l.closing? = none := by
  cases l <;> first | rfl | cases hl

theorem barred_close (hl : l.isCloser = true) (hc : c = .rightParen ∨ c = l) :
    barred (c :: stack) (l :: rest) = barred stack rest := by
  rw [barred, closing?_of_isCloser hl]
  simp [hl, hc]

theorem barred_plain (hopen : l.closing? = none) (hclose : l.isCloser = false) (hbar : l ≠ .operator "|") :
    barred stack (l :: rest) = barred stack rest := by
  rw [barred, hopen]
  simp [hclose, hbar]

theorem barred_bar : barred stack (.operator "|" :: rest) = (stack.isEmpty || barred stack rest) := by
  simp [barred, Lexeme.closing?, Lexeme.isCloser]

theorem barred_separator (hc : c ≠ .rightParen) (hl : Punctuation.lax.separates c l) :
    barred (c :: stack) (l :: rest) = barred (c :: stack) rest := by
  rcases hl with rfl | rfl | ⟨hcl, hne⟩
  · exact barred_plain rfl rfl (by decide)
  · exact barred_plain rfl rfl (by decide)
  · rw [barred, closing?_of_isCloser hcl]
    simp [hcl, hc, hne.symm]

theorem barred_brackets {l' : Lexeme} (us : List Lexeme) (hl : l.closing? = some c) (hl' : l'.isCloser = true)
    (hc : c = .rightParen ∨ c = l') (h : ∀ stack rest, barred (c :: stack) (us ++ rest) = barred (c :: stack) rest) :
    barred stack (l :: (us ++ [l']) ++ rest) = (stack.isEmpty && barred [] (l :: (us ++ [l'])) || barred stack rest) := by
  have hpass : ∀ stack rest, barred stack (l :: (us ++ l' :: rest)) = barred stack rest := fun stack rest => by
    rw [barred_open hl, h, barred_close hl' hc]
  rw [cons_append, append_assoc, singleton_append, hpass, hpass]
  cases stack.isEmpty <;> rfl

theorem Combined.ne_bar {s : String} {l r t : Term} (h : Combined s l r t) : s ≠ "|" := by
  cases h with
  | binop hs =>
    rintro rfl
    cases hs
  | _ => decide

end Walk

mutual

/-- Inside of brackets a phrase has no bar outside of them, and elsewhere those of its own. -/
theorem Phrase.barred_append {ls : List Lexeme} {t : Term} : Phrase .lax ls t → ∀ stack rest,
    barred stack (ls ++ rest) = ((stack.isEmpty && barred [] ls) || barred stack rest)
  | .int, _, _ | .float, _, _ | .name, _, _ | .string, _, _ | .bytes _, _, _ | .spread, _, _ | .namedSpread, _, _ => by
    simp [barred, Lexeme.closing?, Lexeme.isCloser]
  | .variant (x := x) hv, stack, rest => by
    have hvariant : ∀ stack rest, barred stack (.hash :: .name x :: rest) = barred stack rest := fun stack rest => by
      rw [barred_plain rfl rfl (by simp), barred_plain rfl rfl (by simp)]
    rw [cons_append, cons_append, hvariant, hvariant, hv.barred_append]
  | .matchFunction hc hcs, stack, rest => by
    rw [cons_append, append_assoc, barred_bar, barred_bar, hc.barred_append, hcs.barred_append]
    cases stack.isEmpty <;> rfl
  | .hole, _, _ | .emptyList, _, _ | .emptyRecord, _, _ =>
    barred_brackets [] rfl rfl (.inr rfl) fun _ _ => rfl
  | .paren ht hcl, _, _ => barred_brackets _ rfl hcl (.inl rfl) fun stack rest => ht.barred_append _ rest
  | .list ht hts, stack, rest => by
    rw [← append_assoc]
    refine barred_brackets _ rfl rfl (.inr rfl) fun stack rest => ?_
    rw [append_assoc, ht.barred_append, hts.barred_append]
    rfl
  | .record ht _ hes, stack, rest => by
    rw [← append_assoc]
    refine barred_brackets _ rfl rfl (.inr rfl) fun stack rest => ?_
    rw [append_assoc, ht.barred_append, hes.barred_append]
    rfl
  | .negative ht _, stack, rest => by
    have hminus : ∀ stack rest, barred stack (.operator "-" :: rest) = barred stack rest := fun stack rest =>
      barred_plain rfl rfl (by decide)
    rw [cons_append, hminus, hminus, ht.barred_append]
  | .apply hf ha _, stack, rest => by
    rw [append_assoc, hf.barred_append, ha.barred_append, hf.barred_append]
    cases stack.isEmpty <;> simp [Bool.or_assoc]
  | .operator (s := s) hl hr hc, stack, rest => by
    have hop : ∀ stack rest, barred stack (.operator s :: rest) = barred stack rest := fun stack rest =>
      barred_plain rfl rfl (by simpa using hc.ne_bar)
    rw [append_assoc, hl.barred_append, cons_append, hop, hr.barred_append, hl.barred_append, hop]
    cases stack.isEmpty <;> simp [Bool.or_assoc]

theorem CasePhrases.barred_append {ls : List Lexeme} {cs : List (Term × Term)} : CasePhrases .lax ls cs →
    ∀ stack rest, barred stack (ls ++ rest) = ((stack.isEmpty && barred [] ls) || barred stack rest)
  | .nil, stack, rest => by
    simp [barred]
  | .cons hc hcs, stack, rest => by
    rw [cons_append, append_assoc, barred_bar, barred_bar, hc.barred_append, hcs.barred_append]
    cases stack.isEmpty <;> rfl

theorem ItemPhrases.barred_append {ls : List Lexeme} {ts : List Term} : ItemPhrases .lax ls ts → ∀ stack rest,
    barred (.rightBracket :: stack) (ls ++ rest) = barred (.rightBracket :: stack) rest
  | .nil, _, _ => rfl
  | .cons hs ht hts, stack, rest => by
    rw [cons_append, append_assoc, barred_separator (by decide) hs, ht.barred_append, hts.barred_append]
    rfl

theorem FieldPhrases.barred_append {ls : List Lexeme} {es : List (String × Term)} : FieldPhrases .lax ls es →
    ∀ stack rest, barred (.rightBrace :: stack) (ls ++ rest) = barred (.rightBrace :: stack) rest
  | .nil, _, _ => rfl
  | .cons hs ht _ hes, stack, rest => by
    rw [cons_append, append_assoc, barred_separator (by decide) hs, ht.barred_append, hes.barred_append]
    rfl

end

end Scrap
