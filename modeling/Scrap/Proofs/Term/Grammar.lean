import Scrap.Proofs.Term.Lexemes

/-! # The grammar of terms

Which tokens make up a term, whatever the strengths of operators. In the strict grammar a parenthesis closes a
parenthesis and commas separate entries, in the lax one other tokens can. One walk with a stack of open brackets tells
whether a lax phrase is strict. -/

namespace Scrap

open List

variable {c l : Lexeme} {t : Term}

/-- What closes a parenthesis, and what separates entries before a closing bracket. -/
structure Punctuation where
  closes : Lexeme → Prop
  separates (closing separator : Lexeme) : Prop

namespace Punctuation

def strict : Punctuation where
  closes l := l = .rightParen
  separates _ l := l = .operator ","

/-- Any closing bracket closes a parenthesis, and separates entries if it is not the one that closes them; so do
dots. -/
def lax : Punctuation where
  closes l := l.isCloser = true
  separates closing l := l = .operator "," ∨ l = .operator "..." ∨ (l.isCloser = true ∧ l ≠ closing)

end Punctuation

/-- The term of an operator and its operands. -/
inductive Combined : String → Term → Term → Term → Prop
  | assign {i : Nat} {x : String} {r : Term} : Combined "=" (.var i x) r (.assign 0 x r)
  | function {l r : Term} : Combined "->" l r (.function 0 l r)
  | pipe {l r : Term} : Combined "|>" l r (.apply 0 r l)
  | reversePipe {l r : Term} : Combined "<|" l r (.apply 0 l r)
  | andThen {x : String} {l r : Term} : Combined ">>" l r (Parser.composed x l r)
  | after {x : String} {l r : Term} : Combined "<<" l r (Parser.composed x r l)
  | scope {l r : Term} : Combined "." l r (.scope 0 l r)
  | assert {l r : Term} : Combined "?" l r (.assert 0 l r)
  | access {l r : Term} : Combined "@" l r (.access 0 l r)
  | binop {s : String} {op : BinaryOp} {l r : Term} : BinaryOp.ofSymbol? s = some op →
      Combined s l r (.binop 0 op l r)

mutual

/-- The tokens make up the term. -/
inductive Phrase (P : Punctuation) : List Lexeme → Term → Prop
  | int {n : Int} : Phrase P [.int n] (.int 0 n)
  | float {x : Binary64} : Phrase P [.float x] (.float 0 x)
  | name {x : String} : Phrase P [.name x] (.var 0 x)
  | string {s : String} : Phrase P [.string s] (.string 0 s)
  | bytes {text : String} {base : Int} {bs : List UInt8} : Text.unarmor? base text = some (.ok bs) →
      Phrase P [.bytes text base] (.bytes 0 bs)
  | variant {x : String} {ls : List Lexeme} {v : Term} : Phrase P ls v →
      Phrase P (.hash :: .name x :: ls) (.variant 0 x v)
  | spread : Phrase P [.operator "..."] (.spread 0 none)
  | namedSpread {x : String} : Phrase P [.operator "...", .name x] (.spread 0 (some x))
  | matchFunction {ls ls' : List Lexeme} {i : Nat} {p b : Term} {cs : List (Term × Term)} :
      Phrase P ls (.function i p b) → CasePhrases P ls' cs →
      Phrase P (.operator "|" :: (ls ++ ls')) (.matchFunction 0 ((p, b) :: cs))
  | hole : Phrase P [.leftParen, .rightParen] (.hole 0)
  | paren {ls : List Lexeme} {l : Lexeme} {t : Term} : Phrase P ls t → P.closes l →
      Phrase P (.leftParen :: (ls ++ [l])) t
  | emptyList : Phrase P [.leftBracket, .rightBracket] (.list 0 [])
  | list {ls ls' : List Lexeme} {t : Term} {ts : List Term} : Phrase P ls t → ItemPhrases P ls' ts →
      Phrase P (.leftBracket :: (ls ++ (ls' ++ [.rightBracket]))) (.list 0 (t :: ts))
  | emptyRecord : Phrase P [.leftBrace, .rightBrace] (.record 0 [])
  | record {ls ls' : List Lexeme} {t : Term} {e : String × Term} {es : List (String × Term)} : Phrase P ls t →
      Parser.entryOf t = pure e → FieldPhrases P ls' es →
      Phrase P (.leftBrace :: (ls ++ (ls' ++ [.rightBrace]))) (.record 0 (Dict.ofEntries (e :: es)))
  | negative {ls : List Lexeme} {t u : Term} :
      Phrase P ls t → Parser.negated t = pure u → Phrase P (.operator "-" :: ls) u
  | apply {ls ls' : List Lexeme} {l : Lexeme} {f a : Term} : Phrase P ls f → Phrase P (l :: ls') a →
      l.isOperator = false → Phrase P (ls ++ l :: ls') (.apply 0 f a)
  | operator {ls ls' : List Lexeme} {s : String} {l r t : Term} : Phrase P ls l → Phrase P ls' r → Combined s l r t →
      Phrase P (ls ++ .operator s :: ls') t

inductive CasePhrases (P : Punctuation) : List Lexeme → List (Term × Term) → Prop
  | nil : CasePhrases P [] []
  | cons {ls ls' : List Lexeme} {i : Nat} {p b : Term} {cs : List (Term × Term)} : Phrase P ls (.function i p b) →
      CasePhrases P ls' cs → CasePhrases P (.operator "|" :: (ls ++ ls')) ((p, b) :: cs)

inductive ItemPhrases (P : Punctuation) : List Lexeme → List Term → Prop
  | nil : ItemPhrases P [] []
  | cons {s : Lexeme} {ls ls' : List Lexeme} {t : Term} {ts : List Term} : P.separates .rightBracket s →
      Phrase P ls t → ItemPhrases P ls' ts → ItemPhrases P (s :: (ls ++ ls')) (t :: ts)

inductive FieldPhrases (P : Punctuation) : List Lexeme → List (String × Term) → Prop
  | nil : FieldPhrases P [] []
  | cons {s : Lexeme} {ls ls' : List Lexeme} {t : Term} {e : String × Term} {es : List (String × Term)} :
      P.separates .rightBrace s → Phrase P ls t → Parser.entryOf t = pure e → FieldPhrases P ls' es →
      FieldPhrases P (s :: (ls ++ ls')) (e :: es)

end

theorem Phrase.ne_nil {P : Punctuation} {ls : List Lexeme} (h : Phrase P ls t) : ls ≠ [] := by
  cases h <;> simp

/-! ### Brackets -/

/-- What has to close an opening bracket. -/
def Lexeme.closing? : Lexeme → Option Lexeme
  | .leftParen => some .rightParen
  | .leftBracket => some .rightBracket
  | .leftBrace => some .rightBrace
  | _ => none

/-- Whether a token is an operand by itself. -/
def Lexeme.isAtom : Lexeme → Bool
  | .int _ | .float _ | .string _ | .bytes _ _ | .name _ => true
  | _ => false

/-- Every opening bracket is closed by its own kind, in properly nested order, as are those already open. -/
def balanced (stack : List Lexeme) : List Lexeme → Bool
  | [] => stack.isEmpty
  | l :: ls =>
    match l.closing? with
    | some c => balanced (c :: stack) ls
    | none => if l.isCloser then stack.head? = some l && balanced stack.tail ls else balanced stack ls

/-- What was read last: something that an operand follows, the sign of a variant, or an operand. -/
inductive Mode where
  | before | tag | after
deriving DecidableEq

def Mode.next (mode : Mode) : Lexeme → Mode
  | .operator s => if s = "..." then .after else .before
  | .hash => .tag
  | _ => if mode = .tag then .before else .after

/-- The brackets are balanced, and no dots stand behind an operand. -/
def punctuated (stack : List Lexeme) (mode : Mode) : List Lexeme → Bool
  | [] => stack.isEmpty
  | l :: ls =>
    match l.closing? with
    | some c => punctuated (c :: stack) .before ls
    | none =>
      if l.isCloser then stack.head? = some l && punctuated stack.tail .after ls
      else !(l = .operator "..." && mode = .after) && punctuated stack (mode.next l) ls

theorem balanced_of_punctuated {ls : List Lexeme} {stack : List Lexeme} {mode : Mode}
    (h : punctuated stack mode ls = true) : balanced stack ls = true := by
  induction ls generalizing stack mode with
  | nil => exact h
  | cons l ls ih =>
    unfold punctuated at h
    unfold balanced
    cases hl : l.closing? with
    | some c =>
      rw [hl] at h
      exact ih h
    | none =>
      rw [hl] at h
      cases hc : l.isCloser with
      | true =>
        simp only [hc, if_true, Bool.and_eq_true] at h ⊢
        exact ⟨h.1, ih h.2⟩
      | false =>
        simp only [hc, Bool.false_eq_true, if_false, Bool.and_eq_true] at h ⊢
        exact ih h.2

section Punctuated
variable {stack ls rest : List Lexeme} {mode : Mode}

theorem punctuated_closer (hl : l.isCloser = true) :
    punctuated stack mode (l :: rest) = (decide (stack.head? = some l) && punctuated stack.tail .after rest) := by
  cases l <;> first | rfl | cases hl

theorem punctuated_open (hl : l.closing? = some c) :
    punctuated stack mode (l :: rest) = punctuated (c :: stack) .before rest := by
  cases l <;> cases hl <;> rfl

theorem punctuated_close (mode : Mode) (hc : c.isCloser = true) :
    punctuated (c :: stack) mode (c :: rest) = punctuated stack .after rest := by
  simp [punctuated_closer hc]

theorem punctuated_atom (hm : mode ≠ .tag) (h : punctuated stack mode (l :: rest) = true) (hl : l.isAtom = true) :
    punctuated stack .after rest = true := by
  cases mode with
  | tag => exact absurd rfl hm
  | _ => cases l <;> first | exact h | cases hl

theorem punctuated_infix {s : String} (hs : s ≠ "...") :
    punctuated stack mode (.operator s :: rest) = punctuated stack .before rest := by
  simp [punctuated, Lexeme.closing?, Lexeme.isCloser, hs, Mode.next]

theorem punctuated_dots (h : punctuated stack mode (.operator "..." :: rest) = true) :
    punctuated stack .after rest = true := by
  cases mode with
  | after => cases h
  | _ => exact h

theorem punctuated_after (hl : l.isOperator = false) :
    punctuated stack .after (l :: rest) = punctuated stack .before (l :: rest) := by
  cases l <;> first | rfl | cases hl

theorem Combined.ne_dots {s : String} {l r : Term} (h : Combined s l r t) : s ≠ "..." := by
  cases h with
  | binop hs =>
    rintro rfl
    cases hs
  | _ => decide

theorem closes_of_punctuated (hl : l.isCloser = true) (h : punctuated (c :: stack) mode (l :: rest) = true) :
    l = c ∧ punctuated stack .after rest = true := by
  rw [punctuated_closer hl] at h
  simp only [head?_cons, Option.some.injEq, Bool.and_eq_true, decide_eq_true_eq, tail_cons] at h
  exact ⟨h.1.symm, h.2⟩

theorem separates_of_punctuated {s : Lexeme} (hs : Punctuation.lax.separates c s)
    (h : punctuated (c :: stack) .after (s :: rest) = true) :
    s = .operator "," ∧ punctuated (c :: stack) .before rest = true := by
  rcases hs with rfl | rfl | ⟨hcl, hne⟩
  · exact ⟨rfl, h⟩
  · cases h
  · exact absurd (closes_of_punctuated hcl h).1 hne

end Punctuated

mutual

/-- What is punctuated is a strict phrase, and the walk goes on behind it. -/
theorem Phrase.strict {ls : List Lexeme} {t : Term} : Phrase .lax ls t → ∀ {stack rest : List Lexeme} {mode : Mode},
    mode ≠ .tag → punctuated stack mode (ls ++ rest) = true →
      Phrase .strict ls t ∧ punctuated stack .after rest = true
  | .int, _, _, _, hm, hp => ⟨.int, punctuated_atom hm hp rfl⟩
  | .float, _, _, _, hm, hp => ⟨.float, punctuated_atom hm hp rfl⟩
  | .name, _, _, _, hm, hp => ⟨.name, punctuated_atom hm hp rfl⟩
  | .string, _, _, _, hm, hp => ⟨.string, punctuated_atom hm hp rfl⟩
  | .bytes hb, _, _, _, hm, hp => ⟨.bytes hb, punctuated_atom hm hp rfl⟩
  | .variant hv, _, _, _, _, hp => by
    obtain ⟨hv', hp⟩ := hv.strict (show Mode.before ≠ .tag by decide) hp
    exact ⟨.variant hv', hp⟩
  | .spread, _, _, _, _, hp => ⟨.spread, punctuated_dots hp⟩
  | .namedSpread, _, _, _, _, hp => ⟨.namedSpread, punctuated_dots hp⟩
  | .matchFunction hc hcs, _, _, _, _, hp => by
    rw [cons_append, append_assoc, punctuated_infix (by decide)] at hp
    obtain ⟨hc', hp⟩ := hc.strict (by decide) hp
    obtain ⟨hcs', hp⟩ := hcs.strict hp
    exact ⟨.matchFunction hc' hcs', hp⟩
  | .hole, _, _, _, _, hp => ⟨.hole, hp⟩
  | .paren ht hcl, _, _, _, _, hp => by
    rw [cons_append, append_assoc, punctuated_open rfl] at hp
    obtain ⟨ht', hp⟩ := ht.strict (by decide) hp
    obtain ⟨rfl, hp⟩ := closes_of_punctuated hcl hp
    exact ⟨.paren ht' rfl, hp⟩
  | .emptyList, _, _, _, _, hp => ⟨.emptyList, hp⟩
  | .list ht hts, _, _, _, _, hp => by
    rw [cons_append, append_assoc, append_assoc, punctuated_open rfl] at hp
    obtain ⟨ht', hp⟩ := ht.strict (by decide) hp
    obtain ⟨hts', hp⟩ := hts.strict hp
    exact ⟨.list ht' hts', (closes_of_punctuated rfl hp).2⟩
  | .emptyRecord, _, _, _, _, hp => ⟨.emptyRecord, hp⟩
  | .record ht he hes, _, _, _, _, hp => by
    rw [cons_append, append_assoc, append_assoc, punctuated_open rfl] at hp
    obtain ⟨ht', hp⟩ := ht.strict (by decide) hp
    obtain ⟨hes', hp⟩ := hes.strict hp
    exact ⟨.record ht' he hes', (closes_of_punctuated rfl hp).2⟩
  | .negative ht hn, _, _, _, _, hp => by
    rw [cons_append, punctuated_infix (by decide)] at hp
    obtain ⟨ht', hp⟩ := ht.strict (by decide) hp
    exact ⟨.negative ht' hn, hp⟩
  | .apply hf ha hop, _, _, _, hm, hp => by
    rw [append_assoc] at hp
    obtain ⟨hf', hp⟩ := hf.strict hm hp
    obtain ⟨ha', hp⟩ := ha.strict (by decide) hp
    exact ⟨.apply hf' ha' hop, hp⟩
  | .operator hl hr hc, _, _, _, hm, hp => by
    rw [append_assoc] at hp
    obtain ⟨hl', hp⟩ := hl.strict hm hp
    rw [cons_append, punctuated_infix hc.ne_dots] at hp
    obtain ⟨hr', hp⟩ := hr.strict (by decide) hp
    exact ⟨.operator hl' hr' hc, hp⟩

theorem CasePhrases.strict {ls : List Lexeme} {cs : List (Term × Term)} : CasePhrases .lax ls cs →
    ∀ {stack rest : List Lexeme}, punctuated stack .after (ls ++ rest) = true →
      CasePhrases .strict ls cs ∧ punctuated stack .after rest = true
  | .nil, _, _, hp => ⟨.nil, hp⟩
  | .cons hc hcs, _, _, hp => by
    rw [cons_append, append_assoc, punctuated_infix (by decide)] at hp
    obtain ⟨hc', hp⟩ := hc.strict (by decide) hp
    obtain ⟨hcs', hp⟩ := hcs.strict hp
    exact ⟨.cons hc' hcs', hp⟩

theorem ItemPhrases.strict {ls : List Lexeme} {ts : List Term} : ItemPhrases .lax ls ts →
    ∀ {stack rest : List Lexeme}, punctuated (.rightBracket :: stack) .after (ls ++ rest) = true →
      ItemPhrases .strict ls ts ∧ punctuated (.rightBracket :: stack) .after rest = true
  | .nil, _, _, hp => ⟨.nil, hp⟩
  | .cons hs ht hts, _, _, hp => by
    rw [cons_append, append_assoc] at hp
    obtain ⟨rfl, hp⟩ := separates_of_punctuated hs hp
    obtain ⟨ht', hp⟩ := ht.strict (by decide) hp
    obtain ⟨hts', hp⟩ := hts.strict hp
    exact ⟨.cons rfl ht' hts', hp⟩

theorem FieldPhrases.strict {ls : List Lexeme} {es : List (String × Term)} : FieldPhrases .lax ls es →
    ∀ {stack rest : List Lexeme}, punctuated (.rightBrace :: stack) .after (ls ++ rest) = true →
      FieldPhrases .strict ls es ∧ punctuated (.rightBrace :: stack) .after rest = true
  | .nil, _, _, hp => ⟨.nil, hp⟩
  | .cons hs ht he hes, _, _, hp => by
    rw [cons_append, append_assoc] at hp
    obtain ⟨rfl, hp⟩ := separates_of_punctuated hs hp
    obtain ⟨ht', hp⟩ := ht.strict (by decide) hp
    obtain ⟨hes', hp⟩ := hes.strict hp
    exact ⟨.cons rfl ht' he hes', hp⟩

end

mutual

theorem Phrase.punctuated_eq {ls : List Lexeme} {t : Term} : Phrase .strict ls t → ∀ stack rest,
    punctuated stack .before (ls ++ rest) = punctuated stack .after rest
  | .int, _, _ | .float, _, _ | .name, _, _ | .string, _, _ | .bytes _, _, _ | .spread, _, _ | .namedSpread, _, _ => rfl
  | .variant hv, stack, rest => hv.punctuated_eq stack rest
  | .matchFunction hc hcs, stack, rest => by
    rw [cons_append, append_assoc, punctuated_infix (by decide), hc.punctuated_eq, hcs.punctuated_eq]
  | .hole, _, _ => punctuated_close .before (show Lexeme.rightParen.isCloser = true from rfl)
  | .emptyList, _, _ => punctuated_close .before (show Lexeme.rightBracket.isCloser = true from rfl)
  | .emptyRecord, _, _ => punctuated_close .before (show Lexeme.rightBrace.isCloser = true from rfl)
  | .paren ht hcl, stack, rest => by
    cases hcl
    rw [cons_append, append_assoc, punctuated_open rfl, ht.punctuated_eq]
    exact punctuated_close .after rfl
  | .list ht hts, stack, rest => by
    rw [cons_append, append_assoc, append_assoc, punctuated_open rfl, ht.punctuated_eq,
      hts.punctuated_eq]
    exact punctuated_close .after rfl
  | .record ht he hes, stack, rest => by
    rw [cons_append, append_assoc, append_assoc, punctuated_open rfl, ht.punctuated_eq,
      hes.punctuated_eq]
    exact punctuated_close .after rfl
  | .negative ht hn, stack, rest => by rw [cons_append, punctuated_infix (by decide), ht.punctuated_eq]
  | .apply hf ha hop, stack, rest => by
    rw [append_assoc, hf.punctuated_eq, cons_append, punctuated_after hop]
    exact ha.punctuated_eq stack rest
  | .operator hl hr hc, stack, rest => by
    rw [append_assoc, hl.punctuated_eq, cons_append, punctuated_infix hc.ne_dots, hr.punctuated_eq]

theorem CasePhrases.punctuated_eq {ls : List Lexeme} {cs : List (Term × Term)} : CasePhrases .strict ls cs →
    ∀ stack rest, punctuated stack .after (ls ++ rest) = punctuated stack .after rest
  | .nil, _, _ => rfl
  | .cons hc hcs, stack, rest => by
    rw [cons_append, append_assoc, punctuated_infix (by decide), hc.punctuated_eq, hcs.punctuated_eq]

theorem ItemPhrases.punctuated_eq {ls : List Lexeme} {ts : List Term} : ItemPhrases .strict ls ts →
    ∀ stack rest, punctuated stack .after (ls ++ rest) = punctuated stack .after rest
  | .nil, _, _ => rfl
  | .cons hs ht hts, stack, rest => by
    cases hs
    rw [cons_append, append_assoc, punctuated_infix (by decide), ht.punctuated_eq, hts.punctuated_eq]

theorem FieldPhrases.punctuated_eq {ls : List Lexeme} {es : List (String × Term)} : FieldPhrases .strict ls es →
    ∀ stack rest, punctuated stack .after (ls ++ rest) = punctuated stack .after rest
  | .nil, _, _ => rfl
  | .cons hs ht he hes, stack, rest => by
    cases hs
    rw [cons_append, append_assoc, punctuated_infix (by decide), ht.punctuated_eq, hes.punctuated_eq]

end

/-- A lax phrase that a closing bracket or nothing follows is strict, with nothing behind it, exactly if the tokens are
punctuated. -/
theorem Phrase.strict_iff {ls rest : List Lexeme} (h : Phrase .lax ls t)
    (hrest : ∀ l, rest.head? = some l → l.isCloser = true) :
    (rest = [] ∧ balanced [] (ls ++ rest) = true ∧ Phrase .strict (ls ++ rest) t) ↔
      punctuated [] .before (ls ++ rest) = true := by
  constructor
  · rintro ⟨rfl, -, hs⟩
    rw [append_nil] at hs ⊢
    have := hs.punctuated_eq [] []
    rwa [append_nil] at this
  · intro hp
    obtain ⟨hs, hp'⟩ := h.strict (by decide) hp
    cases rest with
    | nil => exact ⟨rfl, balanced_of_punctuated hp, by rwa [append_nil]⟩
    | cons l rest =>
      rw [punctuated_closer (hrest l rfl)] at hp'
      cases hp'

end Scrap
