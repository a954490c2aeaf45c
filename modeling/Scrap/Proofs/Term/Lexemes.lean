import Scrap.Proofs.Term.Written

/-! # Tokens of written terms

The tokens of a written term, as a function of the term and its place, are what the scanner reads from the written form
(`scans_written`). -/

namespace Scrap

open List

variable {l : Lexeme} {ls : List Lexeme} {place : Strength} {symbol : String} {cs cs' : List Char} {ls' : List Lexeme}

def Lexeme.isOperator : Lexeme → Bool
  | .operator _ => true
  | _ => false

namespace Term

def parenthesized (b : Binding) (place : Strength) (ls : List Lexeme) : List Lexeme :=
  if b.left ≤ place then .leftParen :: (ls ++ [.rightParen]) else ls

mutual

/-- The tokens of a term at a place of the given strength. -/
def lexemes : Term → Strength → List Lexeme
  | .int _ n, _ => [.int n]
  | .string _ s, _ => [.string s]
  | .var _ x, _ => [.name x]
  | .hole _, _ => [.leftParen, .rightParen]
  | .spread _ x, _ => .operator "..." :: x.toList.map .name
  | .list _ items, _ => .leftBracket :: (List.intercalate [.operator ","] (itemLexemes items) ++ [.rightBracket])
  | .record _ fields, _ => .leftBrace :: (List.intercalate [.operator ","] (fieldLexemes fields) ++ [.rightBrace])
  | .assign _ x v, p =>
    let b := Operator.binding "="
    parenthesized b p ([.name x] ++ .operator "=" :: lexemes v b.right)
  | .binop _ op l r, p =>
    let b := Operator.binding op.symbol
    parenthesized b p (lexemes l b.left ++ .operator op.symbol :: lexemes r b.right)
  | .function _ (.var _ x) body, p =>
    let b := Operator.binding "->"
    parenthesized b p ([.name x] ++ .operator "->" :: lexemes body b.right)
  | .matchFunction _ cases, p => parenthesized (Operator.binding "|") p (caseLexemes cases).flatten
  | .scope _ body d, p =>
    let b := Operator.binding "."
    parenthesized b p (lexemes body b.left ++ .operator "." :: lexemes d b.right)
  | .apply _ f a, p =>
    let b := Operator.juxtaposition
    parenthesized b p (lexemes f b.left ++ lexemes a b.right)
  | .access _ o f, p =>
    let b := Operator.binding "@"
    parenthesized b p (lexemes o b.left ++ .operator "@" :: lexemes f b.right)
  | _, _ => []

def itemLexemes : List Term → List (List Lexeme)
  | [] => []
  | t :: ts => lexemes t 0 :: itemLexemes ts

def fieldLexemes : List (String × Term) → List (List Lexeme)
  | [] => []
  | (k, t) :: fs => ([.name k] ++ .operator "=" :: lexemes t 0) :: fieldLexemes fs

def caseLexemes : List (Term × Term) → List (List Lexeme)
  | [] => []
  | (p, b) :: cs =>
    let binding := Operator.binding "|"
    (.operator "|" :: (lexemes p binding.left ++ .operator "->" :: lexemes b binding.right)) :: caseLexemes cs

end

/-! ### The first token -/

/-- Tokens that do not begin with a closing bracket, and with an operator only where a match function needs no
parentheses. -/
def Opens (place : Strength) (ls : List Lexeme) : Prop :=
  ∃ l more, ls = l :: more ∧ l.isCloser = false ∧ (l.isOperator = true → place < (Operator.binding "|").left)

theorem Opens.ne_nil (h : Opens place ls) : ls ≠ [] := by
  obtain ⟨l, more, rfl, -⟩ := h
  exact cons_ne_nil l more

theorem Opens.append (h : Opens place ls) (ls' : List Lexeme) : Opens place (ls ++ ls') := by
  obtain ⟨l, more, rfl, hl⟩ := h
  exact ⟨l, more ++ ls', rfl, hl⟩

theorem Opens.parenthesized {b : Binding}
    (h : place < b.left → Opens place ls) : Opens place (parenthesized b place ls) := by
  unfold Term.parenthesized
  split
  · exact ⟨.leftParen, _, rfl, rfl, nofun⟩
  · rename_i hle
    exact h (Int.not_le.mp hle)

theorem Opens.mono {place' : Strength} (h : Opens place' ls) (hle : place ≤ place') : Opens place ls := by
  obtain ⟨l, more, rfl, hl, hop⟩ := h
  exact ⟨l, more, rfl, hl, fun h => Int.lt_of_le_of_lt hle (hop h)⟩

theorem opens_atom (hl : l.isCloser = false) (hop : l.isOperator = false) (more : List Lexeme) :
    Opens place (l :: more) :=
  ⟨l, more, rfl, hl, fun h => absurd h (by rw [hop]; exact Bool.false_ne_true)⟩

theorem opens_lexemes (t : Term) (ht : t.isWritable = true) (place : Strength) : Opens place (lexemes t place) := by
  cases t with
  | int i n | string i s | var i x | hole i | list i items | record i fields => exact opens_atom rfl rfl _
  | assign i x v => exact .parenthesized fun _ => opens_atom rfl rfl _
  | function i p b =>
    cases p <;> simp only [isWritable, Bool.false_eq_true] at ht
    exact .parenthesized fun _ => opens_atom rfl rfl _
  | binop i op l r =>
    simp only [isWritable, Bool.and_eq_true] at ht
    exact .parenthesized fun hlt => ((opens_lexemes l ht.1.2 _).mono (Int.le_of_lt hlt)).append _
  | scope i l r | apply i l r | access i l r =>
    simp only [isWritable, Bool.and_eq_true] at ht
    exact .parenthesized fun hlt => ((opens_lexemes l ht.1 _).mono (Int.le_of_lt hlt)).append _
  | matchFunction i cases =>
    cases cases with
    | nil => cases ht
    | cons c cs => exact .parenthesized fun hlt => ⟨.operator "|", _, rfl, rfl, fun _ => hlt⟩
  | _ => cases ht
termination_by structural t

end Term

/-! ### The written form is read as these tokens -/

namespace Scanner

open Term Text

theorem Scans.space (h : Scans cs ls) (h' : Scans cs' ls') (hne : ls' ≠ []) : Scans (cs ++ ' ' :: cs') (ls ++ ls') := by
  intro rest hrest
  rw [append_assoc, cons_append]
  exact (h _ rfl).append (.blank rfl hne (h' rest hrest))

theorem Scans.operator (hs : symbol ∈ spaced) (h : Scans cs ls) (hne : ls ≠ []) :
    Scans (symbol.toList ++ ' ' :: cs) (.operator symbol :: ls) := by
  intro rest hrest
  rw [append_assoc, cons_append]
  have hsymbol : symbol.toList ≠ [] := by
    have hall : ∀ s ∈ spaced, s.toList ≠ [] := by decide
    exact hall symbol hs
  exact (Yields.one (reads_spaced hs _) hsymbol nofun).append (.blank rfl hne (h rest hrest))

theorem scans_bracketed {a b : Char} {l' : Lexeme} (ha : bracket? a = some l) (hb : bracket? b = some l')
    (h : ∀ rest, Yields (cs ++ b :: rest) ls (b :: rest)) : Scans (a :: (cs ++ [b])) (l :: (ls ++ [l'])) := by
  intro rest _
  have hne : ∀ {c l}, bracket? c = some l → l ≠ Lexeme.endOfInput := by
    intro c l hc heq
    unfold bracket? at hc
    split at hc <;> cases hc <;> cases heq
  rw [cons_append, append_assoc, singleton_append]
  have hclose : Yields ([b] ++ rest) [l'] rest := .one (reads_bracket hb rest) (cons_ne_nil b []) (hne hb)
  exact .cons (reads_bracket ha _) (hne ha) (by simp) ((h rest).append hclose)

theorem scans_int {n : Int} (hn : isNumeral n = true) : Scans (Decimal.intText n).toList [.int n] := by
  rw [Term.isNumeral, Bool.and_eq_true, decide_eq_true_eq, intText?] at hn
  obtain ⟨k, rfl⟩ := Int.eq_ofNat_of_zero_le hn.1
  rw [Int.natAbs_natCast] at hn
  have hk : k < Nat.pow 10 maxDigits := by
    by_contra hle
    rw [if_pos (Nat.not_lt.mp hle)] at hn
    cases hn.2
  have htext : (Decimal.intText k).toList = Nat.toDigits 10 k := by
    rw [Decimal.intText, if_neg (Int.not_lt.mpr hn.1), Decimal.natText, String.toList_ofList]
    rfl
  intro rest hrest
  rw [htext]
  refine .one (reads_int hk fun c r hr => ?_) Nat.toDigits_ne_nil (by simp)
  rw [hr] at hrest
  exact (isBreak_head hrest).2

theorem escapedChar_plain {c : Char} (hc : (32 ≤ c.toNat && c.toNat ≤ 126 && c ≠ '"' && c ≠ '\\') = true) :
    escapedChar c = c.toString := by
  simp only [Bool.and_eq_true, decide_eq_true_eq] at hc
  obtain ⟨⟨⟨hlow, hhigh⟩, hquote⟩, hback⟩ := hc
  have hletter : letterEscape? c = none := by
    unfold letterEscape?
    split <;> first | rfl | contradiction
  unfold escapedChar
  simp only [hletter, hlow, hhigh, decide_true, Bool.and_self, if_true]

theorem scans_string {s : String} (hs : isPlainText s = true) : Scans (escaped s).toList [.string s] := by
  have hall := all_eq_true.mp hs
  have hjoin : (s.toList.map escapedChar).flatMap String.toList = s.toList := by
    rw [flatMap_map]
    exact (flatMap_congr fun c hc => by rw [escapedChar_plain (hall c hc), Char.toString, String.toList_singleton]).trans
      (flatMap_singleton' _)
  have htext : (escaped s).toList = '"' :: s.toList ++ ['"'] := by
    rw [escaped, String.toList_append, String.toList_append, String.toList_join, hjoin]
    rfl
  have hquote : s.toList.all (· ≠ '"') = true := by
    rw [all_eq_true]
    intro c hc
    have := hall c hc
    simp only [Bool.and_eq_true] at this
    exact this.1.2
  intro rest _
  rw [htext]
  refine .one ?_ (cons_ne_nil _ _) nofun
  rw [append_assoc]
  exact reads_string hquote rest

theorem scans_spread {x : Option String} (hx : x.all isName = true) :
    Scans ("..." ++ x.getD "").toList (.operator "..." :: x.toList.map .name) := by
  intro rest hrest
  have hdots : ∀ rest, Yields ("...".toList ++ rest) [.operator "..."] rest := fun rest =>
    .one (reads_dots rest) (by decide) nofun
  rw [String.toList_append, append_assoc]
  cases x with
  | none => exact hdots rest
  | some x => exact (hdots _).append (scans_name hx rest hrest)

theorem scans_enclosed {b : Binding} {s : String} (h : Scans s.toList ls) :
    Scans (Printer.enclosed b place s).toList (parenthesized b place ls) := by
  unfold Printer.enclosed parenthesized
  split
  · rw [String.toList_append, String.toList_append]
    exact scans_bracketed (a := '(') (b := ')') rfl rfl fun rest => h _ rfl
  · exact h

theorem scans_intercalate {sep : String} {seps : List Lexeme}
    (hbreak : ∀ rest, isBreak (sep.toList ++ rest) = true)
    (hsep : ∀ {cs ls cs'}, ls ≠ [] → Yields cs ls cs' → Yields (sep.toList ++ cs) (seps ++ ls) cs')
    {texts : List String} {lists : List (List Lexeme)}
    (h : Forall₂ (fun s ls => ls ≠ [] ∧ Scans s.toList ls) texts lists) :
    Scans (String.intercalate sep texts).toList (List.intercalate seps lists) := by
  rw [String.toList_intercalate]
  induction h with
  | nil => exact fun rest _ => .nil rest
  | @cons s ls texts lists hs htail ih =>
    cases htail with
    | nil =>
      rw [map_cons, map_nil, intercalate_singleton, intercalate_singleton]
      exact hs.2
    | @cons s' ls' texts' lists' hs' htail =>
      have hne : List.intercalate seps (ls' :: lists') ≠ [] := by
        cases lists' with
        | nil =>
          rw [intercalate_singleton]
          exact hs'.1
        | cons l lists =>
          rw [intercalate_cons_cons, append_assoc]
          exact append_ne_nil_of_left_ne_nil hs'.1 _
      intro rest hrest
      rw [map_cons, map_cons, intercalate_cons_cons, intercalate_cons_cons, append_assoc,
        append_assoc, append_assoc]
      exact (hs.2 _ (hbreak _)).append (hsep hne (ih rest hrest))

theorem Yields.comma (hne : ls ≠ []) (h : Yields cs ls cs') :
    Yields (", ".toList ++ cs) ([.operator ","] ++ ls) cs' := by
  have hcomma : Yields (",".toList ++ ' ' :: cs) [.operator ","] (' ' :: cs) :=
    .one (reads_spaced (by decide) cs) (by decide) nofun
  exact hcomma.append (.blank rfl hne h)

theorem Yields.line (hne : ls ≠ []) (h : Yields cs ls cs') :
    Yields ("\n".toList ++ cs) ([] ++ ls) cs' := .blank rfl hne h

theorem scans_between {mid : String} (hs : symbol ∈ spaced) (hmid : mid = " " ++ symbol ++ " ") {l r : String}
    (hl : Scans l.toList ls) (hr : Scans r.toList ls') (hne : ls' ≠ []) :
    Scans (l ++ mid ++ r).toList (ls ++ .operator symbol :: ls') := by
  have htext : (l ++ mid ++ r).toList = l.toList ++ ' ' :: (symbol.toList ++ ' ' :: r.toList) := by
    rw [hmid, String.toList_append, String.toList_append, String.toList_append, String.toList_append]
    simp
  rw [htext]
  exact hl.space (.operator hs hr hne) (cons_ne_nil _ _)

theorem intercalate_nil (lists : List (List Lexeme)) : List.intercalate [] lists = lists.flatten := by
  induction lists with
  | nil => rfl
  | cons l lists ih =>
    cases lists with
    | nil => rw [intercalate_singleton, flatten_singleton]
    | cons l' lists => rw [intercalate_cons_cons, ih, append_nil, ← flatten_cons]

theorem symbol_mem_spaced {op : BinaryOp} (h : op.isWritten = true) : op.symbol ∈ spaced := by
  cases op <;> first | (cases h; done) | decide

theorem scans_hole : Scans "()".toList [.leftParen, .rightParen] := by
  have h : Scans ('(' :: ([] ++ [')'])) (.leftParen :: ([] ++ [.rightParen])) := scans_bracketed rfl rfl fun _ => .nil _
  exact h

mutual

theorem scans_written (t : Term) (ht : t.isWritable = true) (place : Strength) :
    Scans (written t place).toList (lexemes t place) := by
  cases t with
  | int i n =>
    rw [written, lexemes]
    exact scans_int ht
  | string i s =>
    rw [written, lexemes]
    exact scans_string ht
  | var i x =>
    rw [written, lexemes]
    exact scans_name ht
  | hole i =>
    rw [written, lexemes]
    exact scans_hole
  | list i items =>
    rw [written, lexemes, String.toList_append, String.toList_append]
    exact scans_bracketed (a := '[') (b := ']') rfl rfl fun rest =>
      scans_intercalate (fun _ => rfl) .comma (scans_items items ht) _ rfl
  | record i fields =>
    rw [isWritable, Bool.and_eq_true] at ht
    rw [written, lexemes, String.toList_append, String.toList_append]
    exact scans_bracketed (a := '\x7b') (b := '\x7d') rfl rfl fun rest =>
      scans_intercalate (fun _ => rfl) .comma (scans_fields fields ht.2) _ rfl
  | assign i x v =>
    rw [isWritable, Bool.and_eq_true] at ht
    rw [written, lexemes]
    exact scans_enclosed (scans_between (by decide) (by decide) (scans_name ht.1) (scans_written v ht.2 _)
      (opens_lexemes v ht.2 _).ne_nil)
  | function i p b =>
    cases p <;> simp only [isWritable, Bool.false_eq_true, Bool.and_eq_true] at ht
    rw [written, lexemes]
    exact scans_enclosed (scans_between (by decide) (by decide) (scans_name ht.1) (scans_written b ht.2 _)
      (opens_lexemes b ht.2 _).ne_nil)
  | binop i op l r =>
    simp only [isWritable, Bool.and_eq_true] at ht
    rw [written, lexemes]
    refine scans_enclosed ?_
    have hmid : ∀ l r : String, l ++ " " ++ op.symbol ++ " " ++ r = l ++ (" " ++ op.symbol ++ " ") ++ r := fun l r => by
      simp only [String.append_assoc]
    rw [hmid]
    exact scans_between (symbol_mem_spaced ht.1.1) rfl (scans_written l ht.1.2 _) (scans_written r ht.2 _)
      (opens_lexemes r ht.2 _).ne_nil
  | scope i l r | access i l r =>
    rw [isWritable, Bool.and_eq_true] at ht
    rw [written, lexemes]
    exact scans_enclosed (scans_between (by decide) (by decide) (scans_written l ht.1 _) (scans_written r ht.2 _)
      (opens_lexemes r ht.2 _).ne_nil)
  | apply i l r =>
    rw [isWritable, Bool.and_eq_true] at ht
    rw [written, lexemes]
    refine scans_enclosed ?_
    rw [String.toList_append, String.toList_append, append_assoc]
    exact (scans_written l ht.1 _).space (scans_written r ht.2 _) (opens_lexemes r ht.2 _).ne_nil
  | matchFunction i cases =>
    rw [isWritable, Bool.and_eq_true] at ht
    rw [written, lexemes, ← intercalate_nil]
    exact scans_enclosed (scans_intercalate (fun _ => rfl) .line (scans_cases cases ht.2))
  | _ => cases ht
termination_by structural t

theorem scans_items (ts : List Term) (ht : areItems ts = true) :
    Forall₂ (fun s ls => ls ≠ [] ∧ Scans s.toList ls) (writtenItems ts) (itemLexemes ts) := by
  cases ts with
  | nil => exact .nil
  | cons t ts =>
    rw [writtenItems, itemLexemes]
    by_cases hspread : ∃ i x, t = .spread i x
    · obtain ⟨i, x, rfl⟩ := hspread
      rw [areItems, Bool.and_eq_true, List.isEmpty_iff] at ht
      obtain ⟨hx, rfl⟩ := ht
      rw [written, lexemes]
      exact .cons ⟨cons_ne_nil _ _, scans_spread hx⟩ .nil
    · rw [areItems, Bool.and_eq_true] at ht
      · exact .cons ⟨(opens_lexemes t ht.1 0).ne_nil, scans_written t ht.1 0⟩ (scans_items ts ht.2)
      · exact fun i x heq => hspread ⟨i, x, heq⟩
termination_by structural ts

theorem scans_fields (fs : List (String × Term)) (hf : areFields fs = true) :
    Forall₂ (fun s ls => ls ≠ [] ∧ Scans s.toList ls) (writtenFields fs) (fieldLexemes fs) := by
  cases fs with
  | nil => exact .nil
  | cons f fs =>
    obtain ⟨k, t⟩ := f
    simp only [areFields, Bool.and_eq_true] at hf
    rw [writtenFields, fieldLexemes]
    refine .cons ⟨cons_ne_nil _ _, ?_⟩ (scans_fields fs hf.2)
    exact scans_between (by decide) (by decide) (scans_name hf.1.1.1) (scans_written t hf.1.1.2 0)
      (opens_lexemes t hf.1.1.2 0).ne_nil
termination_by structural fs

theorem scans_cases (cs : List (Term × Term)) (hc : areCases cs = true) :
    Forall₂ (fun s ls => ls ≠ [] ∧ Scans s.toList ls) (writtenCases cs) (caseLexemes cs) := by
  cases cs with
  | nil => exact .nil
  | cons c cs =>
    obtain ⟨p, b⟩ := c
    simp only [areCases, Bool.and_eq_true] at hc
    rw [writtenCases, caseLexemes]
    refine .cons ⟨cons_ne_nil _ _, ?_⟩ (scans_cases cs hc.2)
    have hbar : ∀ p b : String, "| " ++ p ++ " -> " ++ b = "| " ++ (p ++ " -> " ++ b) := fun p b => by
      simp only [String.append_assoc]
    rw [hbar, String.toList_append]
    have hcase := scans_between (show "->" ∈ spaced by decide) (show " -> " = _ by decide)
      (scans_written p hc.1.1.1 (Operator.binding "|").left) (scans_written b hc.1.2 (Operator.binding "|").right)
      (opens_lexemes b hc.1.2 _).ne_nil
    exact hcase.operator (show "|" ∈ spaced by decide) (by simp)
termination_by structural cs

end

end Scanner

end Scrap
