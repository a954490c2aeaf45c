import Mathlib.Data.List.TakeWhile
import Scrap.Token.Scanner

/-! # Scanning written tokens

A name, a number, a string, a bracket or an operator is read back from its characters, if what follows cannot go on
with it. -/

namespace Scrap

open List

variable {c : Char} {l : Lexeme} {cs cs' rest : List Char} {ls : List Lexeme} {x : String} {c d : Char}
  {more : List Char} {n : Nat}

/-! ### Characters -/

def Text.isBreak : List Char → Bool
  | [] => true
  | c :: _ => [' ', '\n', ')', ']', '\x7d', ','].contains c

def Text.isName (x : String) : Bool :=
  match x.toList with
  | [] => false
  | c :: cs => isNameChar c && !isDigit c && !isBlank c && cs.all isNameChar

theorem isNameChar_of_hasChar (h : Operator.hasChar c = true) : isNameChar c = false := by
  have hall : (Operator.table.keys.flatMap String.toList).all (fun c => !isNameChar c) = true := by decide +kernel
  obtain ⟨s, hs, hc⟩ := any_eq_true.mp h
  have := all_eq_true.mp hall c (mem_flatMap.mpr ⟨s, hs, by simpa using hc⟩)
  simpa using this

theorem isBreak_head (h : Text.isBreak (c :: cs) = true) : isNameChar c = false ∧ Text.isDigit c = false ∧ c ≠ '.' := by
  have hmem : c ∈ [' ', '\n', ')', ']', '\x7d', ','] := by simpa [Text.isBreak] using h
  have hall : [' ', '\n', ')', ']', '\x7d', ','].all (fun c => !isNameChar c && !Text.isDigit c && c != '.') = true := by
    decide +kernel
  simpa [and_assoc] using all_eq_true.mp hall c hmem

namespace Scanner

@[simp] theorem advance_rest (s : Scanner) (c : Char) : (s.advance c).rest = s.rest.tail := rfl

@[simp] theorem markStart_rest (s : Scanner) : s.markStart.rest = s.rest := rfl

theorem advanceOver_rest (s : Scanner) (cs : List Char) : (s.advanceOver cs).rest = s.rest.drop cs.length := by
  unfold advanceOver
  induction cs generalizing s with
  | nil => rfl
  | cons c cs ih =>
    rw [foldl_cons, ih, advance_rest, drop_tail, length_cons]

/-! ### One token -/

/-- From any place where `cs` is left, the token `l` is read, and `cs'` is left. -/
def Reads (cs : List Char) (l : Lexeme) (cs' : List Char) : Prop :=
  ∀ fuel (s : Scanner), s.rest = cs →
    ∃ e s', s.readTokenWithin (fuel + 1) = (.ok ⟨l, e⟩, s') ∧ s'.rest = cs'

theorem skipBlanks_of_not {s : Scanner} (hs : s.rest = c :: cs) (hc : Text.isBlank c = false) : s.skipBlanks = s := by
  rw [skipBlanks, hs, takeWhile_cons_of_neg (by simp [hc])]
  rfl

theorem Reads.blank (hc : Text.isBlank c = true) (h : Reads cs l cs') : Reads (c :: cs) l cs' := by
  intro fuel s hs
  have hskip : s.skipBlanks = (s.markStart.advance c).skipBlanks := by
    rw [skipBlanks, skipBlanks, hs, takeWhile_cons_of_pos hc, foldl_cons, advance_rest, markStart_rest, hs]
    rfl
  obtain ⟨e, s', hread, hrest⟩ := h fuel (s.markStart.advance c) (by rw [advance_rest, markStart_rest, hs]; rfl)
  refine ⟨e, s', ?_, hrest⟩
  rw [← hread, readTokenWithin, readTokenWithin, hskip]

theorem Reads.of_readFrom (hc : Text.isBlank c = false) (hdash : c ≠ '-' ∨ cs.head? ≠ some '-')
    (h : ∀ s : Scanner, s.rest = cs → ∃ e s', s.readFrom c = (.ok ⟨l, e⟩, s') ∧ s'.rest = cs') :
    Reads (c :: cs) l cs' := by
  intro fuel s hs
  obtain ⟨e, s', hread, hrest⟩ := h (s.markStart.advance c) (by rw [advance_rest, markStart_rest, hs]; rfl)
  refine ⟨e, s', ?_, hrest⟩
  rw [readTokenWithin, skipBlanks_of_not hs hc, hs]
  have hno : (c = '-' && cs.head? = some '-') = false := by
    rcases hdash with h | h <;> simp [h]
  simp only [hno, Bool.false_eq_true, if_false]
  exact hread

theorem takeWhile_of_break {p : Char → Bool} (h : cs.all p = true) (hrest : ∀ c r, rest = c :: r → p c = false) :
    (cs ++ rest).takeWhile p = cs := by
  rw [takeWhile_append_of_pos (by simpa using h)]
  cases rest with
  | nil => simp
  | cons c r => rw [takeWhile_cons_of_neg (by simp [hrest c r rfl]), append_nil]

theorem reads_name (hx : Text.isName x = true) (hrest : ∀ c r, rest = c :: r → isNameChar c = false) :
    Reads (x.toList ++ rest) (.name x) rest := by
  unfold Text.isName at hx
  cases hcs : x.toList with
  | nil => rw [hcs] at hx; cases hx
  | cons c cs =>
    simp only [hcs, Bool.and_eq_true, Bool.not_eq_true'] at hx
    obtain ⟨⟨⟨hc, hdigit⟩, hblank⟩, hall⟩ := hx
    have hne : ∀ d, isNameChar d = false → c ≠ d := fun d hd heq => by rw [heq, hd] at hc; cases hc
    refine .of_readFrom hblank (.inl (hne '-' (by decide))) fun s (hs : s.rest = cs ++ rest) => ?_
    have hbracket : bracket? c = none := by
      unfold bracket?
      split <;> first | rfl | exact absurd rfl (hne _ (by decide))
    have hop : Operator.hasChar c = false := by
      cases h : Operator.hasChar c with
      | false => rfl
      | true => rw [isNameChar_of_hasChar h] at hc; cases hc
    have hread : s.readFrom c = (s.advanceOver cs).token (.name x) := by
      rw [readFrom, if_neg (hne '"' (by decide)), if_neg (hne '#' (by decide)), if_neg (hne '~' (by decide)), hdigit,
        hbracket, hop, hc]
      simp only [Bool.false_eq_true, if_false, if_true]
      rw [readName, hs, takeWhile_of_break hall hrest, ← hcs, String.ofList_toList]
    exact ⟨_, _, hread, by rw [advanceOver_rest, hs, drop_left]⟩

theorem reads_bracket {l : Lexeme} (hc : bracket? c = some l) (rest : List Char) : Reads (c :: rest) l rest := by
  have hmem : c ∈ ['(', ')', '[', ']', '\x7b', '\x7d'] := by
    unfold bracket? at hc
    split at hc <;> first | decide | cases hc
  have hall : ['(', ')', '[', ']', '\x7b', '\x7d'].all (fun c => !Text.isBlank c && c != '-' && c != '"' && c != '#' &&
      c != '~' && !Text.isDigit c) = true := by decide +kernel
  obtain ⟨hblank, hdash, hquote, hhash, htilde, hdigit⟩ : Text.isBlank c = false ∧ c ≠ '-' ∧ c ≠ '"' ∧ c ≠ '#' ∧
      c ≠ '~' ∧ Text.isDigit c = false := by
    simpa [and_assoc] using all_eq_true.mp hall c hmem
  refine .of_readFrom hblank (.inl hdash) fun s hs => ⟨s.extent, s, ?_, hs⟩
  rw [readFrom, if_neg hquote, if_neg hhash, if_neg htilde, hdigit, hc]
  rfl

theorem reads_hash (rest : List Char) : Reads ('#' :: rest) .hash rest :=
  .of_readFrom (by decide) (.inl (by decide)) fun s hs => ⟨s.extent, s, rfl, hs⟩

theorem reads_string {s : String} (hs : s.toList.all (· ≠ '"') = true) (rest : List Char) :
    Reads ('"' :: s.toList ++ '"' :: rest) (.string s) rest := by
  refine .of_readFrom (by decide) (.inl (by decide)) fun t ht => ?_
  have htake : t.rest.takeWhile (· ≠ '"') = s.toList := by
    rw [ht]
    exact takeWhile_of_break hs fun c r h => by cases h; rfl
  have hrest : (t.advanceOver s.toList).rest = '"' :: rest := by rw [advanceOver_rest, ht]; simp
  have hread : t.readFrom '"' = ((t.advanceOver s.toList).advance '"').token (.string s) := by
    show t.readString = _
    rw [readString, htake]
    simp only [hrest, String.ofList_toList]
  exact ⟨_, _, hread, by rw [advance_rest, hrest]; rfl⟩

theorem reads_operator (rest : List Char)
    (hsymbol : Operator.table.has (String.ofList (c :: more)) = true) (hc : bracket? c = none)
    (hsafe : Text.isBlank c = false ∧ c ≠ '"' ∧ c ≠ '#' ∧ c ≠ '~' ∧ Text.isDigit c = false ∧ Operator.hasChar c = true)
    (hdash : c ≠ '-' ∨ (more ++ rest).head? ≠ some '-') (htail : operatorTail [c] (more ++ rest) = more) :
    Reads (c :: more ++ rest) (.operator (String.ofList (c :: more))) rest := by
  obtain ⟨hblank, hquote, hhash, htilde, hdigit, hop⟩ := hsafe
  refine .of_readFrom hblank hdash fun s (hs : s.rest = more ++ rest) => ?_
  have hread : s.readFrom c = (s.advanceOver more).token (.operator (String.ofList (c :: more))) := by
    rw [readFrom, if_neg hquote, if_neg hhash, if_neg htilde, hdigit, hc, hop]
    simp only [Bool.false_eq_true, if_false, if_true]
    rw [readOperator, hs, htail]
    simp only [hsymbol, if_true]
  exact ⟨_, _, hread, by rw [advanceOver_rest, hs, drop_left]⟩

/-! ### Numbers -/

end Scanner

namespace Text

variable {cs : List Char}

theorem isDigit_ascii (h : c.isDigit = true) :
    decimalValue? c = some (c.toNat - 48) ∧ isDigit c = true ∧ isBlank c = false ∧ 48 ≤ c.toNat ∧ c.toNat ≤ 57 := by
  have hc : 48 ≤ c.toNat ∧ c.toNat ≤ 57 := by
    simp only [Char.isDigit, Bool.and_eq_true, decide_eq_true_eq, ge_iff_le, UInt32.le_iff_toNat_le] at h
    exact h
  have hlt : c.toNat < 128 := by omega
  refine ⟨?_, ?_, ?_, hc⟩
  · simp [decimalValue?, hlt, hc]
  · simp [isDigit, hlt, hc]
  · simp only [isBlank, hlt, if_true]
    simp
    omega

theorem isDigit_ne (h : c.isDigit = true) (hd : d.isDigit = false) : c ≠ d :=
  fun heq => by rw [heq, hd] at h; cases h

theorem isGrouped_digits (hne : cs ≠ []) (h : ∀ c ∈ cs, c.isDigit = true) : isGrouped cs = true := by
  induction cs with
  | nil => exact absurd rfl hne
  | cons c cs ih =>
    have hc : c ≠ '_' := isDigit_ne (h c ((.head _) ..)) (by decide)
    cases cs with
    | nil => simp [isGrouped]
    | cons d cs =>
      have hd : d ≠ '_' := isDigit_ne (h d (by simp)) (by decide)
      rw [isGrouped]
      · exact ih (by simp) fun e he => h e (.tail _ he)
      all_goals simp [hc, hd]

theorem decimalValues (h : ∀ c ∈ cs, c.isDigit = true) : cs.filterMap decimalValue? = cs.map fun c => c.toNat - 48 := by
  induction cs with
  | nil => rfl
  | cons c cs ih =>
    rw [filterMap_cons_some (isDigit_ascii (h c ((.head _) ..))).1,
      ih fun d hd => h d (.tail _ hd), map_cons]

theorem ofDigits_toDigits (n : Nat) : ofDigits ((Nat.toDigits 10 n).filterMap decimalValue?) = n := by
  rw [decimalValues fun c hc => Nat.isDigit_of_mem_toDigits (by omega) (by omega) hc, ofDigits, foldl_map]
  exact Nat.ofDigitChars_eq_foldl.symm.trans Nat.ofDigitChars_ten_toDigits

theorem readInt_digits (hn : n < Nat.pow 10 maxDigits) :
    readInt (String.ofList (Nat.toDigits 10 n)) = .ok (n : Int) := by
  have hall : ∀ c ∈ Nat.toDigits 10 n, c.isDigit = true := fun c hc =>
    Nat.isDigit_of_mem_toDigits (by omega) (by omega) hc
  have hlen : (Nat.toDigits 10 n).length ≤ maxDigits := (Nat.length_toDigits_le_iff (by omega) (by decide)).mpr hn
  have hvalue := ofDigits_toDigits n
  have hgrouped := isGrouped_digits Nat.toDigits_ne_nil hall
  have hnumeral : (Nat.toDigits 10 n).takeWhile isNumeral = Nat.toDigits 10 n ∧
      (Nat.toDigits 10 n).dropWhile isNumeral = [] := by
    have : ∀ c ∈ Nat.toDigits 10 n, isNumeral c = true := fun c hc => by
      simp [isNumeral, (isDigit_ascii (hall c hc)).1]
    exact ⟨takeWhile_eq_self_iff.mpr this, dropWhile_eq_nil_iff.mpr this⟩
  have hcount : ((Nat.toDigits 10 n).filterMap decimalValue?).length ≤ maxDigits :=
    Nat.le_trans (length_filterMap_le ..) hlen
  obtain ⟨c, cs, hcs⟩ := exists_cons_of_ne_nil (Nat.toDigits_ne_nil (n := n) (b := 10))
  have hc := hall c (by rw [hcs]; exact (.head _) ..)
  have hmargin : (Nat.toDigits 10 n).dropWhile isMargin = Nat.toDigits 10 n := by
    rw [hcs, dropWhile_cons_of_neg]
    simp [isMargin, (isDigit_ascii hc).2.2.1]
  rw [readInt, String.toList_ofList, hmargin]
  split
  rename_i negative body hsign
  have hbody : negative = false ∧ body = Nat.toDigits 10 n := by
    rw [hcs] at hsign ⊢
    split at hsign
    · exact absurd (List.cons.inj ‹_›).1 (isDigit_ne hc (by decide))
    · exact absurd (List.cons.inj ‹_›).1 (isDigit_ne hc (by decide))
    · cases hsign
      exact ⟨rfl, rfl⟩
  simp only [hbody, hnumeral, hgrouped, Bool.not_true, Bool.false_eq_true, if_false, all_nil, hvalue,
    if_neg (Nat.not_lt.mpr hcount)]

end Text

theorem Scanner.reads_int (hn : n < Nat.pow 10 Text.maxDigits) {rest : List Char}
    (hrest : ∀ c r, rest = c :: r → Text.isDigit c = false ∧ c ≠ '.') :
    Reads (Nat.toDigits 10 n ++ rest) (.int n) rest := by
  obtain ⟨c, cs, hcs⟩ := exists_cons_of_ne_nil (Nat.toDigits_ne_nil (n := n) (b := 10))
  have hall : ∀ c ∈ Nat.toDigits 10 n, c.isDigit = true := fun c hc =>
    Nat.isDigit_of_mem_toDigits (by omega) (by omega) hc
  have hc := hall c (by rw [hcs]; exact (.head _) ..)
  obtain ⟨-, hdigit, hblank, -⟩ := Text.isDigit_ascii hc
  have hmore : cs.all Text.isDigit = true := by
    rw [all_eq_true]
    intro d hd
    exact (Text.isDigit_ascii (hall d (by rw [hcs]; exact mem_cons_of_mem _ hd))).2.1
  rw [hcs]
  refine .of_readFrom hblank (.inl (Text.isDigit_ne hc (by decide))) fun s (hs : s.rest = cs ++ rest) => ?_
  have htake : s.rest.takeWhile Text.isDigit = cs := by
    rw [hs]
    exact takeWhile_of_break hmore fun d r h => (hrest d r h).1
  have hafter : (s.advanceOver cs).rest = rest := by rw [advanceOver_rest, hs, drop_left]
  have hread : s.readFrom c = (s.advanceOver cs).token (.int n) := by
    rw [readFrom, if_neg (Text.isDigit_ne hc (by decide)), if_neg (Text.isDigit_ne hc (by decide)),
      if_neg (Text.isDigit_ne hc (by decide)), hdigit, if_pos rfl, readNumber, htake]
    simp only [hafter]
    split
    · exact absurd rfl (hrest _ _ rfl).2
    · rw [intLexeme, ← hcs, Text.readInt_digits hn]
  exact ⟨_, _, hread, hafter⟩

namespace Scanner

/-! ### Operators -/

def spaced : List String :=
  ["=", "->", ".", "@", "|", ",", "+", "-", "*", "/", "^", "%", "==", "/=", "<", ">", "<=", ">=", "&&", "||", "++", ">+",
   "+<", "!", ":"]

theorem operatorTail_append {taken : List Char} (h : operatorTail taken (more ++ [d]) = more)
    (rest : List Char) : operatorTail taken (more ++ d :: rest) = more := by
  induction more generalizing taken with
  | nil =>
    simp only [nil_append, operatorTail] at h ⊢
    split at h
    · cases h
    · rename_i hstart
      rw [if_neg hstart]
  | cons c more ih =>
    simp only [cons_append, operatorTail] at h ⊢
    split at h
    · rename_i hstart
      rw [if_pos hstart, ih (List.cons.inj h).2]
    · cases h

/-- A symbol that is read up to a blank after it. -/
def isReadToBlank (symbol : String) : Bool :=
  match symbol.toList with
  | [] => false
  | c :: more =>
    Operator.table.has symbol && bracket? c = none && !Text.isBlank c && c ≠ '"' && c ≠ '#' && c ≠ '~' &&
      !Text.isDigit c && Operator.hasChar c && (c ≠ '-' || (more ++ [' ']).head? ≠ some '-') &&
      operatorTail [c] (more ++ [' ']) = more

theorem reads_spaced {symbol : String} (h : symbol ∈ spaced) (rest : List Char) :
    Reads (symbol.toList ++ ' ' :: rest) (.operator symbol) (' ' :: rest) := by
  have hall : ∀ s ∈ spaced, isReadToBlank s = true := by decide +kernel
  have hread := hall symbol h
  unfold isReadToBlank at hread
  split at hread
  · cases hread
  · rename_i c more hs
    simp only [Bool.and_eq_true, Bool.or_eq_true, decide_eq_true_eq, Bool.not_eq_true'] at hread
    obtain ⟨⟨⟨⟨⟨⟨⟨⟨⟨hsymbol, hc⟩, hblank⟩, hquote⟩, hhash⟩, htilde⟩, hdigit⟩, hop⟩, hdash⟩, htail⟩ := hread
    have hofList : String.ofList (c :: more) = symbol := by rw [← hs, String.ofList_toList]
    rw [hs, ← hofList]
    refine reads_operator (' ' :: rest) (by rwa [hofList]) hc ⟨hblank, hquote, hhash, htilde, hdigit, hop⟩ ?_
      (operatorTail_append htail rest)
    cases more <;> exact hdash

theorem reads_dots (rest : List Char) : Reads ("...".toList ++ rest) (.operator "...") rest := by
  have hstart : ∀ d, Operator.startsWith ("...".toList ++ [d]) = false := by
    intro d
    have hall : ∀ s ∈ Operator.table.keys, s.toList.length ≤ 3 := by decide +kernel
    rw [Operator.startsWith, any_eq_false]
    intro s hs hpre
    have := isPrefixOf_iff_prefix.mp hpre |>.length_le
    have := hall s hs
    simp at *
    omega
  have htail : operatorTail ['.'] (['.', '.'] ++ rest) = ['.', '.'] := by
    cases rest with
    | nil => decide
    | cons d rest =>
      have hd := hstart d
      have h1 : Operator.startsWith ['.', '.'] = true := by decide
      have h2 : Operator.startsWith ['.', '.', '.'] = true := by decide
      simp only [cons_append, nil_append, operatorTail, h1, h2, if_true]
      rw [if_neg]
      simpa using hd
  exact reads_operator rest (by decide) (by decide) (by decide) (.inl (by decide)) htail

/-! ### Texts -/

/-- From any place where `cs` is left, the tokens `ls` are read one after the other, and `cs'` is left. -/
inductive Yields : List Char → List Lexeme → List Char → Prop
  | nil (cs : List Char) : Yields cs [] cs
  | cons {cs cs1 cs' : List Char} {l : Lexeme} {ls : List Lexeme} (h : Reads cs l cs1) (hl : l ≠ .endOfInput)
    (hlt : cs1.length < cs.length) (h' : Yields cs1 ls cs') : Yields cs (l :: ls) cs'

theorem Yields.append {cs1 : List Char} {ls' : List Lexeme} (h : Yields cs ls cs1) (h' : Yields cs1 ls' cs') :
    Yields cs (ls ++ ls') cs' := by
  induction h with
  | nil cs => exact h'
  | cons h hl hlt _ ih => exact .cons h hl hlt (ih h')

theorem Yields.length_le (h : Yields cs ls cs') : ls.length + cs'.length ≤ cs.length := by
  induction h with
  | nil cs => simp
  | cons h hl hlt _ ih =>
    rw [length_cons]
    omega

theorem Yields.one (h : Reads (cs ++ rest) l rest) (hcs : cs ≠ []) (hl : l ≠ .endOfInput) :
    Yields (cs ++ rest) [l] rest := by
  refine .cons h hl ?_ (.nil rest)
  have := length_pos_iff.mpr hcs
  rw [length_append]
  omega

theorem Yields.blank (hc : Text.isBlank c = true) (hls : ls ≠ []) (h : Yields cs ls cs') : Yields (c :: cs) ls cs' := by
  cases h with
  | nil => exact absurd rfl hls
  | cons h hl hlt h' => exact .cons (h.blank hc) hl (Nat.lt_succ_of_lt hlt) h'

theorem readAllWithin_of_yields (h : Yields cs ls []) : ∀ fuel
    (s : Scanner), s.rest = cs → ls.length < fuel → ∃ ts, s.readAllWithin fuel = .ok ts ∧ ts.map Token.lexeme = ls := by
  generalize hend : ([] : List Char) = cs' at h
  induction h with
  | nil cs =>
    intro fuel s hs hfuel
    subst hend
    obtain ⟨fuel, rfl⟩ := Nat.exists_eq_add_of_lt hfuel
    refine ⟨[], ?_, rfl⟩
    have hblank : s.skipBlanks = s := by rw [skipBlanks, hs]; rfl
    have hread : s.readToken = s.token .endOfInput := by
      rw [readToken, readTokenWithin, hblank]
      simp only [hs]
    rw [length_nil, Nat.zero_add, readAllWithin, hread]
    rfl
  | @cons cs cs1 cs' l ls hread hl hlt _ ih =>
    intro fuel s hs hfuel
    obtain ⟨fuel, rfl⟩ : ∃ k, fuel = k + 1 := ⟨fuel - 1, by omega⟩
    obtain ⟨e, s', hs', hrest⟩ := hread s.rest.length s hs
    rw [length_cons] at hfuel
    obtain ⟨ts, hts, hmap⟩ := ih hend fuel s' hrest (by omega)
    refine ⟨⟨l, e⟩ :: ts, ?_, by rw [map_cons, hmap]⟩
    have hread' : s.readToken = (.ok ⟨l, e⟩, s') := hs'
    rw [readAllWithin, hread']
    simp only [if_neg hl, hts]
    rfl

/-- The characters `cs` are the tokens `ls`, before anything that a token cannot go on with. -/
def Scans (cs : List Char) (ls : List Lexeme) : Prop := ∀ rest, Text.isBreak rest = true → Yields (cs ++ rest) ls rest

theorem scans_name (hx : Text.isName x = true) : Scans x.toList [.name x] := by
  intro rest hrest
  refine .one (reads_name hx fun c r hr => ?_) ?_ nofun
  · rw [hr] at hrest
    exact (isBreak_head hrest).1
  · intro hnil
    rw [Text.isName, hnil] at hx
    cases hx

theorem skipBlanks_rest (s : Scanner) : s.skipBlanks.rest = s.rest.dropWhile Text.isBlank := by
  have hfold : ∀ (cs : List Char) (s : Scanner),
      (cs.foldl (fun s c => s.markStart.advance c) s).rest = s.rest.drop cs.length := by
    intro cs
    induction cs with
    | nil => exact fun s => rfl
    | cons c cs ih => exact fun s => by rw [foldl_cons, ih, advance_rest, markStart_rest, drop_tail, length_cons]
  calc s.skipBlanks.rest = (s.rest.takeWhile Text.isBlank ++ s.rest.dropWhile Text.isBlank).drop
        (s.rest.takeWhile Text.isBlank).length := by rw [skipBlanks, hfold, takeWhile_append_dropWhile]
    _ = s.rest.dropWhile Text.isBlank := drop_left

end Scanner

theorem tokenize_of_scans {text : String} (h : Scanner.Scans text.toList ls) :
    ∃ ts, tokenize text = .ok ts ∧ ts.map Token.lexeme = ls := by
  have hy := h [] rfl
  rw [append_nil] at hy
  have hlen := hy.length_le
  exact Scanner.readAllWithin_of_yields hy _ (Scanner.ofText text) rfl (Nat.lt_succ_of_le (by simpa [Scanner.ofText] using hlen))

end Scrap
