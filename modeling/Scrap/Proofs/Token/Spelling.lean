import Scrap.Proofs.Dict
import Scrap.Proofs.Token.Scanning

/-! # Spelling

The characters of a token tell its kind, by the first of them, and what it holds, so a range of a text spells one token
at most. -/

namespace Scrap

open List

variable {l : Lexeme} {c : Char} {cs : List Char}

/-! ### Digits -/

namespace Text

def runMembers : List Nat → List Nat
  | a :: b :: bounds => List.range' a (b - a) ++ runMembers bounds
  | _ => []

theorem mem_runMembers : ∀ {bounds : List Nat} {n : Nat}, bounds.length % 2 = 0 → inRuns bounds n = true →
    n ∈ runMembers bounds
  | [], n, _, h => by cases h
  | [_], _, hlen, _ => by cases hlen
  | a :: b :: bounds, n, hlen, h => by
    rw [runMembers, mem_append]
    by_cases ha : a ≤ n
    · by_cases hb : b ≤ n
      · simp only [length_cons] at hlen
        refine .inr (mem_runMembers (by omega) ?_)
        simp only [inRuns, decide_eq_true_eq] at h ⊢
        rw [takeWhile_cons_of_pos (by simpa using ha), takeWhile_cons_of_pos (by simpa using hb)] at h
        simp only [length_cons] at h
        omega
      · exact .inl (mem_range'_1.mpr (by omega))
    · simp only [inRuns, decide_eq_true_eq] at h
      rw [takeWhile_cons_of_neg (by simpa using ha)] at h
      cases h

theorem isBlank_of_isDigit (h : isDigit c = true) : isBlank c = false := by
  by_contra hb
  rw [Bool.not_eq_false] at hb
  unfold isDigit at h
  unfold isBlank at hb
  dsimp only at h hb
  by_cases hc : c.toNat < 128
  · rw [if_pos hc] at h hb
    simp at h hb
    omega
  · rw [if_neg hc] at h hb
    have hall : ∀ n ∈ runMembers blankRuns, inRuns digitRuns n = false := by decide +kernel
    rw [hall _ (mem_runMembers rfl hb)] at h
    cases h

theorem decimalValues?_of_isSome (h : ∀ c ∈ cs, (decimalValue? c).isSome = true) :
    decimalValues? cs = some (cs.filterMap decimalValue?) := by
  induction cs with
  | nil => rfl
  | cons c cs ih =>
    obtain ⟨v, hv⟩ := Option.isSome_iff_exists.mp (h c (.head _))
    have := ih fun d hd => h d (.tail _ hd)
    simp only [decimalValues?] at this ⊢
    simp [mapM_cons, hv, this]

theorem readInt_of_isDigit {n : Int} (hne : cs ≠ []) (hall : ∀ c ∈ cs, isDigit c = true)
    (h : readInt (String.ofList cs) = .ok n) : ∃ vs, decimalValues? cs = some vs ∧ n = ofDigits vs := by
  have hmargin : ∀ c ∈ cs, isMargin c = false := fun c hc => by rw [isMargin, isBlank_of_isDigit (hall c hc)]; rfl
  obtain ⟨c, r, rfl⟩ := exists_cons_of_ne_nil hne
  have hc := hall c (.head _)
  have hdrop : (c :: r).dropWhile isMargin = c :: r :=
    dropWhile_cons_of_neg (by rw [hmargin c (.head _)]; exact Bool.false_ne_true)
  rw [readInt, String.toList_ofList, hdrop] at h
  split at h
  rename_i negative body hsign
  have hbody : negative = false ∧ body = c :: r := by
    split at hsign
    · cases (List.cons.inj ‹_›).1
      cases hc
    · cases (List.cons.inj ‹_›).1
      cases hc
    · cases hsign
      exact ⟨rfl, rfl⟩
  obtain ⟨rfl, rfl⟩ := hbody
  dsimp only at h
  split at h
  · cases h
  split at h
  · cases h
  split at h
  · cases h
  rename_i hrest
  -- nothing but digits can follow the numeral, and a digit is no margin
  have hnil : (c :: r).dropWhile isNumeral = [] := by
    cases hd : (c :: r).dropWhile isNumeral with
    | nil => rfl
    | cons d ds =>
      have hmem : d ∈ c :: r := (dropWhile_sublist isNumeral).subset (hd ▸ (.head _))
      rw [hd] at hrest
      simp [hmargin d hmem] at hrest
  have hsome : ∀ d ∈ c :: r, (decimalValue? d).isSome = true := fun d hd => by
    have hnum := dropWhile_eq_nil_iff.mp hnil d hd
    have hne : d ≠ '_' := fun h => by rw [h] at hd; exact absurd (hall '_' hd) (by decide)
    simpa [isNumeral, hne] using hnum
  have htake : (c :: r).takeWhile isNumeral = c :: r := by
    rw [takeWhile_eq_self_iff]
    exact dropWhile_eq_nil_iff.mp hnil
  rw [htake] at h
  refine ⟨_, decimalValues?_of_isSome hsome, ?_⟩
  simpa using h.symm

end Text

/-! ### What characters spell -/

/-- What stands between the tildes and the value of bytes gives their base: a number before a quote, or 64. -/
def GivesBase (lead : List Char) (base : Int) : Prop :=
  base = 64 ∧ (lead = [] ∨ lead = ['\'']) ∨
    ∃ digits, digits ≠ [] ∧ lead = digits ++ ['\''] ∧ Text.readInt (String.ofList digits) = .ok base

/-- The characters of a range spell a token: a name is its characters, a string what stands between its quotes, a
number the value of its digits, and bytes what stands behind two tildes and the base, if one is given. -/
def Lexeme.Spelled (cs : List Char) : Lexeme → Prop
  | .int n => ∃ vs, cs ≠ [] ∧ (∀ c ∈ cs, Text.isDigit c = true) ∧ Text.decimalValues? cs = some vs ∧ n = Text.ofDigits vs
  | .float x => ∃ whole fraction vs, cs = whole ++ '.' :: fraction ∧ whole ≠ [] ∧
      (∀ c ∈ whole ++ fraction, Text.isDigit c = true) ∧ Text.decimalValues? (whole ++ fraction) = some vs ∧
      x = Binary64.ofRatio false (Text.ofDigits vs) (Nat.pow 10 fraction.length)
  | .string x => cs = '"' :: x.toList ++ ['"'] ∧ '"' ∉ x.toList
  | .bytes x base => ∃ lead, cs = '~' :: '~' :: lead ++ x.toList ∧ '\'' ∉ x.toList ∧ (∀ c ∈ cs, Text.isBlank c = false) ∧
      GivesBase lead base
  | .operator x => cs = x.toList ∧ x ≠ "" ∧ x ≠ "#" ∧ Operator.table.has x = true
  | .name x => cs = x.toList ∧ Text.isName x = true
  | .leftParen => cs = ['(']
  | .rightParen => cs = [')']
  | .leftBrace => cs = ['\x7b']
  | .rightBrace => cs = ['\x7d']
  | .leftBracket => cs = ['[']
  | .rightBracket => cs = [']']
  | .hash => cs = ['#']
  | .endOfInput => False

namespace Scanner

theorem intLexeme_spelled {ds : List Char} (hne : ds ≠ []) (hall : ∀ d ∈ ds, Text.isDigit d = true)
    (h : intLexeme ds = .ok l) : l.Spelled ds := by
  unfold intLexeme at h
  split at h
  · rename_i n hn
    cases h
    obtain ⟨vs, hvs, hval⟩ := Text.readInt_of_isDigit hne hall hn
    exact ⟨vs, hne, hall, hvs, hval⟩
  · cases h

theorem floatLexeme_spelled {whole fraction : List Char} (hne : whole ≠ [])
    (hall : ∀ d ∈ whole ++ fraction, Text.isDigit d = true) (h : floatLexeme whole fraction = .ok l) :
    l.Spelled (whole ++ '.' :: fraction) := by
  unfold floatLexeme at h
  split at h
  · rename_i vs hvs
    cases h
    exact ⟨whole, fraction, vs, rfl, hne, hall, hvs, rfl⟩
  · cases h

end Scanner

/-! ### One token at most -/

theorem GivesBase.lead {lead : List Char} {base : Int} (h : GivesBase lead base) :
    lead = [] ∨ ∃ front, lead = front ++ ['\''] := by
  rcases h with ⟨-, hlead | hlead⟩ | ⟨digits, -, hlead, -⟩
  · exact .inl hlead
  · exact .inr ⟨[], hlead⟩
  · exact .inr ⟨digits, hlead⟩

theorem GivesBase.unique {lead : List Char} {base base' : Int} (h : GivesBase lead base) (h' : GivesBase lead base') :
    base = base' := by
  rcases h with ⟨rfl, hlead⟩ | ⟨digits, hne, rfl, hread⟩
  · rcases h' with ⟨rfl, -⟩ | ⟨digits', hne', rfl, -⟩
    · rfl
    · simp [hne'] at hlead
  · rcases h' with ⟨-, hlead'⟩ | ⟨digits', -, hlead', hread'⟩
    · simp [hne] at hlead'
    · rw [append_cancel_right hlead', hread'] at hread
      exact Except.ok.inj hread.symm

namespace Lexeme

/-- What the first character of a token tells of it. -/
inductive Form where
  | number
  | string
  | bytes
  | operator
  | name
  | mark (c : Char)
  | none
deriving DecidableEq

def form : Lexeme → Form
  | .int _ | .float _ => .number
  | .string _ => .string
  | .bytes _ _ => .bytes
  | .operator _ => .operator
  | .name _ => .name
  | .leftParen => .mark '('
  | .rightParen => .mark ')'
  | .leftBrace => .mark '\x7b'
  | .rightBrace => .mark '\x7d'
  | .leftBracket => .mark '['
  | .rightBracket => .mark ']'
  | .hash => .mark '#'
  | .endOfInput => .none

def Form.ofChar (c : Char) : Form :=
  if c = '"' then .string
  else if c = '~' then .bytes
  else if c ∈ ['(', ')', '[', ']', '\x7b', '\x7d', '#'] then .mark c
  else if Text.isDigit c then .number
  else if Operator.hasChar c then .operator
  else .name

theorem Form.ne_mark {p : Char → Bool} (hp : (['"', '~', '(', ')', '[', ']', '\x7b', '\x7d', '#'].all fun d => !p d) = true)
    {c : Char} (hc : p c = true) : ∀ d ∈ ['"', '~', '(', ')', '[', ']', '\x7b', '\x7d', '#'], c ≠ d := by
  rintro d hd rfl
  have := all_eq_true.mp hp c hd
  simp [hc] at this

theorem Form.ofChar_of_isDigit (h : Text.isDigit c = true) : ofChar c = .number := by
  have hmarks := ne_mark (p := Text.isDigit) (by decide) h
  simp [ofChar, hmarks, h]

theorem Form.ofChar_of_isNameChar (h : isNameChar c = true) (hdigit : Text.isDigit c = false) : ofChar c = .name := by
  have hmarks := ne_mark (p := isNameChar) (by decide) h
  have hoperator : Operator.hasChar c = false := by
    by_contra ho
    rw [isNameChar_of_hasChar (by simpa using ho)] at h
    cases h
  simp [ofChar, hmarks, hdigit, hoperator]

theorem Spelled.form (h : l.Spelled cs) : cs.head?.map Form.ofChar = some l.form := by
  cases l with
  | int n =>
    obtain ⟨vs, hne, hall, -⟩ := h
    obtain ⟨c, r, rfl⟩ := exists_cons_of_ne_nil hne
    exact congrArg some (Form.ofChar_of_isDigit (hall c (.head _)))
  | float x =>
    obtain ⟨whole, fraction, vs, rfl, hne, hall, -⟩ := h
    obtain ⟨c, r, rfl⟩ := exists_cons_of_ne_nil hne
    exact congrArg some (Form.ofChar_of_isDigit (hall c (.head _)))
  | string x =>
    rw [h.1]
    rfl
  | bytes x base =>
    obtain ⟨lead, rfl, -⟩ := h
    rfl
  | operator x =>
    obtain ⟨rfl, hempty, hhash, hx⟩ := h
    have hall : ∀ x ∈ Operator.table.keys, x ≠ "" → x ≠ "#" → x.toList.head?.map Form.ofChar = some .operator := by
      decide +kernel
    exact hall x (Dict.get?_isSome_iff.mp hx) hempty hhash
  | name x =>
    obtain ⟨rfl, hx⟩ := h
    unfold Text.isName at hx
    split at hx
    · cases hx
    · rename_i c cs hcs
      simp only [Bool.and_eq_true, Bool.not_eq_true'] at hx
      rw [hcs]
      exact congrArg some (Form.ofChar_of_isNameChar hx.1.1.1 hx.1.1.2)
  | endOfInput => exact h.elim
  | leftParen | rightParen | leftBrace | rightBrace | leftBracket | rightBracket | hash =>
    rw [show cs = _ from h]
    rfl

theorem takeWhile_isDigit {whole : List Char} (fraction : List Char) (h : ∀ c ∈ whole, Text.isDigit c = true) :
    (whole ++ '.' :: fraction).takeWhile Text.isDigit = whole := by
  rw [takeWhile_append_of_pos h, takeWhile_cons_of_neg (by decide), append_nil]

theorem takeWhile_quote {lead value : List Char} (h : '\'' ∉ value) (hlead : lead = [] ∨ ∃ front, lead = front ++ ['\'']) :
    ((lead ++ value).reverse.takeWhile (· ≠ '\'')).reverse = value := by
  have hvalue : ∀ c ∈ value.reverse, decide (c ≠ '\'') = true := fun c hc => by
    simpa using ne_of_mem_of_not_mem (mem_reverse.mp hc) h
  rw [reverse_append, takeWhile_append_of_pos hvalue, reverse_append, reverse_reverse]
  rcases hlead with rfl | ⟨front, rfl⟩
  · rfl
  · rw [reverse_concat, takeWhile_cons_of_neg (by decide)]
    rfl

theorem Spelled.unique {l' : Lexeme} (h : l.Spelled cs) (h' : l'.Spelled cs) : l = l' := by
  have hform : l.form = l'.form := Option.some.inj (h.form.symm.trans h'.form)
  have hpoint : ∀ {n x}, (Lexeme.int n).Spelled cs → ¬ (Lexeme.float x).Spelled cs := by
    rintro n x ⟨-, -, hall, -⟩ ⟨whole, fraction, -, rfl, -⟩
    exact absurd (hall '.' (mem_append_right _ (.head _))) (by decide)
  cases l <;> cases l' <;> try first | rfl | (cases hform; done)
  case int.int n n' =>
    obtain ⟨vs, -, -, hvs, rfl⟩ := h
    obtain ⟨vs', -, -, hvs', rfl⟩ := h'
    rw [Option.some.inj (hvs.symm.trans hvs')]
  case int.float => exact absurd h' (hpoint h)
  case float.int => exact absurd h (hpoint h')
  case float.float x x' =>
    obtain ⟨whole, fraction, vs, rfl, -, hall, hvs, rfl⟩ := h
    obtain ⟨whole', fraction', vs', hcs, -, hall', hvs', rfl⟩ := h'
    have hwhole : whole = whole' := by
      rw [← takeWhile_isDigit fraction fun c hc => hall c (mem_append_left _ hc), hcs,
        takeWhile_isDigit fraction' fun c hc => hall' c (mem_append_left _ hc)]
    subst hwhole
    cases append_cancel_left hcs
    rw [Option.some.inj (hvs.symm.trans hvs')]
  case string.string x x' =>
    have hbody : x.toList ++ ['"'] = x'.toList ++ ['"'] := (List.cons.inj (h.1.symm.trans h'.1)).2
    rw [String.toList_inj.mp (append_cancel_right hbody)]
  case bytes.bytes x base x' base' =>
    obtain ⟨lead, rfl, hx, -, hbase⟩ := h
    obtain ⟨lead', hcs, hx', -, hbase'⟩ := h'
    have hbody : lead ++ x.toList = lead' ++ x'.toList := (List.cons.inj (List.cons.inj hcs).2).2
    have hvalue : x.toList = x'.toList := by
      rw [← takeWhile_quote hx hbase.lead, hbody, takeWhile_quote hx' hbase'.lead]
    rw [hvalue] at hbody
    have hlead := append_cancel_right hbody
    subst hlead
    rw [String.toList_inj.mp hvalue]
    rw [hbase.unique hbase']
  case operator.operator x x' => rw [String.toList_inj.mp (h.1.symm.trans h'.1)]
  case name.name x x' => rw [String.toList_inj.mp (h.1.symm.trans h'.1)]

theorem Spelled.ne_end (h : l.Spelled cs) : l ≠ .endOfInput := by
  rintro rfl
  exact h

end Lexeme

end Scrap
