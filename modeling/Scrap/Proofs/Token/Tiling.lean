import Scrap.Proofs.Token.Spelling
import Scrap.Text.Utf8

/-! # Tokens tile their text

Tokens are read off ranges of the text with only white space and comments between them. While a token is read, the
scanner stands behind what it has passed (`Stands`), and its extent is that of the characters passed since the start of
the token (`Taken`). Each reading function keeps this. -/

namespace Scrap

open List

variable {gap r : List Char} {s : Scanner}

/-! ### Places -/

/-- The place of the character that follows a beginning of a text: one line more than there are newlines, one column
more than there are characters since the last of them, and as many bytes as the beginning is encoded in. -/
def Location.after (before : List Char) : Location where
  line := 1 + before.count '\n'
  column := 1 + (before.reverse.takeWhile (· ≠ '\n')).length
  byte := (Text.utf8 (String.ofList before)).length

def Location.at (text : List Char) (i : Nat) : Location := .after (text.take i)

/-! ### What tokens are read from -/

/-- White space and comments; a comment goes from two dashes to the end of its line. -/
inductive Filler : List Char → Prop
  | nil : Filler []
  | blank : Text.isBlank c = true → Filler cs → Filler (c :: cs)
  | comment : '\n' ∉ body → Filler cs → Filler ('-' :: '-' :: body ++ '\n' :: cs)

/-- White space and comments at the end of a text, where the last comment may end with the text. -/
def TrailingFiller (cs : List Char) : Prop :=
  Filler cs ∨ ∃ gap body, cs = gap ++ '-' :: '-' :: body ∧ Filler gap ∧ '\n' ∉ body

/-- From the character with index `i` on, the text is tiled by tokens: each is the one that is spelled by the characters
of a range `[a, b)` and has their extent, and only filler stands before it and behind the last one. -/
inductive Tiled (text : List Char) : Nat → List Token → Prop
  | nil : TrailingFiller (text.drop i) → Tiled text i []
  | cons : i ≤ a → a < b → b ≤ text.length → Filler (text.extract i a) →
      (∀ l : Lexeme, l.Spelled (text.extract a b) ↔ l = t.lexeme) →
      t.extent = ⟨Location.at text a, Location.at text (b - 1)⟩ → Tiled text b ts → Tiled text i (t :: ts)

/-! ### Filler -/

theorem Filler.append {a b : List Char} (ha : Filler a) (hb : Filler b) : Filler (a ++ b) := by
  induction ha with
  | nil => exact hb
  | blank hc _ ih => exact .blank hc ih
  | comment hbody _ ih =>
    rw [append_assoc, cons_append]
    exact .comment hbody ih

theorem Filler.trailing {a b : List Char} (ha : Filler a) (hb : TrailingFiller b) : TrailingFiller (a ++ b) := by
  rcases hb with hb | ⟨gap, body, rfl, hgap, hbody⟩
  · exact .inl (ha.append hb)
  · exact .inr ⟨a ++ gap, body, by rw [append_assoc], ha.append hgap, hbody⟩

/-! ### Passing over characters -/

theorem Location.after_concat (before : List Char) (c : Char) :
    Location.after (before ++ [c]) =
      if c = '\n' then ⟨(after before).line + 1, 1, (after before).byte + c.utf8Size⟩
      else ⟨(after before).line, (after before).column + 1, (after before).byte + c.utf8Size⟩ := by
  have hbyte : (Text.utf8 (String.ofList (before ++ [c]))).length =
      (Text.utf8 (String.ofList before)).length + c.utf8Size := by
    simp [Text.utf8, String.length_utf8EncodeChar]
  have hline : (before ++ [c]).count '\n' = before.count '\n' + if c = '\n' then 1 else 0 := by
    by_cases hc : c = '\n' <;> simp [count_append, hc]
  have hcolumn : ((before ++ [c]).reverse.takeWhile (· ≠ '\n')).length =
      if c = '\n' then 0 else (before.reverse.takeWhile (· ≠ '\n')).length + 1 := by
    by_cases hc : c = '\n' <;> simp [hc]
  simp only [after, hbyte, hline, hcolumn]
  split <;> simp only [Location.mk.injEq] <;> omega

namespace Scanner

variable {before more text : List Char}

/-- The scanner has passed over `before`. -/
structure Stands (text before : List Char) (s : Scanner) : Prop where
  text : text = before ++ s.rest
  place : s.place = .after before

/-- The scanner has passed over `before` and then over the characters `cs` of a token. -/
structure Taken (text before cs : List Char) (s : Scanner) : Prop where
  stands : Stands text (before ++ cs) s
  extent : s.extent = ⟨.after before, .after (before ++ cs.dropLast)⟩

section Passing
variable {cs : List Char} {c : Char}

theorem not_of_dropWhile {p : Char → Bool} (h : cs.dropWhile p = c :: r) : p c = false := by
  have := head?_dropWhile_not p cs
  rw [h] at this
  simpa using this

theorem filler_of_blanks (h : ∀ c ∈ gap, Text.isBlank c = true) : Filler gap := by
  induction gap with
  | nil => exact .nil
  | cons c gap ih => exact .blank (h c (.head _)) (ih fun d hd => h d (.tail _ hd))

namespace Stands
variable (h : Stands text before s)
include h

theorem advance (hs : s.rest = c :: r) : Stands text (before ++ [c]) (s.advance c) where
  text := by rw [h.text, advance_rest, hs, tail_cons, append_assoc, singleton_append]
  place := by
    rw [Location.after_concat, ← h.place]
    rfl

theorem markStart : Stands text before s.markStart := ⟨h.text, h.place⟩

theorem take (hs : s.rest = c :: r) : Taken text before [c] (s.markStart.advance c) where
  stands := h.markStart.advance hs
  extent := by
    show (⟨s.place, s.place⟩ : Extent) = _
    rw [h.place, dropLast_singleton, append_nil]

theorem advanceOver (hs : s.rest = more ++ r) :
    Stands text (before ++ more) (s.advanceOver more) ∧ (s.advanceOver more).rest = r := by
  induction more generalizing before s with
  | nil =>
    rw [append_nil]
    exact ⟨h, hs⟩
  | cons c more ih =>
    obtain ⟨hstands, hrest⟩ := ih (h.advance hs) (by rw [advance_rest, hs]; rfl)
    rw [append_assoc] at hstands
    exact ⟨hstands, hrest⟩

theorem restartOver (hs : s.rest = more ++ r) :
    Stands text (before ++ more) (more.foldl (fun s c => s.markStart.advance c) s) := by
  induction more generalizing before s with
  | nil => rwa [append_nil]
  | cons c more ih =>
    have := ih (h.markStart.advance hs) (by rw [advance_rest, markStart_rest, hs]; rfl)
    rwa [append_assoc] at this

theorem skipBlanks :
    ∃ gap, (∀ c ∈ gap, Text.isBlank c = true) ∧ s.rest = gap ++ s.skipBlanks.rest ∧
      Stands text (before ++ gap) s.skipBlanks := by
  have hsplit : s.rest = s.rest.takeWhile Text.isBlank ++ s.rest.dropWhile Text.isBlank :=
    takeWhile_append_dropWhile.symm
  exact ⟨_, fun c hc => mem_takeWhile_imp hc, by rwa [skipBlanks_rest], h.restartOver hsplit⟩

theorem skipLine :
    ∃ body ending, '\n' ∉ body ∧ s.rest = body ++ ending ++ s.skipLine.rest ∧
      Stands text (before ++ body ++ ending) s.skipLine ∧ (ending = ['\n'] ∨ ending = [] ∧ s.skipLine.rest = []) := by
  have hsplit : s.rest = s.rest.takeWhile (· ≠ '\n') ++ s.rest.dropWhile (· ≠ '\n') :=
    takeWhile_append_dropWhile.symm
  obtain ⟨hstands, hrest⟩ := h.advanceOver hsplit
  have hbody : '\n' ∉ s.rest.takeWhile (· ≠ '\n') := fun hmem => by simpa using mem_takeWhile_imp hmem
  unfold Scanner.skipLine
  dsimp only
  cases hd : s.rest.dropWhile (· ≠ '\n') with
  | nil =>
    rw [hd] at hrest
    rw [hrest]
    refine ⟨_, [], hbody, ?_, ?_, .inr ⟨rfl, hrest⟩⟩
    · rw [hrest, append_nil, ← hd]
      exact hsplit
    · rwa [append_nil]
  | cons c r =>
    have hc : c = '\n' := by simpa using not_of_dropWhile hd
    subst hc
    rw [hd] at hrest
    rw [hrest]
    refine ⟨_, ['\n'], hbody, ?_, hstands.advance hrest, .inl rfl⟩
    rw [advance_rest, hrest, tail_cons, append_assoc, singleton_append, ← hd]
    exact hsplit

end Stands

theorem Taken.advance (h : Taken text before cs s) (hs : s.rest = c :: r) :
    Taken text before (cs ++ [c]) (s.advance c) where
  stands := by
    rw [← append_assoc]
    exact h.stands.advance hs
  extent := by
    show (⟨s.extent.start, s.place⟩ : Extent) = _
    rw [h.extent, h.stands.place, dropLast_concat]

theorem Taken.advanceOver (h : Taken text before cs s) (hs : s.rest = more ++ r) :
    Taken text before (cs ++ more) (s.advanceOver more) ∧ (s.advanceOver more).rest = r := by
  induction more generalizing cs s with
  | nil =>
    rw [append_nil]
    exact ⟨h, hs⟩
  | cons c more ih =>
    obtain ⟨htaken, hrest⟩ := ih (h.advance hs) (by rw [advance_rest, hs]; rfl)
    rw [append_assoc] at htaken
    exact ⟨htaken, hrest⟩

end Passing

/-! ### Reading one token -/

/-- Behind the first character of a token, which has been passed, the token `t` has been read up to `s'`. -/
def ReadAs (text before : List Char) (c : Char) (s s' : Scanner) (t : Token) : Prop :=
  ∃ cs, s.rest = cs ++ s'.rest ∧ Taken text before (c :: cs) s' ∧ t.extent = s'.extent ∧ t.lexeme.Spelled (c :: cs)

section Reading
variable {c : Char} {s s' : Scanner} {t : Token}

theorem readAs_token (h : Taken text before [c] s) (hs : s.rest = more ++ r) {l : Lexeme}
    (hl : l.Spelled (c :: more)) (ht : (s.advanceOver more).token l = (.ok t, s')) : ReadAs text before c s s' t := by
  obtain ⟨htaken, hrest⟩ := h.advanceOver hs
  cases ht
  exact ⟨more, by rw [hrest, hs], htaken, rfl, hl⟩

theorem readString_readAs (h : Taken text before ['"'] s) (ht : s.readString = (.ok t, s')) :
    ReadAs text before '"' s s' t := by
  unfold readString at ht
  dsimp only at ht
  obtain ⟨htaken, hrest⟩ := h.advanceOver (takeWhile_append_dropWhile (p := (· ≠ '"'))).symm
  split at ht
  · cases ht
  · rename_i c r hr
    rw [hrest] at hr
    have hc : c = '"' := by simpa using not_of_dropWhile hr
    subst hc
    rw [hr] at hrest
    cases ht
    refine ⟨s.rest.takeWhile (· ≠ '"') ++ ['"'], ?_, htaken.advance hrest, rfl, ?_, ?_⟩
    · rw [advance_rest, hrest, tail_cons, append_assoc, singleton_append, ← hr,
        takeWhile_append_dropWhile]
    · rw [String.toList_ofList]
      rfl
    · rw [String.toList_ofList]
      exact fun hmem => by simpa using mem_takeWhile_imp hmem

theorem operatorTail_prefix (taken cs : List Char) : ∃ r, cs = operatorTail taken cs ++ r := by
  induction cs generalizing taken with
  | nil => exact ⟨[], rfl⟩
  | cons c cs ih =>
    rw [operatorTail]
    split
    · obtain ⟨r, hr⟩ := ih (taken ++ [c])
      exact ⟨r, by rw [cons_append, ← hr]⟩
    · exact ⟨c :: cs, rfl⟩

theorem readOperator_readAs (h : Taken text before [c] s) (hc : c ≠ '#') (ht : s.readOperator c = (.ok t, s')) :
    ReadAs text before c s s' t := by
  unfold readOperator at ht
  dsimp only at ht
  obtain ⟨r, hr⟩ := operatorTail_prefix [c] s.rest
  split at ht
  · rename_i hsymbol
    refine readAs_token h hr (l := .operator _) ⟨String.toList_ofList.symm, fun hempty => ?_, fun hhash => ?_, hsymbol⟩ ht
    · have := congrArg String.toList hempty
      rw [String.toList_ofList] at this
      cases this
    · have := congrArg String.toList hhash
      rw [String.toList_ofList] at this
      exact hc (List.cons.inj this).1
  · cases ht

theorem isDigit_run (r : List Char) (hc : Text.isDigit c = true) :
    ∀ d ∈ c :: r.takeWhile Text.isDigit, Text.isDigit d = true := fun d hd =>
  (mem_cons.mp hd).elim (fun h => h ▸ hc) mem_takeWhile_imp

theorem readNumber_readAs (h : Taken text before [c] s) (hdigit : Text.isDigit c = true)
    (ht : s.readNumber c = (.ok t, s')) : ReadAs text before c s s' t := by
  have hall := isDigit_run s.rest hdigit
  have hsplit : s.rest = s.rest.takeWhile Text.isDigit ++ s.rest.dropWhile Text.isDigit :=
    takeWhile_append_dropWhile.symm
  obtain ⟨htaken, hrest⟩ := h.advanceOver hsplit
  unfold readNumber at ht
  dsimp only at ht
  split at ht
  · rename_i after hafter
    have hsplit' : s.rest = s.rest.takeWhile Text.isDigit ++ '.' :: after.takeWhile Text.isDigit ++
        after.dropWhile Text.isDigit := by
      rw [hrest] at hafter
      rw [append_assoc, cons_append, takeWhile_append_dropWhile, ← hafter]
      exact hsplit
    split at ht
    · cases ht
    · split at ht
      · rename_i l hl
        have hover : s.advanceOver (s.rest.takeWhile Text.isDigit ++ '.' :: after.takeWhile Text.isDigit) =
            ((s.advanceOver (s.rest.takeWhile Text.isDigit)).advance '.').advanceOver (after.takeWhile Text.isDigit) := by
          rw [advanceOver, foldl_append, foldl_cons]
          rfl
        rw [← hover] at ht
        have hall' : ∀ d ∈ c :: s.rest.takeWhile Text.isDigit ++ after.takeWhile Text.isDigit, Text.isDigit d = true :=
          fun d hd => (mem_append.mp hd).elim (hall d) mem_takeWhile_imp
        exact readAs_token h hsplit' (floatLexeme_spelled (cons_ne_nil c _) hall' hl) ht
      · cases ht
  · split at ht
    · rename_i l hl
      exact readAs_token h hsplit (intLexeme_spelled (cons_ne_nil c _) hall hl) ht
    · cases ht

/-- The part behind the last quote, and what is in front of the quote. -/
theorem split_last_quote {body value : List Char} (hv : (body.reverse.takeWhile (· ≠ '\'')).reverse = value) :
    '\'' ∉ value ∧ ∃ lead, body = lead ++ value ∧ body.take (body.length - value.length - 1) = lead.dropLast ∧
      (lead = [] ∨ ∃ front, lead = front ++ ['\'']) := by
  subst hv
  have hbody : body = (body.reverse.dropWhile (· ≠ '\'')).reverse ++ (body.reverse.takeWhile (· ≠ '\'')).reverse := by
    rw [← reverse_append, takeWhile_append_dropWhile, reverse_reverse]
  generalize hv : (body.reverse.takeWhile (· ≠ '\'')).reverse = value at hbody
  refine ⟨fun hmem => ?_, _, hbody, ?_, ?_⟩
  · rw [← hv, mem_reverse] at hmem
    simpa using mem_takeWhile_imp hmem
  · generalize (body.reverse.dropWhile (· ≠ '\'')).reverse = lead at hbody
    rw [hbody, length_append, Nat.add_sub_cancel, take_append_of_le_length (Nat.sub_le ..), dropLast_eq_take]
  · cases hd : body.reverse.dropWhile (· ≠ '\'') with
    | nil => exact .inl rfl
    | cons q r =>
      have hq : q = '\'' := by simpa using not_of_dropWhile hd
      exact .inr ⟨r.reverse, by rw [hq, reverse_cons]⟩

theorem readBytes_readAs (h : Taken text before ['~'] s) (hs : s.rest = '~' :: r)
    (ht : (s.advance '~').readBytes = (.ok t, s')) : ReadAs text before '~' s s' t := by
  unfold readBytes at ht
  dsimp only at ht
  have hrest : (s.advance '~').rest = r := by rw [advance_rest, hs]; rfl
  rw [hrest] at ht
  generalize hb : r.takeWhile (fun c => !Text.isBlank c) = body at ht
  generalize hv : (body.reverse.takeWhile (· ≠ '\'')).reverse = value at ht
  obtain ⟨hquote, lead, hbody, hfront, hlead⟩ := split_last_quote hv
  have hblank : ∀ c ∈ '~' :: '~' :: body, Text.isBlank c = false := by
    intro c hc
    rw [← hb] at hc
    rcases mem_cons.mp hc with rfl | hc
    · decide
    rcases mem_cons.mp hc with rfl | hc
    · decide
    · simpa using mem_takeWhile_imp hc
  rw [hfront] at ht
  have hsplit : s.rest = '~' :: body ++ r.dropWhile fun c => !Text.isBlank c := by
    rw [hs, ← hb, cons_append, takeWhile_append_dropWhile]
  have hover : s.advanceOver ('~' :: body) = (s.advance '~').advanceOver body := rfl
  have hspelled : ∀ base, GivesBase lead base →
      (Lexeme.bytes (String.ofList value) base).Spelled ('~' :: '~' :: body) := fun base hbase =>
    ⟨lead, by rw [String.toList_ofList, hbody]; rfl, by rwa [String.toList_ofList], hblank, hbase⟩
  rw [← hover] at ht
  split at ht
  · rename_i hempty
    refine readAs_token h hsplit (hspelled 64 (.inl ⟨rfl, ?_⟩)) ht
    rcases hlead with rfl | ⟨front, rfl⟩
    · exact .inl rfl
    · rw [dropLast_concat] at hempty
      have := congrArg String.toList hempty
      rw [String.toList_ofList] at this
      exact .inr (by rw [this]; rfl)
  · rename_i hnonempty
    split at ht
    · rename_i n hn
      refine readAs_token h hsplit (hspelled n (.inr ?_)) ht
      rcases hlead with rfl | ⟨front, rfl⟩
      · exact absurd rfl hnonempty
      · rw [dropLast_concat] at hnonempty hn
        exact ⟨front, fun h => hnonempty (by rw [h]), rfl, hn⟩
    · cases ht

theorem readFrom_readAs (h : Taken text before [c] s) (hblank : Text.isBlank c = false)
    (ht : s.readFrom c = (.ok t, s')) : ReadAs text before c s s' t := by
  have hone : ∀ {l : Lexeme}, l.Spelled [c] → s.token l = (.ok t, s') → ReadAs text before c s s' t := by
    intro l hl ht
    have hnil : s.rest = [] ++ s.rest := rfl
    exact readAs_token h hnil hl ht
  unfold readFrom at ht
  split at ht
  · rename_i hc
    subst hc
    exact readString_readAs h ht
  split at ht
  · rename_i hc
    subst hc
    exact hone (l := .hash) rfl ht
  rename_i hhash
  split at ht
  · rename_i hc
    subst hc
    split at ht
    · exact readBytes_readAs h ‹_› ht
    · cases ht
  split at ht
  · exact readNumber_readAs h ‹_› ht
  rename_i hdigit
  split at ht
  · rename_i l hl
    refine hone ?_ ht
    unfold bracket? at hl
    split at hl <;> cases hl <;> rfl
  split at ht
  · exact readOperator_readAs h hhash ht
  split at ht
  · rename_i hname
    refine readAs_token h takeWhile_append_dropWhile.symm (l := .name _) ⟨String.toList_ofList.symm, ?_⟩ ht
    simp [Text.isName, hname, hdigit, hblank]
  · cases ht

end Reading

/-! ### All tokens -/

section Tokens
variable {s s' : Scanner} {t : Token}

theorem Stands.comment (h : Stands text before s) {c : Char} {after : List Char} (hs : s.rest = c :: after)
    (hdashes : (c = '-' && after.head? = some '-') = true) :
    ∃ taken, Stands text (before ++ taken) (s.markStart.advance c).skipLine ∧
      s.rest = taken ++ (s.markStart.advance c).skipLine.rest ∧ taken ≠ [] ∧
      (Filler taken ∨ TrailingFiller taken ∧ (s.markStart.advance c).skipLine.rest = []) := by
  obtain ⟨rfl, hhead⟩ : c = '-' ∧ after.head? = some '-' := by simpa using hdashes
  obtain ⟨r, rfl⟩ := head?_eq_some_iff.mp hhead
  have hrest : (s.markStart.advance '-').rest = '-' :: r := by rw [advance_rest, markStart_rest, hs]; rfl
  obtain ⟨body, ending, hbody, hsplit, hstands, hend⟩ := (h.markStart.advance (by rw [markStart_rest, hs])).skipLine
  -- the line that is left starts with the second dash
  obtain ⟨more, rfl⟩ : ∃ more, body = '-' :: more := by
    rw [hrest] at hsplit
    cases body with
    | cons d more => exact ⟨more, by rw [(List.cons.inj hsplit).1]⟩
    | nil =>
      rcases hend with rfl | ⟨rfl, hnil⟩
      · exact absurd (List.cons.inj hsplit).1 (by decide)
      · rw [hnil] at hsplit
        cases hsplit
  have hmore : '\n' ∉ more := fun hmem => hbody (.tail _ hmem)
  refine ⟨'-' :: '-' :: more ++ ending, ?_, ?_, cons_ne_nil _ _, ?_⟩
  · simpa using hstands
  · rw [hs, ← hrest, hsplit]
    rfl
  · rcases hend with rfl | ⟨rfl, hnil⟩
    · exact .inl (.comment hmore .nil)
    · exact .inr ⟨.inr ⟨[], more, by rw [append_nil]; rfl, .nil, hmore⟩, hnil⟩

/-- The next token stands behind filler, or there is nothing but filler. -/
theorem readTokenWithin_cases {fuel : Nat} (h : Stands text before s) (hfuel : s.rest.length < fuel)
    (ht : s.readTokenWithin fuel = (.ok t, s')) :
    (t.lexeme = .endOfInput ∧ TrailingFiller s.rest) ∨
      ∃ gap cs, s.rest = gap ++ (cs ++ s'.rest) ∧ Filler gap ∧ cs ≠ [] ∧ t.lexeme.Spelled cs ∧
        Taken text (before ++ gap) cs s' ∧ t.extent = s'.extent := by
  -- a comment takes characters, so what is left behind it is shorter than the fuel that is left
  induction fuel generalizing before s with
  | zero => cases hfuel
  | succ fuel ih =>
    obtain ⟨gap, hblanks, hsplit, hstands⟩ := h.skipBlanks
    have hgap : Filler gap := filler_of_blanks hblanks
    have hnext := skipBlanks_rest s
    rw [readTokenWithin] at ht
    dsimp only at ht
    generalize s.skipBlanks = u at ht hsplit hstands hnext
    split at ht
    · rename_i hnil
      cases ht
      rw [hsplit, hnil, append_nil]
      exact .inl ⟨rfl, .inl hgap⟩
    rename_i c after hrest
    split at ht
    · rename_i hcomment
      obtain ⟨taken, hstands', hsplit', hne, htaken⟩ := hstands.comment hrest hcomment
      have hlt : (u.markStart.advance c).skipLine.rest.length < fuel := by
        have := length_pos_iff.mpr hne
        rw [hsplit, hsplit', length_append, length_append] at hfuel
        omega
      rw [hsplit, hsplit']
      rcases ih hstands' hlt ht with ⟨hend, htrailing⟩ | ⟨gap', cs, hsplit'', hgap', hcs, htoken⟩
      · refine .inl ⟨hend, hgap.trailing ?_⟩
        rcases htaken with htaken | ⟨htaken, hnil⟩
        · exact htaken.trailing htrailing
        · rwa [hnil, append_nil]
      · rcases htaken with htaken | ⟨-, hnil⟩
        · refine .inr ⟨gap ++ (taken ++ gap'), cs, ?_, hgap.append (htaken.append hgap'), hcs, ?_⟩
          · rw [hsplit'', append_assoc, append_assoc]
          · rwa [← append_assoc before, ← append_assoc (before ++ gap)]
        · rw [hnil] at hsplit''
          simp [hcs] at hsplit''
    · have hblank : Text.isBlank c = false := not_of_dropWhile (hnext.symm.trans hrest)
      obtain ⟨cs, hcs, htaken, hextent, hspelled⟩ := readFrom_readAs (hstands.take hrest) hblank ht
      refine .inr ⟨gap, c :: cs, ?_, hgap, cons_ne_nil c cs, hspelled, htaken, hextent⟩
      rw [advance_rest, markStart_rest, hrest, tail_cons] at hcs
      rw [hsplit, hrest, hcs]
      rfl

end Tokens

end Scanner

/-! ### The whole text -/

theorem Tiled.token {text before cs : List Char} {t : Token} {ts : List Token}
    (htext : text = before ++ (gap ++ (cs ++ r))) (hgap : Filler gap) (hcs : cs ≠ []) (hl : t.lexeme.Spelled cs)
    (hextent : t.extent = ⟨.after (before ++ gap), .after (before ++ gap ++ cs.dropLast)⟩)
    (hts : Tiled text (before ++ gap ++ cs).length ts) : Tiled text before.length (t :: ts) := by
  have hpos := length_pos_iff.mpr hcs
  have htext' : text = (before ++ gap) ++ (cs ++ r) := by rw [htext, append_assoc]
  have hstop : (before ++ gap ++ cs).length = (before ++ gap).length + cs.length := length_append
  refine .cons (a := (before ++ gap).length) (b := (before ++ gap ++ cs).length) ?_ ?_ ?_ ?_ ?_ ?_ hts
  · rw [length_append]
    exact Nat.le_add_right ..
  · omega
  · rw [htext', ← append_assoc]
    exact (sublist_append_left ..).length_le
  · rw [htext, List.extract, drop_left, length_append, Nat.add_sub_cancel_left, take_left]
    exact hgap
  · intro l
    rw [htext', List.extract, drop_left, hstop, Nat.add_sub_cancel_left, take_left]
    exact ⟨fun h => h.unique hl, fun h => h ▸ hl⟩
  · have hlast : (before ++ gap ++ cs).length - 1 = (before ++ gap ++ cs.dropLast).length := by
      have : (before ++ gap ++ cs.dropLast).length = (before ++ gap).length + cs.dropLast.length := length_append
      rw [this, hstop, length_dropLast]
      omega
    have hcut : text = (before ++ gap ++ cs.dropLast) ++ (cs.getLast hcs :: r) := by
      rw [append_cons, append_assoc _ cs.dropLast, dropLast_concat_getLast hcs, htext',
        append_assoc (before ++ gap)]
    have hstart : Location.at text (before ++ gap).length = .after (before ++ gap) := by
      rw [Location.at, htext', take_left]
    have hend : Location.at text ((before ++ gap ++ cs).length - 1) = .after (before ++ gap ++ cs.dropLast) := by
      rw [Location.at, hlast, hcut, take_left]
    rw [hextent, hstart, hend]

theorem Scanner.readAllWithin_tiled {text before : List Char} {fuel : Nat} {ts : List Token} (h : Stands text before s)
    (hfuel : s.rest.length < fuel) (hts : s.readAllWithin fuel = .ok ts) : Tiled text before.length ts := by
  induction fuel generalizing before s ts with
  | zero => cases hfuel
  | succ fuel ih =>
    rw [readAllWithin] at hts
    split at hts
    · cases hts
    rename_i t s' hread
    rcases readTokenWithin_cases h (Nat.lt_succ_self _) hread with
      ⟨hend, htrailing⟩ | ⟨gap, cs, hsplit, hgap, hcs, hl, htaken, hextent⟩
    · rw [if_pos hend] at hts
      cases hts
      refine .nil ?_
      rwa [h.text, drop_left]
    · rw [if_neg hl.ne_end] at hts
      cases hrest : s'.readAllWithin fuel with
      | error e =>
        rw [hrest] at hts
        cases hts
      | ok us =>
        rw [hrest] at hts
        cases hts
        have hlt : s'.rest.length < fuel := by
          have := length_pos_iff.mpr hcs
          rw [hsplit, length_append, length_append] at hfuel
          omega
        refine .token (h.text.trans (by rw [hsplit])) hgap hcs hl (hextent.trans htaken.extent) ?_
        exact ih htaken.stands hlt hrest

/-- Tokens tile the text that they are read from. -/
theorem tokenize_tiled {text : String} {ts : List Token} (h : tokenize text = .ok ts) : Tiled text.toList 0 ts := by
  have hstart : Scanner.Stands text.toList [] (.ofText text) := ⟨rfl, rfl⟩
  exact Scanner.readAllWithin_tiled hstart (Nat.lt_succ_self _) h

theorem tokenize_tiled_lines : Tiled "é = \"a\nλ\" -- note\n  ++ 12 0.75".toList 0
    [⟨.name "é", ⟨1, 1, 0⟩, ⟨1, 1, 0⟩⟩, ⟨.operator "=", ⟨1, 3, 3⟩, ⟨1, 3, 3⟩⟩, ⟨.string "a\nλ", ⟨1, 5, 5⟩, ⟨2, 2, 10⟩⟩,
      ⟨.operator "++", ⟨3, 3, 22⟩, ⟨3, 4, 23⟩⟩, ⟨.int 12, ⟨3, 6, 25⟩, ⟨3, 7, 26⟩⟩,
      ⟨.float ⟨0x3fe8000000000000⟩, ⟨3, 9, 28⟩, ⟨3, 12, 31⟩⟩] :=
  tokenize_tiled (by decide +kernel)

end Scrap
