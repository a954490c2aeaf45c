import Mathlib.Algebra.Group.Nat.Defs
import Scrap.Proofs.Term.Nesting
import Scrap.Proofs.Term.ReadBack
import Scrap.Proofs.Token.Spelling
import Scrap.Term.Source

/-! # Terms from source text

The reader makes terms without identities, of the forms that source text has. An integer in them has no more digits
than can be written. -/

namespace Scrap

open List

variable {c : Char} {fuel : Nat} {s : String} {t u : Term} {P : Punctuation}

namespace Term

/-- Whether the reader makes such a term, as far as its outermost form tells. -/
def isRead : Term → Bool
  | .int i n => i = 0 && (Text.intText? n).isSome
  | .float i _ | .string i _ | .bytes i _ | .var i _ | .hole i | .spread i _ | .binop i _ _ _ | .list i _ | .record i _
  | .assign i _ _ | .function i _ _ | .apply i _ _ | .scope i _ _ | .assert i _ _ | .matchFunction i _ | .access i _ _
  | .variant i _ _ => i = 0
  | .truth _ _ | .complex _ _ | .matchCase _ _ _ | .environment _ _ | .relocation _ _ _ | .native _ _ | .closure _ _
  | .link _ => false

def FromSource (t : Term) : Prop := t.Throughout (·.isRead = true)

section FromSource
variable {v : Term}

theorem FromSource.part (h : t.FromSource) (hu : u ∈ t.parts) : u.FromSource := (throughout_iff.mp h).2 u hu

theorem fromSource_of_parts (ht : t.isRead = true) (h : ∀ u ∈ t.parts, u.FromSource) : t.FromSource :=
  throughout_iff.mpr ⟨ht, h⟩

theorem fromSource_leaf (ht : t.isRead = true) (hparts : t.parts = []) : t.FromSource :=
  fromSource_of_parts ht (by simp [hparts])

theorem fromSource_one (ht : t.isRead = true) (hparts : t.parts = [u]) (hu : u.FromSource) : t.FromSource :=
  fromSource_of_parts ht (by simp [hparts, hu])

theorem fromSource_two (ht : t.isRead = true) (hparts : t.parts = [u, v]) (hu : u.FromSource) (hv : v.FromSource) :
    t.FromSource :=
  fromSource_of_parts ht (by simp [hparts, hu, hv])

theorem same_of_isRead (ht : t.isRead = true) (s : Term) : t.same s = false := by
  have hid : t.id = 0 ∧ t.isClosure = false := by
    cases t <;> simp_all [isRead, id, isClosure]
  rw [same_eq, hid.1, hid.2]
  simp

end FromSource

end Term

/-! ### Phrases -/

namespace Parser
open Term

theorem entryOf_fromSource {e : String × Term} (ht : t.FromSource) (h : entryOf t = pure e) : e.2.FromSource := by
  rcases entryOf_eq_pure h with he | hparts
  · rwa [he]
  · exact ht.part (hparts ▸ mem_singleton_self _)

theorem intText?_neg {n : Int} : (Text.intText? (-n)).isSome = (Text.intText? n).isSome := by
  simp only [Text.intText?, Int.natAbs_neg]
  split <;> rfl

theorem negated_fromSource (ht : t.FromSource) (h : negated t = pure u) : u.FromSource := by
  have hzero : (Term.int 0 0).FromSource := fromSource_leaf (by decide +kernel) rfl
  rcases negated_eq_pure h with ⟨i, n, rfl, rfl⟩ | ⟨i, x, rfl, rfl⟩ | rfl
  · have hn := (throughout_iff.mp ht).1
    refine fromSource_leaf ?_ rfl
    simp only [isRead, Bool.and_eq_true, intText?_neg] at hn ⊢
    exact ⟨rfl, hn.2⟩
  · exact fromSource_leaf rfl rfl
  · exact fromSource_two rfl rfl hzero ht

end Parser

open Term in
theorem Combined.fromSource {l r : Term} (h : Combined s l r t) (hl : l.FromSource) (hr : r.FromSource) :
    t.FromSource := by
  have hcomposed : ∀ (x : String) {u v : Term}, u.FromSource → v.FromSource → (Parser.composed x u v).FromSource :=
    fun x u v hu hv => by
      have hx : (Term.var 0 x).FromSource := fromSource_leaf rfl rfl
      exact fromSource_two rfl rfl hx (fromSource_two rfl rfl hv (fromSource_two rfl rfl hu hx))
  cases h with
  | assign => exact fromSource_one rfl rfl hr
  | pipe => exact fromSource_two rfl rfl hr hl
  | andThen => exact hcomposed _ hl hr
  | after => exact hcomposed _ hr hl
  | function | reversePipe | scope | assert | access | binop => exact fromSource_two rfl rfl hl hr

/-- Integers among the tokens have a text. -/
def ShortNumerals (ls : List Lexeme) : Prop := ∀ n, .int n ∈ ls → (Text.intText? n).isSome = true

theorem ShortNumerals.mono {ls ls' : List Lexeme} (h : ShortNumerals ls) (hsub : ls' ⊆ ls) : ShortNumerals ls' :=
  fun n hn => h n (hsub hn)

mutual

theorem Phrase.fromSource {ls : List Lexeme} {t : Term} : Phrase P ls t → ShortNumerals ls →
    t.FromSource
  | .int, hn => Term.fromSource_leaf (by simpa [Term.isRead] using hn _ (mem_singleton_self _)) rfl
  | .float, _ | .name, _ | .string, _ | .bytes _, _ | .spread, _ | .namedSpread, _ | .hole, _ | .emptyList, _
  | .emptyRecord, _ => Term.fromSource_leaf rfl rfl
  | .variant hv, hn => Term.fromSource_one rfl rfl (hv.fromSource (hn.mono fun l hl => by simp [hl]))
  | .matchFunction hc hcs, hn => by
    have hc := hc.fromSource (hn.mono fun l hl => by simp [hl])
    have hcs := hcs.fromSource (hn.mono fun l hl => by simp [hl])
    refine Term.fromSource_of_parts rfl fun u hu => ?_
    obtain ⟨c, hmem, hu⟩ := mem_flatMap.mp hu
    rcases mem_cons.mp hmem with rfl | hmem
    · exact hc.part hu
    · rcases mem_cons.mp hu with rfl | hu
      · exact (hcs c hmem).1
      · exact mem_singleton.mp hu ▸ (hcs c hmem).2
  | .paren ht _, hn => ht.fromSource (hn.mono fun l hl => by simp [hl])
  | .list ht hts, hn => by
    have ht := ht.fromSource (hn.mono fun l hl => by simp [hl])
    have hts := hts.fromSource (hn.mono fun l hl => by simp [hl])
    exact Term.fromSource_of_parts rfl (forall_mem_cons.mpr ⟨ht, hts⟩)
  | .record ht he hes, hn => by
    have ht := Parser.entryOf_fromSource (ht.fromSource (hn.mono fun l hl => by simp [hl])) he
    have hes := hes.fromSource (hn.mono fun l hl => by simp [hl])
    refine Term.fromSource_of_parts rfl fun u hu => ?_
    obtain ⟨p, hp, rfl⟩ := mem_map.mp hu
    rcases Dict.mem_merge hp with hp | hp
    · cases hp
    · rcases mem_cons.mp hp with rfl | hp
      · exact ht
      · exact hes p hp
  | .negative ht hneg, hn => Parser.negated_fromSource (ht.fromSource (hn.mono fun l hl => by simp [hl])) hneg
  | .apply hf ha _, hn =>
    Term.fromSource_two rfl rfl (hf.fromSource (hn.mono fun l hl => by simp [hl]))
      (ha.fromSource (hn.mono fun l hl => by simp [hl]))
  | .operator hl hr hc, hn => hc.fromSource (hl.fromSource (hn.mono fun l hl => by simp [hl]))
      (hr.fromSource (hn.mono fun l hl => by simp [hl]))

theorem CasePhrases.fromSource {ls : List Lexeme} {cs : List (Term × Term)} : CasePhrases P ls cs →
    ShortNumerals ls → ∀ c ∈ cs, c.1.FromSource ∧ c.2.FromSource
  | .nil, _ => by simp
  | .cons hf hcs, hn => by
    have hf := hf.fromSource (hn.mono fun l hl => by simp [hl])
    have hcs := hcs.fromSource (hn.mono fun l hl => by simp [hl])
    exact forall_mem_cons.mpr ⟨⟨hf.part (.head _), hf.part (.tail _ (.head _))⟩, hcs⟩

theorem ItemPhrases.fromSource {ls : List Lexeme} {ts : List Term} : ItemPhrases P ls ts →
    ShortNumerals ls → ∀ t ∈ ts, t.FromSource
  | .nil, _ => by simp
  | .cons _ hu hts, hn => by
    have hu := hu.fromSource (hn.mono fun l hl => by simp [hl])
    have hts := hts.fromSource (hn.mono fun l hl => by simp [hl])
    exact forall_mem_cons.mpr ⟨hu, hts⟩

theorem FieldPhrases.fromSource {ls : List Lexeme} {es : List (String × Term)} :
    FieldPhrases P ls es → ShortNumerals ls → ∀ e ∈ es, e.2.FromSource
  | .nil, _ => by simp
  | .cons _ hu hentry hes, hn => by
    have hu := hu.fromSource (hn.mono fun l hl => by simp [hl])
    have hes := hes.fromSource (hn.mono fun l hl => by simp [hl])
    exact forall_mem_cons.mpr ⟨Parser.entryOf_fromSource hu hentry, hes⟩

end

/-! ### Numerals -/

namespace Text

variable {ds : List Nat}

theorem decimalValue?_lt {v : Nat} (h : decimalValue? c = some v) : v < 10 := by
  unfold decimalValue? at h
  dsimp only at h
  split at h
  · split at h
    · rename_i hc
      simp only [Bool.and_eq_true, decide_eq_true_eq] at hc
      cases h
      omega
    · cases h
  · obtain ⟨z, hz, rfl⟩ := Option.map_eq_some_iff.mp h
    have := find?_some hz
    simp only [Bool.and_eq_true, decide_eq_true_eq] at this
    omega

theorem ofDigits_lt (h : ∀ d ∈ ds, d < 10) : ofDigits ds < 10 ^ ds.length := by
  have hfold : ∀ (ds : List Nat) (n : Nat), (∀ d ∈ ds, d < 10) →
      ds.foldl (fun n d => 10 * n + d) n < (n + 1) * 10 ^ ds.length := by
    intro ds
    induction ds with
    | nil => simp
    | cons d ds ih =>
      intro n h
      have hd := h d (.head _)
      calc (d :: ds).foldl (fun n d => 10 * n + d) n
        _ < (10 * n + d + 1) * 10 ^ ds.length := ih _ fun e he => h e (.tail _ he)
        _ ≤ ((n + 1) * 10) * 10 ^ ds.length := Nat.mul_le_mul_right _ (by omega)
        _ = (n + 1) * 10 ^ (d :: ds).length := by rw [length_cons, Nat.pow_succ, Nat.mul_assoc, Nat.mul_comm 10]
  rw [ofDigits]
  simpa using hfold ds 0 h

theorem intText?_of_readInt {n : Int} (h : readInt s = .ok n) : (intText? n).isSome = true := by
  unfold readInt at h
  split at h
  rename_i negative body _
  dsimp only at h
  split at h
  · cases h
  split at h
  · cases h
  rename_i hlen
  split at h
  · cases h
  have hdigits : ∀ d ∈ (body.takeWhile isNumeral).filterMap decimalValue?, d < 10 := fun d hd => by
    obtain ⟨c, -, hc⟩ := mem_filterMap.mp hd
    exact decimalValue?_lt hc
  have hof := (ofDigits_lt hdigits).trans_le (Nat.pow_le_pow_right (Nat.succ_pos 9) (Nat.not_lt.mp hlen))
  have habs : n.natAbs = ofDigits ((body.takeWhile isNumeral).filterMap decimalValue?) := by
    cases h
    split
    · rw [Int.natAbs_neg, Int.natAbs_natCast]
    · exact Int.natAbs_natCast _
  have hnot : ¬ Nat.pow 10 maxDigits ≤ n.natAbs := by
    rw [habs]
    exact Nat.not_le.mpr hof
  rw [intText?, if_neg hnot]
  rfl

end Text

namespace Scanner
variable {s s' : Scanner} {t : Token} {n : Int}

theorem int_of_readNumber (h : s.readNumber c = (.ok t, s')) (ht : t.lexeme = .int n) :
    ∃ ds, intLexeme ds = .ok (.int n) := by
  unfold readNumber at h
  dsimp only at h
  split at h
  · split at h
    · cases h
    · split at h
      · rename_i l hl
        cases h
        cases ht
        unfold floatLexeme at hl
        split at hl <;> cases hl
      · cases h
  · split at h
    · rename_i l hl
      cases h
      cases ht
      exact ⟨_, hl⟩
    · cases h

theorem int_of_readFrom (h : s.readFrom c = (.ok t, s')) (ht : t.lexeme = .int n) :
    ∃ ds, intLexeme ds = .ok (.int n) := by
  unfold readFrom at h
  split at h
  · unfold readString at h
    dsimp only at h
    split at h <;> cases h
    cases ht
  split at h
  · cases h
    cases ht
  split at h
  · split at h
    · unfold readBytes at h
      dsimp only at h
      split at h
      · cases h
        cases ht
      · split at h <;> cases h
        cases ht
    · cases h
  split at h
  · exact int_of_readNumber h ht
  split at h
  · rename_i l hl
    cases h
    cases ht
    unfold bracket? at hl
    split at hl <;> cases hl
  split at h
  · unfold readOperator at h
    dsimp only at h
    split at h <;> cases h
    cases ht
  split at h
  · cases h
    cases ht
  · cases h

theorem int_of_readTokenWithin (h : s.readTokenWithin fuel = (.ok t, s')) (ht : t.lexeme = .int n) :
    ∃ ds, intLexeme ds = .ok (.int n) := by
  induction fuel generalizing s with
  | zero =>
    cases h
    cases ht
  | succ fuel ih =>
    rw [readTokenWithin] at h
    dsimp only at h
    split at h
    · cases h
      cases ht
    · split at h
      · exact ih h
      · exact int_of_readFrom h ht

theorem shortNumerals_of_readAllWithin {ts : List Token} (h : s.readAllWithin fuel = .ok ts) :
    ShortNumerals (ts.map Token.lexeme) := by
  induction fuel generalizing s ts with
  | zero =>
    cases h
    intro n hn
    cases hn
  | succ fuel ih =>
    rw [readAllWithin] at h
    split at h
    · cases h
    rename_i t s' hread
    split at h
    · cases h
      intro n hn
      cases hn
    · cases hus : s'.readAllWithin fuel with
      | error e =>
        rw [hus] at h
        cases h
      | ok us =>
        rw [hus] at h
        cases h
        intro n hn
        rcases mem_cons.mp hn with hn | hn
        · obtain ⟨ds, hds⟩ := int_of_readTokenWithin hread hn.symm
          unfold intLexeme at hds
          split at hds
          · rename_i hint
            cases hds
            exact Text.intText?_of_readInt hint
          · cases hds
        · exact ih hus n hn

end Scanner

/-- The terms of source texts are terms that the reader makes. -/
theorem Source.fromSource_of_read {g : Nat} {text : String} (h : (Source.read g text).1 = .ok t) : t.FromSource := by
  unfold Source.read at h
  split at h
  · cases h
  · rename_i ts hts
    split at h
    · rename_i u r hparse
      cases h
      obtain ⟨ls, hls, hphrase, -⟩ := (Parser.sound _).expression.returns hparse
      refine hphrase.fromSource ((Scanner.shortNumerals_of_readAllWithin hts).mono fun l hl => ?_)
      show l ∈ Reader.lexemes ⟨ts, g⟩
      rw [hls]
      exact mem_append_left _ hl
    · cases h

end Scrap
