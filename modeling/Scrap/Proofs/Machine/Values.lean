import Scrap.Machine.Run
import Scrap.Proofs.Machine.Words
import Scrap.Proofs.Text.Utf8
import Scrap.Term.Match

/-! # The words of values

A word stands for a value immediately or through an object of the store. A variant whose content is the hole may be
either: that depends on how the program came to it. -/

namespace Scrap

open List

variable {c : Char} {m : Image} {ts : List Term} {store : Store} {w : Word} {i : Nat} {s t : String}

/-! ### Texts of bytes below 128 -/

def Text.isAscii (s : String) : Bool := s.toList.all fun c => c.toNat < 128

namespace Text

theorem encodeChar_of_lt (h : c.toNat < 128) : String.utf8EncodeChar c = [UInt8.ofNat c.toNat] := by
  have h' : c.val.toNat ≤ 127 := Nat.le_of_lt_succ h
  simp only [String.utf8EncodeChar, h', if_true]
  rfl

/-- The bytes of a character from 128 on start with one that is no character of its own. -/
theorem encodeChar_of_le (h : 128 ≤ c.toNat) : ∃ a more, String.utf8EncodeChar c = a :: more ∧ 128 ≤ a.toNat := by
  obtain ⟨a, more, hc, hstep⟩ := utf8Step_encodeChar c []
  refine ⟨a, more, hc, ?_⟩
  by_contra hlt
  have ha : a.toNat < 128 := by omega
  simp only [utf8Step, if_pos ha, Utf8Step.char.injEq] at hstep
  rw [← hstep.1, Char.ofNat, dif_pos (.inl (by omega))] at h
  exact hlt h

theorem flatMap_encodeChar_of_ascii {cs : List Char} (h : ∀ c ∈ cs, c.toNat < 128) :
    cs.flatMap String.utf8EncodeChar = cs.map fun c => UInt8.ofNat c.toNat := by
  induction cs with
  | nil => rfl
  | cons c cs ih =>
    rw [flatMap_cons, encodeChar_of_lt (h c ((.head _) ..)),
      ih fun d hd => h d (.tail _ hd)]
    rfl

theorem utf8_length (h : isAscii s = true) : (utf8 s).length = s.length := by
  rw [utf8, flatMap_encodeChar_of_ascii (by simpa [isAscii] using h), length_map, String.length_toList]

theorem utf8_lt (h : isAscii s = true) : ∀ b ∈ utf8 s, b < 128 := by
  have hs : ∀ c ∈ s.toList, c.toNat < 128 := by simpa [isAscii] using h
  intro b hb
  rw [utf8, flatMap_encodeChar_of_ascii hs, mem_map] at hb
  obtain ⟨c, hc, rfl⟩ := hb
  have := hs c hc
  rw [UInt8.lt_iff_toNat_lt, toNat_ofNat_of_lt (by omega)]
  exact this

/-- The bytes of a text below 128 are the first bytes of another text, as many as that has characters, only if the
texts are the same. -/
theorem eq_of_flatMap_eq_take {as bs : List Char} (has : ∀ a ∈ as, a.toNat < 128)
    (h : as.flatMap String.utf8EncodeChar = (bs.flatMap String.utf8EncodeChar).take bs.length) : as = bs := by
  induction bs generalizing as with
  | nil =>
    rw [flatMap_encodeChar_of_ascii has] at h
    simpa using h
  | cons b bs ih =>
    have hb : ∃ x more, String.utf8EncodeChar b = x :: more ∧ (128 ≤ b.toNat → 128 ≤ x.toNat) := by
      by_cases hlt : b.toNat < 128
      · exact ⟨_, _, encodeChar_of_lt hlt, fun h => absurd h (by omega)⟩
      · obtain ⟨x, more, hx, hle⟩ := encodeChar_of_le (show 128 ≤ b.toNat by omega)
        exact ⟨x, more, hx, fun _ => hle⟩
    obtain ⟨x, more, hx, hle⟩ := hb
    rw [flatMap_cons, hx, cons_append, length_cons, take_succ_cons] at h
    cases as with
    | nil => simp at h
    | cons a as =>
      have ha := has a ((.head _) ..)
      rw [flatMap_cons, encodeChar_of_lt ha, singleton_append, List.cons.injEq] at h
      obtain ⟨hax, h⟩ := h
      have hxa : x.toNat = a.toNat := by rw [← hax, toNat_ofNat_of_lt (by omega)]
      have hlt : b.toNat < 128 := by
        by_contra hge
        have := hle (by omega)
        omega
      have hbx := (encodeChar_of_lt hlt).symm.trans hx
      rw [List.cons.injEq] at hbx
      obtain ⟨hbx, rfl⟩ := hbx
      have hab : a = b := by
        have : a.toNat = b.toNat := by
          rw [← hxa, ← hbx, toNat_ofNat_of_lt (by omega)]
        exact Char.toNat_inj.mp this
      subst hab
      rw [ih (fun c hc => has c (.tail _ hc)) h]

end Text

def Term.text? : Term → Option String
  | .string _ s => some s
  | _ => none

def Term.isList : Term → Bool
  | .list _ _ => true
  | _ => false

namespace Machine

theorem Image.utf8_eq_stringBytes_iff (hs : Text.isAscii s = true) : Text.utf8 s = Image.stringBytes t ↔ s = t := by
  constructor
  · intro h
    have hs' : ∀ c ∈ s.toList, c.toNat < 128 := by simpa [Text.isAscii] using hs
    rw [Image.stringBytes, Text.utf8, Text.utf8, ← String.length_toList] at h
    exact String.toList_inj.mp (Text.eq_of_flatMap_eq_take hs' h)
  · rintro rfl
    rw [Image.stringBytes, ← Text.utf8_length hs, take_length]

/-! ### Views of the store -/

namespace Store

theorem get?_low {x : Object} (h : store.get? w = some x) : w.toNat % 8 = 1 := by
  unfold get? at h
  split at h
  · rw [← Word.isPointer_iff]
    assumption
  · cases h

theorem get?_eq_none (h : w.toNat % 8 ≠ 1) (store : Store) : store.get? w = none := by
  rw [get?, if_neg (by rwa [Word.isPointer_iff])]

theorem get?_pointer {n : Nat} (hn : n < 2305843009213693952) (store : Store) :
    store.get? (Word.pointer n) =
      if n < store.constants.size then store.constants[n]? else store.objects[n - store.constants.size]? := by
  rw [get?, if_pos (Word.isPointer_pointer hn), Word.target_pointer hn]

def bytes? (store : Store) (w : Word) : Option (List UInt8) :=
  if w.isShortString then some w.shortBytes
  else match store.get? w with
    | some (.string bytes) => some bytes
    | _ => none

def content? (store : Store) (w : Word) : Option (Nat × Word) :=
  if w.isVariant then some (w.variantTag, Word.hole)
  else match store.get? w with
    | some (.variant t v) => some (t, v)
    | _ => none

def isList (store : Store) (w : Word) : Bool :=
  if w = Word.emptyList then true
  else match store.get? w with
    | some (.list _ _) => true
    | _ => false

end Store

/-! ### Values -/

/-- A word stands for a value. -/
inductive Shows (m : Image) (store : Store) : Word → Term → Prop
  | int (i : Nat) {n : Int} (hn : Word.fits n = true) : Shows m store (Word.int n) (.int i n)
  | hole (i : Nat) : Shows m store Word.hole (.hole i)
  | short (i : Nat) {s : String} (hs : Text.isAscii s = true) (hlen : s.length < 8) :
    Shows m store (Word.shortString (Text.utf8 s)) (.string i s)
  | long (i : Nat) {s : String} {w : Word} (hs : Text.isAscii s = true) (hlen : 8 ≤ s.length)
    (hw : store.get? w = some (.string (Text.utf8 s))) : Shows m store w (.string i s)
  | nil (i : Nat) : Shows m store Word.emptyList (.list i [])
  | cons (i j : Nat) {w a b : Word} {t : Term} {ts : List Term} (hw : store.get? w = some (.list a b))
    (ha : Shows m store a t) (hb : Shows m store b (.list j ts)) : Shows m store w (.list i (t :: ts))
  | tag (i j : Nat) {t : String} (ht : t ∈ m.program.tags) :
    Shows m store (Word.variant (m.tag t)) (.variant i t (.hole j))
  | boxed (i : Nat) {w v : Word} {t : String} {o : Term} (ht : t ∈ m.program.tags)
    (hw : store.get? w = some (.variant (m.tag t) v)) (hv : Shows m store v o) : Shows m store w (.variant i t o)

/-- The program has no more tags than fit into a word beside its mark. -/
def Image.TagsFit (m : Image) : Prop := m.program.tags.length ≤ 576460752303423488

theorem Image.tag_lt (hm : m.TagsFit) (ht : t ∈ m.program.tags) : m.tag t < 576460752303423488 :=
  (idxOf_lt_length_of_mem ht).trans_le hm

theorem Image.tag_inj {u : String} (ht : t ∈ m.program.tags) (hu : u ∈ m.program.tags) : m.tag t = m.tag u ↔ t = u := by
  refine ⟨fun h => ?_, fun h => h ▸ rfl⟩
  have hu' := getElem_idxOf (idxOf_lt_length_of_mem hu)
  rw [← hu', ← getElem_idxOf (idxOf_lt_length_of_mem ht)]
  congr 1

/-- What the low bits of the word of a value say. -/
def Marked (w : Word) : Term → Prop
  | .int _ _ => w.toNat % 2 = 0
  | .hole _ => w.toNat % 32 = 7
  | .string _ _ => w.toNat % 32 = 13 ∨ w.toNat % 8 = 1
  | .list _ [] => w.toNat % 32 = 5
  | .list _ (_ :: _) => w.toNat % 8 = 1
  | .variant _ _ _ => w.toNat % 32 = 15 ∨ w.toNat % 8 = 1
  | _ => False

namespace Shows
variable {o : Term}

section
variable (h : Shows m store w o)
include h

theorem marked : Marked w o := by
  cases h with
  | int i hn => exact Word.int_even _
  | hole i => rfl
  | short i hs hlen => exact .inl (Word.shortString_low (by rw [Text.utf8_length hs]; omega))
  | long i hs hlen hw => exact .inr (Store.get?_low hw)
  | nil i => rfl
  | cons i j hw ha hb => exact Store.get?_low hw
  | tag i j ht => exact .inl (Word.variant_low _)
  | boxed i ht hw hv => exact .inr (Store.get?_low hw)

theorem resolve (heap : Heap) : heap.resolve o = o := by
  cases h <;> rfl

theorem eq_int_iff {n : Int} (hn : Word.fits n = true) : w = Word.int n ↔ o.int? = some n := by
  have hlow := h.marked
  have heven := Word.int_even n
  cases h with
  | int i hk => rw [Word.int_inj hk hn, Term.int?, Option.some.injEq]
  | _ =>
    refine ⟨fun heq => ?_, fun heq => by cases heq⟩
    rw [← heq] at heven
    simp only [Marked] at hlow
    omega

theorem eq_hole_iff : w = Word.hole ↔ ∃ i, o = .hole i := by
  have hlow := h.marked
  have hhole : Word.hole.toNat = 7 := rfl
  cases h with
  | hole i => exact ⟨fun _ => ⟨i, rfl⟩, fun _ => rfl⟩
  | _ =>
    refine ⟨fun heq => ?_, fun ⟨i, heq⟩ => by cases heq⟩
    rw [← heq] at hhole
    simp only [Marked] at hlow
    omega

theorem eq_emptyList_iff : w = Word.emptyList ↔ ∃ i, o = .list i [] := by
  have hlow := h.marked
  have hnil : Word.emptyList.toNat = 5 := rfl
  cases h with
  | nil i => exact ⟨fun _ => ⟨i, rfl⟩, fun _ => rfl⟩
  | _ =>
    refine ⟨fun heq => ?_, fun ⟨i, heq⟩ => by cases heq⟩
    rw [← heq] at hnil
    simp only [Marked] at hlow
    omega

theorem eq_shortPattern_iff (ht : t.length < 8) :
    w = Word.shortPattern (Image.stringBytes t) ↔ ∃ i, o = .string i t := by
  have hlow := h.marked
  have hbytes : (Image.stringBytes t).length ≤ 7 := by
    rw [Image.stringBytes, length_take]
    omega
  have hpat := Word.shortPattern_low hbytes
  cases h with
  | short i hs hlen =>
    rw [Word.shortString_eq_shortPattern_iff (by rw [Text.utf8_length hs]; omega) hbytes (Text.utf8_lt hs),
      Image.utf8_eq_stringBytes_iff hs]
    simp
  | long i hs hlen hw =>
    have hptr := Store.get?_low hw
    refine ⟨fun heq => ?_, ?_⟩
    · rw [heq] at hptr
      omega
    · rintro ⟨j, heq⟩
      cases heq
      omega
  | _ =>
    refine ⟨fun heq => ?_, fun ⟨i, heq⟩ => by cases heq⟩
    rw [← heq] at hpat
    simp only [Marked] at hlow
    omega

theorem bytes? : store.bytes? w = o.text?.map Text.utf8 := by
  have hlow := h.marked
  unfold Store.bytes?
  cases h with
  | short i hs hlen =>
    have hle : (Text.utf8 _).length ≤ 7 := (Text.utf8_length hs).trans_le (Nat.le_of_lt_succ hlen)
    rw [if_pos (Word.isShortString_iff.mpr (Word.shortString_low hle)), Word.shortBytes_shortString hle]
    rfl
  | long i hs hlen hw | cons i j hw ha hb | boxed i ht hw hv =>
    have hptr := Store.get?_low hw
    rw [if_neg (by rw [Word.isShortString_iff]; omega), hw]
    rfl
  | @tag i j t ht =>
    have := Word.variant_low (m.tag t)
    rw [if_neg (by rw [Word.isShortString_iff]; omega), Store.get?_eq_none (by omega)]
    rfl
  | _ =>
    simp only [Marked] at hlow
    rw [if_neg (by rw [Word.isShortString_iff]; omega), Store.get?_eq_none (by omega)]
    rfl

theorem isList : store.isList w = o.isList := by
  have hlow := h.marked
  have hnil : Word.emptyList.toNat = 5 := rfl
  have hne : w.toNat ≠ 5 → w ≠ Word.emptyList := fun hw heq => hw (heq ▸ hnil)
  unfold Store.isList
  cases h with
  | nil i => rfl
  | long i hs hlen hw | cons i j hw ha hb | boxed i ht hw hv =>
    have hptr := Store.get?_low hw
    rw [if_neg (hne (by omega)), hw]
    rfl
  | @tag i j t ht =>
    have := Word.variant_low (m.tag t)
    rw [if_neg (hne (by omega)), Store.get?_eq_none (by omega)]
    rfl
  | @short i s hs hlen =>
    have := Word.shortString_low (show (Text.utf8 s).length ≤ 7 by rw [Text.utf8_length hs]; omega)
    rw [if_neg (hne (by omega)), Store.get?_eq_none (by omega)]
    rfl
  | _ =>
    simp only [Marked] at hlow
    rw [if_neg (hne (by omega)), Store.get?_eq_none (by omega)]
    rfl

end

theorem content?_variant (hm : m.TagsFit) (h : Shows m store w (.variant i t o)) :
    ∃ v, store.content? w = some (m.tag t, v) ∧ Shows m store v o := by
  unfold Store.content?
  cases h with
  | tag i j ht =>
    rw [if_pos (Word.isVariant_iff.mpr (Word.variant_low _)), Word.variantTag_variant (Image.tag_lt hm ht)]
    exact ⟨_, rfl, .hole j⟩
  | boxed i ht hw hv =>
    have hptr := Store.get?_low hw
    rw [if_neg (by rw [Word.isVariant_iff]; omega), hw]
    exact ⟨_, rfl, hv⟩

theorem content?_eq_none (h : Shows m store w o) (ho : ∀ i t v, o ≠ .variant i t v) : store.content? w = none := by
  have hlow := h.marked
  unfold Store.content?
  cases h with
  | tag i j ht => exact absurd rfl (ho _ _ _)
  | boxed i ht hw hv => exact absurd rfl (ho _ _ _)
  | long i hs hlen hw | cons i j hw ha hb =>
    have hptr := Store.get?_low hw
    rw [if_neg (by rw [Word.isVariant_iff]; omega), hw]
  | @short i s hs hlen =>
    have := Word.shortString_low (show (Text.utf8 s).length ≤ 7 by rw [Text.utf8_length hs]; omega)
    rw [if_neg (by rw [Word.isVariant_iff]; omega), Store.get?_eq_none (by omega)]
  | _ =>
    simp only [Marked] at hlow
    rw [if_neg (by rw [Word.isVariant_iff]; omega), Store.get?_eq_none (by omega)]

theorem list_id (h : Shows m store w (.list i ts)) (j : Nat) : Shows m store w (.list j ts) := by
  cases h with
  | nil i => exact .nil j
  | cons i k hw ha hb => exact .cons j k hw ha hb

theorem parts {t : Term} (h : Shows m store w (.list i (t :: ts))) :
    ∃ a b, store.get? w = some (.list a b) ∧ Shows m store a t ∧ Shows m store b (.list 0 ts) := by
  cases h with
  | cons i k hw ha hb => exact ⟨_, _, hw, ha, hb.list_id 0⟩

theorem mem_tags {v : Term} (h : Shows m store w (.variant i t v)) : t ∈ m.program.tags := by
  cases h <;> assumption

/-- A word is the immediate form of a variant exactly if it stands for that variant without being an object. -/
theorem eq_variant_iff (h : Shows m store w o) (hm : m.TagsFit) (ht : t ∈ m.program.tags) :
    w = Word.variant (m.tag t) ↔ (∃ i j, o = .variant i t (.hole j)) ∧ store.get? w = none := by
  have hlow := h.marked
  have hvar := Word.variant_low (m.tag t)
  cases h with
  | @tag i j u hu =>
    rw [Word.variant_inj (Image.tag_lt hm hu) (Image.tag_lt hm ht), Image.tag_inj hu ht,
      Store.get?_eq_none (by have := Word.variant_low (m.tag u); omega)]
    simp
  | boxed i hu hw hv =>
    have hptr := Store.get?_low hw
    refine ⟨fun heq => ?_, fun ⟨_, hnone⟩ => ?_⟩
    · rw [← heq] at hvar
      omega
    · rw [hw] at hnone
      cases hnone
  | _ =>
    refine ⟨fun heq => ?_, fun ⟨⟨i, j, heq⟩, _⟩ => by cases heq⟩
    rw [← heq] at hvar
    simp only [Marked] at hlow
    omega

end Shows

end Machine

end Scrap
