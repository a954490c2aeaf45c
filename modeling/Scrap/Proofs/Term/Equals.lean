import Scrap.Proofs.Heap
import Scrap.Proofs.Term.Comparing
import Scrap.Proofs.Term.Identity

/-! # Equality that comes to an end

Two terms are equal if comparing them ends without a difference. A term as the program makes them equals itself. -/

namespace Scrap.Term

open List

variable {h : Heap} {j : Nat} {t u v : Term} {i : Nat} {envs : Nat → Nat → Bool} {far : Term → Term → Bool}

attribute [local simp] equalWith

/-- Comparing the terms comes to an end and finds no difference. -/
def Equals (h : Heap) (a b : Term) : Prop := ∃ n, equalWithin h false n a b = true

section Equals
variable {a b : Term} {xs ys : List Term} {fs gs : Dict Term}

theorem equals_iff : Equals h a b ↔ ∃ n, equalWithin h false (n + 1) a b = true := by
  constructor
  · rintro ⟨n, heq⟩
    exact ⟨n, equalWithin_mono (Nat.le_succ n) heq⟩
  · rintro ⟨n, heq⟩
    exact ⟨n + 1, heq⟩

theorem forall₂_equals_iff :
    (∃ n, Forall₂ (fun a b => equalWithin h false (n + 1) a b = true) xs ys) ↔ Forall₂ (Equals h) xs ys := by
  constructor
  · rintro ⟨n, hall⟩
    exact hall.imp fun a b heq => ⟨n + 1, heq⟩
  · intro hall
    induction hall with
    | nil => exact ⟨0, .nil⟩
    | cons heq _ ih =>
      obtain ⟨m, hm⟩ := equals_iff.mp heq
      obtain ⟨n, hn⟩ := ih
      refine ⟨max m n, .cons (equalWithin_mono (by omega) hm) (hn.imp fun a b heq => ?_)⟩
      exact equalWithin_mono (by omega) heq

/-- Fields that are equal to those of the same keys. -/
abbrev FieldsEqual (h : Heap) (fs gs : Dict Term) : Prop := ∀ p ∈ fs, ∃ w, gs.get? p.1 = some w ∧ Equals h p.2 w

theorem fieldsEqual_iff :
    (∃ n, ∀ p ∈ fs, ∃ w, gs.get? p.1 = some w ∧ equalWithin h false (n + 1) p.2 w = true) ↔ FieldsEqual h fs gs := by
  constructor
  · rintro ⟨n, hall⟩ p hp
    obtain ⟨w, hw, heq⟩ := hall p hp
    exact ⟨w, hw, n + 1, heq⟩
  · intro hall
    induction fs with
    | nil => exact ⟨0, fun p hp => by cases hp⟩
    | cons p fs ih =>
      obtain ⟨w, hw, heq⟩ := hall p (.head _)
      obtain ⟨m, hm⟩ := equals_iff.mp heq
      obtain ⟨n, hn⟩ := ih fun q hq => hall q (.tail _ hq)
      refine ⟨max m n, forall_mem_cons.mpr ⟨⟨w, hw, equalWithin_mono (by omega) hm⟩, fun q hq => ?_⟩⟩
      obtain ⟨v, hv, heq⟩ := hn q hq
      exact ⟨v, hv, equalWithin_mono (by omega) heq⟩

/-! ### New terms -/

theorem same_of_id (ha : a.isClosure = false) (hid : a.id = 0) (b : Term) : a.same b = false := by
  simp [same_eq, ha, hid]

theorem equals_list (hid : (Term.list i xs).same (.list j ys) = false) :
    Equals h (.list i xs) (.list j ys) ↔ Forall₂ (Equals h) xs ys := by
  rw [← forall₂_equals_iff, equals_iff]
  refine exists_congr fun n => ?_
  show equalWith h _ _ _ _ = true ↔ _
  rw [equalWith, hid, Bool.false_or, equalAll_iff]
  rfl

theorem equals_record (hid : (Term.record i fs).same (.record j gs) = false) :
    Equals h (.record i fs) (.record j gs) ↔ fs.length = gs.length ∧ FieldsEqual h fs gs := by
  rw [← fieldsEqual_iff, equals_iff, ← exists_and_left]
  refine exists_congr fun n => ?_
  show equalWith h _ _ _ _ = true ↔ _
  rw [equalWith, hid, Bool.false_or, Bool.and_eq_true, decide_eq_true_eq, equalFields_iff]
  rfl

theorem equals_iff_of {P : Prop} (hP : ∀ envs far, equalWith h envs far a b = true ↔ P) : Equals h a b ↔ P := by
  rw [equals_iff]
  constructor
  · rintro ⟨n, heq⟩
    exact (hP _ _).mp heq
  · intro hp
    exact ⟨0, (hP _ _).mpr hp⟩

theorem equals_resolve_right (ha : (∃ xs, a = .list 0 xs) ∨ ∃ fs, a = .record 0 fs) :
    Equals h a b ↔ Equals h a (h.resolve b) := by
  cases b with
  | link j =>
    rw [equals_iff]
    refine exists_congr fun n => ?_
    show equalWith h _ _ _ _ = true ↔ _
    rcases ha with ⟨xs, rfl⟩ | ⟨fs, rfl⟩ <;> rw [equalWith, same_of_id rfl rfl, Bool.false_or]
  | _ => rfl

theorem equals_resolve_left (hb : (∃ ys, b = .list 0 ys) ∨ ∃ gs, b = .record 0 gs) :
    Equals h a b ↔ Equals h (h.resolve a) b := by
  cases a with
  | link i =>
    rw [equals_iff]
    refine exists_congr fun n => ?_
    show equalWith h _ _ _ _ = true ↔ _
    rcases hb with ⟨ys, rfl⟩ | ⟨gs, rfl⟩ <;> rw [equalWith, same_comm, Heap.resolve, same_of_id rfl rfl, Bool.false_or]
  | _ => rfl

def isLink : Term → Bool
  | .link _ => true
  | _ => false

theorem equals_newList (hb : (h.resolve b).isLink = false) :
    Equals h (.list 0 xs) b ↔ ∃ j ys, h.resolve b = .list j ys ∧ Forall₂ (Equals h) xs ys := by
  have hsame := same_of_id (show (Term.list 0 xs).isClosure = false from rfl) rfl
  rw [equals_resolve_right (.inl ⟨xs, rfl⟩)]
  cases hc : h.resolve b with
  | list j ys => simpa using equals_list (hsame _)
  | link j => simp [hc, isLink] at hb
  | _ => exact equals_iff_of fun envs far => by simp [hsame]

theorem equals_newRecord (hb : (h.resolve b).isLink = false) :
    Equals h (.record 0 fs) b ↔ ∃ j gs, h.resolve b = .record j gs ∧ fs.length = gs.length ∧ FieldsEqual h fs gs := by
  have hsame := same_of_id (show (Term.record 0 fs).isClosure = false from rfl) rfl
  rw [equals_resolve_right (.inr ⟨fs, rfl⟩)]
  cases hc : h.resolve b with
  | record j gs => simpa using equals_record (hsame _)
  | link j => simp [hc, isLink] at hb
  | _ => exact equals_iff_of fun envs far => by simp [hsame]

theorem equals_to_newList (ha : (h.resolve a).isLink = false) :
    Equals h a (.list 0 ys) ↔ ∃ i xs, h.resolve a = .list i xs ∧ Forall₂ (Equals h) xs ys := by
  have hsame (c : Term) : c.same (.list 0 ys) = false := by rw [same_comm, same_of_id rfl rfl]
  rw [equals_resolve_left (.inl ⟨ys, rfl⟩)]
  cases hc : h.resolve a with
  | list i xs => simpa using equals_list (hsame _)
  | link i => simp [hc, isLink] at ha
  | _ => exact equals_iff_of fun envs far => by simp [hsame, equalNumbers, int?]

theorem equals_to_newRecord (ha : (h.resolve a).isLink = false) :
    Equals h a (.record 0 gs) ↔ ∃ i fs, h.resolve a = .record i fs ∧ fs.length = gs.length ∧ FieldsEqual h fs gs := by
  have hsame (c : Term) : c.same (.record 0 gs) = false := by rw [same_comm, same_of_id rfl rfl]
  rw [equals_resolve_left (.inr ⟨gs, rfl⟩)]
  cases hc : h.resolve a with
  | record i fs => simpa using equals_record (hsame _)
  | link i => simp [hc, isLink] at ha
  | _ => exact equals_iff_of fun envs far => by simp [hsame, equalNumbers, int?]

theorem equals_newInt {n : Int} : Equals h (.int 0 n) b ↔ b.int? = some n :=
  equals_iff_of fun envs far => by rw [equalWith, same_of_id rfl rfl, Bool.false_or, decide_eq_true_eq]

theorem equals_newTruth {t : Bool} : Equals h (.truth 0 t) b ↔ b.int? = some (if t then 1 else 0) :=
  equals_iff_of fun envs far => by rw [equalWith, same_of_id rfl rfl, Bool.false_or, decide_eq_true_eq]

theorem equals_string {s : String} : Equals h (.string i s) b ↔ ∃ j, b = .string j s :=
  equals_iff_of fun envs far => by cases b <;> simp [eq_comm]

theorem equals_hole : Equals h (.hole i) b ↔ ∃ j, b = .hole j :=
  equals_iff_of fun envs far => by cases b <;> simp

theorem equals_newVariant {tag : String} :
    Equals h (.variant 0 tag v) b ↔ ∃ j w, b = .variant j tag w ∧ Equals h v w := by
  rw [equals_iff]
  have hcompare (m : Nat) : equalWithin h false (m + 1) (.variant 0 tag v) b = true ↔
      ∃ j w, b = .variant j tag w ∧ equalWithin h false (m + 1) v w = true := by
    show equalWith h _ _ _ _ = true ↔ _
    unfold equalWith
    rw [same_of_id rfl rfl, Bool.false_or]
    cases b with
    | variant j tag' w =>
      rw [Bool.and_eq_true, decide_eq_true_eq]
      constructor
      · rintro ⟨rfl, heq⟩
        exact ⟨j, w, rfl, heq⟩
      · rintro ⟨_, _, hb, heq⟩
        cases hb
        exact ⟨rfl, heq⟩
    | _ => simp
  simp only [hcompare, equals_iff]
  constructor
  · rintro ⟨n, j, w, hb, heq⟩
    exact ⟨j, w, hb, n, heq⟩
  · rintro ⟨j, w, hb, n, heq⟩
    exact ⟨n, j, w, hb, heq⟩

end Equals

/-! ### Terms that the program makes -/

/-- Whether a term can stand behind a link: a list, a record or a closure, with an identity. -/
def isKnot : Term → Bool
  | .list i _ | .record i _ => i != 0
  | .closure _ _ => true
  | _ => false

/-- Keys are distinct, a number that differs from itself has an identity, and a link leads to something. -/
def FineAt (h : Heap) : Term → Prop
  | .record _ fs | .environment _ fs => Dict.Proper fs
  | .float i x => i ≠ 0 ∨ x.eq x = true
  | .complex i z => i ≠ 0 ∨ z.eq z = true
  | .link i => (h.resolve (.link i)).isKnot = true
  | _ => True

/-- A term as the program makes them: this holds of everything that can be reached from it. -/
def Fine (h : Heap) (t : Term) : Prop := ∀ u, h.Reaches t u → u.FineAt h

theorem Reaches.trans (htu : h.Reaches t u) (huv : h.Reaches u v) : h.Reaches t v := by
  induction huv with
  | root => exact htu
  | part _ hv ih => exact .part ih hv
  | link _ ih => exact .link ih
  | value _ hp ih => exact .value ih hp

theorem Fine.part (ht : t.Fine h) (hu : u ∈ t.parts) : u.Fine h :=
  fun _ hv => ht _ (Reaches.trans (.part .root hu) hv)

theorem Fine.resolve (ht : t.Fine h) : (h.resolve t).Fine h := by
  cases t with
  | link i => exact fun _ hv => ht _ (Reaches.trans (.link .root) hv)
  | _ => exact ht

theorem Fine.isLink_resolve (ht : t.Fine h) : (h.resolve t).isLink = false := by
  cases t with
  | link i =>
    have hknot : (h.resolve (.link i)).isKnot = true := ht _ .root
    cases hr : h.resolve (.link i) <;> first | rfl | (rw [hr] at hknot; cases hknot)
  | _ => rfl

theorem fine_of_parts (hleaf : t.isLeaf = false) (hat : t.FineAt h) (hparts : ∀ u ∈ t.parts, u.Fine h) : t.Fine h := by
  have hreach : ∀ u, h.Reaches t u → u = t ∨ ∃ v ∈ t.parts, h.Reaches v u := by
    intro u hu
    induction hu with
    | root => exact .inl rfl
    | part _ hv ih =>
      rcases ih with rfl | ⟨v, hv', hreach⟩
      · exact .inr ⟨_, hv, .root⟩
      · exact .inr ⟨v, hv', .part hreach hv⟩
    | link _ ih =>
      rcases ih with rfl | ⟨v, hv', hreach⟩
      · cases hleaf
      · exact .inr ⟨v, hv', .link hreach⟩
    | value _ hp ih =>
      rcases ih with rfl | ⟨v, hv', hreach⟩
      · cases hleaf
      · exact .inr ⟨v, hv', .value hreach hp⟩
  intro u hu
  rcases hreach u hu with rfl | ⟨v, hv, hu⟩
  · exact hat
  · exact hparts v hv u hu

theorem same_self (ht : t.isKnot = true) : t.same t = true := by
  cases t with
  | list i xs | record i fs =>
    rw [isKnot, bne_iff_ne] at ht
    simp [same, id, ht]
  | closure e c => simp [same]
  | _ => cases ht

theorem equalFields_self {fs : Dict Term} (hfs : fs.Proper) (ih : ∀ p ∈ fs, equalWith h envs far p.2 p.2 = true) :
    equalFields h envs far fs fs = true :=
  equalFields_iff.mpr fun p hp => ⟨p.2, Dict.get?_of_mem hfs hp, ih p hp⟩

/-- A term equals itself, whatever lies behind its links and in its environments. -/
theorem equalWith_self (envs : Nat → Nat → Bool) (far : Term → Term → Bool) (ht : t.Fine h) :
    equalWith h envs far t t = true := by
  induction t using parts_induction with
  | step t ih =>
    have part := fun u hu => ih u hu (ht.part hu)
    have hat := ht _ .root
    cases t with
    | int | truth => simp [int?]
    | string | bytes | var | hole | spread | relocation | native => simp
    | float i x | complex i x =>
      unfold equalWith
      rcases hat with hi | hx
      · simp [same, id, hi]
      · simp [equalNumbers, hx]
    | binop i op l r => simp [part l (.head _), part r (.tail _ (.head _))]
    | function i l r | apply i l r | scope i l r | assert i l r | matchCase i l r | access i l r =>
      simp [part l (.head _), part r (.tail _ (.head _))]
    | assign i x v | variant i x v => simp [part v (.head _)]
    | list i xs =>
      have hall : equalAll h envs far xs xs = true := equalAll_iff.mpr (forall₂_same.mpr part)
      simp [hall]
    | record i fs =>
      have hall := equalFields_self hat fun p hp => part p.2 (mem_parts_fields hp)
      simp [hall]
    | environment i fs =>
      have hall := equalFields_self hat fun p hp => part p.2 (mem_parts_fields hp)
      simp [hall]
    | matchFunction i cs =>
      have hall : equalCases h envs far cs cs = true := equalCases_iff.mpr <| forall₂_same.mpr fun c hc =>
        ⟨part c.1 (mem_parts_cases hc).1, part c.2 (mem_parts_cases hc).2⟩
      simp [hall]
    | closure e c => simp
    | link i =>
      unfold equalWith
      rw [same_self hat, Bool.true_or]

theorem Equals.refl (ht : t.Fine h) : Equals h t t := ⟨1, equalWith_self _ _ ht⟩

end Scrap.Term
