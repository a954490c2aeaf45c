import Scrap.Term.Basic

/-! # Parts of terms

Induction over the parts of terms, and the terms inside of a term. -/

namespace Scrap.Term

open List

variable {fields : Dict Term} {cases : List (Term × Term)} {i : Nat} {u : Term}

/-- The terms directly inside of a term. -/
def parts : Term → List Term
  | .int _ _ | .truth _ _ | .float _ _ | .complex _ _ | .string _ _ | .bytes _ _ | .var _ _ | .hole _ | .spread _ _
  | .relocation _ _ _ | .native _ _ | .link _ => []
  | .binop _ _ l r => [l, r]
  | .list _ items => items
  | .record _ fields | .environment _ fields => fields.map Prod.snd
  | .assign _ _ v | .variant _ _ v => [v]
  | .function _ p b | .matchCase _ p b => [p, b]
  | .apply _ f a => [f, a]
  | .scope _ b d => [b, d]
  | .assert _ v c => [v, c]
  | .matchFunction _ cases => cases.flatMap fun c => [c.1, c.2]
  | .access _ o f => [o, f]
  | .closure _ code => [code]

theorem sizeOf_lt_of_mem_parts {t : Term} (hu : u ∈ t.parts) : sizeOf u < sizeOf t := by
  cases t <;> simp only [parts, mem_cons, not_mem_nil, or_false, mem_map, mem_flatMap] at hu
  case list =>
    have := sizeOf_lt_of_mem hu
    simp
    omega
  case record | environment =>
    obtain ⟨⟨k, v⟩, hp, rfl⟩ := hu
    have := sizeOf_lt_of_mem hp
    simp at this ⊢
    omega
  case matchFunction =>
    obtain ⟨⟨p, b⟩, hp, rfl | rfl⟩ := hu <;> have := sizeOf_lt_of_mem hp <;> simp at this ⊢ <;> omega
  all_goals rcases hu with rfl | rfl <;> simp <;> omega

theorem parts_induction {P : Term → Prop} (step : ∀ t, (∀ u ∈ t.parts, P u) → P t) (t : Term) : P t :=
  step t fun u hu =>
    have := sizeOf_lt_of_mem_parts hu
    parts_induction step u
termination_by sizeOf t

/-- A term is the second one or somewhere inside of it. -/
inductive Inside (v : Term) : Term → Prop
  | self : Inside v v
  | part {t u : Term} : u ∈ t.parts → Inside v u → Inside v t

theorem Inside.trans {v t : Term} (huv : u.Inside v) (hvt : v.Inside t) : u.Inside t := by
  induction hvt with
  | self => exact huv
  | part hu _ ih => exact .part hu ih

def Throughout (good : Term → Prop) (t : Term) : Prop := ∀ u : Term, u.Inside t → good u

theorem throughout_iff {good : Term → Prop} {t : Term} :
    t.Throughout good ↔ good t ∧ ∀ u ∈ t.parts, u.Throughout good := by
  refine ⟨fun h => ⟨h t .self, fun u hu v hv => h v (.part hu hv)⟩, ?_⟩
  rintro ⟨ht, hparts⟩ u (_ | ⟨hv, hu⟩)
  · exact ht
  · exact hparts _ hv u hu

theorem mem_parts_fields {p : String × Term} (hp : p ∈ fields) : p.2 ∈ fields.map Prod.snd :=
  mem_map_of_mem hp

theorem mem_parts_cases {c : Term × Term} (hc : c ∈ cases) :
    c.1 ∈ cases.flatMap (fun c => [c.1, c.2]) ∧ c.2 ∈ cases.flatMap fun c => [c.1, c.2] :=
  ⟨mem_flatMap.mpr ⟨c, hc, .head _⟩, mem_flatMap.mpr ⟨c, hc, .tail _ (.head _)⟩⟩

/-- Whether what a term stands for is in the heap: closures and links. -/
def isLeaf : Term → Bool
  | .closure _ _ | .link _ => true
  | _ => false

/-- All closures and links in a term satisfy `Q`. -/
def Leaves (Q : Term → Prop) (t : Term) : Prop := ∀ u : Term, u.Inside t → u.isLeaf = true → Q u

section Leaves
variable {Q Q' : Term → Prop} {t : Term}

theorem Leaves.part (ht : t.Leaves Q) (hu : u ∈ t.parts) : u.Leaves Q := fun v hv => ht v (.part hu hv)

theorem Leaves.mono (ht : t.Leaves Q) (hQ : ∀ u, Q u → Q' u) : t.Leaves Q' := fun u hu hl => hQ u (ht u hu hl)

theorem leaves_of_parts (ht : t.isLeaf = false) (hparts : ∀ u ∈ t.parts, u.Leaves Q) : t.Leaves Q := by
  rintro u (_ | ⟨hv, hu⟩) hl
  · rw [ht] at hl
    cases hl
  · exact hparts _ hv u hu hl

theorem leaves_link : (Term.link i).Leaves Q ↔ Q (.link i) := by
  refine ⟨fun h => h _ .self rfl, fun h u hu _ => ?_⟩
  rcases hu with _ | ⟨hv, _⟩
  · exact h
  · cases hv

theorem leaves_closure {e : Nat} {c : Term} : (Term.closure e c).Leaves Q ↔ Q (.closure e c) ∧ c.Leaves Q := by
  refine ⟨fun h => ⟨h _ .self rfl, h.part (.head _)⟩, fun ⟨h, hc⟩ u hu hl => ?_⟩
  rcases hu with _ | ⟨hv, hu⟩
  · exact h
  · cases mem_singleton.mp hv
    exact hc u hu hl

theorem leaves_list {items : List Term} : (Term.list i items).Leaves Q ↔ ∀ u ∈ items, u.Leaves Q :=
  ⟨fun h _ hu => h.part hu, fun h => leaves_of_parts rfl h⟩

theorem leaves_record : (Term.record i fields).Leaves Q ↔ ∀ p ∈ fields, p.2.Leaves Q := by
  refine ⟨fun h _ hp => h.part (mem_parts_fields hp), fun h => leaves_of_parts rfl fun u hu => ?_⟩
  obtain ⟨p, hp, rfl⟩ := mem_map.mp hu
  exact h p hp

theorem leaves_environment {bs : Dict Term} : (Term.environment i bs).Leaves Q ↔ ∀ p ∈ bs, p.2.Leaves Q := by
  refine ⟨fun h _ hp => h.part (mem_parts_fields hp), fun h => leaves_of_parts rfl fun u hu => ?_⟩
  obtain ⟨p, hp, rfl⟩ := mem_map.mp hu
  exact h p hp

theorem leaves_matchFunction : (Term.matchFunction i cases).Leaves Q ↔ ∀ c ∈ cases, c.1.Leaves Q ∧ c.2.Leaves Q := by
  refine ⟨fun h _ hc => ⟨h.part (mem_parts_cases hc).1, h.part (mem_parts_cases hc).2⟩,
    fun h => leaves_of_parts rfl fun u hu => ?_⟩
  obtain ⟨c, hc, hu⟩ := mem_flatMap.mp hu
  rcases hu with _ | ⟨_, _ | ⟨_, hu⟩⟩
  · exact (h c hc).1
  · exact (h c hc).2
  · cases hu

end Leaves

end Scrap.Term
