import Scrap.Proofs.Wire.Unshared
import Mathlib.Data.Finset.Card
import Mathlib.Data.List.Perm.Subperm
import Mathlib.Logic.Relation
import Mathlib.Tactic.Ring

/-! # Graphs of terms

Terms that share lists and contain themselves, without closures. Every cycle passes through a list, so a walk that
enters each list once comes to an end, and the encoder writes every such graph. -/

namespace Scrap

open List

variable {h : Heap} {V : List Nat} {K ts : List Term} {n : Nat} {u : Term} {R : Writing} {xs : List Term} {i : Nat}

namespace Wire

/-- The kinds of terms that are written, closures apart. -/
def isWritable : Term → Bool
  | .closure _ _ | .complex _ _ | .assert _ _ _ | .matchCase _ _ _ | .environment _ _ | .relocation _ _ _
  | .native _ _ => false
  | .binop _ op _ _ => op.symbol?.isSome
  | _ => true

end Wire

namespace Heap

/-- A step of a walk that does not lead out of a list. -/
def Aside (h : Heap) (t u : Term) : Prop := (∀ i xs, t ≠ .list i xs) ∧ u ∈ h.ways t

/-- The terms form a graph without closures whose cycles pass through lists. Lists have identities, what has one
identity is one list, links stand for something, no key occurs twice in a record, and all is of a kind that is
written. -/
structure Graph (h : Heap) (ts : List Term) : Prop where
  placed : ∀ {p : List Nat} {i : Nat} {xs : List Term}, h.Occurs ts p (.list i xs) → i ≠ 0 ∧ i < h.next
  lists : ∀ {p q : List Nat} {i : Nat} {xs ys : List Term}, h.Occurs ts p (.list i xs) → h.Occurs ts q (.list i ys) →
    xs = ys
  fields : ∀ {p : List Nat} {i : Nat} {fs : Dict Term}, h.Occurs ts p (.record i fs) → fs.Proper
  links : ∀ {p : List Nat} {i j : Nat}, h.Occurs ts p (.link i) → h.resolve (.link i) ≠ .link j
  writable : ∀ {p : List Nat} {t : Term}, h.Occurs ts p t → Wire.isWritable t = true
  cycles : ∀ {p : List Nat} {t : Term}, h.Occurs ts p t → ¬ Relation.TransGen h.Aside t t

section Graph
variable {p : List Nat} {t : Term} {e : Nat} {c : Term}

theorem Occurs.step (ht : h.Occurs ts p t) (hu : u ∈ h.ways t) : ∃ q, h.Occurs ts q u := by
  obtain ⟨n, hn⟩ := mem_iff_getElem?.mp hu
  exact ⟨n :: p, ht.way hn⟩

theorem Graph.not_closure (hg : h.Graph ts) : ¬ h.Occurs ts p (.closure e c) := by
  intro hc
  have := hg.writable hc
  cases this

theorem Graph.parts_eq (hg : h.Graph ts) (ht : h.Occurs ts p t) (hl : ∀ i, t ≠ .link i) : h.ways t = t.parts := by
  apply parts_eq_ways
  cases t with
  | closure e c => exact absurd ht hg.not_closure
  | link i => exact absurd rfl (hl i)
  | _ => rfl

theorem Graph.not_reaches_closure (hg : h.Graph ts) : ¬ h.Reaches (.list 0 ts) (.closure e c) :=
  fun hr => (exists_occurs hr (by simp)).elim fun _ => hg.not_closure

theorem Graph.coherent (hg : h.Graph ts) : h.Coherent (.list 0 ts) where
  lists hi hr hr' := by
    obtain ⟨p, hp⟩ := exists_occurs hr (by rintro ⟨⟩; exact hi rfl)
    obtain ⟨q, hq⟩ := exists_occurs hr' (by rintro ⟨⟩; exact hi rfl)
    exact hg.lists hp hq
  codes hr := absurd hr hg.not_reaches_closure
  functions hr := absurd hr hg.not_reaches_closure
  fields hr := (exists_occurs hr (by simp)).elim fun _ => hg.fields
  names hr := absurd hr hg.not_reaches_closure

end Graph

/-! ### Room for a walk -/

/-- How many numbers of lists are not among the numbered terms. -/
def unnumbered (h : Heap) (K : List Term) : Nat :=
  ((Finset.range h.next).filter fun i => ∀ t ∈ K, (Term.list i []).same t = false).card

/-- The walk may go through `n` more links: it is behind the links `V` since it entered a list, and each list that is
not numbered can be entered once. -/
def Room (h : Heap) (V : List Nat) (n : Nat) (K : List Term) : Prop :=
  h.unnumbered K * (h.knots.length + 1) + (h.knots.length - V.length) < n

/-- The links that a walk went through on its way to `t` since it entered a list. -/
structure Trail (h : Heap) (V : List Nat) (t : Term) : Prop where
  distinct : V.Nodup
  known : ∀ i ∈ V, h.resolve (.link i) ≠ .link i
  behind : ∀ i ∈ V, Relation.TransGen h.Aside (.link i) t

section Room
variable {K' : List Term} {t : Term}

theorem same_list_items (i : Nat) (xs ys : List Term) : (Term.list i xs).same = (Term.list i ys).same := by
  funext u
  cases u <;> rfl

theorem unnumbered_le (hK : K ⊆ K') : h.unnumbered K' ≤ h.unnumbered K := by
  apply Finset.card_le_card
  intro i hi
  simp only [Finset.mem_filter] at hi ⊢
  exact ⟨hi.1, fun t ht => hi.2 t (hK ht)⟩

theorem unnumbered_lt (hi : i ≠ 0 ∧ i < h.next) (hn : K.findIdx? (Term.list i xs).same = none) :
    h.unnumbered (K ++ [.list i xs]) < h.unnumbered K := by
  have hself : (Term.list i []).same (.list i xs) = true := Term.same_list.mpr ⟨rfl, hi.1⟩
  apply Finset.card_lt_card
  refine Finset.ssubset_iff_subset_ne.mpr ⟨fun j hj => ?_, fun heq => ?_⟩
  · simp only [Finset.mem_filter] at hj ⊢
    exact ⟨hj.1, fun t ht => hj.2 t (mem_append_left _ ht)⟩
  · have hmem : i ∈ (Finset.range h.next).filter fun i => ∀ t ∈ K, (Term.list i []).same t = false := by
      rw [Finset.mem_filter, Finset.mem_range]
      refine ⟨hi.2, fun t ht => ?_⟩
      rw [same_list_items i [] xs]
      simpa using findIdx?_eq_none_iff.mp hn t ht
    rw [← heq, Finset.mem_filter] at hmem
    have hfalse := hmem.2 _ (mem_append_right _ (mem_singleton.mpr rfl))
    rw [hself] at hfalse
    cases hfalse

theorem Room.mono (hr : h.Room V n K) (hK : K ⊆ K') : h.Room V n K' := by
  have := Nat.mul_le_mul_right (h.knots.length + 1) (unnumbered_le (h := h) hK)
  unfold Room at hr ⊢
  omega

theorem Room.list (hr : h.Room V n K) (hi : i ≠ 0 ∧ i < h.next) (hn : K.findIdx? (Term.list i xs).same = none) :
    h.Room [] n (K ++ [.list i xs]) := by
  have := Nat.mul_le_mul_right (h.knots.length + 1) (Nat.succ_le_of_lt (unnumbered_lt hi hn))
  rw [Nat.succ_mul] at this
  unfold Room at hr ⊢
  rw [length_nil]
  omega

theorem Room.link (hr : h.Room V (n + 1) K) (hV : (i :: V).length ≤ h.knots.length) : h.Room (i :: V) n K := by
  unfold Room at hr ⊢
  rw [length_cons] at hV ⊢
  omega

theorem mem_knots_of_resolve (hi : h.resolve (.link i) ≠ .link i) : i ∈ h.knots.map Prod.fst := by
  by_contra hnone
  refine hi (resolve_unknown fun p hp hpi => hnone ?_)
  rw [← hpi]
  exact mem_map_of_mem hp

theorem Trail.nil (t : Term) : h.Trail [] t := ⟨nodup_nil, by simp, by simp⟩

theorem Trail.length_le (hV : h.Trail V t) : V.length ≤ h.knots.length := by
  have hsub : V ⊆ h.knots.map Prod.fst := fun i hi => mem_knots_of_resolve (hV.known i hi)
  have hle := (hV.distinct.subperm hsub).length_le
  rwa [length_map] at hle

theorem Trail.step (hV : h.Trail V t) (ht : ∀ i xs, t ≠ .list i xs) (hu : u ∈ h.ways t) : h.Trail V u where
  distinct := hV.distinct
  known := hV.known
  behind i hi := (hV.behind i hi).tail ⟨ht, hu⟩

theorem Trail.link (hV : h.Trail V (.link i)) (hi : h.resolve (.link i) ≠ .link i)
    (hc : ¬ Relation.TransGen h.Aside (.link i) (.link i)) : h.Trail (i :: V) (h.resolve (.link i)) where
  distinct := nodup_cons.mpr ⟨fun hmem => hc (hV.behind i hmem), hV.distinct⟩
  known j hj := by
    rcases mem_cons.mp hj with rfl | hj
    · exact hi
    · exact hV.known j hj
  behind j hj := by
    have hstep : h.Aside (.link i) (h.resolve (.link i)) := ⟨by simp, mem_singleton.mpr rfl⟩
    rcases mem_cons.mp hj with rfl | hj
    · exact .single hstep
    · exact (hV.behind j hj).tail hstep

end Room

end Heap

namespace Wire

/-! ### Every graph is written -/

/-- With room for the walk, `R` has bytes for the term. -/
def Goes (h : Heap) (V : List Nat) (n : Nat) (R : Writing) (t : Term) : Prop :=
  ∀ K, h.Room V n K → ∃ bs K', R K t bs K' ∧ K ⊆ K'

theorem goes_items (hR : ∀ t ∈ xs, Goes h V n R t) (hK : h.Room V n K) : ∃ bs K', Items R K xs bs K' ∧ K ⊆ K' := by
  induction xs generalizing K with
  | nil => exact ⟨[], K, .nil, List.Subset.refl K⟩
  | cons x xs ih =>
    obtain ⟨bs, K1, hx, hK1⟩ := hR x (.head _) K hK
    obtain ⟨cs, K2, hxs, hK2⟩ := ih (fun t ht => hR t (.tail _ ht)) (hK.mono hK1)
    exact ⟨_, K2, .cons hx hxs, List.Subset.trans hK1 hK2⟩

theorem goes_entries {fs : Dict Term} (hR : ∀ f ∈ fs, Goes h V n R f.2) (hK : h.Room V n K) :
    ∃ bs K', Entries R K fs bs K' ∧ K ⊆ K' := by
  induction fs generalizing K with
  | nil => exact ⟨[], K, .nil, List.Subset.refl K⟩
  | cons f fs ih =>
    obtain ⟨bs, K1, hf, hK1⟩ := hR f (.head _) K hK
    obtain ⟨cs, K2, hfs, hK2⟩ := ih (fun t ht => hR t (.tail _ ht)) (hK.mono hK1)
    exact ⟨_, K2, .cons hf hfs, List.Subset.trans hK1 hK2⟩

theorem goes_pair {l r : Term} (hl : Goes h V n R l) (hr : Goes h V n R r) (hK : h.Room V n K) :
    ∃ bs cs K1 K2, R K l bs K1 ∧ R K1 r cs K2 ∧ K ⊆ K2 := by
  obtain ⟨bs, K1, hl, hK1⟩ := hl K hK
  obtain ⟨cs, K2, hr, hK2⟩ := hr K1 (hK.mono hK1)
  exact ⟨bs, cs, K1, K2, hl, hr, List.Subset.trans hK1 hK2⟩

theorem goes_branches {cases : List (Term × Term)} (hR : ∀ c ∈ cases, Goes h V n R c.1 ∧ Goes h V n R c.2)
    (hK : h.Room V n K) : ∃ bs K', Branches R K cases bs K' ∧ K ⊆ K' := by
  induction cases generalizing K with
  | nil => exact ⟨[], K, .nil, List.Subset.refl K⟩
  | cons c cases ih =>
    obtain ⟨hp, hb⟩ := hR c (.head _)
    obtain ⟨bs, cs, K1, K2, hp, hb, hK2⟩ := goes_pair hp hb hK
    obtain ⟨ds, K3, hcs, hK3⟩ := ih (fun t ht => hR t (.tail _ ht)) (hK.mono hK2)
    exact ⟨_, K3, .cons hp hb hcs, List.Subset.trans hK2 hK3⟩

section Graphs
variable {p : List Nat} {t : Term}

theorem goes_written (hg : h.Graph ts) (hfar : ∀ p t V, h.Occurs ts p t → h.Trail V t → Goes h V n R t)
    (ht : h.Occurs ts p t) (hV : h.Trail V t) : Goes h V (n + 1) (Written .beforeCode h R) t := by
  induction t using Term.parts_induction generalizing p V with
  | step t ih =>
    intro K hK
    have hkind := hg.writable ht
    have part : (∀ i xs, t ≠ .list i xs) → (∀ i, t ≠ .link i) → ∀ u ∈ t.parts,
        Goes h V (n + 1) (Written .beforeCode h R) u := by
      intro hlist hlink u hu
      have hway : u ∈ h.ways t := hg.parts_eq ht hlink ▸ hu
      obtain ⟨q, hq⟩ := ht.step hway
      exact ih u hu hq (hV.step hlist hway)
    have self : K ⊆ K := List.Subset.refl K
    cases t with
    | int | truth | float | string | bytes | var | hole => exact ⟨_, K, by constructor, self⟩
    | spread i x =>
      cases x with
      | none => exact ⟨_, K, .spread, self⟩
      | some x => exact ⟨_, K, .namedSpread, self⟩
    | list i xs =>
      cases hn : K.findIdx? (Term.list i xs).same with
      | some m => exact ⟨_, K, .knownList hn, self⟩
      | none =>
        -- the trail starts anew inside the list
        have hitem : ∀ u ∈ xs, Goes h [] (n + 1) (Written .beforeCode h R) u := by
          intro u hu
          obtain ⟨q, hq⟩ := ht.step (show u ∈ h.ways (.list i xs) from hu)
          exact ih u hu hq (.nil u)
        obtain ⟨bs, K', hxs, hK'⟩ := goes_items hitem (hK.list (hg.placed ht) hn)
        exact ⟨_, K', .list hn hxs, fun u hu => hK' (mem_append_left _ hu)⟩
    | record i fs =>
      have hpart := part (by simp) (by simp)
      obtain ⟨bs, K', hfs, hK'⟩ := goes_entries (fun f hf => hpart f.2 (Term.mem_parts_fields hf)) hK
      exact ⟨_, K', .record hfs, hK'⟩
    | matchFunction i cs =>
      have hpart := part (by simp) (by simp)
      obtain ⟨bs, K', hcs, hK'⟩ := goes_branches
        (fun c hc => ⟨hpart _ (Term.mem_parts_cases hc).1, hpart _ (Term.mem_parts_cases hc).2⟩) hK
      exact ⟨_, K', .matchFunction hcs, hK'⟩
    | variant i x v | assign i x v =>
      obtain ⟨bs, K', hv, hK'⟩ := part (by simp) (by simp) v (.head _) K hK
      exact ⟨_, K', by constructor; exact hv, hK'⟩
    | binop i op l r =>
      have hpart := part (by simp) (by simp)
      obtain ⟨s, hs⟩ := Option.isSome_iff_exists.mp hkind
      obtain ⟨bs, cs, K1, K2, hl, hr, hK2⟩ := goes_pair (hpart l (.head _)) (hpart r (.tail _ (.head _))) hK
      exact ⟨_, K2, .binop hs hl hr, hK2⟩
    | function i l r | apply i l r | scope i l r | access i l r =>
      have hpart := part (by simp) (by simp)
      obtain ⟨bs, cs, K1, K2, hl, hr, hK2⟩ := goes_pair (hpart l (.head _)) (hpart r (.tail _ (.head _))) hK
      exact ⟨_, K2, by constructor <;> assumption, hK2⟩
    | link i =>
      have hV' := hV.link (hg.links ht) (hg.cycles ht)
      obtain ⟨q, hq⟩ := ht.step (show h.resolve (.link i) ∈ h.ways (.link i) from .head _)
      obtain ⟨bs, K', hw, hK'⟩ := hfar q _ _ hq hV' K (hK.link hV'.length_le)
      exact ⟨bs, K', .link hw, hK'⟩
    | closure | complex | assert | matchCase | environment | relocation | native => cases hkind

theorem goes_within (hg : h.Graph ts) (n : Nat) (ht : h.Occurs ts p t)
    (hV : h.Trail V t) : Goes h V n (WrittenWithin .beforeCode h n) t := by
  induction n generalizing p t V with
  | zero => exact fun K hK => absurd hK (Nat.not_lt_zero _)
  | succ n ih => exact goes_written hg (fun _ _ _ ht hV => ih ht hV) ht hV

theorem room_start (h : Heap) : h.Room [] h.rounds [] := by
  have hcard : h.unnumbered [] ≤ h.next :=
    (Finset.card_filter_le _ _).trans (Finset.card_range h.next).le
  have hmul := Nat.mul_le_mul hcard (Nat.le_refl (h.knots.length + 1))
  unfold Heap.Room Heap.rounds Heap.turns
  rw [length_nil]
  calc h.unnumbered [] * (h.knots.length + 1) + (h.knots.length - 0)
      < h.next * (h.knots.length + 1) + (h.knots.length + 1) := by omega
    _ = (h.knots.length + 1) * (h.next + 1) := by ring
    _ ≤ _ := Nat.mul_le_mul (by omega) (by omega)

theorem exists_items (hg : h.Graph ts) : ∃ bs K, Items (WrittenWithin .beforeCode h h.rounds) [] ts bs K := by
  have hterm : ∀ t ∈ ts, Goes h [] h.rounds (WrittenWithin .beforeCode h h.rounds) t := by
    intro t ht
    obtain ⟨n, hn⟩ := mem_iff_getElem?.mp ht
    exact goes_within hg h.rounds (.root hn) (.nil t)
  obtain ⟨bs, K, hw, -⟩ := goes_items hterm (room_start h)
  exact ⟨bs, K, hw⟩

end Graphs

end Wire

end Scrap
