import Scrap.Proofs.Wire.Reading

/-! # Terms without sharing

Where no list and no closure occurs twice, nothing is written as a reference, so both orders of numbers write the same.
An occurrence is told by its path from a sequence of terms. -/

namespace Scrap.Heap

/-- Where a walk goes on from a term: to its parts, from a link to what it stands for, and from a closure to its code
and then to the values of its environment. -/
def ways (h : Heap) : Term → List Term
  | .link i => [h.resolve (.link i)]
  | .closure e c => c :: (h.envOf e).values
  | t => t.parts

/-- The term occurs in the sequence at the end of a path, whose last place stands first. -/
inductive Occurs (h : Heap) (ts : List Term) : List Nat → Term → Prop
  | root : ts[n]? = some t → Occurs h ts [n] t
  | way : Occurs h ts p t → (h.ways t)[n]? = some u → Occurs h ts (n :: p) u

/-- Lists and closures are written with a number. -/
def isNumbered : Term → Bool
  | .list _ _ | .closure _ _ => true
  | _ => false

/-- No list and no closure occurs twice in the sequence. The code of a closure is a function, and no key occurs twice in
a record or an environment. -/
structure Unshared (h : Heap) (ts : List Term) : Prop where
  once : ∀ {p q : List Nat} {t u : Term}, h.Occurs ts p t → h.Occurs ts q u → isNumbered t = true →
    t.same u = true → p = q
  functions : ∀ {p : List Nat} {e : Nat} {c : Term}, h.Occurs ts p (.closure e c) → Decoder.isCode c = true
  fields : ∀ {p : List Nat} {i : Nat} {fs : Dict Term}, h.Occurs ts p (.record i fs) → fs.Proper
  names : ∀ {p : List Nat} {e : Nat} {c : Term}, h.Occurs ts p (.closure e c) → (h.envOf e).Proper

section Occurs
variable {h : Heap} {ts : List Term} {p q : List Nat} {t u : Term}

theorem Occurs.unique (ht : h.Occurs ts p t) (hu : h.Occurs ts p u) : t = u := by
  induction ht generalizing u with
  | root ht =>
    cases hu with
    | root hu => exact Option.some.inj (ht.symm.trans hu)
    | way hu _ => cases hu
  | way ht hn ih =>
    cases hu with
    | root hu => cases ht
    | way hu hm =>
      cases ih hu
      exact Option.some.inj (hn.symm.trans hm)

theorem parts_eq_ways (ht : t.isLeaf = false) : h.ways t = t.parts := by
  cases t <;> first | rfl | cases ht

theorem occurs_of_reaches (hr : h.Reaches (.list 0 ts) t) : t = .list 0 ts ∨ ∃ p, h.Occurs ts p t := by
  have step : ∀ {u v : Term}, (∃ p, h.Occurs ts p u) → v ∈ h.ways u → ∃ p, h.Occurs ts p v := by
    rintro u v ⟨p, hu⟩ hv
    obtain ⟨n, hn⟩ := List.mem_iff_getElem?.mp hv
    exact ⟨n :: p, hu.way hn⟩
  induction hr with
  | root => exact .inl rfl
  | @part t u _ hu ih =>
    rcases ih with rfl | ih
    · obtain ⟨n, hn⟩ := List.mem_iff_getElem?.mp hu
      exact .inr ⟨[n], .root hn⟩
    · refine .inr (step ih ?_)
      cases t
      case closure =>
        cases List.mem_singleton.mp hu
        exact .head _
      case link => cases hu
      all_goals exact hu
  | link _ ih =>
    rcases ih with ih | ih
    · cases ih
    · exact .inr (step ih (.head _))
  | value _ hp ih =>
    rcases ih with ih | ih
    · cases ih
    · exact .inr (step ih (.tail _ (List.mem_map_of_mem hp)))

theorem exists_occurs (hr : h.Reaches (.list 0 ts) t) (ht : t ≠ .list 0 ts) : ∃ p, h.Occurs ts p t :=
  (occurs_of_reaches hr).resolve_left ht

theorem Unshared.coherent (hts : h.Unshared ts) : h.Coherent (.list 0 ts) where
  lists hi hr hr' := by
    obtain ⟨p, hp⟩ := exists_occurs hr (by rintro ⟨⟩; exact hi rfl)
    obtain ⟨q, hq⟩ := exists_occurs hr' (by rintro ⟨⟩; exact hi rfl)
    cases hts.once hp hq rfl (Term.same_list.mpr ⟨rfl, hi⟩)
    cases hp.unique hq
    rfl
  codes hr hr' := by
    obtain ⟨p, hp⟩ := exists_occurs hr (by simp)
    obtain ⟨q, hq⟩ := exists_occurs hr' (by simp)
    cases hts.once hp hq rfl (Term.same_closure.mpr rfl)
    cases hp.unique hq
    rfl
  functions hr := (exists_occurs hr (by simp)).elim fun _ => hts.functions
  fields hr := (exists_occurs hr (by simp)).elim fun _ => hts.fields
  names hr := (exists_occurs hr (by simp)).elim fun _ => hts.names

end Occurs

end Scrap.Heap

namespace Scrap.Wire

open Heap

variable {K1 : List Term} {l r : Term} {cs : List UInt8}

/-! ### What has a number, by its place -/

section Places
variable {h : Heap} {ts : List Term} {p q : List Nat} {t u : Term} {K K1 K2 : List Term} {n m : Nat}

/-- Every numbered term occurs somewhere else than at the ways from the path `p` that are numbered `n` and more. -/
def Clear (h : Heap) (ts : List Term) (p : List Nat) (n : Nat) (K : List Term) : Prop :=
  ∀ u ∈ K, ∃ q, h.Occurs ts q u ∧ ∀ k, n ≤ k → ¬ (k :: p) <:+ q

/-- What has a number in addition occurs at a way from the path `p` that is numbered `n` or more. -/
def Grows (h : Heap) (ts : List Term) (p : List Nat) (n : Nat) (K K' : List Term) : Prop :=
  ∀ u ∈ K', u ∈ K ∨ ∃ q, h.Occurs ts q u ∧ ∃ k, n ≤ k ∧ (k :: p) <:+ q

/-- Every numbered term occurs somewhere else than at the end of the path or beyond. -/
def Elsewhere (h : Heap) (ts : List Term) (p : List Nat) (K : List Term) : Prop :=
  ∀ u ∈ K, ∃ q, h.Occurs ts q u ∧ ¬ p <:+ q

/-- What has a number in addition occurs at the end of the path or beyond. -/
def Below (h : Heap) (ts : List Term) (p : List Nat) (K K' : List Term) : Prop :=
  ∀ u ∈ K', u ∈ K ∨ ∃ q, h.Occurs ts q u ∧ p <:+ q

theorem way_unique (hn : (n :: p) <:+ q) (hm : (m :: p) <:+ q) : n = m := by
  have := List.suffix_or_suffix_of_suffix hn hm
  rcases this with hs | hs <;> cases hs.eq_of_length rfl <;> rfl

theorem not_way_suffix : ¬ (n :: p) <:+ p := fun hs => by
  have hlen := hs.length_le
  rw [List.length_cons] at hlen
  omega

theorem Clear.elsewhere (hK : Clear h ts p n K) : Elsewhere h ts (n :: p) K := fun u hu => by
  obtain ⟨q, hq, hk⟩ := hK u hu
  exact ⟨q, hq, hk n (Nat.le_refl n)⟩

theorem Elsewhere.clear (hK : Elsewhere h ts p K) (n : Nat) : Clear h ts p n K := fun u hu => by
  obtain ⟨q, hq, hp⟩ := hK u hu
  exact ⟨q, hq, fun k _ hs => hp ((List.suffix_cons k p).trans hs)⟩

theorem Clear.next (hK : Clear h ts p n K) (hb : Below h ts (n :: p) K K1) : Clear h ts p (n + 1) K1 := fun u hu => by
  rcases hb u hu with hu | ⟨q, hq, hn⟩
  · obtain ⟨q, hq, hk⟩ := hK u hu
    exact ⟨q, hq, fun k hle => hk k (by omega)⟩
  · refine ⟨q, hq, fun k hle hs => ?_⟩
    have := way_unique hn hs
    omega

theorem Clear.add (hK : Clear h ts p n K) (ht : h.Occurs ts p t) : Clear h ts p n (K ++ [t]) := fun u hu => by
  rcases List.mem_append.mp hu with hu | hu
  · exact hK u hu
  · cases List.mem_singleton.mp hu
    exact ⟨p, ht, fun _ _ => not_way_suffix⟩

theorem Grows.refl : Grows h ts p n K K := fun _ hu => .inl hu

theorem Below.refl : Below h ts p K K := fun _ hu => .inl hu

theorem Below.grows (hb : Below h ts (n :: p) K K1) (hg : Grows h ts p (n + 1) K1 K2) : Grows h ts p n K K2 := by
  intro u hu
  rcases hg u hu with hu | ⟨q, hq, k, hk, hs⟩
  · rcases hb u hu with hu | ⟨q, hq, hs⟩
    · exact .inl hu
    · exact .inr ⟨q, hq, n, Nat.le_refl n, hs⟩
  · exact .inr ⟨q, hq, k, by omega, hs⟩

theorem Grows.append {m : Nat} (hg : Grows h ts p n K K1) (hg' : Grows h ts p (n + m) K1 K2) : Grows h ts p n K K2 := by
  intro u hu
  rcases hg' u hu with hu | ⟨q, hq, k, hk, hs⟩
  · exact hg u hu
  · exact .inr ⟨q, hq, k, by omega, hs⟩

theorem Grows.below (hg : Grows h ts p n K K1) : Below h ts p K K1 := fun u hu => by
  rcases hg u hu with hu | ⟨q, hq, k, _, hs⟩
  · exact .inl hu
  · exact .inr ⟨q, hq, (List.suffix_cons k p).trans hs⟩

theorem Below.trans (h1 : Below h ts p K K1) (h2 : Below h ts p K1 K2) : Below h ts p K K2 := fun u hu => by
  rcases h2 u hu with hu | hu
  · exact h1 u hu
  · exact .inr hu

theorem Below.add (ht : h.Occurs ts p t) : Below h ts p K (K ++ [t]) := fun u hu => by
  rcases List.mem_append.mp hu with hu | hu
  · exact .inl hu
  · cases List.mem_singleton.mp hu
    exact .inr ⟨p, ht, List.suffix_refl p⟩

/-- A list or a closure has no number if everything that has one occurs in other places. -/
theorem unnumbered (hts : h.Unshared ts) (ht : h.Occurs ts p t) (hn : isNumbered t = true)
    (hK : ∀ u ∈ K, ∃ q, h.Occurs ts q u ∧ q ≠ p) : K.findIdx? t.same = none := by
  rw [List.findIdx?_eq_none_iff]
  intro u hu
  obtain ⟨q, hq, hne⟩ := hK u hu
  rw [Bool.eq_false_iff]
  exact fun hs => hne (hts.once ht hq hn hs).symm

theorem Elsewhere.unnumbered (hts : h.Unshared ts) (ht : h.Occurs ts p t) (hn : isNumbered t = true)
    (hK : Elsewhere h ts p K) : K.findIdx? t.same = none :=
  Wire.unnumbered hts ht hn fun u hu => by
    obtain ⟨q, hq, hp⟩ := hK u hu
    exact ⟨q, hq, fun heq => hp (heq ▸ List.suffix_refl p)⟩

end Places

/-! ### The order of numbers does not matter -/

/-- What `R` writes for the term at the end of the path, `R'` writes too, whatever has numbers elsewhere. -/
def Reorders (h : Heap) (ts : List Term) (R R' : Writing) (p : List Nat) (t : Term) : Prop :=
  ∀ K bs K', R K t bs K' → Elsewhere h ts p K → Below h ts p K K' ∧
    ∀ L, Elsewhere h ts p L → ∃ L', R' L t bs L' ∧ Below h ts p L L'

section Sequences
variable {h : Heap} {ts : List Term} {R R' : Writing} {p : List Nat} {n : Nat} {K K' : List Term} {bs : List UInt8}

theorem reorders_items {us : List Term} (hR : ∀ k u, us[k]? = some u → Reorders h ts R R' ((n + k) :: p) u)
    (hw : Items R K us bs K') (hK : Clear h ts p n K) :
    Grows h ts p n K K' ∧ ∀ L, Clear h ts p n L → ∃ L', Items R' L us bs L' ∧ Grows h ts p n L L' := by
  induction hw generalizing n with
  | nil => exact ⟨.refl, fun L _ => ⟨L, .nil, .refl⟩⟩
  | cons hw _ ih =>
    obtain ⟨hb, hfirst⟩ := hR 0 _ rfl _ _ _ hw hK.elsewhere
    obtain ⟨hg, hrest⟩ := ih (n := n + 1) (fun k u hu => by simpa [Nat.add_assoc, Nat.add_comm 1 k] using hR (k + 1) u hu)
      (hK.next hb)
    refine ⟨hb.grows hg, fun L hL => ?_⟩
    obtain ⟨L1, hw1, hb1⟩ := hfirst L hL.elsewhere
    obtain ⟨L2, hw2, hg2⟩ := hrest L1 (hL.next hb1)
    exact ⟨L2, .cons hw1 hw2, hb1.grows hg2⟩

theorem reorders_entries {fs : Dict Term}
    (hR : ∀ k u, fs.values[k]? = some u → Reorders h ts R R' ((n + k) :: p) u) (hw : Entries R K fs bs K')
    (hK : Clear h ts p n K) :
    Grows h ts p n K K' ∧ ∀ L, Clear h ts p n L → ∃ L', Entries R' L fs bs L' ∧ Grows h ts p n L L' := by
  induction hw generalizing n with
  | nil => exact ⟨.refl, fun L _ => ⟨L, .nil, .refl⟩⟩
  | cons hw _ ih =>
    obtain ⟨hb, hfirst⟩ := hR 0 _ rfl _ _ _ hw hK.elsewhere
    obtain ⟨hg, hrest⟩ := ih (n := n + 1) (fun k u hu => by simpa [Nat.add_assoc, Nat.add_comm 1 k] using hR (k + 1) u hu)
      (hK.next hb)
    refine ⟨hb.grows hg, fun L hL => ?_⟩
    obtain ⟨L1, hw1, hb1⟩ := hfirst L hL.elsewhere
    obtain ⟨L2, hw2, hg2⟩ := hrest L1 (hL.next hb1)
    exact ⟨L2, .cons hw1 hw2, hb1.grows hg2⟩

theorem reorders_two (hl : Reorders h ts R R' (n :: p) l)
    (hr : Reorders h ts R R' ((n + 1) :: p) r) (hwl : R K l bs K1) (hwr : R K1 r cs K') (hK : Clear h ts p n K) :
    (Grows h ts p n K K' ∧ Clear h ts p (n + 2) K') ∧ ∀ L, Clear h ts p n L →
      ∃ L1 L', R' L l bs L1 ∧ R' L1 r cs L' ∧ Grows h ts p n L L' ∧ Clear h ts p (n + 2) L' := by
  obtain ⟨hb, hfirst⟩ := hl _ _ _ hwl hK.elsewhere
  obtain ⟨hb', hsecond⟩ := hr _ _ _ hwr (hK.next hb).elsewhere
  refine ⟨⟨hb.grows (hb'.grows .refl), (hK.next hb).next hb'⟩, fun L hL => ?_⟩
  obtain ⟨L1, hw1, hb1⟩ := hfirst L hL.elsewhere
  obtain ⟨L2, hw2, hb2⟩ := hsecond L1 (hL.next hb1).elsewhere
  exact ⟨L1, L2, hw1, hw2, hb1.grows (hb2.grows .refl), (hL.next hb1).next hb2⟩

theorem reorders_branches {cases : List (Term × Term)}
    (hR : ∀ k u, (cases.flatMap fun c => [c.1, c.2])[k]? = some u → Reorders h ts R R' ((n + k) :: p) u)
    (hw : Branches R K cases bs K') (hK : Clear h ts p n K) :
    Grows h ts p n K K' ∧ ∀ L, Clear h ts p n L → ∃ L', Branches R' L cases bs L' ∧ Grows h ts p n L L' := by
  induction hw generalizing n with
  | nil => exact ⟨.refl, fun L _ => ⟨L, .nil, .refl⟩⟩
  | cons hp hb _ ih =>
    obtain ⟨⟨hg, hc⟩, hboth⟩ := reorders_two (hR 0 _ rfl) (hR 1 _ rfl) hp hb hK
    obtain ⟨hg', hrest⟩ := ih (n := n + 2)
      (fun k u hu => by simpa [Nat.add_assoc, Nat.add_comm 2 k] using hR (k + 2) u (by simpa using hu)) hc
    refine ⟨hg.append hg', fun L hL => ?_⟩
    obtain ⟨L1, L2, hw1, hw2, hg2, hc2⟩ := hboth L hL
    obtain ⟨L3, hw3, hg3⟩ := hrest L2 hc2
    exact ⟨L3, .cons hw1 hw2 hw3, hg2.append hg3⟩

end Sequences

section Terms
variable {h : Heap} {ts : List Term} {R R' : Writing} {p : List Nat} {t : Term} {K K' : List Term} {bs : List UInt8}

theorem reorders_pair {ds : List UInt8} (hl : Reorders h ts R R' (0 :: p) l)
    (hr : Reorders h ts R R' (1 :: p) r) (hwl : R K l bs K1) (hwr : R K1 r cs K') (hK : Elsewhere h ts p K)
    (hw : ∀ L L1 L', R' L l bs L1 → R' L1 r cs L' → R' L t ds L') :
    Below h ts p K K' ∧ ∀ L, Elsewhere h ts p L → ∃ L', R' L t ds L' ∧ Below h ts p L L' := by
  obtain ⟨⟨hg, -⟩, hboth⟩ := reorders_two hl hr hwl hwr (hK.clear 0)
  refine ⟨hg.below, fun L hL => ?_⟩
  obtain ⟨L1, L', hw1, hw2, hg', -⟩ := hboth L (hL.clear 0)
  exact ⟨L', hw L L1 L' hw1 hw2, hg'.below⟩

/-- The encoder's order of numbers and the decoder's order write the same. -/
theorem reorders_written (hts : h.Unshared ts) (hfar : ∀ p t, h.Occurs ts p t → Reorders h ts R R' p t)
    (ht : h.Occurs ts p t) : Reorders h ts (Written .beforeCode h R) (Written .afterCode h R') p t := by
  induction t using Term.parts_induction generalizing p with
  | step t ih =>
    intro K bs K' hw hK
    have way : ∀ {n u}, (h.ways t)[n]? = some u → u ∈ t.parts →
        Reorders h ts (Written .beforeCode h R) (Written .afterCode h R') (n :: p) u :=
      fun hn hu => ih _ hu (ht.way hn)
    have item : ∀ k u, t.isLeaf = false → t.parts[k]? = some u →
        Reorders h ts (Written .beforeCode h R) (Written .afterCode h R') ((0 + k) :: p) u := fun k u hl hk => by
      rw [Nat.zero_add]
      exact way (by rw [parts_eq_ways hl, hk]) (List.mem_of_getElem? hk)
    cases hw with
    | int | truth | string | var | float | bytes | hole | spread | namedSpread =>
      exact ⟨.refl, fun L _ => ⟨L, by constructor, .refl⟩⟩
    | knownList hn | knownClosure hn =>
      rw [hK.unnumbered hts ht rfl] at hn
      cases hn
    | list hn hxs =>
      obtain ⟨hg, hrest⟩ := reorders_items (n := 0) (fun k u hk => item k u rfl hk) hxs ((hK.clear 0).add ht)
      refine ⟨(Below.add ht).trans hg.below, fun L hL => ?_⟩
      obtain ⟨L', hxs', hg'⟩ := hrest _ ((hL.clear 0).add ht)
      exact ⟨L', .list (hL.unnumbered hts ht rfl) hxs', (Below.add ht).trans hg'.below⟩
    | @closureBefore _ c _ K1 e _ _ _ hn hc henv =>
      -- In the one order the closure has a number before its code, in the other after it; neither shows.
      obtain ⟨hb, hcode⟩ := way (n := 0) rfl (.head _) _ _ _ hc ((hK.clear 0).add ht).elsewhere
      have hvalue : ∀ k u, (h.envOf e).values[k]? = some u → Reorders h ts R R' ((1 + k) :: p) u := fun k u hk => by
        rw [Nat.add_comm]
        exact hfar _ _ (ht.way (n := k + 1) hk)
      obtain ⟨hg, henv'⟩ := reorders_entries hvalue henv (((hK.clear 0).add ht).next hb)
      refine ⟨(Below.add ht).trans (hb.grows hg).below, fun L hL => ?_⟩
      obtain ⟨L1, hc1, hb1⟩ := hcode L (hL.clear 0).elsewhere
      obtain ⟨L2, henv2, hg2⟩ := henv' (L1 ++ [.closure e c]) (((hL.clear 0).next hb1).add ht)
      refine ⟨L2, .closureAfter rfl (hL.unnumbered hts ht rfl) hc1 (unnumbered hts ht rfl fun u hu => ?_) henv2,
        ((hb1.grows .refl).below.trans (.add ht)).trans hg2.below⟩
      rcases hb1 u hu with hu | ⟨q, hq, hs⟩
      · obtain ⟨q, hq, hp⟩ := hL u hu
        exact ⟨q, hq, fun heq => hp (heq ▸ List.suffix_refl p)⟩
      · exact ⟨q, hq, fun heq => not_way_suffix (heq ▸ hs)⟩
    | closureAfter ho => cases ho
    | variant hv | assign hv =>
      obtain ⟨hb, hfirst⟩ := way (n := 0) rfl (.head _) _ _ _ hv (hK.clear 0).elsewhere
      refine ⟨(hb.grows .refl).below, fun L hL => ?_⟩
      obtain ⟨L', hv', hb'⟩ := hfirst L (hL.clear 0).elsewhere
      exact ⟨L', by constructor; exact hv', (hb'.grows .refl).below⟩
    | record hf =>
      obtain ⟨hg, hrest⟩ := reorders_entries (n := 0) (fun k u hk => item k u rfl hk) hf (hK.clear 0)
      refine ⟨hg.below, fun L hL => ?_⟩
      obtain ⟨L', hf', hg'⟩ := hrest L (hL.clear 0)
      exact ⟨L', .record hf', hg'.below⟩
    | matchFunction hc =>
      obtain ⟨hg, hrest⟩ := reorders_branches (n := 0) (fun k u hk => item k u rfl hk) hc (hK.clear 0)
      refine ⟨hg.below, fun L hL => ?_⟩
      obtain ⟨L', hc', hg'⟩ := hrest L (hL.clear 0)
      exact ⟨L', .matchFunction hc', hg'.below⟩
    | function hl hr | apply hl hr | scope hl hr | access hl hr =>
      exact reorders_pair (way rfl (.head _)) (way rfl (.tail _ (.head _))) hl hr hK
        fun _ _ _ _ _ => by constructor <;> assumption
    | binop hs hl hr =>
      exact reorders_pair (way rfl (.head _)) (way rfl (.tail _ (.head _))) hl hr hK fun _ _ _ => .binop hs
    | link hw =>
      obtain ⟨hb, hfirst⟩ := hfar _ _ (ht.way (n := 0) rfl) _ _ _ hw (hK.clear 0).elsewhere
      refine ⟨(hb.grows .refl).below, fun L hL => ?_⟩
      obtain ⟨L', hw', hb'⟩ := hfirst L (hL.clear 0).elsewhere
      exact ⟨L', .link hw', (hb'.grows .refl).below⟩

theorem reorders_within (hts : h.Unshared ts) (turns : Nat) (ht : h.Occurs ts p t) :
    Reorders h ts (WrittenWithin .beforeCode h turns) (WrittenWithin .afterCode h turns) p t := by
  induction turns generalizing p t with
  | zero => exact fun _ _ _ hw => hw.elim
  | succ turns ih => exact reorders_written hts (fun _ _ hu => ih hu) ht

end Terms

end Scrap.Wire
