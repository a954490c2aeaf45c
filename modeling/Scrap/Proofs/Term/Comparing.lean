import Scrap.Proofs.Dict
import Scrap.Proofs.Term.Parts
import Scrap.Term.Equality

/-! # Comparing terms in two heaps

Two heaps with the same links give the same answer to a comparison, if the environments of the closures that it can
meet on both sides are the same. -/

namespace Scrap.Term

open List

variable {h h' : Heap} {Q R : Term → Prop} {far far' : Term → Term → Bool}

section Pairs
variable {α β : Type} {R S : α → β → Prop} {as : List α} {bs : List β}

theorem forall₂_imp_mem (h : Forall₂ R as bs) (hRS : ∀ a ∈ as, ∀ b ∈ bs, R a b → S a b) : Forall₂ S as bs := by
  induction h with
  | nil => exact .nil
  | cons hab _ ih => exact .cons (hRS _ (.head _) _ (.head _) hab) (ih fun a ha b hb => hRS a (.tail _ ha) b (.tail _ hb))

theorem exists_of_forall₂ (h : Forall₂ R as bs) : ∀ a ∈ as, ∃ b ∈ bs, R a b := by
  induction h with
  | nil => exact fun _ ha => by cases ha
  | cons hab _ ih =>
    refine forall_mem_cons.mpr ⟨⟨_, .head _, hab⟩, fun a ha => ?_⟩
    obtain ⟨b, hb, hab⟩ := ih a ha
    exact ⟨b, .tail _ hb, hab⟩

end Pairs

section Carried
variable {envs envs' : Nat → Nat → Bool} {xs ys : List Term} {fs gs : Dict Term} {cs ds : List (Term × Term)}

theorem equalAll_iff :
    equalAll h envs far xs ys = true ↔ Forall₂ (fun a b => equalWith h envs far a b = true) xs ys := by
  induction xs generalizing ys with
  | nil => cases ys <;> simp [equalAll]
  | cons a xs ih => cases ys <;> simp [equalAll, ih]

theorem equalFields_iff : equalFields h envs far fs gs = true ↔
      ∀ p ∈ fs, ∃ w, gs.get? p.1 = some w ∧ equalWith h envs far p.2 w = true := by
  induction fs with
  | nil => simp [equalFields]
  | cons p fs ih =>
    obtain ⟨k, v⟩ := p
    rw [equalFields, Bool.and_eq_true, ih, forall_mem_cons]
    cases gs.get? k <;> simp

theorem equalCases_iff : equalCases h envs far cs ds = true ↔
    Forall₂ (fun c d => equalWith h envs far c.1 d.1 = true ∧ equalWith h envs far c.2 d.2 = true) cs ds := by
  induction cs generalizing ds with
  | nil => cases ds <;> simp [equalCases]
  | cons c cs ih =>
    obtain ⟨p, b⟩ := c
    rcases ds with _ | ⟨⟨q, d⟩, ds⟩ <;> simp [equalCases, ih, and_assoc]

/-- The second comparison finds equal to `a` what the first one does, among the terms with leaves in `R`. -/
abbrev Carried (h h' : Heap) (R : Term → Prop) (envs envs' : Nat → Nat → Bool) (far far' : Term → Term → Bool)
    (a : Term) : Prop :=
  ∀ b : Term, b.Leaves R → equalWith h envs far a b = true → equalWith h' envs' far' a b = true

theorem equalFields_carried (ih : ∀ p ∈ fs, Carried h h' R envs envs' far far' p.2) (hgs : ∀ p ∈ gs, p.2.Leaves R)
    (heq : equalFields h envs far fs gs = true) : equalFields h' envs' far' fs gs = true := by
  rw [equalFields_iff] at heq ⊢
  intro p hp
  obtain ⟨w, hw, heq⟩ := heq p hp
  exact ⟨w, hw, ih p hp w (hgs _ (Dict.mem_of_get? hw)) heq⟩

/-- What closures and links stand for has its own closures and links in `Q` too. -/
abbrev Resolves (h : Heap) (Q : Term → Prop) : Prop := ∀ t : Term, t.Leaves Q → (h.resolve t).Leaves Q

/-- A walk through two terms compares the parts in pairs, so that a pair of closures comes from both sides. -/
theorem equalWith_carried (hlinks : ∀ t, h'.resolve t = h.resolve t) (hQ : Resolves h Q) (hR : Resolves h R)
    (henvs : ∀ e c e' c', Q (.closure e c) → R (.closure e' c') → envs e e' = true → envs' e e' = true)
    (hfar : ∀ u v : Term, u.Leaves Q → v.Leaves R → far u v = true → far' u v = true) (a : Term) (ha : a.Leaves Q) :
    Carried h h' R envs envs' far far' a := by
  induction a using parts_induction with
  | step a ih =>
    intro b hb heq
    have part := fun u hu => ih u hu (ha.part hu)
    cases a with
    | int | truth | float | complex | string | bytes | var | hole | spread | relocation | native =>
      unfold equalWith at heq ⊢
      exact heq
    | binop i op l r =>
      unfold equalWith at heq ⊢
      cases b with
      | binop j op' l' r' =>
        simp only [Bool.or_eq_true, Bool.and_eq_true] at heq ⊢
        have hr := part r (.tail _ (.head _)) r' (hb.part (.tail _ (.head _)))
        exact heq.imp_right (And.imp (And.imp_right (part l (.head _) l' (hb.part (.head _)))) hr)
      | _ => exact heq
    | list i xs =>
      unfold equalWith at heq ⊢
      cases b with
      | list j ys =>
        rw [Bool.or_eq_true] at heq ⊢
        refine heq.imp_right fun heq => equalAll_iff.mpr (forall₂_imp_mem (equalAll_iff.mp heq) fun u hu v hv => ?_)
        exact part u hu v (leaves_list.mp hb v hv)
      | link j =>
        simp only [Bool.or_eq_true, hlinks] at heq ⊢
        exact heq.imp_right (hfar _ _ ha (hR _ hb))
      | _ => exact heq
    | record i fs =>
      unfold equalWith at heq ⊢
      cases b with
      | record j gs =>
        simp only [Bool.or_eq_true, Bool.and_eq_true] at heq ⊢
        have hfields p hp := part p.2 (mem_parts_fields (p := p) hp)
        exact heq.imp_right (And.imp_right (equalFields_carried hfields (leaves_record.mp hb)))
      | link j =>
        simp only [Bool.or_eq_true, hlinks] at heq ⊢
        exact heq.imp_right (hfar _ _ ha (hR _ hb))
      | _ => exact heq
    | environment i bs =>
      unfold equalWith at heq ⊢
      cases b with
      | environment j cs =>
        simp only [Bool.or_eq_true, Bool.and_eq_true] at heq ⊢
        have hbinds p hp := part p.2 (mem_parts_fields (p := p) hp)
        exact heq.imp_right (And.imp_right (equalFields_carried hbinds (leaves_environment.mp hb)))
      | _ => exact heq
    | assign i x v | variant i x v =>
      unfold equalWith at heq ⊢
      cases b with
      | assign j y w | variant j y w =>
        first
        | exact heq
        | simp only [Bool.or_eq_true, Bool.and_eq_true] at heq ⊢
          exact heq.imp_right (And.imp_right (part v (.head _) w (hb.part (.head _))))
      | _ => exact heq
    | function i l r | apply i l r | scope i l r | assert i l r | matchCase i l r | access i l r =>
      unfold equalWith at heq ⊢
      cases b with
      | function j l' r' | apply j l' r' | scope j l' r' | assert j l' r' | matchCase j l' r' | access j l' r' =>
        first
        | exact heq
        | simp only [Bool.or_eq_true, Bool.and_eq_true] at heq ⊢
          have hr := part r (.tail _ (.head _)) r' (hb.part (.tail _ (.head _)))
          exact heq.imp_right (And.imp (part l (.head _) l' (hb.part (.head _))) hr)
      | _ => exact heq
    | matchFunction i cs =>
      unfold equalWith at heq ⊢
      cases b with
      | matchFunction j ds =>
        rw [Bool.or_eq_true] at heq ⊢
        have hds := leaves_matchFunction.mp hb
        refine heq.imp_right fun heq => equalCases_iff.mpr <| forall₂_imp_mem (equalCases_iff.mp heq) fun c hc d hd => ?_
        have hcase := mem_parts_cases hc
        exact And.imp (part c.1 hcase.1 d.1 (hds d hd).1) (part c.2 hcase.2 d.2 (hds d hd).2)
      | _ => exact heq
    | closure e c =>
      unfold equalWith at heq ⊢
      cases b with
      | closure e' c' =>
        simp only [Bool.or_eq_true, Bool.and_eq_true] at heq ⊢
        have hcode := part c (.head _) c' (hb.part (.head _))
        exact heq.imp_right (And.imp (henvs e c e' c' (ha _ .self rfl) (hb _ .self rfl)) hcode)
      | link j =>
        simp only [hlinks]
        exact hfar _ _ ha (hR _ hb) heq
      | _ => exact heq
    | link i =>
      unfold equalWith at heq ⊢
      rw [Bool.or_eq_true] at heq ⊢
      rw [hlinks, hlinks]
      exact heq.imp_right (hfar _ _ (hQ _ ha) hb)

end Carried

section Within
variable {m n : Nat} {a b : Term}

/-- The environment of a closure is the same in both heaps, and `Q` has the closures and links in it. -/
structure EnvAlike (h h' : Heap) (Q : Term → Prop) (e : Nat) : Prop where
  same : h'.envOf e = h.envOf e
  leaves : ∀ p ∈ h.envOf e, p.2.Leaves Q

theorem equalEnvs_carried
    (hfar : ∀ u v : Term, u.Leaves Q → v.Leaves R → far u v = true → far' u v = true) {e e' : Nat}
    (he : EnvAlike h h' Q e) (he' : EnvAlike h h' R e') (heq : equalEnvs h far e e' = true) :
    equalEnvs h' far' e e' = true := by
  unfold equalEnvs equalMaps at heq ⊢
  rw [he.same, he'.same]
  rw [Bool.and_eq_true, all_eq_true] at heq ⊢
  refine ⟨heq.1, fun p hp => ?_⟩
  have heq := heq.2 p hp
  cases hk : (h.envOf e').get? p.1 with
  | none =>
    simp only [hk] at heq
    cases heq
  | some w =>
    simp only [hk, Bool.or_eq_true] at heq ⊢
    exact heq.imp_right (hfar _ _ (he.leaves p hp) (he'.leaves _ (Dict.mem_of_get? hk)))

/-- Heaps that cannot be told apart by a comparison of terms with leaves in `Q` and in `R`. -/
structure Comparable (h h' : Heap) (Q R : Term → Prop) : Prop where
  links : ∀ t, h'.resolve t = h.resolve t
  turns : comparisons h' = comparisons h
  left : Resolves h Q
  right : Resolves h R
  envs : ∀ e c e' c', Q (.closure e c) → R (.closure e' c') → EnvAlike h h' Q e ∧ EnvAlike h h' R e'

theorem Comparable.symm (hc : Comparable h h' Q R) : Comparable h' h Q R where
  links t := (hc.links t).symm
  turns := hc.turns.symm
  left t ht := hc.links t ▸ hc.left t ht
  right t ht := hc.links t ▸ hc.right t ht
  envs e c e' c' hq hr := by
    obtain ⟨he, he'⟩ := hc.envs e c e' c' hq hr
    exact ⟨⟨he.same.symm, he.same ▸ he.leaves⟩, ⟨he'.same.symm, he'.same ▸ he'.leaves⟩⟩

/-- A comparison that ends with more turns left has the same answer. -/
theorem Comparable.carried (hc : Comparable h h' Q R) {last : Bool} (hmn : m ≤ n) (hlast : last = true → m = n)
    (ha : a.Leaves Q) (hb : b.Leaves R) (heq : equalWithin h last m a b = true) : equalWithin h' last n a b = true := by
  induction n generalizing m a b with
  | zero =>
    cases Nat.le_zero.mp hmn
    exact heq
  | succ n ih =>
    cases m with
    | zero => cases hlast heq
    | succ m =>
      have hfar (u v : Term) (hu : u.Leaves Q) (hv : v.Leaves R) :=
        ih (Nat.le_of_succ_le_succ hmn) (fun hl => Nat.succ.inj (hlast hl)) hu hv
      refine equalWith_carried hc.links hc.left hc.right (fun e c e' c' hq hr => ?_) hfar a ha b hb heq
      obtain ⟨he, he'⟩ := hc.envs e c e' c' hq hr
      exact equalEnvs_carried hfar he he'

theorem Comparable.equalWithin (hc : Comparable h h' Q R) (last : Bool) (n : Nat) (ha : a.Leaves Q)
    (hb : b.Leaves R) : equalWithin h' last n a b = equalWithin h last n a b := by
  rw [Bool.eq_iff_iff]
  exact ⟨hc.symm.carried (Nat.le_refl n) (fun _ => rfl) ha hb, hc.carried (Nat.le_refl n) (fun _ => rfl) ha hb⟩

theorem equalWithin_mono (hmn : m ≤ n) (heq : equalWithin h false m a b = true) : equalWithin h false n a b = true := by
  have hleaves (t : Term) : t.Leaves fun _ => True := fun _ _ _ => trivial
  have hcomp : Comparable h h (fun _ => True) fun _ => True :=
    ⟨fun _ => rfl, rfl, fun t _ => hleaves _, fun t _ => hleaves _, fun _ _ _ _ _ _ =>
      ⟨⟨rfl, fun _ _ => hleaves _⟩, ⟨rfl, fun _ _ => hleaves _⟩⟩⟩
  exact hcomp.carried hmn (fun hl => by cases hl) (hleaves a) (hleaves b) heq

theorem Comparable.equal (hc : Comparable h h' Q R) (ha : a.Leaves Q) (hb : b.Leaves R) :
    a.equal h' b = a.equal h b := by
  unfold Term.equal
  rw [hc.turns, hc.equalWithin true _ ha hb]

theorem Comparable.equal? (hc : Comparable h h' Q R) (ha : a.Leaves Q) (hb : b.Leaves R) :
    a.equal? h' b = a.equal? h b := by
  unfold Term.equal?
  rw [hc.turns, hc.equalWithin true _ ha hb, hc.equalWithin false _ ha hb, hc.equal ha hb]

end Within

end Scrap.Term
