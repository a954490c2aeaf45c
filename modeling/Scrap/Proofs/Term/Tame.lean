import Scrap.Proofs.Term.Identity
import Scrap.Proofs.Term.Matching

/-! # Tame code

Evaluating tame code looks up no other names than its free variables. -/

namespace Scrap.Term

open List

variable {cases : List (Term × Term)} {ns : List String} {x : String} {t v : Term}

mutual

/-- A definition stands only in a scope, each function has free variables, and each spread of a pattern comes last. -/
def tame : Term → Bool
  | .int _ _ | .truth _ _ | .float _ _ | .complex _ _ | .string _ _ | .bytes _ _ | .var _ _ | .hole _ | .spread _ _
  | .relocation _ _ _ | .native _ _ | .environment _ _ | .closure _ _ | .link _ | .matchCase _ _ _ => true
  | .binop _ _ l r => tame l && tame r
  | .list _ items => tameAll items
  | .record _ fields => tameFields fields
  | .assign _ _ _ => false
  | .function i p b => (freeVars (.function i p b)).isOk && tame b
  | .apply _ f a => tame f && tame a
  | .scope _ b (.assign _ _ v) => tame b && tame v
  | .scope _ b _ => tame b
  | .assert _ v c => tame v && tame c
  | .matchFunction i cases => (freeVars (.matchFunction i cases)).isOk && tameCases cases
  | .access _ o f => tame o && tame f
  | .variant _ _ v => tame v

def tameAll : List Term → Bool
  | [] => true
  | t :: ts => tame t && tameAll ts

def tameFields : List (String × Term) → Bool
  | [] => true
  | (_, t) :: ts => tame t && tameFields ts

def tameCases : List (Term × Term) → Bool
  | [] => true
  | (p, b) :: cs => spreadsLast p && tame b && tameCases cs

end

theorem tameAll_iff {ts : List Term} : tameAll ts = true ↔ ∀ t ∈ ts, t.tame = true := by
  rw [eq_all (F := tameAll) rfl fun _ _ => rfl, all_eq_true]

theorem tameFields_iff {ts : Dict Term} : tameFields ts = true ↔ ∀ p ∈ ts, p.2.tame = true := by
  rw [eq_all (F := tameFields) rfl fun _ _ => rfl, all_eq_true]

theorem tameCases_iff {cs : List (Term × Term)} :
    tameCases cs = true ↔ ∀ c ∈ cs, c.1.spreadsLast = true ∧ c.2.tame = true := by
  induction cs with
  | nil => simp [tameCases]
  | cons c cs ih =>
    obtain ⟨p, b⟩ := c
    simp [tameCases, ih, and_assoc]

/-! ### Names that a term needs -/

def Mentions (t : Term) (x : String) : Prop := ∃ ns, t.freeVars = .ok ns ∧ x ∈ ns

/-- `S` has every name that a term can ask for: all names, or at least its free variables. -/
def Needs (t : Term) (S : String → Prop) : Prop := (∀ x, S x) ∨ ∃ ns, t.freeVars = .ok ns ∧ ∀ x ∈ ns, S x

section Needs
variable {S : String → Prop} {i j : Nat}

theorem Needs.mentions (h : Needs t S) (hx : t.Mentions x) : S x := by
  rcases h with h | ⟨ns, hv, h⟩
  · exact h x
  · obtain ⟨ms, hm, hx⟩ := hx
    rw [hv] at hm
    cases hm
    exact h x hx

theorem needs_all (h : ∀ x, S x) : Needs t S := .inl h

theorem needs_mentions (h : t.freeVars.isOk = true) : Needs t t.Mentions := by
  cases hv : t.freeVars with
  | error e =>
    rw [hv] at h
    cases h
  | ok ns => exact .inr ⟨ns, hv, fun x hx => ⟨ns, hv, hx⟩⟩

theorem Needs.var (h : Needs (.var i x) S) : S x := by
  rcases h with h | ⟨ns, hv, h⟩
  · exact h x
  · cases hv
    exact h x (.head _)

theorem Needs.both {u : Term} (hv : t.freeVars = (do return (← u.freeVars) ++ (← v.freeVars))) (h : Needs t S) :
    Needs u S ∧ Needs v S := by
  rcases h with h | ⟨ns, hns, h⟩
  · exact ⟨needs_all h, needs_all h⟩
  · rw [hv] at hns
    obtain ⟨a, ha, hns⟩ := bind_eq_ok.mp hns
    obtain ⟨b, hb, hns⟩ := bind_eq_ok.mp hns
    cases hns
    exact ⟨.inr ⟨a, ha, fun x hx => h x (mem_append_left _ hx)⟩,
      .inr ⟨b, hb, fun x hx => h x (mem_append_right _ hx)⟩⟩

theorem Needs.variant {tag : String} (h : Needs (.variant i tag v) S) : Needs v S := by
  rcases h with h | ⟨ns, hv, h⟩
  · exact needs_all h
  · exact .inr ⟨ns, hv, h⟩

theorem Needs.assert {c : Term} (h : Needs (.assert i v c) S) : ∀ x, S x := by
  rcases h with h | ⟨ns, hv, -⟩
  · exact h
  · cases hv

theorem freeVarsAll_covers {items : List Term} (h : freeVarsAll items = .ok ns) :
    ∀ t ∈ items, ∃ ms, t.freeVars = .ok ms ∧ ∀ x ∈ ms, x ∈ ns := by
  induction items generalizing ns with
  | nil => simp
  | cons u us ih =>
    obtain ⟨a, ha, h⟩ := bind_eq_ok.mp h
    obtain ⟨b, hb, h⟩ := bind_eq_ok.mp h
    cases h
    intro t ht
    rcases mem_cons.mp ht with rfl | ht
    · exact ⟨a, ha, fun x hx => mem_append_left _ hx⟩
    · obtain ⟨ms, hms, hsub⟩ := ih hb t ht
      exact ⟨ms, hms, fun x hx => mem_append_right _ (hsub x hx)⟩

theorem Needs.items {items : List Term} (h : Needs (.list i items) S) {t : Term} (ht : t ∈ items) : Needs t S := by
  rcases h with h | ⟨ns, hv, h⟩
  · exact needs_all h
  · change freeVarsAll items = .ok ns at hv
    obtain ⟨ms, hms, hsub⟩ := freeVarsAll_covers hv t ht
    exact .inr ⟨ms, hms, fun x hx => h x (hsub x hx)⟩

theorem Needs.fields {fields : Dict Term} (h : Needs (.record i fields) S) {p : String × Term} (hp : p ∈ fields) :
    Needs p.2 S := by
  rcases h with h | ⟨ns, hv, h⟩
  · exact needs_all h
  · obtain ⟨ms, hms, hsub⟩ := freeVarsAll_covers ((freeVarsFields_eq_all fields).symm.trans hv) _ (mem_map_of_mem hp)
    exact .inr ⟨ms, hms, fun x hx => h x (hsub x hx)⟩

theorem freeVarsCases_covers (h : freeVarsCases cases = .ok ns) :
    ∀ c ∈ cases, ∃ bound body, c.1.freeVars = .ok bound ∧ c.2.freeVars = .ok body ∧ ∀ x ∈ body, x ∈ bound ∨ x ∈ ns := by
  induction cases generalizing ns with
  | nil => simp
  | cons q qs ih =>
    obtain ⟨p, b⟩ := q
    obtain ⟨body, hbody, h⟩ := bind_eq_ok.mp h
    obtain ⟨bound, hbound, h⟩ := bind_eq_ok.mp h
    obtain ⟨rest, hrest, h⟩ := bind_eq_ok.mp h
    cases h
    intro c hc
    rcases mem_cons.mp hc with rfl | hc
    · refine ⟨bound, body, hbound, hbody, fun x hx => ?_⟩
      by_cases hb : x ∈ bound
      · exact .inl hb
      · exact .inr (mem_append_left _ (mem_filter.mpr ⟨hx, by simpa using hb⟩))
    · obtain ⟨bound', body', h1, h2, h3⟩ := ih hrest c hc
      exact ⟨bound', body', h1, h2, fun x hx => (h3 x hx).imp_right (mem_append_right _)⟩

theorem Needs.case (h : Needs (.matchFunction i cases) S) {c : Term × Term} (hc : c ∈ cases) :
    Needs c.2 fun x => c.1.Mentions x ∨ S x := by
  rcases h with h | ⟨ns, hv, h⟩
  · exact needs_all fun x => .inr (h x)
  · change freeVarsCases cases = .ok ns at hv
    obtain ⟨bound, body, hbound, hbody, hsub⟩ := freeVarsCases_covers hv c hc
    exact .inr ⟨body, hbody, fun x hx => (hsub x hx).imp (fun hx => ⟨bound, hbound, hx⟩) (h x)⟩

theorem mem_without {y : String} {names : List String} (hy : y ∈ names) : y = x ∨ y ∈ without x names := by
  by_cases hyx : y = x
  · exact .inl hyx
  · exact .inr (mem_filter.mpr ⟨hy, by simpa using hyx⟩)

theorem Needs.body {p b : Term} {x : String} (hp : p.paramName? = some x) (h : Needs (.function i p b) S) :
    Needs b fun y => y = x ∨ S y := by
  rcases h with h | ⟨ns, hv, h⟩
  · exact needs_all fun y => .inr (h y)
  · rw [freeVars, hp] at hv
    obtain ⟨ms, hms, hv⟩ := bind_eq_ok.mp hv
    cases hv
    exact .inr ⟨ms, hms, fun y hy => (mem_without hy).imp_right (h y)⟩

theorem Needs.scope {b : Term} (h : Needs (.scope i b (.assign j x v)) S) :
    Needs v S ∧ Needs b fun y => y = x ∨ S y := by
  rcases h with h | ⟨ns, hv, h⟩
  · exact ⟨needs_all h, needs_all fun y => .inr (h y)⟩
  · obtain ⟨body, hbody, hv⟩ := bind_eq_ok.mp hv
    obtain ⟨value, hvalue, hv⟩ := bind_eq_ok.mp hv
    cases hv
    exact ⟨.inr ⟨value, hvalue, fun y hy => h y (mem_append_right _ hy)⟩,
      .inr ⟨body, hbody, fun y hy => (mem_without hy).imp_right fun hy => h y (mem_append_left _ hy)⟩⟩

end Needs

/-! ### Code with free variables -/

theorem isOk_iff : t.freeVars.isOk = true ↔ ∃ ns, t.freeVars = .ok ns := by
  cases t.freeVars <;> simp [Except.isOk, Except.toBool]

theorem forall_pair (p : Term → Prop) {l r : Term} (h : p l ∧ p r) : ∀ u ∈ [l, r], p u :=
  forall_mem_cons.mpr ⟨h.1, forall_mem_singleton.mpr h.2⟩

theorem freeVars_parts (ht : t.freeVars.isOk = true) : ∀ u ∈ t.parts, u.freeVars.isOk = true := by
  obtain ⟨ns, hv⟩ := isOk_iff.mp ht
  have pair : ∀ {u v : Term} {a b : List String}, u.freeVars = .ok a → v.freeVars = .ok b →
      ∀ w ∈ [u, v], w.freeVars.isOk = true := fun ha hb =>
    forall_pair (·.freeVars.isOk = true) ⟨isOk_iff.mpr ⟨_, ha⟩, isOk_iff.mpr ⟨_, hb⟩⟩
  have both : ∀ {u v : Term}, t.freeVars = (do return (← u.freeVars) ++ (← v.freeVars)) →
      ∀ w ∈ [u, v], w.freeVars.isOk = true := by
    intro u v huv
    rw [huv] at hv
    obtain ⟨a, ha, hv⟩ := bind_eq_ok.mp hv
    obtain ⟨b, hb, -⟩ := bind_eq_ok.mp hv
    exact pair ha hb
  intro u hu
  cases t with
  | int | truth | float | complex | string | bytes | var | hole | spread | relocation | native | link => cases hu
  | binop i op l r => exact both rfl u hu
  | apply i f a => exact both rfl u hu
  | access i o f => exact both rfl u hu
  | variant i x v | assign i x v | closure e c =>
    cases mem_singleton.mp hu
    exact ht
  | list i items =>
    change freeVarsAll items = .ok ns at hv
    obtain ⟨ms, hms, -⟩ := freeVarsAll_covers hv u hu
    exact isOk_iff.mpr ⟨ms, hms⟩
  | record i fields =>
    obtain ⟨ms, hms, -⟩ := freeVarsAll_covers ((freeVarsFields_eq_all fields).symm.trans hv) u hu
    exact isOk_iff.mpr ⟨ms, hms⟩
  | matchFunction i cases =>
    change freeVarsCases cases = .ok ns at hv
    obtain ⟨c, hc, hu⟩ := mem_flatMap.mp hu
    obtain ⟨bound, body, hbound, hbody, -⟩ := freeVarsCases_covers hv c hc
    exact pair hbound hbody u hu
  | matchCase i p b =>
    obtain ⟨body, hbody, hv⟩ := bind_eq_ok.mp hv
    obtain ⟨bound, hbound, -⟩ := bind_eq_ok.mp hv
    exact pair hbound hbody u hu
  | function i p b =>
    cases p with
    | var j x =>
      obtain ⟨ms, hms, -⟩ := bind_eq_ok.mp hv
      exact pair rfl hms u hu
    | _ => cases hv
  | scope i b d =>
    cases d with
    | assign j x v =>
      obtain ⟨body, hbody, hv⟩ := bind_eq_ok.mp hv
      obtain ⟨value, hvalue, -⟩ := bind_eq_ok.mp hv
      exact pair hbody hvalue u hu
    | _ => cases hv
  | assert | environment => cases hv

theorem leaves_of_freeVars (ht : t.freeVars.isOk = true) : t.Leaves fun u => u.isClosure = true := by
  induction t using parts_induction with
  | step t ih =>
    rintro u (_ | ⟨hv, hu⟩) hl
    · cases t <;> first | rfl | (cases hl; done) | cases ht
    · exact ih _ hv (freeVars_parts ht _ hv) u hu hl

end Scrap.Term
