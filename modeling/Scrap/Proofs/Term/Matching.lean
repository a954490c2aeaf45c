import Scrap.Proofs.Dict
import Scrap.Proofs.Term.Parts
import Scrap.Term.FreeVars
import Scrap.Term.Match
import Scrap.Term.Parser

/-! # Matching

What the names of a pattern stand for is part of the term, no name occurs twice, and every name of the pattern is there
if each spread comes last. -/

namespace Scrap.Term

open List Dict

open Scrap.Parser (isSpread)

section Steps
variable {h : Heap} {p : Term} {ps : List Term} {fs : List (String × Term)} {k : String}

theorem ne_spread (hp : isSpread p = false) (i : Nat) (x : Option String) : p ≠ .spread i x := by
  rintro rfl
  cases hp

theorem exists_spread (hp : isSpread p = true) : ∃ i x, p = .spread i x := by
  cases p <;> first | exact ⟨_, _, rfl⟩ | cases hp

theorem matchItems_cons (hp : isSpread p = false) (t : Term) (ts : List Term) (found : Env) :
    matchItems h (p :: ps) (t :: ts) found =
      match matchPattern h p t with
      | .ok (some part) => matchItems h ps ts (found.merge part)
      | .ok none => .ok none
      | .error e => .error e := by
  rw [matchItems]
  all_goals first | rfl | exact ne_spread hp

theorem matchItems_cons_nil (hp : isSpread p = false) (found : Env) : matchItems h (p :: ps) [] found = .ok none := by
  rw [matchItems]
  all_goals first | rfl | exact ne_spread hp

theorem matchFields_cons (hp : isSpread p = false) (fields : Dict Term) (count : Nat) (seen : List String) (found : Env) :
    matchFields h ((k, p) :: fs) fields count seen found =
      match fields.get? k with
      | none => .ok none
      | some v =>
        match matchPattern h p v with
        | .ok (some part) => matchFields h fs fields count (k :: seen) (found.merge part)
        | .ok none => .ok none
        | .error e => .error e := by
  rw [matchFields]
  all_goals first | rfl | exact ne_spread hp

end Steps

section Alike
variable {h h' : Heap}

theorem matchItems_alike {ps : List Term} (ih : ∀ p ∈ ps, ∀ t, matchPattern h' p t = matchPattern h p t) :
    ∀ items found, matchItems h' ps items found = matchItems h ps items found := by
  induction ps with
  | nil => intro items found; rw [matchItems, matchItems]
  | cons p ps ihps =>
    intro items found
    cases hp : isSpread p with
    | true =>
      obtain ⟨i, x, rfl⟩ := exists_spread hp
      cases x <;> simp [matchItems]
    | false =>
      cases items with
      | nil => rw [matchItems_cons_nil hp, matchItems_cons_nil hp]
      | cons t ts =>
        rw [matchItems_cons hp, matchItems_cons hp, ih p (.head _) t]
        simp only [ihps fun q hq => ih q (.tail _ hq)]

theorem matchFields_alike {ps : List (String × Term)}
    (ih : ∀ p ∈ ps, ∀ t, matchPattern h' p.2 t = matchPattern h p.2 t) (fields : Dict Term) (count : Nat) :
    ∀ seen found, matchFields h' ps fields count seen found = matchFields h ps fields count seen found := by
  induction ps with
  | nil => intro seen found; rw [matchFields, matchFields]
  | cons q ps ihps =>
    intro seen found
    obtain ⟨k, p⟩ := q
    cases hp : isSpread p with
    | true =>
      obtain ⟨i, x, rfl⟩ := exists_spread hp
      cases x <;> simp [matchFields]
    | false =>
      rw [matchFields_cons hp, matchFields_cons hp]
      cases fields.get? k with
      | none => rfl
      | some v =>
        simp only [ih (k, p) (.head _) v, ihps fun q hq => ih q (.tail _ hq)]

theorem matchPattern_alike (hres : ∀ t, h'.resolve t = h.resolve t) (p : Term) :
    ∀ t, matchPattern h' p t = matchPattern h p t := by
  induction p using parts_induction with
  | step p ih =>
    intro t
    cases p with
    | hole | int | truth | string => rw [matchPattern, matchPattern, hres]
    | variant i tag q =>
      rw [matchPattern, matchPattern, hres]
      simp only [ih q (.head _)]
    | record i ps =>
      rw [matchPattern, matchPattern, hres]
      simp only [matchFields_alike fun q hq => ih q.2 (mem_parts_fields hq)]
    | list i ps =>
      have ihps : ∀ q ∈ ps, ∀ t, matchPattern h' q t = matchPattern h q t := ih
      rw [matchPattern, matchPattern, hres]
      simp only [matchItems_alike ihps]
    | _ => rw [matchPattern, matchPattern]

end Alike

/-! ### What the names stand for -/

mutual

/-- Each spread in a pattern is the last entry of its list or record. -/
def spreadsLast : Term → Bool
  | .list _ ps => spreadsLastAll ps
  | .record _ fs => spreadsLastFields fs
  | .variant _ _ p => spreadsLast p
  | _ => true

def spreadsLastAll : List Term → Bool
  | [] => true
  | p :: ps => if isSpread p then ps.isEmpty else spreadsLast p && spreadsLastAll ps

def spreadsLastFields : List (String × Term) → Bool
  | [] => true
  | (_, p) :: ps => if isSpread p then ps.isEmpty else spreadsLast p && spreadsLastFields ps

end

theorem bind_eq_ok {ε α β : Type} {x : Except ε α} {f : α → Except ε β} {b : β} :
    (x >>= f) = .ok b ↔ ∃ a, x = .ok a ∧ f a = .ok b := by
  cases x with
  | error e =>
    constructor
    · intro h
      cases h
    · rintro ⟨_, h, _⟩
      cases h
  | ok a =>
    constructor
    · intro h
      exact ⟨a, rfl, h⟩
    · rintro ⟨_, h, h'⟩
      cases h
      exact h'

section Found
variable {V : Term → Prop} {h : Heap} {d found0 found : Env} {k y : String} {v p : Term} {i : Nat} {x : Option String}
  {names : String → Prop}

/-- What holds of a list, a record or a variant holds of its parts, and what holds of a record, of less of it. -/
structure Compound (V : Term → Prop) : Prop where
  list : ∀ {i : Nat} {xs : List Term}, V (.list i xs) ↔ ∀ x ∈ xs, V x
  record : ∀ {i : Nat} {fs : Dict Term}, V (.record i fs) → ∀ p ∈ fs, V p.2
  rest : ∀ {i j : Nat} {fs gs : Dict Term}, V (.record i fs) → gs.Sublist fs → V (.record j gs)
  variant : ∀ {i : Nat} {x : String} {v : Term}, V (.variant i x v) ↔ V v

theorem compound_leaves {Q : Term → Prop} : Compound (Leaves Q) where
  list := leaves_list
  record := leaves_record.mp
  rest h hs := leaves_record.mpr fun p hp => leaves_record.mp h p (hs.subset hp)
  variant := ⟨fun h => h.part (.head _), fun h => leaves_of_parts rfl fun _ hu => mem_singleton.mp hu ▸ h⟩

theorem values_merge {e : Env} (hd : ∀ q ∈ d, V q.2) (he : ∀ q ∈ e, V q.2) : ∀ q ∈ d.merge e, V q.2 :=
  fun q hq => (mem_merge hq).elim (hd q) (he q)

theorem values_set (hd : ∀ q ∈ d, V q.2) (hv : V v) : ∀ q ∈ d.set k v, V q.2 :=
  fun q hq => (mem_set hq).elim (fun he => he ▸ hv) (hd q)

/-- `V` holds of what the names of a pattern stand for, no name occurs twice, and what is among `names` is
there. -/
structure Takes (V : Term → Prop) (names : String → Prop) (found : Env) : Prop where
  values : ∀ q ∈ found, V q.2
  proper : found.Proper
  named : ∀ x, names x → (found.get? x).isSome

section Takes
variable {names more : String → Prop} {found part : Env}

theorem Takes.mono (hf : Takes V names found) (hn : ∀ x, more x → names x) : Takes V more found :=
  ⟨hf.values, hf.proper, fun x hx => hf.named x (hn x hx)⟩

theorem Takes.nil : Takes V (fun _ => False) [] := ⟨fun _ hq => (by cases hq), .nil, fun _ hx => hx.elim⟩

theorem Takes.set (hf : Takes V names found) (hv : V v) (x : String) :
    Takes V (fun y => names y ∨ y = x) (found.set x v) where
  values := values_set hf.values hv
  proper := hf.proper.set _ _
  named y hy := by
    rw [get?_set]
    split
    · rfl
    · rename_i hne
      exact hf.named y (hy.resolve_right hne)

theorem Takes.merge (hf : Takes V names found) (hp : Takes V more part) :
    Takes V (fun y => names y ∨ more y) (found.merge part) where
  values := values_merge hf.values hp.values
  proper := hf.proper.merge _
  named y hy := by
    rw [get?_merge hp.proper, Option.isSome_or, Bool.or_eq_true]
    exact hy.symm.imp (hp.named y) (hf.named y)

theorem Takes.replaced {V' : Term → Prop} {env : Env} (hf : Takes V names found)
    (hall : Forall₂ (fun p q : String × Term => q.1 = p.1 ∧ V' q.2) found env) : Takes V' names env := by
  have hkeys : Dict.keys env = Dict.keys found := keys_eq_of_forall₂ (hall.imp fun _ _ h => h.1)
  refine ⟨forall_of_forall₂ (hall.imp fun _ _ h => h.2), ?_, fun x hx => ?_⟩
  · rw [Dict.Proper, hkeys]
    exact hf.proper
  · rw [get?_isSome_iff, hkeys, ← get?_isSome_iff]
    exact hf.named x hx

end Takes

theorem freeVarsFields_eq_all (fs : Dict Term) : freeVarsFields fs = freeVarsAll (fs.map Prod.snd) := by
  induction fs with
  | nil => rfl
  | cons f fs ih =>
    rw [freeVarsFields, ih]
    rfl

theorem spreadsLastFields_eq_all (fs : Dict Term) : spreadsLastFields fs = spreadsLastAll (fs.map Prod.snd) := by
  induction fs with
  | nil => rfl
  | cons f fs ih => rw [spreadsLastFields, ih, map_cons, spreadsLastAll, isEmpty_map]

/-- The names that a pattern is sure to give: all its variables, if each spread comes last. -/
def Sure (last : Bool) (vars : Except FreeVarsError (List String)) (x : String) : Prop :=
  last = true ∧ ∃ ns, vars = .ok ns ∧ x ∈ ns

theorem Sure.nil {last : Bool} {x : String} : ¬ Sure last (.ok []) x := by
  rintro ⟨-, _, hv, hx⟩
  cases hv
  cases hx

theorem Sure.spread {ps : List Term}
    (hs : Sure (spreadsLastAll (.spread i x :: ps)) (freeVarsAll (.spread i x :: ps)) y) : x = some y := by
  obtain ⟨hl, ns, hv, hy⟩ := hs
  cases List.isEmpty_iff.mp hl
  cases hv
  simpa using hy

theorem Sure.cons {ps : List Term} (hp : isSpread p = false)
    (hs : Sure (spreadsLastAll (p :: ps)) (freeVarsAll (p :: ps)) y) :
    Sure p.spreadsLast p.freeVars y ∨ Sure (spreadsLastAll ps) (freeVarsAll ps) y := by
  obtain ⟨hl, ns, hv, hy⟩ := hs
  rw [spreadsLastAll, hp] at hl
  obtain ⟨hl, hls⟩ := Bool.and_eq_true_iff.mp hl
  obtain ⟨a, ha, hv⟩ := bind_eq_ok.mp hv
  obtain ⟨b, hb, hv⟩ := bind_eq_ok.mp hv
  cases hv
  exact (mem_append.mp hy).imp (fun hy => ⟨hl, a, ha, hy⟩) fun hy => ⟨hls, b, hb, hy⟩

theorem Sure.fieldSpread {ps : List (String × Term)}
    (hs : Sure (spreadsLastFields ((k, .spread i x) :: ps)) (freeVarsFields ((k, .spread i x) :: ps)) y) : x = some y := by
  rw [spreadsLastFields_eq_all, freeVarsFields_eq_all] at hs
  exact hs.spread

theorem Sure.field {ps : List (String × Term)} (hp : isSpread p = false)
    (hs : Sure (spreadsLastFields ((k, p) :: ps)) (freeVarsFields ((k, p) :: ps)) y) :
    Sure p.spreadsLast p.freeVars y ∨ Sure (spreadsLastFields ps) (freeVarsFields ps) y := by
  rw [spreadsLastFields_eq_all, freeVarsFields_eq_all] at hs ⊢
  exact hs.cons hp

theorem takes_items (hV : Compound V) {ps : List Term}
    (ih : ∀ p ∈ ps, ∀ (t : Term) (found : Env), V t → matchPattern h p t = .ok (some found) →
      Takes V (Sure p.spreadsLast p.freeVars) found) {items : List Term} (hitems : ∀ t ∈ items, V t)
    (h0 : Takes V names found0) (hm : matchItems h ps items found0 = .ok (some found)) :
    Takes V (fun x => names x ∨ Sure (spreadsLastAll ps) (freeVarsAll ps) x) found := by
  induction ps generalizing items names found0 with
  | nil =>
    cases items <;> simp [matchItems] at hm
    subst hm
    exact h0.mono fun x hx => hx.resolve_right Sure.nil
  | cons p ps ihps =>
    cases hp : isSpread p with
    | true =>
      obtain ⟨i, x, rfl⟩ := exists_spread hp
      cases x with
      | none =>
        simp only [matchItems, Except.ok.injEq, Option.some.injEq] at hm
        subst hm
        exact h0.mono fun y hy => hy.resolve_right fun hs => Option.some_ne_none y hs.spread.symm
      | some x =>
        simp only [matchItems, Except.ok.injEq, Option.some.injEq] at hm
        subst hm
        exact (h0.set (hV.list.mpr hitems) x).mono fun y hy => hy.imp_right fun hs => (Option.some.inj hs.spread).symm
    | false =>
      cases items with
      | nil =>
        rw [matchItems_cons_nil hp] at hm
        cases hm
      | cons t ts =>
        rw [matchItems_cons hp] at hm
        split at hm
        · rename_i part hpart
          have hpart' := ih p (.head _) t part (hitems t (.head _)) hpart
          have hrest := ihps (fun q hq => ih q (.tail _ hq))
            (fun u hu => hitems u (.tail _ hu)) (h0.merge hpart') hm
          exact hrest.mono fun x hx => or_assoc.mpr (hx.imp_right (Sure.cons hp))
        · cases hm
        · cases hm

theorem takes_fields (hV : Compound V) {ps : List (String × Term)}
    (ih : ∀ p ∈ ps, ∀ (t : Term) (found : Env), V t → matchPattern h p.2 t = .ok (some found) →
      Takes V (Sure p.2.spreadsLast p.2.freeVars) found)
    {j : Nat} {fields : Dict Term} (hfields : V (.record j fields)) {count : Nat} {seen : List String}
    (h0 : Takes V names found0) (hm : matchFields h ps fields count seen found0 = .ok (some found)) :
    Takes V (fun x => names x ∨ Sure (spreadsLastFields ps) (freeVarsFields ps) x) found := by
  induction ps generalizing seen names found0 with
  | nil =>
    by_cases hc : count = fields.length <;> simp [matchFields, hc] at hm
    subst hm
    exact h0.mono fun x hx => hx.resolve_right Sure.nil
  | cons q ps ihps =>
    obtain ⟨k, p⟩ := q
    cases hp : isSpread p with
    | true =>
      obtain ⟨i, x, rfl⟩ := exists_spread hp
      cases x with
      | none =>
        simp only [matchFields, Except.ok.injEq, Option.some.injEq] at hm
        subst hm
        exact h0.mono fun y hy => hy.resolve_right fun hs => Option.some_ne_none y hs.fieldSpread.symm
      | some x =>
        simp only [matchFields, Except.ok.injEq, Option.some.injEq] at hm
        subst hm
        exact (h0.set (hV.rest hfields filter_sublist) x).mono
          fun y hy => hy.imp_right fun hs => (Option.some.inj hs.fieldSpread).symm
    | false =>
      rw [matchFields_cons hp] at hm
      split at hm
      · cases hm
      · rename_i v hv
        split at hm
        · rename_i part hpart
          have hpart' := ih (k, p) (.head _) v part (hV.record hfields _ (mem_of_get? hv)) hpart
          have hrest := ihps (fun q hq => ih q (.tail _ hq)) (h0.merge hpart') hm
          exact hrest.mono fun x hx => or_assoc.mpr (hx.imp_right (Sure.field hp))
        · cases hm
        · cases hm

/-- The names of a pattern stand for what is made of the term's parts, no name occurs twice, and if each spread comes
last, all variables of the pattern are there. -/
theorem matchPattern_takes (hV : Compound V) (hres : ∀ t, V t → V (h.resolve t)) (p : Term) : ∀ (t : Term)
    (found : Env), V t → matchPattern h p t = .ok (some found) → Takes V (Sure p.spreadsLast p.freeVars) found := by
  induction p using parts_induction with
  | step p ih =>
    intro t found ht hm
    have hl := hres t ht
    cases p with
    | var i x =>
      rw [matchPattern] at hm
      cases hm
      refine ⟨fun q hq => mem_singleton.mp hq ▸ ht, nodup_singleton _, ?_⟩
      rintro y ⟨-, _, hv, hy⟩
      cases hv
      cases mem_singleton.mp hy
      simp [get?_cons]
    | hole =>
      rw [matchPattern] at hm
      split at hm <;> cases hm
      exact Takes.nil.mono fun _ hs => hs.nil
    | int | truth =>
      rw [matchPattern, Except.ok.injEq] at hm
      obtain ⟨-, hf⟩ := Option.ite_none_right_eq_some.mp hm
      cases hf
      exact Takes.nil.mono fun _ hs => hs.nil
    | string =>
      rw [matchPattern] at hm
      split at hm
      · rw [Except.ok.injEq] at hm
        split at hm <;> cases hm
        exact Takes.nil.mono fun _ hs => hs.nil
      · cases hm
    | variant _ tag q =>
      rw [matchPattern] at hm
      split at hm
      · rename_i i tag' v hv
        rw [hv] at hl
        split at hm
        · exact ih q (.head _) v found (hV.variant.mp hl) hm
        · cases hm
      · cases hm
    | record _ ps =>
      rw [matchPattern] at hm
      split at hm
      · rename_i i fields hf
        rw [hf] at hl
        exact (takes_fields hV (fun q hq => ih q.2 (mem_parts_fields hq)) hl Takes.nil hm).mono
          fun _ hs => .inr hs
      · cases hm
    | list _ ps =>
      rw [matchPattern] at hm
      split at hm
      · rename_i i items hi
        rw [hi] at hl
        exact (takes_items hV ih (hV.list.mp hl) Takes.nil hm).mono fun _ hs => .inr hs
      · cases hm
    | _ =>
      rw [matchPattern] at hm
      cases hm

end Found

end Scrap.Term
