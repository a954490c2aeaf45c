import Mathlib.Data.List.Perm.Subperm
import Scrap.Proofs.Term.Equals
import Scrap.Proofs.Term.Matching

/-! # Matching and instances

With terms in the places of its names, a pattern is a term again, an instance. Matching finds the terms with which the
instance equals a given term, if there are any. -/

namespace Scrap.Term

open List

open Scrap.Parser (isSpread)

variable {m : Except MatchError (Option Env)} {items : List Term} {i : Nat} {q v : Term}

/-! ### Patterns and their names -/

mutual

/-- Whether a term is a pattern, where a spread is the last entry of its list or record. -/
def isPattern : Term → Bool
  | .hole _ | .int _ _ | .truth _ _ | .string _ _ | .var _ _ => true
  | .variant _ _ p => isPattern p
  | .list _ ps => arePatterns ps
  | .record _ ps => decide (Dict.keys ps).Nodup && areFieldPatterns ps
  | _ => false

def arePatterns : List Term → Bool
  | [] => true
  | p :: ps => if isSpread p then ps.isEmpty else isPattern p && arePatterns ps

def areFieldPatterns : List (String × Term) → Bool
  | [] => true
  | (_, p) :: ps => if isSpread p then ps.isEmpty else isPattern p && areFieldPatterns ps

end

mutual

def names : Term → List String
  | .var _ x => [x]
  | .spread _ x => x.toList
  | .variant _ _ p => names p
  | .list _ ps => namesAll ps
  | .record _ ps => namesFields ps
  | _ => []

def namesAll : List Term → List String
  | [] => []
  | p :: ps => names p ++ namesAll ps

def namesFields : List (String × Term) → List String
  | [] => []
  | (_, p) :: ps => names p ++ namesFields ps

end

section Patterns
variable {p : Term} {k : String} {ps : List Term} {fs : List (String × Term)}

theorem arePatterns_cons (h : arePatterns (p :: ps) = true) :
    (∃ i x, p = .spread i x ∧ ps = []) ∨ isSpread p = false ∧ p.isPattern = true ∧ arePatterns ps = true := by
  rw [arePatterns] at h
  cases hp : isSpread p with
  | true =>
    rw [hp] at h
    obtain ⟨i, x, rfl⟩ := exists_spread hp
    exact .inl ⟨i, x, rfl, List.isEmpty_iff.mp h⟩
  | false =>
    rw [hp] at h
    exact .inr ⟨rfl, Bool.and_eq_true_iff.mp h⟩

theorem areFieldPatterns_cons (h : areFieldPatterns ((k, p) :: fs) = true) :
    (∃ i x, p = .spread i x ∧ fs = []) ∨ isSpread p = false ∧ p.isPattern = true ∧ areFieldPatterns fs = true := by
  rw [areFieldPatterns] at h
  cases hp : isSpread p with
  | true =>
    rw [hp] at h
    obtain ⟨i, x, rfl⟩ := exists_spread hp
    exact .inl ⟨i, x, rfl, List.isEmpty_iff.mp h⟩
  | false =>
    rw [hp] at h
    exact .inr ⟨rfl, Bool.and_eq_true_iff.mp h⟩

theorem freeVarsAll_eq_names (ih : ∀ p ∈ ps, p.isPattern = true → p.freeVars = .ok p.names) (hps : arePatterns ps = true) :
    freeVarsAll ps = .ok (namesAll ps) := by
  induction ps with
  | nil => rfl
  | cons p ps ihps =>
    rw [freeVarsAll, namesAll]
    rcases arePatterns_cons hps with ⟨i, x, rfl, rfl⟩ | ⟨-, hp, hps⟩
    · rfl
    · rw [ih p (.head _) hp, ihps (fun q hq => ih q (.tail _ hq)) hps]
      rfl

theorem freeVarsFields_eq_names (ih : ∀ f ∈ fs, f.2.isPattern = true → f.2.freeVars = .ok f.2.names)
    (hfs : areFieldPatterns fs = true) : freeVarsFields fs = .ok (namesFields fs) := by
  induction fs with
  | nil => rfl
  | cons f fs ihfs =>
    obtain ⟨k, p⟩ := f
    rw [freeVarsFields, namesFields]
    rcases areFieldPatterns_cons hfs with ⟨i, x, rfl, rfl⟩ | ⟨-, hp, hfs⟩
    · rfl
    · rw [ih (k, p) (.head _) hp, ihfs (fun q hq => ih q (.tail _ hq)) hfs]
      rfl

theorem freeVars_eq_names (hp : p.isPattern = true) : p.freeVars = .ok p.names := by
  induction p using parts_induction with
  | step p ih =>
    cases p with
    | hole | int | truth | string | var => rfl
    | variant i tag q => exact ih q (.head _) hp
    | list i ps => exact freeVarsAll_eq_names ih hp
    | record i fs =>
      exact freeVarsFields_eq_names (fun f hf => ih f.2 (mem_parts_fields hf)) (Bool.and_eq_true_iff.mp hp).2
    | _ => cases hp

end Patterns

/-! ### What matching finds -/

abbrev restFields (fields : Dict Term) (seen : List String) : Dict Term := fields.filter fun f => !seen.contains f.1

/-- What holds of a term holds of what a pattern can take from it. -/
structure Inherited (h : Heap) (Q : Term → Prop) : Prop where
  resolve : ∀ {t}, Q t → Q (h.resolve t)
  part : ∀ {t u}, Q t → u ∈ t.parts → Q u
  list : ∀ {items}, (∀ t ∈ items, Q t) → Q (.list 0 items)
  record : ∀ {i fields} (seen), Q (.record i fields) → Q (.record 0 (restFields fields seen))

theorem inherited_true (h : Heap) : Inherited h fun _ => True :=
  ⟨fun _ => trivial, fun _ _ => trivial, fun _ => trivial, fun _ _ => trivial⟩

/-- `s` has what was found, but for the given names, which are there too. -/
structure Extends (Q : Term → Prop) (found : Env) (ns : List String) (s : Env) : Prop where
  proper : found.Proper → s.Proper
  keys : ∀ x, x ∈ s.keys ↔ x ∈ found.keys ∨ x ∈ ns
  kept : ∀ x, x ∉ ns → s.get? x = found.get? x
  values : (∀ p ∈ found, Q p.2) → ∀ p ∈ s, Q p.2

namespace Extends
variable {Q : Term → Prop} {found s s' : Env} {ns ns' : List String}

theorem refl (Q : Term → Prop) (found : Env) : Extends Q found [] found where
  proper := fun h => h
  keys := by simp
  kept _ _ := rfl
  values := fun h => h

theorem trans (h : Extends Q found ns s) (h' : Extends Q s ns' s') : Extends Q found (ns ++ ns') s' where
  proper hf := h'.proper (h.proper hf)
  keys x := by rw [h'.keys, h.keys, mem_append, or_assoc]
  kept x hx := by
    rw [mem_append, not_or] at hx
    rw [h'.kept x hx.2, h.kept x hx.1]
  values hf := h'.values (h.values hf)

theorem set (found : Env) (x : String) (hv : Q v) : Extends Q found [x] (found.set x v) where
  proper hf := hf.set x v
  keys y := by
    rw [← Dict.get?_isSome_iff, Dict.get?_set, ← Dict.get?_isSome_iff, mem_singleton]
    split <;> simp [*]
  kept y hy := by
    rw [Dict.get?_set, if_neg fun h => hy (mem_singleton.mpr h)]
  values hf p hp := by
    rcases Dict.mem_set hp with rfl | hp
    · exact hv
    · exact hf p hp

theorem merge (found : Env) {part : Env} (h : Extends Q [] ns part) : Extends Q found ns (found.merge part) where
  proper hf := hf.merge part
  keys x := by
    rw [← Dict.get?_isSome_iff, Dict.get?_merge (h.proper .nil), Option.isSome_or, Bool.or_eq_true,
      Dict.get?_isSome_iff, Dict.get?_isSome_iff, h.keys]
    simp [or_comm]
  kept x hx := by
    have hpart : Dict.get? part x = none := h.kept x hx
    rw [Dict.get?_merge (h.proper .nil), hpart, Option.none_or]
  values hf p hp := (Dict.mem_merge hp).elim (hf p) (h.values (fun _ hq => by cases hq) p)

end Extends

/-- Matching returns, and what it finds satisfies `Q`. -/
def Finds (m : Except MatchError (Option Env)) (Q : Env → Prop) : Prop := ∃ r, m = .ok r ∧ ∀ s, r = some s → Q s

theorem Finds.nothing (Q : Env → Prop) : Finds (.ok none) Q := ⟨_, rfl, fun s hs => by cases hs⟩

theorem Finds.found {Q : Env → Prop} {s : Env} (hs : Q s) : Finds (.ok (some s)) Q :=
  ⟨_, rfl, fun s' hs' => by cases hs'; exact hs⟩

theorem Finds.imp {Q Q' : Env → Prop} (hm : Finds m Q) (h : ∀ s, Q s → Q' s) : Finds m Q' := by
  obtain ⟨r, hr, hQ⟩ := hm
  exact ⟨r, hr, fun s hs => h s (hQ s hs)⟩

theorem Finds.apply {Q : Env → Prop} (hm : Finds m Q) {s : Env} (hs : m = .ok (some s)) : Q s := by
  obtain ⟨r, hr, hQ⟩ := hm
  cases hr.symm.trans hs
  exact hQ s rfl

theorem Finds.test (Q : Term → Prop) (c : Prop) [Decidable c] :
    Finds (.ok (if c then some [] else none)) (Extends Q [] []) := by
  split
  · exact .found (.refl Q [])
  · exact .nothing _

section Domain
variable {h : Heap} {Q : Term → Prop}

theorem matchItems_finds (hQ : Inherited h Q) {ps : List Term}
    (ih : ∀ p ∈ ps, ∀ t, p.isPattern = true → Q t → Finds (matchPattern h p t) (Extends Q [] p.names))
    (hps : arePatterns ps = true) (hitems : ∀ t ∈ items, Q t) (found : Env) :
    Finds (matchItems h ps items found) (Extends Q found (namesAll ps)) := by
  induction ps generalizing items found with
  | nil =>
    rw [matchItems]
    split
    · exact .found (.refl Q found)
    · exact .nothing _
  | cons p ps ihps =>
    rcases arePatterns_cons hps with ⟨i, x, rfl, rfl⟩ | ⟨hp, hpat, hps⟩
    · cases x with
      | none =>
        rw [matchItems]
        exact .found (.refl Q found)
      | some x =>
        rw [matchItems]
        exact .found (.set found x (hQ.list hitems))
    · cases items with
      | nil =>
        rw [matchItems_cons_nil hp]
        exact .nothing _
      | cons t ts =>
        rw [forall_mem_cons] at hitems
        obtain ⟨r, hr, hpart⟩ := ih p (.head _) t hpat hitems.1
        rw [matchItems_cons hp, hr]
        cases r with
        | none => exact .nothing _
        | some part =>
          have hrest := ihps (fun q hq => ih q (.tail _ hq)) hps hitems.2 (found.merge part)
          exact hrest.imp fun s hs => (Extends.merge found (hpart part rfl)).trans hs

theorem matchFields_finds (hQ : Inherited h Q) {ps : List (String × Term)}
    (ih : ∀ p ∈ ps, ∀ t, p.2.isPattern = true → Q t → Finds (matchPattern h p.2 t) (Extends Q [] p.2.names))
    (hps : areFieldPatterns ps = true) {fields : Dict Term} (hfields : Q (.record i fields)) (count : Nat)
    (seen : List String) (found : Env) :
    Finds (matchFields h ps fields count seen found) (Extends Q found (namesFields ps)) := by
  induction ps generalizing seen found with
  | nil =>
    rw [matchFields]
    split
    · exact .found (.refl Q found)
    · exact .nothing _
  | cons f ps ihps =>
    obtain ⟨k, p⟩ := f
    rcases areFieldPatterns_cons hps with ⟨j, x, rfl, rfl⟩ | ⟨hp, hpat, hps⟩
    · cases x with
      | none =>
        rw [matchFields]
        exact .found (.refl Q found)
      | some x =>
        rw [matchFields]
        exact .found (.set found x (hQ.record seen hfields))
    · rw [matchFields_cons hp]
      cases hv : fields.get? k with
      | none => exact .nothing _
      | some v =>
        obtain ⟨r, hr, hpart⟩ :=
          ih (k, p) (.head _) v hpat (hQ.part hfields (mem_parts_fields (Dict.mem_of_get? hv)))
        simp only [hr]
        cases r with
        | none => exact .nothing _
        | some part =>
          have hrest := ihps (fun q hq => ih q (.tail _ hq)) hps (k :: seen) (found.merge part)
          exact hrest.imp fun s hs => (Extends.merge found (hpart part rfl)).trans hs

/-- Matching with a pattern returns, and finds terms for exactly the names of the pattern. -/
theorem matchPattern_finds (hQ : Inherited h Q) {p : Term} (hp : p.isPattern = true) {t : Term} (ht : Q t) :
    Finds (matchPattern h p t) (Extends Q [] p.names) := by
  induction p using parts_induction generalizing t with
  | step p ih =>
    have hr := hQ.resolve ht
    cases p with
    | hole =>
      rw [matchPattern]
      split
      · exact .found (.refl Q [])
      · exact .nothing _
    | string =>
      rw [matchPattern]
      split
      · exact .test Q _
      · exact .nothing _
    | int | truth =>
      rw [matchPattern]
      exact .test Q _
    | var i x =>
      rw [matchPattern]
      exact .found (Extends.set [] x ht)
    | variant i tag q =>
      rw [matchPattern]
      split
      · rename_i j tag' v hv
        rw [hv] at hr
        split
        · exact ih q (.head _) hp (hQ.part hr (.head _))
        · exact .nothing _
      · exact .nothing _
    | list i ps =>
      rw [matchPattern]
      split
      · rename_i j items hitems
        rw [hitems] at hr
        exact matchItems_finds hQ (fun q hq t hq' ht => ih q hq hq' ht) hp (fun u hu => hQ.part hr hu) []
      · exact .nothing _
    | record i ps =>
      rw [matchPattern]
      split
      · rename_i j fields hfields
        rw [hfields] at hr
        exact matchFields_finds hQ (fun q hq t hq' ht => ih q.2 (mem_parts_fields hq) hq' ht)
          (Bool.and_eq_true_iff.mp hp).2 hr _ [] []
      · exact .nothing _
    | _ => cases hp

end Domain

/-! ### Instances -/

mutual

/-- With the terms of `s` in the places of its names, a pattern becomes a term, which is new. A spread stands for the items
or the fields of its own term, and without a name for any. -/
inductive Instance (h : Heap) (s : Env) : Term → Term → Prop
  | hole (i : Nat) : Instance h s (.hole i) (.hole 0)
  | int (i : Nat) (n : Int) : Instance h s (.int i n) (.int 0 n)
  | truth (i : Nat) (b : Bool) : Instance h s (.truth i b) (.truth 0 b)
  | string (i : Nat) (t : String) : Instance h s (.string i t) (.string 0 t)
  | var (i : Nat) {x : String} {v : Term} (hx : s.get? x = some v) : Instance h s (.var i x) v
  | variant (i : Nat) (tag : String) {p q : Term} (hq : Instance h s p q) :
    Instance h s (.variant i tag p) (.variant 0 tag q)
  | list (i : Nat) {ps qs : List Term} (hqs : InstanceItems h s ps qs) : Instance h s (.list i ps) (.list 0 qs)
  | record (i : Nat) {ps qs : Dict Term} (hqs : InstanceFields h s ps qs) : Instance h s (.record i ps) (.record 0 qs)

inductive InstanceItems (h : Heap) (s : Env) : List Term → List Term → Prop
  | nil : InstanceItems h s [] []
  | cons {p q : Term} {ps qs : List Term} (hq : Instance h s p q) (hqs : InstanceItems h s ps qs) :
    InstanceItems h s (p :: ps) (q :: qs)
  | rest (i : Nat) (items : List Term) : InstanceItems h s [.spread i none] items
  | namedRest (i : Nat) {j : Nat} {x : String} {v : Term} {items : List Term} (hx : s.get? x = some v)
    (hv : h.resolve v = .list j items) : InstanceItems h s [.spread i (some x)] items

/-- The keys of an instance are distinct: those of the rest are not in the pattern. -/
inductive InstanceFields (h : Heap) (s : Env) : Dict Term → Dict Term → Prop
  | nil : InstanceFields h s [] []
  | cons {k : String} {p q : Term} {ps qs : Dict Term} (hq : Instance h s p q) (hqs : InstanceFields h s ps qs)
    (hk : k ∉ qs.keys) : InstanceFields h s ((k, p) :: ps) ((k, q) :: qs)
  | rest (i : Nat) (k : String) {fields : Dict Term} (hfields : fields.Proper) :
    InstanceFields h s [(k, .spread i none)] fields
  | namedRest (i : Nat) (k : String) {j : Nat} {x : String} {v : Term} {fields : Dict Term} (hx : s.get? x = some v)
    (hv : h.resolve v = .record j fields) (hfields : fields.Proper) : InstanceFields h s [(k, .spread i (some x))] fields

end

/-- What was found equals what the names stand for in `s`. -/
def Fits (h : Heap) (s found : Env) : Prop := ∀ x w, found.get? x = some w → ∃ v, s.get? x = some v ∧ Equals h v w

section Fits
variable {h : Heap} {s found part : Env}

theorem Fits.nil (h : Heap) (s : Env) : Fits h s [] := fun x w hw => by cases hw

theorem Fits.set (hf : Fits h s found) {x : String} {w : Term} (hx : s.get? x = some v) (heq : Equals h v w) :
    Fits h s (found.set x w) := by
  intro y u hu
  rw [Dict.get?_set] at hu
  split at hu
  · rename_i hyx
    cases hu
    exact ⟨v, hyx ▸ hx, heq⟩
  · exact hf y u hu

theorem Fits.merge (hf : Fits h s found) (hproper : part.Proper) (hp : Fits h s part) : Fits h s (found.merge part) := by
  intro y u hu
  rw [Dict.get?_merge hproper, Option.or_eq_some_iff] at hu
  rcases hu with hu | ⟨-, hu⟩
  · exact hp y u hu
  · exact hf y u hu

end Fits

/-! ### Fields that are left -/

section Rest
variable {fields : Dict Term} {seen : List String} {k : String}

theorem get?_restFields : (restFields fields seen).get? k = if k ∈ seen then none else fields.get? k := by
  induction fields with
  | nil => simp [Dict.get?]
  | cons f fields ih =>
    obtain ⟨l, v⟩ := f
    simp only [restFields, contains_eq_mem] at ih ⊢
    by_cases hl : l ∈ seen
    · by_cases hk : k = l
      · subst hk
        simp [hl, ih]
      · simp [hl, Dict.get?_cons, hk, ih]
    · by_cases hk : k = l
      · subst hk
        simp [hl, Dict.get?_cons]
      · simp [hl, Dict.get?_cons, hk, ih]

theorem proper_restFields (hfields : fields.Proper) (seen : List String) : (restFields fields seen).Proper :=
  hfields.sublist (filter_sublist.map Prod.fst)

theorem length_restFields (hfields : fields.Proper) (hseen : seen.Nodup) (hsub : seen ⊆ fields.keys) :
    (restFields fields seen).length + seen.length = fields.length := by
  have hkeys : (fields.restrict seen).keys.Perm seen := by
    refine (perm_ext_iff_of_nodup (hfields.restrict seen) hseen).mpr fun k => ?_
    rw [← Dict.get?_isSome_iff, Dict.get?_restrict]
    split
    · rename_i hk
      simp [hk, Dict.get?_isSome_iff, hsub hk]
    · rename_i hk
      simp [hk]
  have hlength : (fields.restrict seen).length = seen.length := by
    rw [← hkeys.length_eq, Dict.keys, length_map]
  rw [← hlength, Nat.add_comm]
  exact (length_eq_length_filter_add _).symm

end Rest

/-! ### Terms that are fine -/

section Fine
variable {h : Heap} {t : Term}

theorem inherited_fine (h : Heap) : Inherited h (Fine h) where
  resolve ht := ht.resolve
  part ht hu := ht.part hu
  list hitems := fine_of_parts rfl trivial hitems
  record seen hrecord := by
    have hproper : Dict.Proper _ := hrecord _ .root
    refine fine_of_parts rfl (proper_restFields hproper seen) fun u hu => ?_
    obtain ⟨f, hf, rfl⟩ := mem_map.mp hu
    exact hrecord.part (mem_parts_fields (mem_filter.mp hf).1)

theorem Fine.eq_of_resolve (ht : t.Fine h) {u : Term} (hu : h.resolve t = u) (hknot : u.isKnot = false) : t = u := by
  cases t with
  | link i =>
    have hat : (h.resolve (.link i)).isKnot = true := ht _ .root
    rw [hu, hknot] at hat
    cases hat
  | _ => exact hu

theorem Fine.int?_resolve (ht : t.Fine h) : (h.resolve t).int? = t.int? := by
  cases t with
  | link i =>
    have hat : (h.resolve (.link i)).isKnot = true := ht _ .root
    cases hr : h.resolve (.link i) <;> first | rfl | (rw [hr] at hat; cases hat)
  | _ => rfl

end Fine

/-! ### The first entry -/

section First
variable {h : Heap} {p : Term} {k : String} {found s : Env} {fields : Dict Term} {count : Nat} {seen : List String}

theorem matchItems_cons_iff {ps ts : List Term} {t : Term} (hp : isSpread p = false) :
    matchItems h (p :: ps) (t :: ts) found = .ok (some s) ↔
      ∃ part, matchPattern h p t = .ok (some part) ∧ matchItems h ps ts (found.merge part) = .ok (some s) := by
  rw [matchItems_cons hp]
  rcases matchPattern h p t with e | _ | part <;> simp

theorem matchFields_cons_iff {ps : Dict Term} (hp : isSpread p = false) :
    matchFields h ((k, p) :: ps) fields count seen found = .ok (some s) ↔
      ∃ v part, fields.get? k = some v ∧ matchPattern h p v = .ok (some part) ∧
        matchFields h ps fields count (k :: seen) (found.merge part) = .ok (some s) := by
  rw [matchFields_cons hp]
  cases fields.get? k with
  | none => simp
  | some v => rcases hr : matchPattern h p v with e | _ | part <;> simp [hr]

end First

/-! ### From matching to instances -/

section Sound
variable {h : Heap} {s : Env} {fields qs : Dict Term} {seen : List String} {k : String}

/-- What the given names stand for in `s` equals what was found. -/
def FitsOn (h : Heap) (s : Env) (ns : List String) (found : Env) : Prop :=
  ∀ x ∈ ns, ∀ w, found.get? x = some w → ∃ v, s.get? x = some v ∧ Equals h v w

/-- What matching finds with the pattern in a term makes an instance that equals the term. -/
def Sound (h : Heap) (s : Env) (p : Term) : Prop :=
  ∀ t s₀, p.isPattern = true → p.names.Nodup → t.Fine h → matchPattern h p t = .ok (some s₀) → Fits h s s₀ →
    ∃ q, Instance h s p q ∧ Equals h q t

theorem Sound.first {p t : Term} {ns : List String} {found part s₀ : Env} (hp : Sound h s p) (hpat : p.isPattern = true)
    (ht : t.Fine h) (hpart : matchPattern h p t = .ok (some part)) (hrest : Extends (Fine h) (found.merge part) ns s₀)
    (hnames : (p.names ++ ns).Nodup) (hfits : FitsOn h s (p.names ++ ns) s₀) : ∃ q, Instance h s p q ∧ Equals h q t := by
  have hext := (matchPattern_finds (inherited_fine h) hpat ht).apply hpart
  refine hp t part hpat (nodup_append.mp hnames).1 ht hpart fun x w hw => ?_
  have hx : x ∈ p.names := by
    have hmem : x ∈ part.keys := Dict.get?_isSome_iff.mp (by rw [hw]; rfl)
    rw [hext.keys] at hmem
    exact hmem.resolve_left fun hx => by cases hx
  have hx' : x ∉ ns := fun hx' => (nodup_append.mp hnames).2.2 x hx x hx' rfl
  refine hfits x (mem_append_left _ hx) w ?_
  rw [hrest.kept x hx', Dict.get?_merge (hext.proper .nil), hw]
  rfl

theorem FitsOn.right {ns ns' : List String} {found : Env} (hf : FitsOn h s (ns ++ ns') found) : FitsOn h s ns' found :=
  fun x hx => hf x (mem_append_right _ hx)

theorem sound_items (hs : ∀ p ∈ s, p.2.Fine h) {ps : List Term} (ih : ∀ p ∈ ps, Sound h s p)
    (hps : arePatterns ps = true) (hnames : (namesAll ps).Nodup) (hitems : ∀ t ∈ items, t.Fine h) {found s₀ : Env}
    (hm : matchItems h ps items found = .ok (some s₀)) (hfits : FitsOn h s (namesAll ps) s₀) :
    ∃ qs, InstanceItems h s ps qs ∧ Forall₂ (Equals h) qs items := by
  induction ps generalizing items found with
  | nil =>
    cases items <;> simp [matchItems] at hm
    exact ⟨[], .nil, .nil⟩
  | cons p ps ihps =>
    rcases arePatterns_cons hps with ⟨i, x, rfl, rfl⟩ | ⟨hp, hpat, hps⟩
    · cases x with
      | none => exact ⟨items, .rest i items, forall₂_same.mpr fun t ht => .refl (hitems t ht)⟩
      | some x =>
        rw [matchItems] at hm
        cases hm
        obtain ⟨v, hv, heq⟩ := hfits x (by simp [namesAll, names]) (.list 0 items) (by rw [Dict.get?_set, if_pos rfl])
        obtain ⟨j, rest, hrest, hall⟩ := (equals_to_newList (hs _ (Dict.mem_of_get? hv)).isLink_resolve).mp heq
        exact ⟨rest, .namedRest i hv hrest, hall⟩
    · cases items with
      | nil =>
        rw [matchItems_cons_nil hp] at hm
        cases hm
      | cons t ts =>
        rw [forall_mem_cons] at hitems
        rw [namesAll] at hnames hfits
        obtain ⟨part, hpart, hm⟩ := (matchItems_cons_iff hp).mp hm
        have hrest := (matchItems_finds (inherited_fine h)
          (fun q _ t hq ht => matchPattern_finds (inherited_fine h) hq ht) hps hitems.2 (found.merge part)).apply hm
        obtain ⟨q, hq, heq⟩ := (ih p (.head _)).first hpat hitems.1 hpart hrest hnames hfits
        obtain ⟨qs, hqs, hall⟩ := ihps (fun q hq => ih q (.tail _ hq)) hps
          (nodup_append.mp hnames).2.1 hitems.2 hm hfits.right
        exact ⟨q :: qs, .cons hq hqs, .cons heq hall⟩

/-- The fields that make up an instance, next to those of the keys that have been seen. -/
structure Fills (h : Heap) (fields : Dict Term) (seen : List String) (qs : Dict Term) : Prop where
  length : qs.length + seen.length = fields.length
  unseen : ∀ k ∈ qs.keys, k ∉ seen
  equal : FieldsEqual h qs fields

theorem Fills.cons (hqs : Fills h fields (k :: seen) qs) (hk : k ∉ seen) (hv : fields.get? k = some v)
    (heq : Equals h q v) : Fills h fields seen ((k, q) :: qs) where
  length := by
    have hlength := hqs.length
    simp only [length_cons] at hlength ⊢
    omega
  unseen l hl := by
    rcases mem_cons.mp hl with rfl | hl
    · exact hk
    · exact fun hmem => hqs.unseen l hl (.tail _ hmem)
  equal := forall_mem_cons.mpr ⟨⟨v, hv, heq⟩, hqs.equal⟩

theorem Fills.first (hqs : Fills h fields seen ((k, q) :: qs)) (hk : k ∉ qs.keys) :
    k ∉ seen ∧ ∃ v, fields.get? k = some v ∧ Equals h q v ∧ Fills h fields (k :: seen) qs := by
  obtain ⟨v, hv, heq⟩ := hqs.equal (k, q) (.head _)
  refine ⟨hqs.unseen k (.head _), v, hv, heq, ?_, fun l hl hmem => ?_, fun f hf => ?_⟩
  · have hlength := hqs.length
    simp only [length_cons] at hlength ⊢
    omega
  · rcases mem_cons.mp hmem with rfl | hmem
    · exact hk hl
    · exact hqs.unseen l (.tail _ hl) hmem
  · exact hqs.equal f (.tail _ hf)

/-- The keys that a pattern has seen in a record are some of its keys, each once. -/
structure Seen (fields : Dict Term) (seen : List String) : Prop where
  proper : fields.Proper
  nodup : seen.Nodup
  subset : seen ⊆ fields.keys

theorem Seen.cons (hseen : Seen fields seen) (hk : k ∉ seen) (hv : fields.get? k = some v) :
    Seen fields (k :: seen) where
  proper := hseen.proper
  nodup := nodup_cons.mpr ⟨hk, hseen.nodup⟩
  subset := cons_subset.mpr ⟨Dict.get?_isSome_iff.mp (by rw [hv]; rfl), hseen.subset⟩

theorem fills_iff (hseen : Seen fields seen) : Fills h fields seen qs ↔
    qs.length = (restFields fields seen).length ∧ FieldsEqual h qs (restFields fields seen) := by
  have hlength := length_restFields hseen.proper hseen.nodup hseen.subset
  constructor
  · intro hqs
    have hqs' := hqs.length
    refine ⟨by omega, fun f hf => ?_⟩
    rw [get?_restFields, if_neg (hqs.unseen f.1 (mem_map_of_mem hf))]
    exact hqs.equal f hf
  · rintro ⟨hqs, heq⟩
    refine ⟨by omega, fun k hk hmem => ?_, fun f hf => ?_⟩
    · obtain ⟨f, hf, rfl⟩ := mem_map.mp hk
      obtain ⟨w, hw, -⟩ := heq f hf
      rw [get?_restFields, if_pos hmem] at hw
      cases hw
    · obtain ⟨w, hw, hfw⟩ := heq f hf
      rw [get?_restFields] at hw
      split at hw
      · cases hw
      · exact ⟨w, hw, hfw⟩

theorem sound_restFields (hs : ∀ p ∈ s, p.2.Fine h) {j count : Nat} {x : Option String} {found s₀ : Env}
    (hfields : (Term.record i fields).Fine h) (hseen : Seen fields seen)
    (hm : matchFields h [(k, .spread j x)] fields count seen found = .ok (some s₀)) (hfits : FitsOn h s x.toList s₀) :
    ∃ qs, InstanceFields h s [(k, .spread j x)] qs ∧ Fills h fields seen qs := by
  cases x with
  | none =>
    have hrest := proper_restFields hseen.proper seen
    refine ⟨_, .rest j k hrest, (fills_iff hseen).mpr ⟨rfl, fun f hf => ?_⟩⟩
    have hfine := hfields.part (mem_parts_fields (mem_filter.mp hf).1)
    exact ⟨f.2, Dict.get?_of_mem hrest hf, .refl hfine⟩
  | some x =>
    rw [matchFields] at hm
    cases hm
    obtain ⟨v, hv, heq⟩ := hfits x (.head _) _ (by rw [Dict.get?_set, if_pos rfl])
    have hfine := hs _ (Dict.mem_of_get? hv)
    obtain ⟨l, rest, hrest, hall⟩ := (equals_to_newRecord hfine.isLink_resolve).mp heq
    have hproper : Dict.Proper rest := by
      have hat := hfine.resolve
      rw [hrest] at hat
      exact hat _ .root
    exact ⟨rest, .namedRest j k hv hrest hproper, (fills_iff hseen).mpr hall⟩

theorem sound_fields (hs : ∀ p ∈ s, p.2.Fine h) {ps : Dict Term} (ih : ∀ p ∈ ps, Sound h s p.2)
    (hps : areFieldPatterns ps = true) (hkeys : ps.keys.Nodup) (hnames : (namesFields ps).Nodup) {count : Nat}
    {found s₀ : Env} (hfields : (Term.record i fields).Fine h) (hcount : count = ps.length + seen.length)
    (hseen : Seen fields seen) (hunseen : ∀ k ∈ ps.keys, k ∉ seen)
    (hm : matchFields h ps fields count seen found = .ok (some s₀)) (hfits : FitsOn h s (namesFields ps) s₀) :
    ∃ qs, InstanceFields h s ps qs ∧ Fills h fields seen qs := by
  induction ps generalizing seen found with
  | nil =>
    rw [matchFields] at hm
    split at hm
    · rename_i hlength
      exact ⟨[], .nil, by simpa using hcount.symm.trans hlength, fun k hk => (by cases hk), fun p hp => (by cases hp)⟩
    · cases hm
  | cons f ps ihps =>
    obtain ⟨k, p⟩ := f
    rw [namesFields] at hnames hfits
    rw [Dict.keys_cons, nodup_cons] at hkeys
    rcases areFieldPatterns_cons hps with ⟨j, x, rfl, rfl⟩ | ⟨hp, hpat, hps⟩
    · exact sound_restFields hs hfields hseen hm fun y hy => hfits y (mem_append_left _ hy)
    · obtain ⟨v, part, hv, hpart, hm⟩ := (matchFields_cons_iff hp).mp hm
      have hfine := hfields.part (mem_parts_fields (Dict.mem_of_get? hv))
      have hk : k ∉ seen := hunseen k (.head _)
      have hunseen' : ∀ l ∈ Dict.keys ps, l ∉ k :: seen := by
        intro l hl hmem
        rcases mem_cons.mp hmem with rfl | hmem
        · exact hkeys.1 hl
        · exact hunseen l (.tail _ hl) hmem
      have hrest := (matchFields_finds (inherited_fine h)
        (fun q _ t hq ht => matchPattern_finds (inherited_fine h) hq ht) hps hfields count (k :: seen)
        (found.merge part)).apply hm
      obtain ⟨q, hq, heq⟩ := (ih (k, p) (.head _)).first hpat hfine hpart hrest hnames hfits
      obtain ⟨qs, hqs, hfills⟩ := ihps (fun q hq => ih q (.tail _ hq)) hps hkeys.2
        (nodup_append.mp hnames).2.1 (by simp only [hcount, length_cons]; omega) (hseen.cons hk hv) hunseen' hm
        hfits.right
      exact ⟨(k, q) :: qs, .cons hq hqs fun hmem => hfills.unseen k hmem (.head _), hfills.cons hk hv heq⟩

theorem sound (hs : ∀ p ∈ s, p.2.Fine h) (p : Term) : Sound h s p := by
  induction p using parts_induction with
  | step p ih =>
    intro t s₀ hp hnames ht hm hfits
    cases p with
    | hole i =>
      rw [matchPattern] at hm
      split at hm
      · rename_i j hj
        exact ⟨_, .hole i, equals_hole.mpr ⟨j, ht.eq_of_resolve hj rfl⟩⟩
      · cases hm
    | int i n =>
      rw [matchPattern, ht.int?_resolve, Except.ok.injEq] at hm
      exact ⟨_, .int i n, equals_newInt.mpr (Option.ite_none_right_eq_some.mp hm).1⟩
    | truth i b =>
      rw [matchPattern, ht.int?_resolve, Except.ok.injEq] at hm
      exact ⟨_, .truth i b, equals_newTruth.mpr (Option.ite_none_right_eq_some.mp hm).1⟩
    | string i u =>
      rw [matchPattern] at hm
      split at hm
      · rename_i j u' hj
        split at hm
        · rename_i hu
          exact ⟨_, .string i u, equals_string.mpr ⟨j, hu ▸ ht.eq_of_resolve hj rfl⟩⟩
        · cases hm
      · cases hm
    | var i x =>
      rw [matchPattern] at hm
      cases hm
      obtain ⟨v, hv, heq⟩ := hfits x t (by simp [Dict.get?_cons])
      exact ⟨v, .var i hv, heq⟩
    | variant i tag q =>
      rw [matchPattern] at hm
      split at hm
      · rename_i j tag' v hv
        have htv := ht.eq_of_resolve hv rfl
        subst htv
        split at hm
        · rename_i htag
          subst htag
          obtain ⟨q', hq', heq⟩ := ih q (.head _) v s₀ hp hnames (ht.part (.head _)) hm hfits
          exact ⟨_, .variant i tag hq', equals_newVariant.mpr ⟨j, v, rfl, heq⟩⟩
        · cases hm
      · cases hm
    | list i ps =>
      rw [matchPattern] at hm
      split at hm
      · rename_i j items hitems
        have hfine := ht.resolve
        rw [hitems] at hfine
        obtain ⟨qs, hqs, hall⟩ := sound_items hs ih hp hnames (fun u hu => hfine.part hu) hm fun x _ => hfits x
        exact ⟨_, .list i hqs, (equals_newList ht.isLink_resolve).mpr ⟨j, items, hitems, hall⟩⟩
      · cases hm
    | record i ps =>
      rw [matchPattern] at hm
      split at hm
      · rename_i j fields hfields
        have hfine := ht.resolve
        rw [hfields] at hfine
        obtain ⟨hkeys, hps⟩ := Bool.and_eq_true_iff.mp hp
        obtain ⟨qs, hqs, hfills⟩ := sound_fields hs (fun f hf => ih f.2 (mem_parts_fields hf)) hps (of_decide_eq_true hkeys)
          hnames hfine rfl ⟨hfine _ .root, .nil, nil_subset _⟩ (fun k _ hk => by cases hk) hm fun x _ => hfits x
        exact ⟨_, .record i hqs, (equals_newRecord ht.isLink_resolve).mpr ⟨j, fields, hfields, hfills.length, hfills.equal⟩⟩
      · cases hm
    | _ => cases hp

end Sound

/-! ### From instances to matching -/

section Complete
variable {h : Heap} {s : Env}

/-- If an instance of the pattern equals a term, matching finds what the names stand for. -/
def Complete (h : Heap) (s : Env) (p : Term) : Prop :=
  ∀ t q, p.isPattern = true → t.Fine h → Instance h s p q → Equals h q t →
    ∃ s₀, matchPattern h p t = .ok (some s₀) ∧ Fits h s s₀

theorem Complete.first {p t : Term} {found : Env} (hp : Complete h s p) (hpat : p.isPattern = true) (ht : t.Fine h)
    (hq : Instance h s p q) (heq : Equals h q t) (hfound : Fits h s found) :
    ∃ part, matchPattern h p t = .ok (some part) ∧ Fits h s (found.merge part) := by
  obtain ⟨part, hpart, hfits⟩ := hp t q hpat ht hq heq
  have hproper := ((matchPattern_finds (inherited_fine h) hpat ht).apply hpart).proper .nil
  exact ⟨part, hpart, hfound.merge hproper hfits⟩

theorem complete_items {ps : List Term} (ih : ∀ p ∈ ps, Complete h s p) (hps : arePatterns ps = true) {qs : List Term}
    (hitems : ∀ t ∈ items, t.Fine h) (hqs : InstanceItems h s ps qs) (hall : Forall₂ (Equals h) qs items)
    {found : Env} (hfound : Fits h s found) :
    ∃ s₀, matchItems h ps items found = .ok (some s₀) ∧ Fits h s s₀ := by
  induction ps generalizing items qs found with
  | nil =>
    cases hqs
    cases hall
    exact ⟨found, by rw [matchItems]; rfl, hfound⟩
  | cons p ps ihps =>
    rcases arePatterns_cons hps with ⟨i, x, rfl, rfl⟩ | ⟨hp, hpat, hps⟩
    · cases hqs with
      | cons hq => cases hq
      | rest => exact ⟨found, by rw [matchItems], hfound⟩
      | namedRest _ hx hv =>
        have heq := (equals_to_newList (by rw [hv]; rfl)).mpr ⟨_, _, hv, hall⟩
        exact ⟨_, by rw [matchItems], hfound.set hx heq⟩
    · cases hqs with
      | cons hq hqs =>
        cases hall with
        | cons heq hall =>
          rw [forall_mem_cons] at hitems
          obtain ⟨part, hpart, hfits⟩ := (ih p (.head _)).first hpat hitems.1 hq heq hfound
          obtain ⟨s₀, hm, hs₀⟩ := ihps (fun q hq => ih q (.tail _ hq)) hps hitems.2 hqs hall hfits
          exact ⟨s₀, (matchItems_cons_iff hp).mpr ⟨part, hpart, hm⟩, hs₀⟩
      | rest | namedRest => cases hp

theorem complete_fields {ps : Dict Term} (ih : ∀ p ∈ ps, Complete h s p.2) (hps : areFieldPatterns ps = true)
    {fields qs : Dict Term} (hfields : (Term.record i fields).Fine h) {count : Nat} {seen : List String}
    (hcount : count = ps.length + seen.length) (hseen : Seen fields seen) (hqs : InstanceFields h s ps qs)
    (hfills : Fills h fields seen qs) {found : Env} (hfound : Fits h s found) :
    ∃ s₀, matchFields h ps fields count seen found = .ok (some s₀) ∧ Fits h s s₀ := by
  induction ps generalizing seen qs found with
  | nil =>
    cases hqs
    have hlength : count = fields.length := by
      have hlength := hfills.length
      simp only [length_nil] at hlength hcount
      omega
    exact ⟨found, by rw [matchFields, if_pos hlength], hfound⟩
  | cons f ps ihps =>
    obtain ⟨k, p⟩ := f
    rcases areFieldPatterns_cons hps with ⟨j, x, rfl, rfl⟩ | ⟨hp, hpat, hps⟩
    · cases hqs with
      | cons hq => cases hq
      | rest => exact ⟨found, by rw [matchFields], hfound⟩
      | namedRest _ _ hx hv =>
        have heq := (equals_to_newRecord (by rw [hv]; rfl)).mpr ⟨_, _, hv, (fills_iff hseen).mp hfills⟩
        exact ⟨_, by rw [matchFields], hfound.set hx heq⟩
    · cases hqs with
      | cons hq hqs hk =>
        obtain ⟨hunseen, v, hv, heq, hfills⟩ := hfills.first hk
        have hfine := hfields.part (mem_parts_fields (Dict.mem_of_get? hv))
        obtain ⟨part, hpart, hfits⟩ := (ih (k, p) (.head _)).first hpat hfine hq heq hfound
        obtain ⟨s₀, hm, hs₀⟩ := ihps (fun q hq => ih q (.tail _ hq)) hps
          (by simp only [hcount, length_cons]; omega) (hseen.cons hunseen hv) hqs hfills hfits
        exact ⟨s₀, (matchFields_cons_iff hp).mpr ⟨v, part, hv, hpart, hm⟩, hs₀⟩
      | rest | namedRest => cases hp

theorem complete (p : Term) : Complete h s p := by
  induction p using parts_induction with
  | step p ih =>
    intro t q hp ht hq heq
    cases hq with
    | hole i =>
      obtain ⟨j, rfl⟩ := equals_hole.mp heq
      exact ⟨[], by rw [matchPattern]; rfl, .nil h s⟩
    | int i n =>
      exact ⟨[], by rw [matchPattern, ht.int?_resolve, if_pos (equals_newInt.mp heq)], .nil h s⟩
    | truth i b =>
      exact ⟨[], by rw [matchPattern, ht.int?_resolve, if_pos (equals_newTruth.mp heq)], .nil h s⟩
    | string i u =>
      obtain ⟨j, rfl⟩ := equals_string.mp heq
      refine ⟨[], ?_, .nil h s⟩
      rw [matchPattern]
      exact congrArg Except.ok (if_pos rfl)
    | var i hx =>
      refine ⟨_, by rw [matchPattern], fun y w hw => ?_⟩
      rw [Dict.get?_cons] at hw
      split at hw
      · rename_i hyx
        cases hw
        exact ⟨q, hyx ▸ hx, heq⟩
      · cases hw
    | variant i tag hq =>
      obtain ⟨j, w, rfl, hvalue⟩ := equals_newVariant.mp heq
      obtain ⟨s₀, hm, hfits⟩ := ih _ (.head _) w _ hp (ht.part (.head _)) hq hvalue
      refine ⟨s₀, ?_, hfits⟩
      rw [matchPattern]
      exact (if_pos rfl).trans hm
    | list i hqs =>
      obtain ⟨j, items, hitems, hall⟩ := (equals_newList ht.isLink_resolve).mp heq
      have hfine := ht.resolve
      rw [hitems] at hfine
      obtain ⟨s₀, hm, hfits⟩ := complete_items ih hp (fun u hu => hfine.part hu) hqs hall (.nil h s)
      exact ⟨s₀, by rw [matchPattern, hitems]; exact hm, hfits⟩
    | record i hqs =>
      obtain ⟨j, fields, hfields, hlength, heq⟩ := (equals_newRecord ht.isLink_resolve).mp heq
      have hfine := ht.resolve
      rw [hfields] at hfine
      obtain ⟨s₀, hm, hfits⟩ := complete_fields (fun f hf => ih f.2 (mem_parts_fields hf)) (Bool.and_eq_true_iff.mp hp).2
        hfine rfl ⟨hfine _ .root, .nil, nil_subset _⟩ hqs ⟨hlength, fun k _ hk => (by cases hk), heq⟩ (.nil h s)
      exact ⟨s₀, by rw [matchPattern, hfields]; exact hm, hfits⟩

end Complete

/-! ### Matching is instantiation -/

/-- An environment has a term for each of the names, and for nothing else. -/
structure HasDomain (s : Env) (ns : List String) : Prop where
  proper : s.Proper
  keys : ∀ x, x ∈ s.keys ↔ x ∈ ns

section Main
variable {h : Heap} {s s₀ : Env} {ns : List String}

theorem Extends.hasDomain {Q : Term → Prop} (hs : Extends Q [] ns s) : HasDomain s ns where
  proper := hs.proper .nil
  keys x := by simp [hs.keys]

theorem fits_iff (hs : s.Proper) (hs₀ : HasDomain s₀ ns) :
    HasDomain s ns ∧ Fits h s s₀ ↔ s.length = s₀.length ∧ FieldsEqual h s s₀ := by
  have hlength (d : Env) : d.length = d.keys.length := (length_map _).symm
  constructor
  · rintro ⟨hdomain, hfits⟩
    have hkeys : s.keys.Perm s₀.keys :=
      (perm_ext_iff_of_nodup hs hs₀.proper).mpr fun x => (hdomain.keys x).trans (hs₀.keys x).symm
    refine ⟨by rw [hlength, hlength, hkeys.length_eq], fun p hp => ?_⟩
    obtain ⟨w, hw⟩ := Option.isSome_iff_exists.mp (Dict.get?_isSome_iff.mpr (hkeys.subset (mem_map_of_mem hp)))
    obtain ⟨v, hv, heq⟩ := hfits p.1 w hw
    cases (Dict.get?_of_mem hs hp).symm.trans hv
    exact ⟨w, hw, heq⟩
  · rintro ⟨hsize, heq⟩
    have hsub : s.keys ⊆ s₀.keys := by
      intro x hx
      obtain ⟨p, hp, rfl⟩ := mem_map.mp hx
      obtain ⟨w, hw, -⟩ := heq p hp
      exact Dict.get?_isSome_iff.mp (by rw [hw]; rfl)
    have hkeys : s.keys.Perm s₀.keys :=
      (Nodup.subperm hs hsub).perm_of_length_le (by rw [← hlength, ← hlength]; omega)
    refine ⟨⟨hs, fun x => hkeys.mem_iff.trans (hs₀.keys x)⟩, fun x w hw => ?_⟩
    have hx : x ∈ s.keys := hkeys.symm.subset (Dict.get?_isSome_iff.mp (by rw [hw]; rfl))
    obtain ⟨p, hp, rfl⟩ := mem_map.mp hx
    obtain ⟨w', hw', hpw⟩ := heq p hp
    cases hw.symm.trans hw'
    exact ⟨p.2, Dict.get?_of_mem hs hp, hpw⟩

end Main

/-- Matching is instantiation. It returns for every pattern and every term, and what it finds has the free variables of the
pattern as its domain. If no name occurs twice, it finds an environment, up to equality of maps, if and only if that has
this domain and an instance of the pattern with it equals the term; and it finds nothing if and only if there is no such
environment. -/
theorem matchPattern_iff_instance {p : Term} (hp : p.isPattern = true) (h : Heap) :
    ∃ ns, p.freeVars = .ok ns ∧
      (∀ t, ∃ r, matchPattern h p t = .ok r ∧ ∀ s, r = some s → HasDomain s ns) ∧
      (ns.Nodup → ∀ t, t.Fine h →
        (∀ s : Env, s.Proper → (∀ f ∈ s, f.2.Fine h) →
          ((∃ s₀, matchPattern h p t = .ok (some s₀) ∧ s.length = s₀.length ∧ FieldsEqual h s s₀) ↔
            HasDomain s ns ∧ ∃ q, Instance h s p q ∧ Equals h q t)) ∧
        (matchPattern h p t = .ok none ↔
          ¬∃ s : Env, (∀ f ∈ s, f.2.Fine h) ∧ HasDomain s ns ∧ ∃ q, Instance h s p q ∧ Equals h q t)) := by
  refine ⟨p.names, freeVars_eq_names hp, fun t => ?_, fun hnames t ht => ?_⟩
  · exact (matchPattern_finds (inherited_true h) hp trivial).imp fun s hs => hs.hasDomain
  · have hfinds := matchPattern_finds (inherited_fine h) hp ht
    refine ⟨fun s hs hfine => ⟨?_, ?_⟩, ?_⟩
    · rintro ⟨s₀, hm, hequal⟩
      obtain ⟨hdomain, hfits⟩ := (fits_iff hs (hfinds.apply hm).hasDomain).mpr hequal
      exact ⟨hdomain, sound hfine p t s₀ hp hnames ht hm hfits⟩
    · rintro ⟨hdomain, q, hq, heq⟩
      obtain ⟨s₀, hm, hfits⟩ := complete p t q hp ht hq heq
      exact ⟨s₀, hm, (fits_iff hs (hfinds.apply hm).hasDomain).mp ⟨hdomain, hfits⟩⟩
    · obtain ⟨r, hr, hext⟩ := hfinds
      rw [hr]
      cases r with
      | none =>
        refine ⟨fun _ => ?_, fun _ => rfl⟩
        rintro ⟨s, -, -, q, hq, heq⟩
        obtain ⟨s₀, hm, -⟩ := complete p t q hp ht hq heq
        cases hr.symm.trans hm
      | some s₀ =>
        have hs₀ := hext s₀ rfl
        have hfine := hs₀.values fun f hf => by cases hf
        refine ⟨fun hnone => (by cases hnone), fun hno => absurd ⟨s₀, hfine, hs₀.hasDomain, ?_⟩ hno⟩
        exact sound hfine p t s₀ hp hnames ht hr fun x w hw => ⟨w, hw, .refl (hfine _ (Dict.mem_of_get? hw))⟩

/-- The pattern `{a = [x, ...xs], ...}`. -/
def headOfField : Term :=
  .record 0 [("a", .list 0 [.var 0 "x", .spread 0 (some "xs")]), ("...", .spread 0 none)]

/-- The record `{b = (), a = ["s", "t"]}`. -/
def twoFields : Term := .record 0 [("b", .hole 0), ("a", .list 0 [.string 0 "s", .string 0 "t"])]

theorem fine_string (h : Heap) (i : Nat) (t : String) : (Term.string i t).Fine h :=
  fine_of_parts rfl trivial fun u hu => by cases hu

theorem twoFields_fine : twoFields.Fine {} := by
  have hproper : Dict.keys [("b", Term.hole 0), ("a", .list 0 [.string 0 "s", .string 0 "t"])] = ["b", "a"] := rfl
  refine fine_of_parts rfl ?_ fun u hu => ?_
  · show Nodup _
    rw [hproper]
    decide
  · rcases mem_pair.mp hu with rfl | rfl
    · exact fine_of_parts rfl trivial fun u hu => by cases hu
    · refine fine_of_parts rfl trivial fun u hu => ?_
      rcases mem_pair.mp hu with rfl | rfl <;> exact fine_string _ _ _

def headAndRest : Env := [("x", .string 0 "s"), ("xs", .list 0 [.string 0 "t"])]

theorem headOfField_instance :
    matchPattern {} headOfField twoFields = .ok (some headAndRest) ∧
      ∃ q, Instance {} headAndRest headOfField q ∧ Equals {} q twoFields := by
  have hm : matchPattern {} headOfField twoFields = .ok (some headAndRest) := by
    simp [headOfField, twoFields, headAndRest, matchPattern, matchFields, matchItems, Heap.resolve, Dict.get?_cons, Dict.set,
      Dict.merge]
  have hproper : headAndRest.Proper := by
    show ["x", "xs"].Nodup
    decide
  have hfine : ∀ f ∈ headAndRest, f.2.Fine {} := by
    intro f hf
    rcases mem_pair.mp hf with rfl | rfl
    · exact fine_string _ _ _
    · exact fine_of_parts rfl trivial fun u hu => mem_singleton.mp hu ▸ fine_string _ _ _
  obtain ⟨ns, hns, -, h⟩ := matchPattern_iff_instance (p := headOfField) (by decide) {}
  have hvars : headOfField.freeVars = .ok ["x", "xs"] := rfl
  cases hvars.symm.trans hns
  obtain ⟨hiff, -⟩ := h (by decide) twoFields twoFields_fine
  refine ⟨hm, ((hiff headAndRest hproper hfine).mp ⟨headAndRest, hm, rfl, fun f hf => ?_⟩).2⟩
  exact ⟨f.2, Dict.get?_of_mem hproper hf, .refl (hfine f hf)⟩

end Scrap.Term
