import Scrap.Proofs.Types.Forwarding
import Mathlib.Data.List.Perm.Lattice
import Mathlib.Data.String.Basic

/-! # Resolving types

A type resolves to the tree with every bound variable replaced by what it stands for and every row by the table of its
fields. Two types agree in a store if their trees, cut at a depth, are alike at every depth. Once the trees are whole,
any later binding keeps this. -/

namespace Scrap

open List Dict

variable {as : List Ty} {a b u v : Ty} {α β : Type} {s : TypeStore}

/-- A type as it is once all variables are followed: `tail` is the variable that an open row ends in, and `cut` stands
where the walk did not go on. -/
inductive Resolved where
  | var (index : Nat)
  | con (name : String) (args : List Resolved)
  | row (fields : List (String × Resolved)) (tail : Option Nat)
  | emptyRow
  | bare
  | cut
deriving Repr

namespace Resolved

mutual

def isWhole : Resolved → Bool
  | .con _ args => areWhole args
  | .row fields _ => fieldsWhole fields
  | .cut => false
  | .var _ | .emptyRow | .bare => true

def areWhole : List Resolved → Bool
  | [] => true
  | r :: rs => isWhole r && areWhole rs

def fieldsWhole : List (String × Resolved) → Bool
  | [] => true
  | (_, r) :: fs => isWhole r && fieldsWhole fs

end

theorem areWhole_iff {rs : List Resolved} : areWhole rs = true ↔ ∀ r ∈ rs, r.isWhole = true := by
  rw [eq_all (F := areWhole) rfl fun _ _ => rfl, all_eq_true]

theorem fieldsWhole_iff {fs : List (String × Resolved)} : fieldsWhole fs = true ↔ ∀ p ∈ fs, p.2.isWhole = true := by
  rw [eq_all (F := fieldsWhole) rfl fun _ _ => rfl, all_eq_true]

end Resolved

namespace Ty

mutual

def tails : Ty → List Ty
  | .con _ args => tailsAll args
  | .row fields rest => rest :: tailsFields fields ++ tails rest
  | .var _ | .emptyRow | .bare => []

def tailsAll : List Ty → List Ty
  | [] => []
  | t :: ts => tails t ++ tailsAll ts

def tailsFields : List (String × Ty) → List Ty
  | [] => []
  | (_, t) :: fs => tails t ++ tailsFields fs

end

theorem mem_tailsAll {ts : List Ty} {r : Ty} : r ∈ tailsAll ts ↔ ∃ t ∈ ts, r ∈ t.tails := by
  rw [eq_flatMap (F := tailsAll) rfl fun _ _ => rfl, mem_flatMap]

theorem mem_tailsFields {fs : List (String × Ty)} {r : Ty} : r ∈ tailsFields fs ↔ ∃ p ∈ fs, r ∈ p.2.tails := by
  rw [eq_flatMap (F := tailsFields) rfl fun _ _ => rfl, mem_flatMap]

theorem tails_of_part {t r : Ty} (h : u ∈ t.parts) (hr : r ∈ u.tails) : r ∈ t.tails := by
  cases t with
  | con name args => exact mem_tailsAll.mpr ⟨u, h, hr⟩
  | row fields rest =>
    rw [tails]
    rcases mem_cons.mp h with rfl | h
    · exact mem_append_right _ hr
    · obtain ⟨p, hp, rfl⟩ := mem_map.mp h
      exact mem_append_left _ (.tail _ (mem_tailsFields.mpr ⟨p, hp, hr⟩))
  | var | emptyRow | bare => simp [parts] at h

end Ty

namespace TypeStore

variable {n m : Nat} {fields fs fields' : Dict Ty} {z rest' : Ty} {e : TypingError}

/-- The variable that a flattened row ends in, if it is open. -/
def tailVar? : Ty → Option Nat
  | .var i => some i
  | _ => none

/-- The tree of a type, cut at a depth. -/
def expand (s : TypeStore) : Nat → Ty → Resolved
  | 0, _ => .cut
  | n + 1, t =>
    match s.find t with
    | .var i => .var i
    | .con name args => .con name (args.map (expand s n))
    | .row fields rest =>
      match s.flatten (.row fields rest) with
      | .ok (flat, tail) => .row ((inKeyOrder flat).map fun p => (p.1, expand s n p.2)) (tailVar? tail)
      | .error _ => .cut
    | .emptyRow => .emptyRow
    | .bare => .bare

/-- What a type resolves to, if every row in it has a table of fields. -/
def resolve (s : TypeStore) (t : Ty) : Option Resolved :=
  let r := s.expand (s.weight t) t
  if r.isWhole then some r else none

/-- Two types have the same tree at every depth. -/
def Agree (s : TypeStore) (a b : Ty) : Prop := ∀ n, s.expand n a = s.expand n b

/-! ### Tables in the order of their keys -/

section KeyOrder
variable {d : Dict α}

theorem inKeyOrder_perm (d : Dict α) : (inKeyOrder d).Perm d := mergeSort_perm _ _

theorem mem_inKeyOrder {p : String × α} : p ∈ inKeyOrder d ↔ p ∈ d := (inKeyOrder_perm d).mem_iff

theorem inKeyOrder_sorted (d : Dict α) : (inKeyOrder d).Pairwise fun p q => p.1 ≤ q.1 := by
  have h : (inKeyOrder d).Pairwise fun p q => decide (p.1 ≤ q.1) = true :=
    pairwise_mergeSort (fun a b c hab hbc => by simpa using le_trans (of_decide_eq_true hab) (of_decide_eq_true hbc))
      (fun a b => by simpa using le_total a.1 b.1) d
  exact h.imp fun hpq => of_decide_eq_true hpq

theorem inKeyOrder_mapValues (f : α → β) (d : Dict α) :
    inKeyOrder (d.mapValues f) = (inKeyOrder d).map fun p => (p.1, f p.2) := by
  rw [inKeyOrder, inKeyOrder, Dict.mapValues, map_mergeSort]
  intro a _ b _
  rfl

theorem nodup_of_proper (h : d.Proper) : d.Nodup := Nodup.of_map _ h

theorem get?_eq_some_iff (h : d.Proper) {k : String} {v : α} : d.get? k = some v ↔ (k, v) ∈ d :=
  ⟨mem_of_get?, get?_of_mem h⟩

theorem inKeyOrder_eq_iff {e : Dict α} (hd : d.Proper) (he : e.Proper) :
    inKeyOrder d = inKeyOrder e ↔ ∀ k, d.get? k = e.get? k := by
  constructor
  · intro h k
    ext v
    rw [get?_eq_some_iff hd, get?_eq_some_iff he, ← mem_inKeyOrder, h, mem_inKeyOrder]
  · intro h
    have hmem : ∀ p, p ∈ d ↔ p ∈ e := fun p => by rw [← get?_eq_some_iff hd, h, get?_eq_some_iff he]
    have hperm : d.Perm e := (perm_ext_iff_of_nodup (nodup_of_proper hd) (nodup_of_proper he)).mpr hmem
    refine Perm.eq_of_pairwise ?_ (inKeyOrder_sorted d) (inKeyOrder_sorted e)
      ((inKeyOrder_perm d).trans (hperm.trans (inKeyOrder_perm e).symm))
    rintro ⟨k, v⟩ ⟨k', v'⟩ hp hq hle hge
    obtain rfl : k = k' := le_antisymm hle hge
    rw [mem_inKeyOrder, ← get?_eq_some_iff hd] at hp
    rw [mem_inKeyOrder, ← get?_eq_some_iff he, ← h, hp] at hq
    rw [Option.some.inj hq]

end KeyOrder

/-! ### Tables of rows -/

/-- What `flatten` returns: the table of a row and the variable or the empty row that it ends in. -/
inductive Flat (s : TypeStore) : Ty → Dict Ty → Ty → Prop
  | ends {u z : Ty} (h : s.find u = z) (hz : z = .emptyRow ∨ ∃ i, z = .var i) : Flat s u [] z
  | row {u z rest : Ty} {fields fs : Dict Ty} (h : s.find u = .row fields rest) (hr : Flat s rest fs z) :
    Flat s u (fs.merge fields) z

section Tables
variable {t : TypeStore} {z : Ty} {fs : Dict Ty}

theorem flat_of_flattenWithin (h : s.flattenWithin n u = .ok (fs, z)) : s.Flat u fs z := by
  induction n generalizing u fs with
  | zero => cases h
  | succ n ih =>
    rw [flattenWithin] at h
    cases hu : s.find u with
    | row fields rest =>
      simp only [hu] at h
      cases hr : s.flattenWithin n rest with
      | error e =>
        rw [hr] at h
        cases h
      | ok p =>
        rw [hr] at h
        cases h
        exact .row hu (ih hr)
    | var i =>
      simp only [hu] at h
      cases h
      exact .ends hu (.inr ⟨i, rfl⟩)
    | emptyRow =>
      simp only [hu] at h
      cases h
      exact .ends hu (.inl rfl)
    | con | bare =>
      simp only [hu] at h
      cases h

theorem flat_of_flatten (h : s.flatten u = .ok (fs, z)) : s.Flat u fs z := flat_of_flattenWithin h

theorem Flat.proper (h : s.Flat u fs z) : fs.Proper := by
  induction h with
  | ends => exact Dict.Proper.nil
  | row _ _ ih => exact ih.merge _

theorem Flat.tail (h : s.Flat u fs z) : z = .emptyRow ∨ ∃ i, z = .var i := by
  induction h with
  | ends _ hz => exact hz
  | row _ _ ih => exact ih

theorem Flat.tail_eq {w : Ty} {gs : Dict Ty} (h : s.Flat u fs z) (h' : t.Flat v gs w)
    (hzw : tailVar? z = tailVar? w) : z = w := by
  rcases h.tail with rfl | ⟨i, rfl⟩ <;> rcases h'.tail with rfl | ⟨j, rfl⟩ <;> simp_all [tailVar?]

theorem Flat.scopes (h : s.Flat u fs z) (hs : s.Chained) (hu : s.Scopes u) : s.Scopes z ∧ ∀ p ∈ fs, s.Scopes p.2 := by
  induction h with
  | ends h _ => exact ⟨h ▸ hs.scopes_find hu, by simp⟩
  | row h _ ih =>
    have hrow := hs.scopes_find hu
    rw [h] at hrow
    obtain ⟨hz, hfs⟩ := ih (hrow.part (by simp [Ty.parts]))
    refine ⟨hz, fun p hp => ?_⟩
    rcases mem_merge hp with hp | hp
    · exact hfs p hp
    · exact hrow.part (.tail _ (mem_map_of_mem hp))

theorem Flat.extent_lt (h : s.Flat u fs z) (hs : s.Settled) : ∀ p ∈ fs, s.extent p.2 < s.extent u := by
  induction h with
  | ends => simp
  | @row u z rest fields fs h _ ih =>
    intro p hp
    rcases mem_merge hp with hp | hp
    · exact (ih p hp).trans (hs.extent_rest_lt h)
    · exact hs.extent_found_lt (h ▸ .tail _ (mem_map_of_mem hp))

end Tables

/-! ### Trees -/

theorem Settled.expand_row (hs : s.Settled) {rest : Ty} (h : s.find a = .row fields rest)
    (hf : s.flatten a = .ok (fs, z)) (n : Nat) :
    s.expand (n + 1) a = .row (inKeyOrder (fs.mapValues (s.expand n))) (tailVar? z) := by
  rw [← hs.flatten_find, h] at hf
  simp only [expand, h, hf, inKeyOrder_mapValues]

theorem Settled.expand_stuck (hs : s.Settled) {rest : Ty}
    (h : s.find a = .row fields rest) (hf : s.flatten a = .error e) (n : Nat) : s.expand (n + 1) a = .cut := by
  rw [← hs.flatten_find, h] at hf
  simp only [expand, h, hf]

/-- The ways in which two types can have equal trees. -/
inductive Alike (s : TypeStore) (n m : Nat) (a b : Ty) : Prop
  | found (h : s.find a = s.find b)
  | con (name : String) (as bs : List Ty) (ha : s.find a = .con name as) (hb : s.find b = .con name bs)
    (h : as.map (s.expand n) = bs.map (s.expand m))
  | row (fields fields' fs gs : Dict Ty) (rest rest' z : Ty) (ha : s.find a = .row fields rest)
    (hb : s.find b = .row fields' rest') (hfs : s.flatten a = .ok (fs, z)) (hgs : s.flatten b = .ok (gs, z))
    (h : ∀ k, (fs.get? k).map (s.expand n) = (gs.get? k).map (s.expand m))
  | stuck (fields fields' : Dict Ty) (rest rest' : Ty) (e e' : TypingError) (ha : s.find a = .row fields rest)
    (hb : s.find b = .row fields' rest') (hfs : s.flatten a = .error e) (hgs : s.flatten b = .error e')

theorem Settled.alike (hs : s.Settled) (h : s.expand (n + 1) a = s.expand (m + 1) b) : s.Alike n m a b := by
  cases ha : s.find a with
  | row fields rest =>
    cases hb : s.find b with
    | row fields' rest' =>
      cases hfs : s.flatten a with
      | error e =>
        cases hgs : s.flatten b with
        | error e' => exact .stuck _ _ _ _ _ _ ha hb hfs hgs
        | ok q =>
          rw [hs.expand_stuck ha hfs, hs.expand_row hb hgs] at h
          cases h
      | ok p =>
        obtain ⟨fs, z⟩ := p
        cases hgs : s.flatten b with
        | error e' =>
          rw [hs.expand_row ha hfs, hs.expand_stuck hb hgs] at h
          cases h
        | ok q =>
          obtain ⟨gs, w⟩ := q
          rw [hs.expand_row ha hfs, hs.expand_row hb hgs] at h
          injection h with hfields htail
          have hf := flat_of_flatten hfs
          have hg := flat_of_flatten hgs
          cases hf.tail_eq hg htail
          refine .row _ _ fs gs _ _ z ha hb hfs hgs fun k => ?_
          have hk := (inKeyOrder_eq_iff (hf.proper.mapValues _) (hg.proper.mapValues _)).mp hfields k
          rwa [get?_mapValues, get?_mapValues] at hk
    | var | con | emptyRow | bare =>
      simp only [expand, ha, hb] at h
      split at h <;> cases h
  | con name as =>
    cases hb : s.find b with
    | con name' bs =>
      simp only [expand, ha, hb] at h
      injection h with hname hargs
      subst hname
      exact .con name as bs ha hb hargs
    | row =>
      simp only [expand, ha, hb] at h
      split at h <;> cases h
    | var | emptyRow | bare =>
      simp only [expand, ha, hb] at h
      cases h
  | var | emptyRow | bare =>
    refine .found ?_
    cases hb : s.find b with
    | row =>
      simp only [expand, ha, hb] at h
      split at h <;> cases h
    | var | con | emptyRow | bare => simp_all [expand]

theorem expand_mono (hnm : n ≤ m) (h : (s.expand n a).isWhole = true) : s.expand m a = s.expand n a := by
  induction n generalizing a m with
  | zero => cases h
  | succ n ih =>
    obtain _ | m := m
    · omega
    have ih : ∀ {u}, (s.expand n u).isWhole = true → s.expand m u = s.expand n u := fun hu => ih (by omega) hu
    cases ha : s.find a with
    | con name as =>
      simp only [expand, ha, Resolved.isWhole, Resolved.areWhole_iff] at h ⊢
      congr 1
      exact map_congr_left fun u hu => ih (h _ (mem_map_of_mem hu))
    | row fields rest =>
      cases hfs : s.flatten (.row fields rest) with
      | error e => simp [expand, ha, hfs, Resolved.isWhole] at h
      | ok p =>
        simp only [expand, ha, hfs, Resolved.isWhole, Resolved.fieldsWhole_iff] at h ⊢
        congr 1
        refine map_congr_left fun p hp => ?_
        rw [ih (h _ (mem_map_of_mem hp))]
    | var | emptyRow | bare => simp only [expand, ha]

/-! ### Agreement -/

section Agreement
variable {c : Ty} {name : String}

theorem Agree.symm (h : s.Agree a b) : s.Agree b a := fun n => (h n).symm

theorem Agree.trans (h : s.Agree a b) (h' : s.Agree b c) : s.Agree a c := fun n => (h n).trans (h' n)

theorem agree_of_find_eq (h : s.find a = s.find b) : s.Agree a b
  | 0 => rfl
  | n + 1 => by simp only [expand, h]

theorem map_eq_map_iff {γ : Type} {f : α → γ} {g : β → γ} {as : List α} {bs : List β} :
    as.map f = bs.map g ↔ Forall₂ (fun a b => f a = g b) as bs := by
  rw [← forall₂_eq_eq_eq, forall₂_map_left_iff, forall₂_map_right_iff]

theorem agree_of_con {bs : List Ty} (ha : s.find a = .con name as) (hb : s.find b = .con name bs)
    (h : Forall₂ s.Agree as bs) : s.Agree a b := by
  rintro (_ | n)
  · rfl
  · have hmap : as.map (s.expand n) = bs.map (s.expand n) := map_eq_map_iff.mpr (h.imp fun _ _ hab => hab n)
    simp only [expand, ha, hb, hmap]

def TablesAgree (s : TypeStore) (fs gs : Dict Ty) : Prop :=
  ∀ n k, (fs.get? k).map (s.expand n) = (gs.get? k).map (s.expand n)

theorem flatten_of_con (h : s.find a = .con name as) : ∃ e, s.flatten a = .error e := by
  rw [flatten, weight_eq, Nat.add_right_comm, flattenWithin, h]
  exact ⟨_, rfl⟩

theorem Settled.flatten_of_agree (hs : s.Settled) (h : s.Agree a b)
    (ha : s.flatten a = .ok (fs, z)) : ∃ gs, s.flatten b = .ok (gs, z) ∧ s.TablesAgree fs gs := by
  cases hs.alike (h 1) with
  | found hab =>
    rw [← hs.flatten_find, ← hab, hs.flatten_find]
    exact ⟨fs, ha, fun _ _ => rfl⟩
  | con name as bs hfa =>
    obtain ⟨e, he⟩ := flatten_of_con hfa
    rw [he] at ha
    cases ha
  | stuck _ _ _ _ e _ _ _ hfs =>
    rw [hfs] at ha
    cases ha
  | row _ _ fs' gs _ _ z' hfa _ hfs hgs =>
    rw [hfs] at ha
    cases ha
    refine ⟨gs, hgs, fun n k => ?_⟩
    -- The tables are the same at every depth, and each depth compares their values at that depth.
    cases hs.alike (h (n + 1)) with
    | found hab =>
      rw [← hs.flatten_find, hab, hs.flatten_find, hgs] at hfs
      cases hfs
      rfl
    | con _ _ _ hcon =>
      rw [hfa] at hcon
      cases hcon
    | stuck _ _ _ _ _ _ _ _ herr =>
      rw [hfs] at herr
      cases herr
    | row _ _ _ _ _ _ _ _ _ hfs' hgs' hk =>
      rw [hfs] at hfs'
      rw [hgs] at hgs'
      cases hfs'
      cases hgs'
      exact hk k

end Agreement

/-! ### Rows over rows -/

/-- The table of `a` is that of `r` with the fields `fs` over it. -/
structure Over (s : TypeStore) (a : Ty) (fs : Dict Ty) (r : Ty) : Prop where
  table : ∀ hs z, s.flatten r = .ok (hs, z) → ∃ gs, s.flatten a = .ok (gs, z) ∧
    ∀ n k, (gs.get? k).map (s.expand n) = ((fs.get? k).or (hs.get? k)).map (s.expand n)
  stuck : ∀ e, s.flatten r = .error e → ∃ e', s.flatten a = .error e'

section Rows
variable {t : TypeStore} {r z : Ty} {fs gs : Dict Ty}

theorem Over.refl (s : TypeStore) (a : Ty) : s.Over a [] a where
  table hs _ h := ⟨hs, h, fun _ _ => by simp⟩
  stuck e h := ⟨e, h⟩

theorem Settled.over_row (hs : s.Settled) (fields : Dict Ty) (rest : Ty) :
    s.Over (.row fields rest) (Dict.ofEntries fields) rest where
  table gs z h := by
    rw [hs.flatten_of_row (find_of_not_var rfl), h]
    exact ⟨_, rfl, fun n k => by rw [get?_merge_ofEntries]⟩
  stuck e h := by
    rw [hs.flatten_of_row (find_of_not_var rfl), h]
    exact ⟨e, rfl⟩

theorem Settled.over_of_agree (hs : s.Settled) (h : s.Agree a b) (hb : s.Over b fs r) : s.Over a fs r where
  table hs' z hr := by
    obtain ⟨gs, hgs, hk⟩ := hb.table hs' z hr
    obtain ⟨gs', hgs', hk'⟩ := hs.flatten_of_agree h.symm hgs
    exact ⟨gs', hgs', fun n k => (hk' n k).symm.trans (hk n k)⟩
  stuck e hr := by
    obtain ⟨e', he'⟩ := hb.stuck e hr
    cases ha : s.flatten a with
    | error e'' => exact ⟨e'', rfl⟩
    | ok p =>
      obtain ⟨gs, hgs, _⟩ := hs.flatten_of_agree h ha
      rw [he'] at hgs
      cases hgs

/-- The table that a row has in an earlier store stands over what its tail has become. -/
theorem Flat.over_tail (h : s.Flat a fs z) (hs : s.Chained) (ht : t.Settled) (hts : t.Extends s) : t.Over a fs z := by
  induction h with
  | @ends u z h _ =>
    refine ht.over_of_agree (agree_of_find_eq ?_) (Over.refl t z)
    rw [← h, ht.chained.find_find hs hts]
  | @row u z rest fields fs h _ ih =>
    have hu : t.Agree u (.row fields rest) := agree_of_find_eq (by rw [← h, ht.chained.find_find hs hts])
    refine ht.over_of_agree hu ⟨fun hs' w hz => ?_, fun e hz => ?_⟩
    · obtain ⟨gs, hgs, hk⟩ := ih.table hs' w hz
      obtain ⟨gs', hgs', hk'⟩ := (ht.over_row fields rest).table gs w hgs
      refine ⟨gs', hgs', fun n k => ?_⟩
      simp only [hk', hk, get?_merge_ofEntries, Option.or_assoc, Option.map_or]
    · obtain ⟨e', he'⟩ := ih.stuck e hz
      exact (ht.over_row fields rest).stuck e' he'

theorem Settled.agree_of_over (hs : s.Settled) {q : Ty} {ls ms : Dict Ty} {rest : Ty}
    (ha : s.find a = .row fields rest) (hb : s.find b = .row fields' rest') (har : s.Over a fs r) (hrz : s.Over r ls z)
    (hbq : s.Over b gs q) (hqz : s.Over q ms z)
    (h : ∀ n k, ((fs.get? k).or (ls.get? k)).map (s.expand n) = ((gs.get? k).or (ms.get? k)).map (s.expand n)) :
    s.Agree a b := by
  cases hz : s.flatten z with
  | error e =>
    obtain ⟨e1, h1⟩ := hrz.stuck e hz
    obtain ⟨e2, h2⟩ := hqz.stuck e hz
    obtain ⟨e3, h3⟩ := har.stuck e1 h1
    obtain ⟨e4, h4⟩ := hbq.stuck e2 h2
    rintro (_ | n)
    · rfl
    · rw [hs.expand_stuck ha h3, hs.expand_stuck hb h4]
  | ok p =>
    obtain ⟨zs, w⟩ := p
    obtain ⟨rs, h1, hr⟩ := hrz.table zs w hz
    obtain ⟨qs, h2, hq⟩ := hqz.table zs w hz
    obtain ⟨as, h3, has⟩ := har.table rs w h1
    obtain ⟨bs, h4, hbs⟩ := hbq.table qs w h2
    rintro (_ | n)
    · rfl
    rw [hs.expand_row ha h3, hs.expand_row hb h4]
    congr 1
    refine (inKeyOrder_eq_iff ((flat_of_flatten h3).proper.mapValues _) ((flat_of_flatten h4).proper.mapValues _)).mpr
      fun k => ?_
    rw [get?_mapValues, get?_mapValues]
    calc (as.get? k).map (s.expand n)
      _ = ((fs.get? k).or ((ls.get? k).or (zs.get? k))).map (s.expand n) := by
        simp only [has, hr, Option.map_or]
      _ = ((gs.get? k).or ((ms.get? k).or (zs.get? k))).map (s.expand n) := by
        rw [← Option.or_assoc, ← Option.or_assoc, Option.map_or, h, ← Option.map_or]
      _ = (bs.get? k).map (s.expand n) := by
        simp only [hbs, hq, Option.map_or]

end Rows

/-! ### Agreement is kept -/

section Kept
variable {t : TypeStore}

theorem whole_of_get? {k : String} (hw : Resolved.fieldsWhole (inKeyOrder (fs.mapValues (s.expand n))) = true)
    (hu : fs.get? k = some u) : (s.expand n u).isWhole = true := by
  have hmem : (k, s.expand n u) ∈ fs.mapValues (s.expand n) :=
    mem_of_get? (by rw [get?_mapValues, hu, Option.map_some])
  exact Resolved.fieldsWhole_iff.mp hw _ (mem_inKeyOrder.mpr hmem)

/-- Types with equal whole trees agree in every store that this one grows into. -/
theorem Settled.agree_of_whole (hs : s.Settled) (ht : t.Settled) (hts : t.Extends s)
    (hw : (s.expand n u).isWhole = true) (h : s.expand n u = s.expand m v) : t.Agree u v := by
  have later : ∀ w, t.find w = t.find (s.find w) := fun w => (ht.chained.find_find hs.chained hts w).symm
  induction n generalizing m u v with
  | zero => cases hw
  | succ n ih =>
    obtain _ | m := m
    · rw [h] at hw
      cases hw
    cases hs.alike h with
    | found huv => exact agree_of_find_eq (by rw [later u, later v, huv])
    | con name as bs hu hv hargs =>
      simp only [expand, hu, Resolved.isWhole, Resolved.areWhole_iff, forall_mem_map] at hw
      refine agree_of_con ((later u).trans (by rw [hu]; rfl)) ((later v).trans (by rw [hv]; rfl)) ?_
      exact ((forall₂_and_left _ _).mpr ⟨hw, map_eq_map_iff.mp hargs⟩).imp fun a b hab => ih hab.1 hab.2
    | stuck fields _ rest _ e _ hu _ hfs =>
      rw [hs.expand_stuck hu hfs] at hw
      cases hw
    | row fields fields' fs gs rest rest' z hu hv hfs hgs hk =>
      rw [hs.expand_row hu hfs, Resolved.isWhole] at hw
      have hfu : t.find u = .row fields rest := (later u).trans (by rw [hu]; rfl)
      have hfv : t.find v = .row fields' rest' := (later v).trans (by rw [hv]; rfl)
      refine ht.agree_of_over hfu hfv ((flat_of_flatten hfs).over_tail hs.chained ht hts) (Over.refl t z)
        ((flat_of_flatten hgs).over_tail hs.chained ht hts) (Over.refl t z) fun d k => ?_
      rw [get?_nil, Option.or_none, Option.or_none]
      have hk := hk k
      cases hfk : fs.get? k with
      | none =>
        rw [hfk, Option.map_none, eq_comm, Option.map_eq_none_iff] at hk
        rw [hk]
      | some a =>
        rw [hfk, Option.map_some, eq_comm, Option.map_eq_some_iff] at hk
        obtain ⟨b, hb, hab⟩ := hk
        rw [hb, Option.map_some, Option.map_some, ih (whole_of_get? hw hfk) hab.symm d]

end Kept

/-! ### Types that resolve -/

def isRowEnd : Ty → Bool
  | .var _ | .row _ _ | .emptyRow => true
  | .con _ _ | .bare => false

/-- Every row in a type goes on with a variable, a row or the empty row. -/
def RowsEnd (s : TypeStore) (t : Ty) : Prop := ∀ r ∈ t.tails, isRowEnd (s.find r) = true

/-- Every row in the types of the store goes on with a variable, a row or the empty row. -/
def AllRowsEnd (s : TypeStore) : Prop := ∀ i t, s.bound? i = some t → s.RowsEnd t

theorem RowsEnd.part (h : s.RowsEnd u) (hv : v ∈ u.parts) : s.RowsEnd v := fun r hr => h r (Ty.tails_of_part hv hr)

theorem RowsEnd.rest {rest : Ty} (h : s.RowsEnd (.row fields rest)) : isRowEnd (s.find rest) = true :=
  h rest (by simp [Ty.tails])

theorem Chained.rowsEnd_find (hs : s.Chained) (hr : s.AllRowsEnd) (h : s.RowsEnd u) : s.RowsEnd (s.find u) :=
  hs.find_keeps (fun i v hi _ => hr i v hi) h

theorem Settled.flatten_of_rowsEnd (hs : s.Settled) (hr : s.AllRowsEnd) (h : s.RowsEnd u)
    (hu : isRowEnd (s.find u) = true) : ∃ fs z, s.flatten u = .ok (fs, z) ∧ ∀ p ∈ fs, s.RowsEnd p.2 := by
  induction hn : s.extent u using Nat.strong_induction_on generalizing u with
  | _ n ih =>
    have hf := hs.chained.rowsEnd_find hr h
    cases hfu : s.find u with
    | var i => exact ⟨[], _, flatten_of_var hfu, by simp⟩
    | emptyRow => exact ⟨[], _, flatten_of_emptyRow hfu, by simp⟩
    | con | bare =>
      rw [hfu] at hu
      cases hu
    | row fields rest =>
      rw [hfu] at hf
      have hlt := hs.extent_rest_lt hfu
      obtain ⟨fs, z, hfs, hin⟩ := ih (s.extent rest) (by omega) (hf.part (by simp [Ty.parts])) hf.rest rfl
      refine ⟨fs.merge fields, z, by rw [hs.flatten_of_row hfu, hfs]; rfl, fun p hp => ?_⟩
      rcases mem_merge hp with hp | hp
      · exact hin p hp
      · exact hf.part (.tail _ (mem_map_of_mem hp))

theorem Settled.expand_whole (hs : s.Settled) (hr : s.AllRowsEnd) (h : s.RowsEnd u) (hn : s.extent u < n) :
    (s.expand n u).isWhole = true := by
  induction n generalizing u with
  | zero => omega
  | succ n ih =>
    have hf := hs.chained.rowsEnd_find hr h
    cases hu : s.find u with
    | con name args =>
      rw [hu] at hf
      simp only [expand, hu, Resolved.isWhole, Resolved.areWhole_iff, forall_mem_map]
      intro v hv
      have hlt : s.extent v < s.extent u := hs.extent_found_lt (hu ▸ hv)
      exact ih (hf.part hv) (by omega)
    | row fields rest =>
      obtain ⟨fs, z, hfs, hin⟩ := hs.flatten_of_rowsEnd hr h (by rw [hu]; rfl)
      rw [hs.expand_row hu hfs, Resolved.isWhole, Resolved.fieldsWhole_iff]
      intro p hp
      obtain ⟨q, hq, rfl⟩ := mem_map.mp (mem_inKeyOrder.mp hp)
      have hlt := (flat_of_flatten hfs).extent_lt hs q hq
      exact ih (hin q hq) (by omega)
    | var | emptyRow | bare => simp only [expand, hu, Resolved.isWhole]

/-- In a store without cycles every type resolves whose rows end. -/
theorem Settled.resolve_eq (hs : s.Settled) (hr : s.AllRowsEnd) (h : s.RowsEnd u) (hn : s.extent u < n) :
    s.resolve u = some (s.expand n u) := by
  have hw := hs.expand_whole hr h (s.extent_lt_weight u)
  have hw' := hs.expand_whole hr h hn
  have he : s.expand n u = s.expand (s.weight u) u :=
    (expand_mono (le_max_left n (s.weight u)) hw').symm.trans (expand_mono (le_max_right n (s.weight u)) hw)
  rw [resolve, he]
  exact if_pos hw

theorem Settled.resolve_of_agree (hs : s.Settled) (hr : s.AllRowsEnd) (hu : s.RowsEnd u) (hv : s.RowsEnd v)
    (h : s.Agree u v) : ∃ r, s.resolve u = some r ∧ s.resolve v = some r := by
  have hn : s.extent u < s.extent u + s.extent v + 1 := by omega
  have hm : s.extent v < s.extent u + s.extent v + 1 := by omega
  exact ⟨_, hs.resolve_eq hr hu hn, (hs.resolve_eq hr hv hm).trans (congrArg some (h _).symm)⟩

end TypeStore

end Scrap
