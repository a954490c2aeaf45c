import Scrap.Dict
import Mathlib.Data.List.Nodup

/-! # Dictionaries: what the operations keep

What the operations do to look-ups, keys and values. A dictionary is proper if no key occurs twice. -/

namespace Scrap

open List

/-! ### Functions that go through a list -/

section Going
variable {α β : Type} {a : α} {l : List α}

theorem eq_map {F : List α → List β} {f : α → β} (nil : F [] = []) (cons : ∀ a l, F (a :: l) = f a :: F l) :
    F l = l.map f := by
  induction l with
  | nil => exact nil
  | cons a l ih => rw [cons, ih, map_cons]

theorem eq_flatMap {F : List α → List β} {f : α → List β} (nil : F [] = []) (cons : ∀ a l, F (a :: l) = f a ++ F l) :
    F l = l.flatMap f := by
  induction l with
  | nil => exact nil
  | cons a l ih => rw [cons, ih, flatMap_cons]

theorem eq_all {F : List α → Bool} {p : α → Bool} (nil : F [] = true) (cons : ∀ a l, F (a :: l) = (p a && F l)) :
    F l = l.all p := by
  induction l with
  | nil => exact nil
  | cons a l ih => rw [cons, ih, all_cons]

theorem forall_of_forall₂ {r : β → Prop} {bs : List β} (h : Forall₂ (fun _ b => r b) l bs) : ∀ b ∈ bs, r b := by
  induction h with
  | nil => exact fun _ hb => by cases hb
  | cons hb _ ih => exact forall_mem_cons.mpr ⟨hb, ih⟩

end Going

namespace Dict

variable {k : String} {α β : Type} {d e f : Dict α} {v : α} {p : String × α}

def Proper (d : Dict α) : Prop := d.keys.Nodup

def mapValues (f : α → β) (d : Dict α) : Dict β := d.map fun p => (p.1, f p.2)

/-- Every entry of `d` can be looked up in `e`. -/
def Within (d e : Dict α) : Prop := ∀ k v, d.get? k = some v → e.get? k = some v

/-! ### Members -/

@[simp] theorem keys_nil : keys ([] : Dict α) = [] := rfl

@[simp] theorem keys_cons (p : String × α) (d : Dict α) : keys (p :: d) = p.1 :: keys d := rfl

theorem keys_eq_of_forall₂ {e : Dict β} (h : Forall₂ (fun p q => q.1 = p.1) d e) : e.keys = d.keys := by
  induction h with
  | nil => rfl
  | cons hpq _ ih => rw [keys_cons, keys_cons, hpq, ih]

theorem mem_of_get? (h : d.get? k = some v) : (k, v) ∈ d := by
  induction d with
  | nil => simp at h
  | cons p d ih =>
    obtain ⟨k', v'⟩ := p
    rw [get?_cons] at h
    by_cases hk : k = k'
    · simp_all
    · simp only [hk, if_false] at h
      exact mem_cons_of_mem _ (ih h)

theorem get?_eq_none_iff : d.get? k = none ↔ k ∉ d.keys := by
  induction d with
  | nil => simp
  | cons p d ih =>
    obtain ⟨k', v'⟩ := p
    by_cases hk : k = k' <;> simp [get?_cons, hk, ih]

theorem get?_isSome_iff : (d.get? k).isSome ↔ k ∈ d.keys := by
  rw [← not_iff_not, ← get?_eq_none_iff]
  cases d.get? k <;> simp

theorem get?_of_mem (hd : d.Proper) (h : (k, v) ∈ d) : d.get? k = some v := by
  induction d with
  | nil => cases h
  | cons p d ih =>
    obtain ⟨k', v'⟩ := p
    obtain ⟨hk', hd⟩ := nodup_cons.mp hd
    rw [get?_cons]
    rcases mem_cons.mp h with hp | hp
    · cases hp
      simp
    · have hk : k ≠ k' := by
        rintro rfl
        exact hk' (mem_map.mpr ⟨(k, v), hp, rfl⟩)
      simp only [hk, if_false]
      exact ih hd hp

theorem mem_set (h : p ∈ d.set k v) : p = (k, v) ∨ p ∈ d := by
  induction d with
  | nil => simpa [set] using h
  | cons q d ih =>
    obtain ⟨k', v'⟩ := q
    by_cases hk : k' = k
    · simp only [set, hk, if_true, mem_cons] at h
      rcases h with h | h
      · exact .inl h
      · exact .inr (.tail _ h)
    · simp only [set, hk, if_false, mem_cons] at h
      rcases h with h | h
      · exact .inr (h ▸ (.head _))
      · exact (ih h).imp_right (mem_cons_of_mem _)

theorem merge_nil (d : Dict α) : d.merge [] = d := rfl

theorem merge_cons (d : Dict α) (p : String × α) (e : Dict α) : d.merge (p :: e) = (d.set p.1 p.2).merge e := rfl

theorem mem_merge (h : p ∈ d.merge e) : p ∈ d ∨ p ∈ e := by
  induction e generalizing d with
  | nil => exact .inl h
  | cons q e ih =>
    rw [merge_cons] at h
    rcases ih h with h | h
    · rcases mem_set h with h | h
      · exact .inr (h ▸ (.head _))
      · exact .inl h
    · exact .inr (.tail _ h)

theorem mem_restrict {ks : List String} : p ∈ d.restrict ks ↔ p ∈ d ∧ p.1 ∈ ks := by
  simp [restrict]

theorem set_eq_self_iff : d.set k v = d ↔ d.get? k = some v := by
  refine ⟨fun h => by rw [← h, get?_set, if_pos rfl], fun h => ?_⟩
  induction d with
  | nil => cases h
  | cons p d ih =>
    obtain ⟨k', v'⟩ := p
    rw [get?_cons] at h
    by_cases hk : k' = k
    · subst hk
      rw [if_pos rfl] at h
      rw [set, if_pos rfl, Option.some.inj h]
    · rw [if_neg (Ne.symm hk)] at h
      rw [set, if_neg hk, ih h]

theorem set_of_not_mem (h : k ∉ d.keys) (v : α) : d.set k v = d ++ [(k, v)] := by
  induction d with
  | nil => rfl
  | cons p d ih =>
    obtain ⟨k', v'⟩ := p
    have hk : k' ≠ k := fun hk => h (hk ▸ (.head _))
    rw [set, if_neg hk, ih fun hm => h (.tail _ hm)]
    rfl

theorem merge_of_disjoint (he : e.Proper) (h : ∀ k ∈ e.keys, k ∉ d.keys) : d.merge e = d ++ e := by
  induction e generalizing d with
  | nil => simp [merge_nil]
  | cons p e ih =>
    obtain ⟨k, v⟩ := p
    obtain ⟨hk, he⟩ := nodup_cons.mp he
    rw [merge_cons, set_of_not_mem (h k (.head _)), ih he]
    · simp
    · intro j hj hm
      have hd : j ∈ d.keys ∨ j = k := by simpa [keys] using hm
      rcases hd with hd | rfl
      · exact h j (.tail _ hj) hd
      · exact hk hj

theorem ofEntries_of_proper (he : e.Proper) : ofEntries e = e :=
  (merge_of_disjoint he fun _ _ hm => by cases hm).trans (nil_append e)

theorem length_set (d : Dict α) (k : String) (v : α) :
    (d.set k v).length = if k ∈ d.keys then d.length else d.length + 1 := by
  have hlen : ∀ e : Dict α, e.length = e.keys.length := fun e => (length_map _).symm
  rw [hlen, keys_set, hlen d]
  split <;> simp

theorem length_merge_le (d e : Dict α) : (d.merge e).length ≤ d.length + e.length := by
  induction e generalizing d with
  | nil => exact Nat.le_refl _
  | cons p e ih =>
    have h := ih (d.set p.1 p.2)
    rw [length_set] at h
    rw [merge_cons, length_cons]
    split at h <;> omega

theorem merge_of_length (h : (d.merge e).length = d.length + e.length) : d.merge e = d ++ e := by
  induction e generalizing d with
  | nil => simp [merge_nil]
  | cons p e ih =>
    rw [merge_cons, length_cons] at h
    have hle := length_merge_le (d.set p.1 p.2) e
    rw [length_set] at hle
    have hk : p.1 ∉ d.keys := fun hk => by
      rw [if_pos hk] at hle
      omega
    rw [merge_cons, set_of_not_mem hk, ih]
    · simp
    · rw [← set_of_not_mem hk, h, length_set, if_neg hk]
      omega

theorem ofEntries_of_length (h : (ofEntries e).length = e.length) : ofEntries e = e :=
  (merge_of_length (h.trans (Nat.zero_add _).symm)).trans (nil_append e)

/-! ### Look-ups -/

theorem get?_merge (he : e.Proper) (d : Dict α) (k : String) : (d.merge e).get? k = (e.get? k).or (d.get? k) := by
  induction e generalizing d with
  | nil => simp [merge_nil]
  | cons q e ih =>
    obtain ⟨k', v'⟩ := q
    obtain ⟨hk', he⟩ := nodup_cons.mp he
    rw [merge_cons, ih he, get?_cons, get?_set]
    by_cases hk : k = k'
    · subst hk
      simp [get?_eq_none_iff.mpr hk']
    · simp [hk]

theorem get?_merge_ofEntries (d e : Dict α) (k : String) :
    (d.merge e).get? k = ((ofEntries e).get? k).or (d.get? k) := by
  induction e generalizing d with
  | nil => simp [merge_nil, ofEntries]
  | cons q e ih =>
    rw [ofEntries, merge_cons, merge_cons, ih, ih (set [] q.1 q.2), get?_set, get?_set]
    by_cases hk : k = q.1 <;> simp [hk]

theorem get?_restrict (d : Dict α) (ks : List String) (k : String) :
    (d.restrict ks).get? k = if k ∈ ks then d.get? k else none := by
  induction d with
  | nil => simp [restrict]
  | cons p d ih =>
    obtain ⟨k', v'⟩ := p
    simp only [restrict, contains_eq_mem] at ih ⊢
    by_cases hk' : k' ∈ ks
    · by_cases hk : k = k'
      · subst hk
        simp [hk', get?_cons]
      · simp [hk', get?_cons, hk, ih]
    · by_cases hk : k = k'
      · subst hk
        simp [hk', ih]
      · simp [hk', get?_cons, hk, ih]

/-! ### Keys -/

theorem has_nil (x : String) : has ([] : Dict α) x = false := rfl

theorem has_set (d : Dict α) (k : String) (v : α) (x : String) : (d.set k v).has x = true ↔ x = k ∨ d.has x = true := by
  unfold has
  rw [get?_set]
  by_cases h : x = k <;> simp [h]

theorem has_cons (k : String) (v : α) (d : Dict α) (x : String) :
    has ((k, v) :: d) x = true ↔ x = k ∨ d.has x = true := by
  unfold has
  rw [get?_cons]
  by_cases h : x = k <;> simp [h]

theorem has_merge (d e : Dict α) (x : String) : (d.merge e).has x = true ↔ d.has x = true ∨ e.has x = true := by
  induction e generalizing d with
  | nil => simp [merge_nil, has]
  | cons q e ih =>
    obtain ⟨k, v⟩ := q
    rw [merge_cons, ih, has_set, has_cons]
    tauto

/-! ### Proper dictionaries -/

theorem Proper.nil : Proper ([] : Dict α) := nodup_nil

theorem Proper.set (hd : d.Proper) (k : String) (v : α) : (d.set k v).Proper := by
  unfold Proper
  rw [keys_set]
  split
  · exact hd
  · rename_i hk
    exact nodup_append.mpr ⟨hd, nodup_singleton k, by
      intro a ha b hb
      rw [mem_singleton.mp hb]
      rintro rfl
      exact hk ha⟩

theorem Proper.merge (hd : d.Proper) (e : Dict α) : (d.merge e).Proper := by
  induction e generalizing d with
  | nil => exact hd
  | cons q e ih => exact ih (hd.set q.1 q.2)

theorem Proper.restrict (hd : d.Proper) (ks : List String) : (d.restrict ks).Proper :=
  Nodup.sublist (Sublist.map Prod.fst filter_sublist) hd

/-! ### Inclusion -/

theorem Within.refl (d : Dict α) : d.Within d := fun _ _ h => h

theorem Within.trans (h1 : d.Within e) (h2 : e.Within f) : d.Within f := fun k v h =>
  h2 k v (h1 k v h)

theorem Within.set (h : d.Within e) (k : String) (v : α) : (d.set k v).Within (e.set k v) := by
  intro j w hj
  rw [get?_set] at hj ⊢
  split at hj
  · rename_i hjk
    rw [if_pos hjk]
    exact hj
  · rename_i hjk
    rw [if_neg hjk]
    exact h j w hj

theorem restrict_within (d : Dict α) (ks : List String) : (d.restrict ks).Within d := by
  intro j w hj
  rw [get?_restrict] at hj
  split at hj
  · exact hj
  · cases hj

theorem Within.merge {g : Dict α} (hf : f.Proper) (hg : g.Proper) (h : d.Within e) (h' : f.Within g)
    (hk : ∀ k v, f.get? k = none → d.get? k = some v → g.get? k = none ∨ g.get? k = some v) :
    (d.merge f).Within (e.merge g) := by
  intro j w hj
  rw [get?_merge hf] at hj
  rw [get?_merge hg]
  cases hf' : f.get? j with
  | some x =>
    rw [hf'] at hj
    rw [h' j x hf']
    exact hj
  | none =>
    rw [hf', Option.none_or] at hj
    rcases hk j w hf' hj with hn | hs
    · rw [hn, Option.none_or]
      exact h j w hj
    · rw [hs]
      rfl

/-! ### Changing values -/

theorem mapValues_keys (f : α → β) (d : Dict α) : (d.mapValues f).keys = d.keys := by
  simp [mapValues, keys]

theorem Proper.mapValues (hd : d.Proper) (f : α → β) : (d.mapValues f).Proper := by
  rwa [Proper, mapValues_keys]

theorem length_mapValues (f : α → β) (d : Dict α) : (d.mapValues f).length = d.length := length_map _

theorem get?_mapValues (f : α → β) (d : Dict α) (k : String) : (d.mapValues f).get? k = (d.get? k).map f := by
  induction d with
  | nil => rfl
  | cons p d ih =>
    obtain ⟨k', v'⟩ := p
    show get? ((k', f v') :: mapValues f d) k = _
    rw [get?_cons, get?_cons]
    split
    · rfl
    · exact ih

end Dict

end Scrap
