/-! # Dictionaries in order of insertion

A dictionary is the list of its entries; writing a key again keeps its place and changes its value. -/

namespace Scrap

/-- A dictionary: its entries in the order in which their keys were first written. -/
abbrev Dict (α : Type) := List (String × α)

namespace Dict

variable {α β : Type}

def keys (d : Dict α) : List String := d.map Prod.fst

def values (d : Dict α) : List α := d.map Prod.snd

def get? (d : Dict α) (k : String) : Option α := List.lookup k d

def has (d : Dict α) (k : String) : Bool := (d.get? k).isSome

/-- Writes `k`: in its old place if it is there, at the end otherwise. -/
def set : Dict α → String → α → Dict α
  | [], k, v => [(k, v)]
  | (k', v') :: d, k, v => if k' = k then (k, v) :: d else (k', v') :: set d k v

def merge (d e : Dict α) : Dict α := e.foldl (fun acc p => acc.set p.1 p.2) d

def ofEntries (entries : List (String × α)) : Dict α := merge [] entries

def restrict (d : Dict α) (ks : List String) : Dict α := d.filter fun p => ks.contains p.1

@[simp] theorem get?_nil (k : String) : get? ([] : Dict α) k = none := rfl

theorem get?_cons (k' : String) (v : α) (d : Dict α) (k : String) :
    get? ((k', v) :: d) k = if k = k' then some v else get? d k := by
  show (match k == k' with
    | true => some v
    | false => List.lookup k d) = _
  by_cases h : k = k'
  · simp [h]
  · have hb : (k == k') = false := by simpa using h
    rw [hb, if_neg h]
    rfl

/-- A key reads back what was last written to it, and writing it leaves every other key alone. -/
theorem get?_set (d : Dict α) (k : String) (v : α) (j : String) :
    get? (set d k v) j = if j = k then some v else get? d j := by
  induction d with
  | nil => simp [set, get?_cons]
  | cons p d ih =>
    obtain ⟨k', v'⟩ := p
    by_cases hk : k' = k
    · subst hk; by_cases hj : j = k' <;> simp [set, get?_cons, hj]
    · by_cases hj : j = k'
      · subst hj; simp [set, hk, get?_cons]
      · simp [set, hk, get?_cons, hj, ih]

theorem keys_set (d : Dict α) (k : String) (v : α) :
    keys (set d k v) = if k ∈ keys d then keys d else keys d ++ [k] := by
  induction d with
  | nil => simp [set, keys]
  | cons p d ih =>
    obtain ⟨k', v'⟩ := p
    by_cases hk : k' = k
    · subst hk; simp [set, keys]
    · have hk' : k ≠ k' := fun h => hk h.symm
      simp only [keys] at ih
      by_cases hm : k ∈ d.map Prod.fst
      · simp [set, keys, hk, hk', ih, hm]
      · simp [set, keys, hk, hk', ih, hm]

end Dict

end Scrap
