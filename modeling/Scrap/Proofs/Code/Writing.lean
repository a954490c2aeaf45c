import Scrap.Code.Compile
import Scrap.Proofs.Runs

/-! # Writing code

Code is written at the end of the current function, and names are made in order, so a name made later is a new one. -/

namespace Scrap.Compile

open Code

variable {k n : Nat} {q : Term}

/-- The code written between two points of a compilation that stays in one function. -/
structure Wrote (p p' : Progress) (code : List Statement) : Prop where
  functions : p'.program.functions =
    p.program.functions.modify p.current fun f => { f with body := f.body ++ code.toArray }
  current : p'.current = p.current
  made : p.made ≤ p'.made
  tags : p.program.tags ⊆ p'.program.tags

namespace Wrote
variable {p p' p'' : Progress} {code code' : List Statement}

theorem refl (p : Progress) : Wrote p p [] where
  functions := by
    refine Array.ext (by simp) fun i hi hi' => ?_
    simp [Array.getElem_modify]
  current := rfl
  made := Nat.le_refl _
  tags := List.Subset.refl _

theorem trans (h : Wrote p p' code) (h' : Wrote p' p'' code') : Wrote p p'' (code ++ code') where
  functions := by
    rw [h'.functions, h.functions, h.current]
    refine Array.ext (by simp) fun i hi hi' => ?_
    simp only [Array.getElem_modify]
    split <;> simp
  current := h'.current.trans h.current
  made := Nat.le_trans h.made h'.made
  tags := List.Subset.trans h.tags h'.tags

end Wrote

theorem emit_wrote (s : Statement) (p : Progress) :
    ∃ p', outcome (emit s) p = (.ok (), p') ∧ Wrote p p' [s] ∧ p'.made = p.made := by
  refine ⟨_, rfl, ⟨?_, rfl, Nat.le_refl _, List.Subset.refl _⟩, rfl⟩
  simp

def tempName (n : Nat) : String := "tmp" ++ "_" ++ toString n

theorem bind_wrote (c : Call) (p : Progress) : ∃ p', outcome
    (bind c) p = (.ok (tempName p.made), p') ∧ Wrote p p' [.bind (tempName p.made) c] ∧ p.made < p'.made := by
  refine ⟨_, rfl, ⟨?_, rfl, Nat.le_succ _, List.Subset.refl _⟩, Nat.lt_succ_self _⟩
  simp [tempName]

theorem useTag_wrote (t : String) (p : Progress) :
    ∃ p', outcome (useTag t) p = (.ok (), p') ∧ Wrote p p' [] ∧ p'.made = p.made ∧ t ∈ p'.program.tags := by
  refine ⟨_, rfl, ?_⟩
  dsimp only
  split
  · exact ⟨.refl p, rfl, List.contains_iff_mem.mp ‹_›⟩
  · exact ⟨⟨(Wrote.refl p).functions, rfl, Nat.le_refl _, List.map_subset _ (List.subset_append_left _ _)⟩, rfl, by simp [Program.tags, numbered]⟩

theorem useKey_wrote (k : String) (p : Progress) :
    ∃ p', outcome (useKey k) p = (.ok (), p') ∧ Wrote p p' [] ∧ p'.made = p.made ∧ k ∈ p'.program.keys := by
  refine ⟨_, rfl, ?_⟩
  dsimp only
  split
  · exact ⟨.refl p, rfl, List.contains_iff_mem.mp ‹_›⟩
  · exact ⟨⟨(Wrote.refl p).functions, rfl, Nat.le_refl _, List.Subset.refl _⟩, rfl, by simp [Program.keys, numbered]⟩

theorem collect_wrote (σ : Setting) (p : Progress) :
    ∃ p', outcome (collect σ) p = (.ok (), p') ∧ Wrote p p' (if σ.debug then [.collect] else []) ∧ p'.made = p.made := by
  unfold collect
  split
  · exact emit_wrote .collect p
  · exact ⟨p, rfl, .refl p, rfl⟩

theorem requireNumber_wrote (σ : Setting) (t : Term) (x : Operand) (p : Progress) : ∃ p', outcome (requireNumber σ t x)
    p = (.ok (), p') ∧ Wrote p p' (if σ.hasType t "int" then [] else [.require (.number x)]) ∧ p'.made = p.made := by
  unfold requireNumber
  split
  · exact ⟨p, rfl, .refl p, rfl⟩
  · exact emit_wrote (.require (.number x)) p

/-- A name that will not be made when `n` names have been. -/
def Settled (n : Nat) (x : String) : Prop := ∀ k, n ≤ k → x ≠ tempName k

theorem Settled.mono {x : String} (h : Settled n x) (hk : n ≤ k) : Settled k x :=
  fun j hj => h j (Nat.le_trans hk hj)

theorem tempName_inj : tempName n = tempName k ↔ n = k := by
  refine ⟨fun h => ?_, fun h => h ▸ rfl⟩
  have h' := congrArg String.toList h
  simp only [tempName, String.toList_append, List.append_cancel_left_eq, Nat.toString_eq_ofList_toDigits,
    String.toList_ofList] at h'
  rw [← Nat.ofDigitChars_ten_toDigits (n := n), h', Nat.ofDigitChars_ten_toDigits]

theorem settled_tempName (h : n < k) : Settled k (tempName n) :=
  fun j hj heq => by
    rw [tempName_inj] at heq
    omega

/-! ### Forms that are written in one way -/

section Forms
variable {σ : Setting}

theorem matchItems_cons_eq (hq : ∀ i name, q ≠ .spread i name) (x : String) (target : Label) (found : Scope)
    (qs : List Term) : matchItems σ x target found (q :: qs) = (do
      emit (.jumpIf (.empty x) target)
      let first ← Compile.bind (.first x)
      let names ← tryMatch σ first target q
      let rest ← Compile.bind (.rest x)
      matchItems σ rest target (found.merge names) qs) := by
  cases q <;> first | rfl | exact absurd rfl (hq _ _)

theorem matchFields_cons_eq (hq : ∀ i name, q ≠ .spread i name) (x : String) (target : Label) (count : Nat)
    (found : Scope) (k : String) (fs : List (String × Term)) :
    matchFields σ x target count found ((k, q) :: fs) = (do
      useKey k
      let value ← Compile.bind (.field (.name x) k)
      emit (.jumpIf (.absent value) target)
      let names ← tryMatch σ value target q
      matchFields σ x target count (found.merge names) fs) := by
  cases q <;> first | rfl | exact absurd rfl (hq _ _)

/-- A variant of the hole is an immediate word, all others are objects. -/
theorem compile_variant_eq {v : Term} (hv : ∀ j, v ≠ .hole j) (scope : Scope) (name : Option String) (i : Nat)
    (tag : String) : compile σ scope name (.variant i tag v) = (do
      if ← isConstant v then
        useTag tag
        newConstant "const_variant" (.variant tag (← compile σ scope none v))
      else
        collect σ
        useTag tag
        let value ← compile σ scope none v
        let result ← Compile.bind (.newVariant tag)
        emit (.setPayload result value)
        return .name result) := by
  cases v <;> first | rfl | exact absurd rfl (hv _)

end Forms

theorem areConstantFields_eq (fs : List (String × Term)) : areConstantFields fs = areConstant (fs.map Prod.snd) := by
  induction fs with
  | nil => rfl
  | cons f fs ih =>
    rw [areConstantFields, ih]
    rfl

end Scrap.Compile
