import Scrap.Code.Valid
import Scrap.Proofs.Code.Writing
import Scrap.Proofs.Dict

/-! # Listed keys and tags

Code reaches fields and tags by number. A program lists the names that have one, and lists are only added to, so a name
that is in use is listed at the end if it was listed when its code was written. -/

namespace Scrap

open List

namespace Code

def Call.keys : Call → List String
  | .field _ k => [k]
  | _ => []

/-- The operands, with a tag that is set as one of them. -/
def Call.marks : Call → List Operand
  | .newVariant tag => [.tag tag]
  | c => c.operands

def Statement.keys : Statement → List String
  | .bind _ c => c.keys
  | .setField _ _ k _ => [k]
  | _ => []

def Statement.marks : Statement → List Operand
  | .bind _ c => c.marks
  | .jumpIf (.notTag _ tag) _ | .jumpIf (.otherTag _ tag) _ => [.tag tag]
  | s => s.operands

def Constant.keys : Constant → List String
  | .record fields => fields.map Prod.fst
  | _ => []

def Constant.marks : Constant → List Operand
  | .variant tag v => [.tag tag, v]
  | c => c.operands

end Code

namespace Compile

open Code

variable {P : Program} {p : Progress} {x : String} {keys : List String} {marks : List Operand} {a b : Operand}

/-- A tag is known if it is listed. -/
def Known (P : Program) : Operand → Prop
  | .tag tag => tag ∈ P.tags
  | _ => True

def Knows (P : Program) (scope : Scope) : Prop := ∀ e ∈ scope, Known P e.2

theorem Knows.set {scope : Scope} (h : Knows P scope) (x : String) (ha : Known P a) : Knows P (scope.set x a) :=
  fun e he => (Dict.mem_set he).elim (fun heq => heq ▸ ha) (h e)

theorem Knows.merge {scope names : Scope} (h : Knows P scope) (hn : Knows P names) : Knows P (scope.merge names) :=
  fun e he => (Dict.mem_merge he).elim (h e) (hn e)

theorem Knows.get? {scope : Scope} (h : Knows P scope) (hx : scope.get? x = some a) : Known P a :=
  h _ (Dict.mem_of_get? hx)

structure Lists (P : Program) (keys : List String) (marks : List Operand) : Prop where
  keys : keys ⊆ P.keys
  marks : ∀ o ∈ marks, Known P o

theorem Lists.nil : Lists P [] [] := ⟨nil_subset _, fun _ ho => (not_mem_nil ho).elim⟩

theorem Lists.one (ha : Known P a) : Lists P [] [a] := ⟨nil_subset _, forall_mem_singleton.mpr ha⟩

theorem Lists.two (ha : Known P a) (hb : Known P b) : Lists P [] [a, b] :=
  ⟨nil_subset _, forall_mem_cons.mpr ⟨ha, forall_mem_singleton.mpr hb⟩⟩

theorem Lists.key {k : String} (hk : k ∈ P.keys) (hmarks : ∀ o ∈ marks, Known P o) : Lists P [k] marks :=
  ⟨cons_subset.mpr ⟨hk, nil_subset _⟩, hmarks⟩

/-- The keys and tags in the code of `q` are listed in `P`. -/
structure Listed (P q : Program) : Prop where
  statements : ∀ f ∈ q.functions.toList, ∀ s ∈ f.body.toList, Lists P s.keys s.marks
  constants : ∀ c ∈ q.constants.toList, Lists P c.2.keys c.2.marks

theorem mem_modify {f : Function} {fs : List Function} {i : Nat} {g : Function → Function} (h : f ∈ fs.modify i g) :
    f ∈ fs ∨ ∃ f0 ∈ fs, f = g f0 := by
  obtain ⟨j, hj, rfl⟩ := mem_iff_getElem.mp h
  rw [length_modify] at hj
  rw [getElem_modify]
  split
  · exact .inr ⟨fs[j], getElem_mem hj, rfl⟩
  · exact .inl (getElem_mem hj)

structure Grows (a b : Program) : Prop where
  constants : a.constants.toList <+: b.constants.toList
  keys : a.keys ⊆ b.keys
  tags : a.tags ⊆ b.tags

theorem Grows.refl (a : Program) : Grows a a := ⟨prefix_refl _, List.Subset.refl _, List.Subset.refl _⟩

theorem Grows.trans {a b c : Program} (h : Grows a b) (h' : Grows b c) : Grows a c :=
  ⟨h.constants.trans h'.constants, List.Subset.trans h.keys h'.keys, List.Subset.trans h.tags h'.tags⟩

/-- If `C` holds and the run ends in a part of `P`, it returns something that satisfies `Q` and its code is listed. -/
structure Listing {α : Type} (P : Program) (C : Prop) (m : CompileM α) (Q : α → Prop) : Prop where
  grows : ∀ {p a p'}, outcome m p = (.ok a, p') → Grows p.program p'.program
  lists : ∀ {p a p'}, C → outcome m p = (.ok a, p') → Grows p'.program P →
    Q a ∧ (Listed P p.program → Listed P p'.program)

namespace Listing
variable {α β : Type} {C C' : Prop} {m : CompileM α} {f : α → CompileM β} {Q : α → Prop} {R : β → Prop}

theorem bindRun (hm : Listing P C m Q)
    (hf : ∀ {a p p'}, outcome m p = (.ok a, p') → Listing P (C ∧ Q a) (f a) R) : Listing P C (m >>= f) R where
  grows hrun := by
    obtain ⟨a, p1, ha, hrun⟩ := bind_returns hrun
    exact (hm.grows ha).trans ((hf ha).grows hrun)
  lists hC hrun hP := by
    obtain ⟨a, p1, ha, hrun⟩ := bind_returns hrun
    obtain ⟨hQ, h1⟩ := hm.lists hC ha (((hf ha).grows hrun).trans hP)
    obtain ⟨hR, h2⟩ := (hf ha).lists ⟨hC, hQ⟩ hrun hP
    exact ⟨hR, fun h => h2 (h1 h)⟩

theorem bind (hm : Listing P C m Q) (hf : ∀ a, Listing P (C ∧ Q a) (f a) R) : Listing P C (m >>= f) R :=
  hm.bindRun fun _ => hf _

theorem pure {a : α} (h : C → Q a) : Listing P C (Pure.pure a) Q where
  grows hrun := by cases hrun; exact .refl _
  lists hC hrun _ := by cases hrun; exact ⟨h hC, fun h => h⟩

theorem throw {e : CompileError} : Listing P C (MonadExcept.throw e : CompileM α) Q where
  grows hrun := by cases hrun
  lists _ hrun := by cases hrun

theorem when (hm : Listing P C m Q) (h : C' → C) : Listing P C' m Q := ⟨hm.grows, fun hC => hm.lists (h hC)⟩

/-- Computations that write no code and list nothing. -/
theorem still (h : ∀ {p a p'}, outcome m p = (.ok a, p') → p'.program = p.program) : Listing P C m fun _ => True :=
  ⟨fun hrun => h hrun ▸ .refl _, fun _ hrun _ => ⟨trivial, fun hl => h hrun ▸ hl⟩⟩

end Listing

section Writing
variable {C : Prop} {s : Statement}

theorem Listed.emitted (h : Listed P p.program) (i : Nat) (hs : Lists P s.keys s.marks) : Listed P { p.program with
    functions := p.program.functions.modify i fun f => { f with body := f.body.push s } } := by
  refine ⟨fun f hf s' hs' => ?_, h.constants⟩
  rw [Array.toList_modify] at hf
  rcases mem_modify hf with hf | ⟨f0, hf0, rfl⟩
  · exact h.statements f hf s' hs'
  · rcases mem_append.mp (Array.toList_push ▸ hs') with hs' | hs'
    · exact h.statements f0 hf0 s' hs'
    · exact mem_singleton.mp hs' ▸ hs

theorem listing_emit (hs : C → Lists P s.keys s.marks) : Listing P C (emit s) fun _ => True where
  grows hrun := by cases hrun; exact ⟨prefix_refl _, List.Subset.refl _, List.Subset.refl _⟩
  lists hC hrun _ := by cases hrun; exact ⟨trivial, fun h => h.emitted _ (hs hC)⟩

theorem listing_bind {c : Call} (hc : C → Lists P c.keys c.marks) : Listing P C (Compile.bind c) fun _ => True where
  grows hrun := by cases hrun; exact ⟨prefix_refl _, List.Subset.refl _, List.Subset.refl _⟩
  lists hC hrun _ := by cases hrun; exact ⟨trivial, fun h => h.emitted (s := .bind _ c) _ (hc hC)⟩

theorem listing_open (f : Function) : Listing P C (openFunction f) fun _ => True where
  grows hrun := by cases hrun; exact ⟨prefix_refl _, List.Subset.refl _, List.Subset.refl _⟩
  lists _ hrun _ := by
    cases hrun
    refine ⟨trivial, fun h => ⟨fun g hg s hs => ?_, h.constants⟩⟩
    rcases mem_append.mp (Array.toList_push ▸ hg) with hg | hg
    · exact h.statements g hg s hs
    · rw [mem_singleton.mp hg] at hs
      rcases mem_append.mp (Array.toList_append ▸ hs) with hs | hs
      · exact mem_singleton.mp hs ▸ .nil
      · obtain ⟨x, -, rfl⟩ := mem_map.mp hs
        exact .nil

theorem listing_newConstant (stem : String) {c : Constant} (hc : C → Lists P c.keys c.marks) :
    Listing P C (newConstant stem c) (Known P) where
  grows hrun := by
    cases hrun
    refine ⟨?_, List.Subset.refl _, List.Subset.refl _⟩
    simp
  lists hC hrun _ := by
    cases hrun
    refine ⟨trivial, fun h => ⟨h.statements, fun d hd => ?_⟩⟩
    rcases mem_append.mp (Array.toList_push ▸ hd) with hd | hd
    · exact h.constants d hd
    · exact mem_singleton.mp hd ▸ hc hC

theorem listing_useKey (k : String) : Listing P C (useKey k) fun _ => k ∈ P.keys := by
  have h : ∀ {p a p'}, outcome (useKey k) p = (.ok a, p') →
      Grows p.program p'.program ∧ k ∈ p'.program.keys ∧ (Listed P p.program → Listed P p'.program) := by
    intro p a p' hrun
    cases hrun
    beta_reduce
    split
    · exact ⟨.refl _, contains_iff_mem.mp ‹_›, fun h => h⟩
    · exact ⟨⟨prefix_refl _, map_subset _ (subset_append_left _ _), List.Subset.refl _⟩, by simp [Program.keys, numbered],
        fun h => ⟨h.1, h.2⟩⟩
  exact ⟨fun hrun => (h hrun).1, fun _ hrun hP => (h hrun).2.imp_left (hP.keys ·)⟩

theorem listing_useTag (tag : String) : Listing P C (useTag tag) fun _ => tag ∈ P.tags := by
  have h : ∀ {p a p'}, outcome (useTag tag) p = (.ok a, p') →
      Grows p.program p'.program ∧ tag ∈ p'.program.tags ∧ (Listed P p.program → Listed P p'.program) := by
    intro p a p' hrun
    cases hrun
    beta_reduce
    split
    · exact ⟨.refl _, contains_iff_mem.mp ‹_›, fun h => h⟩
    · exact ⟨⟨prefix_refl _, List.Subset.refl _, map_subset _ (subset_append_left _ _)⟩, by simp [Program.tags, numbered],
        fun h => ⟨h.1, h.2⟩⟩
  exact ⟨fun hrun => (h hrun).1, fun _ hrun hP => (h hrun).2.imp_left (hP.tags ·)⟩

end Writing

end Compile

end Scrap
