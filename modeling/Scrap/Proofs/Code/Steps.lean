import Mathlib.Logic.Relation
import Scrap.Proofs.Code.Captures
import Scrap.Proofs.Code.Listing

/-! # The steps of a compilation

Whatever term is compiled, the program grows by a few kinds of steps only, so what each of them keeps holds of every
compiled program. -/

namespace Scrap

open List

variable {own scope : Scope} {σ : Setting} {u : Term} {fields fs : List (String × Term)} {keys : List String} {i : Nat}
  {k tag x : String} {b v : Term}

namespace Term

/-! ### The names of a term -/

mutual

def inside : Term → List Term
  | .binop i op l r => .binop i op l r :: (inside l ++ inside r)
  | .list i items => .list i items :: insideAll items
  | .record i fields => .record i fields :: insideFields fields
  | .environment i fields => .environment i fields :: insideFields fields
  | .assign i x v => .assign i x v :: inside v
  | .variant i tag v => .variant i tag v :: inside v
  | .function i p b => .function i p b :: (inside p ++ inside b)
  | .matchCase i p b => .matchCase i p b :: (inside p ++ inside b)
  | .apply i f a => .apply i f a :: (inside f ++ inside a)
  | .scope i b d => .scope i b d :: (inside b ++ inside d)
  | .assert i v c => .assert i v c :: (inside v ++ inside c)
  | .matchFunction i cases => .matchFunction i cases :: insideCases cases
  | .access i o f => .access i o f :: (inside o ++ inside f)
  | .closure i code => .closure i code :: inside code
  | t => [t]

def insideAll : List Term → List Term
  | [] => []
  | t :: ts => inside t ++ insideAll ts

def insideFields : List (String × Term) → List Term
  | [] => []
  | (_, t) :: fs => inside t ++ insideFields fs

def insideCases : List (Term × Term) → List Term
  | [] => []
  | (p, b) :: cs => inside p ++ inside b ++ insideCases cs

end

theorem insideAll_eq (ts : List Term) : insideAll ts = ts.flatMap inside :=
  eq_flatMap rfl fun _ _ => rfl

theorem insideFields_eq (fs : List (String × Term)) : insideFields fs = (fs.map Prod.snd).flatMap inside := by
  induction fs with
  | nil => rfl
  | cons f fs ih => rw [insideFields, ih, map_cons, flatMap_cons]

theorem insideCases_eq (cs : List (Term × Term)) : insideCases cs = (cs.flatMap fun c => [c.1, c.2]).flatMap inside := by
  induction cs with
  | nil => rfl
  | cons c cs ih =>
    rw [insideCases, ih, flatMap_cons, flatMap_append]
    simp

theorem inside_eq (t : Term) : t.inside = t :: t.parts.flatMap inside := by
  cases t with
  | list => rw [inside, insideAll_eq, parts]
  | record | environment => rw [inside, insideFields_eq, parts]
  | matchFunction => rw [inside, insideCases_eq, parts]
  | _ => simp [inside, parts]

theorem mem_inside {t : Term} (h : u.Inside t) : u ∈ t.inside := by
  induction h with
  | self =>
    rw [inside_eq]
    exact (.head _)
  | part hv _ ih =>
    rw [inside_eq]
    exact mem_cons_of_mem _ (mem_flatMap.mpr ⟨_, hv, ih⟩)

def functionName? : Term → Option String
  | .scope _ _ (.assign _ x (.function _ _ _)) | .scope _ _ (.assign _ x (.matchFunction _ _)) => some x
  | _ => none

def functionParam? : Term → Option String
  | .function _ p _ => p.paramName?
  | _ => none

def recordKeys? : Term → Option (List String)
  | .record _ fields => some (sortedNames (fields.map Prod.fst))
  | _ => none

def ownKeys : Term → List String
  | .record _ fields => fields.map Prod.fst
  | .access _ _ (.var _ k) => [k]
  | _ => []

def variantTag? : Term → Option String
  | .variant _ tag _ => some tag
  | _ => none

def functionNames (t : Term) : List String := t.inside.filterMap functionName?

def functionParams (t : Term) : List String := t.inside.filterMap functionParam?

def recordKeys (t : Term) : List (List String) := t.inside.filterMap recordKeys?

def keyNames (t : Term) : List String := t.inside.flatMap ownKeys

def tagNames (t : Term) : List String := t.inside.filterMap variantTag?

end Term

namespace Compile

open Code Relation

variable {stem : String} {q : Term}

def madeName (stem : String) (n : Nat) : String := stem ++ "_" ++ toString n

def builderName (keys : List String) : String := "Record_builder_" ++ "_".intercalate keys

def constantStems : List String :=
  ["const_heap_string", "const_list", "const_variant", "const_record", "const_closure"]

def madeBy : Statement → Option String
  | .bind x _ => some x
  | _ => none

def Progress.emitted (p : Progress) (s : Statement) : Progress :=
  { p with program.functions := p.program.functions.modify p.current fun f => { f with body := f.body.push s } }

def Progress.opened (p : Progress) (f : Function) : Progress :=
  { p with
    program.functions := p.program.functions.push
      { f with body := #[Statement.enter] ++ (f.params.map Statement.protect).toArray }
    current := p.program.functions.size }

/-- One step of the compilation of the term `t`, or of a term inside of it. -/
inductive Step (t : Term) : Progress → Progress → Prop
  | emit {p : Progress} {s : Statement} : madeBy s = none → Step t p (p.emitted s)
  | bind {p : Progress} {c : Call} :
      Step t p ({ p with made := p.made + 1 }.emitted (.bind (tempName p.made) c))
  | temp {p : Progress} : Step t p { p with made := p.made + 1 }
  | key {p : Progress} {k : String} : k ∈ t.keyNames → k ∉ p.program.keys →
      Step t p { p with program.keyNumbers := numbered p.program.keyNumbers k }
  | tag {p : Progress} {tag : String} : tag ∈ t.tagNames → tag ∉ p.program.tags →
      Step t p { p with program.tagNumbers := numbered p.program.tagNumbers tag }
  | constant {p : Progress} {stem : String} {c : Constant} : stem ∈ constantStems →
      Step t p { p with
        made := p.made + 1
        program.constants := p.program.constants.push (madeName stem p.made, c) }
  | function {p : Progress} {stem x : String} {captures : List String} : stem ∈ "fn" :: t.functionNames →
      x ∈ t.functionParams ∨ (∃ n, n < p.made ∧ x = tempName n) →
      Step t p ({ p with made := p.made + 1 }.opened { name := madeName stem p.made, params := ["this", x], captures })
  | builder {p : Progress} {keys : List String} : keys ∈ t.recordKeys → List.lookup keys p.builders = none →
      Step t p ({ p with builders := (keys, builderName keys) :: p.builders }.opened
        { name := builderName keys, params := keys })
  | close {p : Progress} {n : Nat} : Step t p { p with current := n }

/-- A run of the computation is made of steps, whatever builders there are, and leaves these alone. -/
structure Quiet {α : Type} (P : Program) (t : Term) (C : Prop) (m : CompileM α) (Q : α → Prop) : Prop
    extends Listing P C m Q where
  steps : ∀ {p a p'} b, outcome m p = (.ok a, p') →
    ReflTransGen (Step t) { p with builders := b } { p' with builders := b } ∧ p'.builders = p.builders

/-- A run of the computation is made of steps, and what it uses is listed. -/
structure Traced {α : Type} (P : Program) (t : Term) (C : Prop) (m : CompileM α) (Q : α → Prop) : Prop
    extends Listing P C m Q where
  steps : ∀ {p a p'}, outcome m p = (.ok a, p') → ReflTransGen (Step t) p p'

variable {P : Program} {C : Prop}

section Rules
variable {α β : Type} {t : Term} {C' : Prop} {m : CompileM α} {f : α → CompileM β} {a : α} {Q : α → Prop} {R : β → Prop}

theorem Quiet.bind (hm : Quiet P t C m Q) (hf : ∀ a, Quiet P t (C ∧ Q a) (f a) R) : Quiet P t C (m >>= f) R := by
  refine ⟨hm.toListing.bind fun a => (hf a).toListing, fun builders hrun => ?_⟩
  obtain ⟨a, p1, ha, hrun⟩ := bind_returns hrun
  obtain ⟨hsteps, hsame⟩ := hm.steps builders ha
  obtain ⟨hsteps', hsame'⟩ := (hf a).steps builders hrun
  exact ⟨hsteps.trans hsteps', hsame'.trans hsame⟩

theorem Quiet.pure (h : C → Q a) : Quiet P t C (Pure.pure a) Q :=
  ⟨.pure h, fun _ hrun => by cases hrun; exact ⟨.refl, rfl⟩⟩

theorem Quiet.when (hm : Quiet P t C m Q) (h : C' → C) : Quiet P t C' m Q := ⟨hm.toListing.when h, hm.steps⟩

theorem Quiet.forM {f : α → CompileM Unit} {as : List α} (h : ∀ a ∈ as, Quiet P t C (f a) fun _ => True) :
    Quiet P t C (as.forM f) fun _ => True := by
  induction as with
  | nil => exact .pure fun _ => trivial
  | cons a as ih => exact (h a (.head _)).bind fun _ => (ih fun c hc => h c (.tail _ hc)).when And.left

theorem Quiet.traced (h : Quiet P t C m Q) : Traced P t C m Q := by
  refine ⟨h.toListing, fun {p a p'} hrun => ?_⟩
  obtain ⟨hsteps, hsame⟩ := h.steps p.builders hrun
  have hp' : { p' with builders := p.builders } = p' := by rw [← hsame]
  rwa [hp'] at hsteps

theorem Traced.pure (h : C → Q a) : Traced P t C (Pure.pure a) Q := (Quiet.pure h).traced

theorem Traced.throw {e : CompileError} : Traced P t C (MonadExcept.throw e : CompileM α) Q :=
  ⟨.throw, fun hrun => by cases hrun⟩

theorem Traced.when (hm : Traced P t C m Q) (h : C' → C) : Traced P t C' m Q := ⟨hm.toListing.when h, hm.steps⟩

theorem Traced.bindRun (hm : Traced P t C m Q)
    (hf : ∀ {a p p'}, outcome m p = (.ok a, p') → Traced P t (C ∧ Q a) (f a) R) : Traced P t C (m >>= f) R := by
  refine ⟨hm.toListing.bindRun fun h => (hf h).toListing, fun hrun => ?_⟩
  obtain ⟨a, p1, ha, hrun⟩ := bind_returns hrun
  exact (hm.steps ha).trans ((hf ha).steps hrun)

theorem Traced.bind (hm : Traced P t C m Q) (hf : ∀ a, Traced P t (C ∧ Q a) (f a) R) : Traced P t C (m >>= f) R :=
  hm.bindRun fun _ => hf _

theorem Traced.after (hm : Traced P t C m fun _ => True) (hf : ∀ a, Traced P t C (f a) R) : Traced P t C (m >>= f) R :=
  hm.bind fun a => (hf a).when And.left

theorem Traced.calls (hm : Quiet P t C m fun _ => True) (hf : ∀ a, Traced P t C (f a) R) : Traced P t C (m >>= f) R :=
  .after hm.traced hf

end Rules

/-! ### Writing code -/

section Writing
variable {t : Term} {c : Call} {s : Statement} {xs : List Operand}

theorem unlisted : C → Lists P [] [] := fun _ => .nil

theorem quiet_emit (hs : madeBy s = none) (h : C → Lists P s.keys s.marks) : Quiet P t C (emit s) fun _ => True := by
  refine ⟨listing_emit h, fun b hrun => ?_⟩
  cases hrun
  exact ⟨.single (.emit hs), rfl⟩

theorem quiet_bind (h : C → Lists P c.keys c.marks) : Quiet P t C (Compile.bind c) fun _ => True := by
  refine ⟨listing_bind h, fun b hrun => ?_⟩
  cases hrun
  exact ⟨.single .bind, rfl⟩

theorem quiet_close (n : Nat) : Quiet P t C (closeFunction n) fun _ => True := by
  refine ⟨.still fun hrun => by cases hrun; rfl, fun b hrun => ?_⟩
  cases hrun
  exact ⟨.single .close, rfl⟩

theorem quiet_collect (σ : Setting) : Quiet P t C (collect σ) fun _ => True := by
  unfold collect
  split
  · exact quiet_emit rfl unlisted
  · exact .pure fun _ => trivial

theorem quiet_useKey (hk : k ∈ t.keyNames) : Quiet P t C (useKey k) fun _ => k ∈ P.keys := by
  refine ⟨listing_useKey k, fun {p a p'} b hrun => ?_⟩
  cases hrun
  beta_reduce
  split
  · exact ⟨.refl, rfl⟩
  · rename_i hnew
    exact ⟨.single (.key hk (by simpa using hnew)), rfl⟩

theorem quiet_useTag (htag : tag ∈ t.tagNames) : Quiet P t C (useTag tag) fun _ => tag ∈ P.tags := by
  refine ⟨listing_useTag tag, fun {p a p'} b hrun => ?_⟩
  cases hrun
  beta_reduce
  split
  · exact ⟨.refl, rfl⟩
  · rename_i hnew
    exact ⟨.single (.tag htag (by simpa using hnew)), rfl⟩

theorem quiet_newConstant {c : Constant} (hstem : stem ∈ constantStems) (h : C → Lists P c.keys c.marks) :
    Quiet P t C (newConstant stem c) (Known P) := by
  refine ⟨listing_newConstant stem h, fun b hrun => ?_⟩
  cases hrun
  exact ⟨.single (.constant hstem), rfl⟩

theorem quiet_requireNumber (σ : Setting) (u : Term) {x : Operand} (h : C → Known P x) :
    Quiet P t C (requireNumber σ u x) fun _ => True := by
  unfold requireNumber
  split
  · exact .pure fun _ => trivial
  · exact quiet_emit rfl fun hC => .one (h hC)

theorem quiet_requireString (σ : Setting) (u : Term) {x : Operand} (h : C → Known P x) :
    Quiet P t C (requireString σ u x) fun _ => True := by
  unfold requireString
  split
  · exact .pure fun _ => trivial
  · exact quiet_emit rfl fun hC => .one (h hC)

theorem quiet_constantList (h : C → ∀ x ∈ xs, Known P x) : Quiet P t C (constantList xs) (Known P) := by
  induction xs with
  | nil => exact .pure fun _ => trivial
  | cons x xs ih =>
    exact (ih fun hC y hy => h hC y (.tail _ hy)).bind fun _ =>
      quiet_newConstant (by decide) fun hC => .two (h hC.1 x (.head _)) hC.2

theorem quiet_newList (h : C → ∀ x ∈ xs, Known P x) : Quiet P t C (newList xs) fun _ => True := by
  induction xs with
  | nil => exact quiet_bind unlisted
  | cons x xs ih =>
    exact (ih fun hC y hy => h hC y (.tail _ hy)).bind fun _ => quiet_bind fun hC => .two (h hC.1 x (.head _)) trivial

theorem traced_literal (n : Int) : Traced P t C (literal n) fun _ => True := by
  unfold literal
  split
  · exact .pure fun _ => trivial
  · exact .throw

theorem traced_string (s : String) : Traced P t C (string s) (Known P) := by
  unfold string
  split
  · split
    · exact .pure fun _ => trivial
    · exact .throw
  · exact (quiet_newConstant (by decide) unlisted).traced

theorem mem_keyNames_of_record (h : keys ∈ t.recordKeys) (hk : k ∈ keys) : k ∈ t.keyNames := by
  obtain ⟨u, hu, hkeys⟩ := mem_filterMap.mp h
  cases u with
  | record i fields =>
    cases hkeys
    exact mem_flatMap.mpr ⟨_, hu, Term.mem_sortedNames.mp hk⟩
  | _ => cases hkeys

theorem quiet_setFields (h : keys ∈ t.recordKeys) (result : String) :
    Quiet P t C (keys.zipIdx.forM fun f => do
      useKey f.1
      emit (.setField result f.2 f.1 f.1)) fun _ => True :=
  .forM fun _ hf => (quiet_useKey (mem_keyNames_of_record h (fst_mem_of_mem_zipIdx hf))).bind fun _ =>
    quiet_emit rfl fun hC => .key hC.2 fun _ ho => (not_mem_nil ho).elim

theorem listing_recordBuilder (σ : Setting) (h : keys ∈ t.recordKeys) :
    Listing P C (recordBuilder σ keys) fun _ => True := by
  refine .bind (.still fun hrun => by cases hrun; rfl) fun p => ?_
  split
  · exact .pure fun _ => trivial
  · exact (listing_open _).bind fun _ => (listing_bind unlisted).bind fun result =>
      (quiet_setFields h result).toListing.bind fun _ => (quiet_collect (t := t) σ).toListing.bind fun _ =>
        (listing_emit fun _ => .one (a := .name result) trivial).bind fun _ =>
          (quiet_close (t := t) _).toListing.bind fun _ =>
            .bind (.still fun hrun => by cases hrun; rfl) fun _ => .pure fun _ => trivial

/-- A builder is known as soon as its function is opened, since nothing that follows looks for it. -/
theorem traced_recordBuilder (σ : Setting) (h : keys ∈ t.recordKeys) :
    Traced P t C (recordBuilder σ keys) fun _ => True := by
  refine ⟨listing_recordBuilder σ h, fun {p a p'} hrun => ?_⟩
  unfold recordBuilder at hrun
  obtain ⟨q, p1, hget, hrun⟩ := bind_returns hrun
  cases hget
  split at hrun
  · cases hrun
    exact .refl
  rename_i hnone
  obtain ⟨before, p1, hopen, hrun⟩ := bind_returns hrun
  cases hopen
  obtain ⟨result, p2, hbind, hrun⟩ := bind_returns hrun
  obtain ⟨_, p3, hfields, hrun⟩ := bind_returns hrun
  obtain ⟨_, p4, hcollect, hrun⟩ := bind_returns hrun
  obtain ⟨_, p5, hreturn, hrun⟩ := bind_returns hrun
  obtain ⟨_, p6, hclose, hrun⟩ := bind_returns hrun
  cases hrun
  let known := (keys, builderName keys) :: p.builders
  obtain ⟨s2, e2⟩ := (quiet_bind (P := P) (t := t) (C := C) unlisted).steps known hbind
  obtain ⟨s3, e3⟩ := (quiet_setFields (P := P) (C := C) h result).steps known hfields
  obtain ⟨s4, e4⟩ := (quiet_collect (P := P) (t := t) (C := C) σ).steps known hcollect
  have hlists : C → Lists P [] [.name result] := fun _ => .one trivial
  obtain ⟨s5, e5⟩ := (quiet_emit (t := t) rfl hlists).steps known hreturn
  obtain ⟨s6, e6⟩ := (quiet_close (P := P) (t := t) (C := C) _).steps known hclose
  have hsame : p6.builders = p.builders := e6.trans (e5.trans (e4.trans (e3.trans e2)))
  show ReflTransGen (Step t) p { p6 with builders := (keys, builderName keys) :: p6.builders }
  rw [hsame]
  exact .head (.builder h hnone) (s2.trans (s3.trans (s4.trans (s5.trans s6))))

end Writing

/-! ### Names of the terms inside -/

section Names
variable {t : Term}

theorem mem_functionNames {j : Nat} (h : (Term.scope i b (.assign j x v)).Inside t)
    (hv : Term.functionName? (.scope i b (.assign j x v)) = some x) : x ∈ t.functionNames :=
  mem_filterMap.mpr ⟨_, Term.mem_inside h, hv⟩

theorem mem_keyNames (h : u.Inside t) (hk : k ∈ u.ownKeys) : k ∈ t.keyNames :=
  mem_flatMap.mpr ⟨_, Term.mem_inside h, hk⟩

theorem mem_tagNames (h : (Term.variant i tag v).Inside t) : tag ∈ t.tagNames :=
  mem_filterMap.mpr ⟨_, Term.mem_inside h, rfl⟩

theorem Inside.of_part (h : u.Inside t) (hv : v ∈ u.parts) : v.Inside t := (Term.Inside.part hv .self).trans h

end Names

/-! ### Patterns -/

section Patterns
variable {t : Term} {target : Label} {found : Scope}

theorem traced_matchItems {qs : List Term} (ih : ∀ q ∈ qs, ∀ C x, Traced P t C (tryMatch σ x target q) (Knows P))
    (x : String) : Traced P t (Knows P found) (matchItems σ x target found qs) (Knows P) := by
  induction qs generalizing x found with
  | nil => exact .calls (quiet_emit rfl unlisted) fun _ => .pure id
  | cons q qs ihqs =>
    by_cases hq : ∃ i name, q = .spread i name
    · obtain ⟨i, name, rfl⟩ := hq
      unfold matchItems
      split
      · exact .pure id
      · exact .pure id
      · exact .pure fun h => h.set _ trivial
    · rw [matchItems_cons_eq fun i name h => hq ⟨i, name, h⟩]
      exact .calls (quiet_emit rfl unlisted) fun _ => .calls (quiet_bind unlisted) fun first =>
        (ih q (.head _) _ first).bind fun _ => .calls (quiet_bind unlisted) fun rest =>
          (ihqs (fun r hr => ih r (.tail _ hr)) rest).when fun h => h.1.merge h.2

theorem traced_matchFields (hkeys : ∀ f ∈ fs, f.1 ∈ t.keyNames)
    (ih : ∀ f ∈ fs, ∀ C x, Traced P t C (tryMatch σ x target f.2) (Knows P)) (x : String) (count : Nat) :
    Traced P t (Knows P found) (matchFields σ x target count found fs) (Knows P) := by
  induction fs generalizing found with
  | nil => exact .calls (quiet_emit rfl unlisted) fun _ => .pure id
  | cons f fs ihfs =>
    obtain ⟨k, q⟩ := f
    by_cases hq : ∃ i name, q = .spread i name
    · obtain ⟨i, name, rfl⟩ := hq
      unfold matchFields
      split
      · exact .pure id
      · exact .pure id
      · exact .throw
    · rw [matchFields_cons_eq fun i name h => hq ⟨i, name, h⟩]
      exact (quiet_useKey (hkeys _ (.head _))).traced.bind fun _ =>
        .calls (quiet_bind fun h => .key h.2 (forall_mem_singleton.mpr trivial)) fun value =>
          .calls (quiet_emit rfl unlisted) fun _ => (ih _ (.head _) _ value).bind fun _ =>
            (ihfs (fun g hg => hkeys g (.tail _ hg)) fun g hg => ih g (.tail _ hg)).when fun h => h.1.1.merge h.2

theorem traced_tryMatch (target : Label) (q : Term) :
    q.Inside t → ∀ C x, Traced P t C (tryMatch σ x target q) (Knows P) := by
  have hnone : Knows P [] := fun _ he => (not_mem_nil he).elim
  induction q using Term.parts_induction with
  | step q ih =>
    intro hq C x
    cases q with
    | int i n =>
      exact .after (traced_literal n) fun _ => .calls (quiet_emit rfl unlisted) fun _ => .pure fun _ => hnone
    | truth | hole => exact .calls (quiet_emit rfl unlisted) fun _ => .pure fun _ => hnone
    | var => exact .pure fun _ => forall_mem_singleton.mpr trivial
    | string i s =>
      rw [tryMatch]
      split
      · exact .calls (quiet_emit rfl unlisted) fun _ => .pure fun _ => hnone
      · exact .calls (quiet_emit rfl unlisted) fun _ => .calls (quiet_emit rfl unlisted) fun _ => .pure fun _ => hnone
    | variant i tag q =>
      have htag : Traced P t C (useTag tag) fun _ => tag ∈ P.tags := (quiet_useTag (mem_tagNames hq)).traced
      by_cases hhole : ∃ j, q = .hole j
      · obtain ⟨j, rfl⟩ := hhole
        exact htag.bind fun _ => .calls (quiet_emit rfl fun h => .one h.2) fun _ => .pure fun _ => hnone
      · rw [tryMatch]
        · exact htag.bind fun _ => .calls (quiet_emit rfl unlisted) fun _ =>
            .calls (quiet_emit rfl fun h => .one h.2) fun _ => .calls (quiet_bind unlisted) fun y =>
              ih q (.head _) (Inside.of_part hq (.head _)) _ y
        · exact fun j hj => hhole ⟨j, hj⟩
    | list i qs =>
      exact .calls (quiet_emit rfl unlisted) fun _ =>
        (traced_matchItems (fun r hr => ih r hr (Inside.of_part hq hr)) x).when fun _ => hnone
    | record i fs =>
      have hpart : ∀ f ∈ fs, f.2 ∈ (Term.record i fs).parts := fun f hf => Term.mem_parts_fields hf
      exact .calls (quiet_emit rfl unlisted) fun _ =>
        (traced_matchFields (fun f hf => mem_keyNames hq (mem_map_of_mem hf))
          (fun f hf => ih f.2 (hpart f hf) (Inside.of_part hq (hpart f hf))) x _).when fun _ => hnone
    | _ => exact .throw

end Patterns

/-! ### Functions -/

section Functions
variable {t : Term} {p p' : Progress}

theorem traced_newClosure (f : Function) : Traced P t (Knows P scope) (newClosure σ scope f) (Known P) := by
  refine .calls (quiet_bind unlisted) fun c => .after ?_ fun _ =>
    .calls (quiet_collect σ) fun _ => .pure fun _ => trivial
  generalize f.captures.zipIdx = captures
  induction captures with
  | nil => exact .pure fun _ => trivial
  | cons a captures ih =>
    refine .after ?_ fun _ => ih
    obtain ⟨x, i⟩ := a
    dsimp only
    split
    · exact (quiet_emit rfl fun h => .one (h.get? ‹_›)).traced
    · exact .throw

theorem traced_captured (captures : List (String × Nat)) (hown : Knows P own) : Traced P t C
    (captures.foldlM (fun s (x, i) => return s.set x (.name (← Compile.bind (.captured x i)))) own) (Knows P) := by
  suffices h : Traced P t (Knows P own) _ _ from h.when fun _ => hown
  clear hown
  induction captures generalizing own with
  | nil => exact .pure id
  | cons a captures ih =>
    rw [foldlM_cons]
    refine .bind (Q := Knows P) ?_ fun s => ih.when And.right
    exact .calls (quiet_bind unlisted) fun _ => .pure fun h => h.set _ trivial

theorem newName_returns (h : outcome (newName stem) p = (.ok x, p')) :
    x = madeName stem p.made ∧ p' = { p with made := p.made + 1 } := by
  cases h
  exact ⟨rfl, rfl⟩

theorem traced_freeVars (u : Term) : Traced P t C (freeVars u) fun _ => True := by
  unfold freeVars
  split
  · exact .pure fun _ => trivial
  · exact .throw

/-- The names that a function has for itself and for its parameter. -/
theorem Knows.ofFunction (param : String) (name : Option String) : Knows P (match name with
    | some x => (Dict.set [("this", .name "this")] param (.name param) : Scope).set x (.name "this")
    | none => Dict.set [("this", .name "this")] param (.name param)) := by
  have hown : Knows P (Dict.set [("this", .name "this")] param (.name param)) :=
    Knows.set (fun _ he => mem_singleton.mp he ▸ trivial) param trivial
  cases name with
  | none => exact hown
  | some x => exact hown.set x trivial

theorem listing_newName (stem : String) : Listing P C (newName stem) fun _ => True :=
  .still fun hrun => by cases hrun; rfl

section Body
variable {name : Option String} {code : Term} {param : String} {body : Scope → CompileM Unit} {a : Operand}
  (hbody : ∀ own, Traced P t (Knows P own) (body own) fun _ => True)
include hbody

theorem traced_body (f : Function) (before : Nat) (captures : List String) (hown : Knows P own) :
    Traced P t (Knows P scope) (do
      let own ← captures.zipIdx.foldlM (fun s (x, i) => return s.set x (.name (← Compile.bind (.captured x i)))) own
      body own
      closeFunction before
      if captures.isEmpty then newConstant "const_closure" (.closure f.name) else newClosure σ scope f) (Known P) := by
  refine (traced_captured _ hown).bind fun own => .after ((hbody own).when And.right) fun _ =>
    .calls (quiet_close _) fun _ => ?_
  split
  · exact (quiet_newConstant (by decide) unlisted).traced
  · exact (traced_newClosure _).when And.left

theorem listing_function : Listing P (Knows P scope) (function σ scope name code param body) (Known P) :=
  .bind (traced_freeVars (t := t) code).toListing fun _ => .bind (listing_newName _) fun _ => .bind (listing_open _)
    fun before => (traced_body hbody _ before _ (.ofFunction param name)).toListing.when fun h => h.1.1.1

theorem steps_function (hrun : outcome (function σ scope name code param body) p = (.ok a, p'))
    (hname : ∀ x, name = some x → x ∈ t.functionNames)
    (hparam : ∀ free, code.freeVars = .ok free → param ∈ t.functionParams ∨ ∃ n, n < p.made ∧ param = tempName n) :
    ReflTransGen (Step t) p p' := by
  unfold function at hrun
  obtain ⟨free, p1, hfree, hrun⟩ := bind_returns hrun
  obtain ⟨rfl, hok⟩ : p = p1 ∧ code.freeVars = .ok free := by
    unfold freeVars at hfree
    split at hfree <;> cases hfree
    exact ⟨rfl, ‹_›⟩
  obtain ⟨f, p1, hf, hrun⟩ := bind_returns hrun
  obtain ⟨rfl, rfl⟩ := newName_returns hf
  obtain ⟨before, p2, hopen, hrun⟩ := bind_returns hrun
  cases hopen
  refine .head (.function ?_ (hparam free hok)) ((traced_body hbody _ _ _ (.ofFunction param name)).steps hrun)
  split
  · exact (.head _)
  · exact (.head _)
  · exact mem_cons_of_mem _ (hname _ rfl)

end Body

end Functions

/-! ### Terms -/

section Terms
variable {t : Term} {us : List Term}

def StepsOf (P : Program) (σ : Setting) (t u : Term) : Prop :=
  ∀ scope name, (∀ x, name = some x → ∃ i b j, (Term.scope i b (.assign j x u)).Inside t) →
    Traced P t (Knows P scope) (compile σ scope name u) (Known P)

theorem StepsOf.unnamed (h : StepsOf P σ t u) (scope : Scope) :
    Traced P t (Knows P scope) (compile σ scope none u) (Known P) :=
  h scope none fun _ hx => by cases hx

theorem traced_areConstant (h : ∀ u ∈ us, Traced P t C (isConstant u) fun _ => True) :
    Traced P t C (areConstant us) fun _ => True := by
  induction us with
  | nil => exact .pure fun _ => trivial
  | cons u us ih =>
    refine .after (h u (.head _)) fun constant => ?_
    split
    · exact ih fun v hv => h v (.tail _ hv)
    · exact .pure fun _ => trivial

theorem traced_isConstant (u : Term) : Traced P t C (isConstant u) fun _ => True := by
  induction u using Term.parts_induction with
  | step u ih =>
    cases u with
    | variant i tag v => exact ih v (.head _)
    | list i items => exact traced_areConstant ih
    | record i fields =>
      rw [isConstant, areConstantFields_eq]
      exact traced_areConstant ih
    | function i q b => exact .after (traced_freeVars _) fun _ => .pure fun _ => trivial
    | _ => exact .pure fun _ => trivial

theorem traced_compileAll (ih : ∀ u ∈ us, StepsOf P σ t u) :
    Traced P t (Knows P scope) (compileAll σ scope us) fun xs => ∀ x ∈ xs, Known P x := by
  induction us with
  | nil => exact .pure fun _ _ hx => (not_mem_nil hx).elim
  | cons u us ihus =>
    exact ((ih u (.head _)).unnamed scope).bind fun _ =>
      .bind ((ihus fun v hv => ih v (.tail _ hv)).when And.left) fun _ =>
        .pure fun h => forall_mem_cons.mpr ⟨h.1.2, h.2⟩

theorem traced_compileFields (ih : ∀ f ∈ fs, StepsOf P σ t f.2) :
    Traced P t (Knows P scope) (compileFields σ scope fs) (Knows P) := by
  induction fs with
  | nil => exact .pure fun _ _ hx => (not_mem_nil hx).elim
  | cons f fs ihfs =>
    exact ((ih f (.head _)).unnamed scope).bind fun _ =>
      .bind ((ihfs fun g hg => ih g (.tail _ hg)).when And.left) fun _ =>
        .pure fun h => forall_mem_cons.mpr ⟨h.1.2, h.2⟩

theorem traced_compileConstantFields (hkeys : ∀ f ∈ fs, f.1 ∈ t.keyNames) (ih : ∀ f ∈ fs, StepsOf P σ t f.2) : Traced
    P t (Knows P scope) (compileConstantFields σ scope fs) fun values => values.keys ⊆ P.keys ∧ Knows P values := by
  induction fs with
  | nil => exact .pure fun _ => ⟨nil_subset _, fun _ hx => (not_mem_nil hx).elim⟩
  | cons f fs ihfs =>
    exact (quiet_useKey (hkeys f (.head _))).traced.bind fun _ =>
      .bind (((ih f (.head _)).unnamed scope).when And.left) fun _ =>
        .bind ((ihfs (fun g hg => hkeys g (.tail _ hg)) fun g hg => ih g (.tail _ hg)).when fun h => h.1.1) fun _ =>
          .pure fun h => ⟨cons_subset.mpr ⟨h.1.1.2, h.2.1⟩, forall_mem_cons.mpr ⟨h.1.2, h.2.2⟩⟩

theorem traced_compileCases {cs : List (Term × Term)} (hpatterns : ∀ c ∈ cs, c.1.Inside t)
    (ih : ∀ c ∈ cs, StepsOf P σ t c.2) (arg : String) (number : Nat) :
    Traced P t (Knows P scope) (compileCases σ scope arg number cs) fun _ => True := by
  induction cs generalizing number with
  | nil => exact .pure fun _ => trivial
  | cons c cs ihcs =>
    exact (traced_tryMatch _ c.1 (hpatterns c (.head _)) _ arg).bind fun names =>
      .bind (((ih c (.head _)).unnamed _).when fun h => h.1.merge h.2) fun _ =>
        .calls (quiet_emit rfl fun h => .one h.2) fun _ => .calls (quiet_emit rfl unlisted) fun _ =>
          (ihcs (fun d hd => hpatterns d (.tail _ hd)) (fun d hd => ih d (.tail _ hd)) _).when fun h => h.1.1

theorem stepsOf_variant (h : (Term.variant i tag v).Inside t) (ih : StepsOf P σ t v) :
    StepsOf P σ t (.variant i tag v) := by
  intro scope name _
  have htag {C : Prop} : Traced P t C (useTag tag) _ := (quiet_useTag (mem_tagNames h)).traced
  by_cases hhole : ∃ j, v = .hole j
  · obtain ⟨j, rfl⟩ := hhole
    exact htag.bind fun _ => .pure And.right
  rw [compile_variant_eq fun j hj => hhole ⟨j, hj⟩]
  refine .after (traced_isConstant v) fun constant => ?_
  split
  · exact htag.bind fun _ => .bind ((ih.unnamed scope).when And.left) fun _ =>
      (quiet_newConstant (by decide) fun h => .two (a := .tag tag) h.1.2 h.2).traced
  · exact .calls (quiet_collect σ) fun _ => htag.bind fun _ => .bind ((ih.unnamed scope).when And.left) fun _ =>
      .calls (quiet_bind fun h => .one h.1.2) fun _ => .calls (quiet_emit rfl fun h => .one h.2) fun _ =>
        .pure fun _ => trivial

theorem stepsOf_binop {op : BinaryOp} {l r : Term} (ihl : StepsOf P σ t l) (ihr : StepsOf P σ t r) :
    StepsOf P σ t (.binop i op l r) := by
  intro scope name _
  refine (ihl.unnamed scope).bind fun a => .bind ((ihr.unnamed scope).when And.left) fun b => ?_
  cases op with
  | add | mul | sub =>
    exact .calls (quiet_collect σ) fun _ => .calls (quiet_requireNumber σ l fun h => h.1.2) fun _ =>
      .calls (quiet_requireNumber σ r And.right) fun _ => .calls (quiet_bind fun h => .two h.1.2 h.2) fun _ =>
        .pure fun _ => trivial
  | listCons =>
    exact .calls (quiet_collect σ) fun _ => .calls (quiet_bind fun h => .two h.1.2 h.2) fun _ => .pure fun _ => trivial
  | stringConcat =>
    exact .calls (quiet_collect σ) fun _ => .calls (quiet_requireString σ l fun h => h.1.2) fun _ =>
      .calls (quiet_requireString σ r And.right) fun _ => .calls (quiet_bind fun h => .two h.1.2 h.2) fun _ =>
        .pure fun _ => trivial
  | _ => exact .throw

theorem stepsOf_scope {d : Term} (h : (Term.scope i b d).Inside t) (ihb : StepsOf P σ t b)
    (ihd : ∀ v ∈ d.parts, StepsOf P σ t v) : StepsOf P σ t (.scope i b d) := by
  intro scope name _
  cases d with
  | assign j x v =>
    refine (ihd v (.head _) scope (some x) fun y hy => ?_).bind fun value =>
      (ihb.unnamed _).when fun h => h.1.set x h.2
    cases hy
    exact ⟨i, b, j, h⟩
  | _ => exact .throw

theorem stepsOf_list {items : List Term} (ih : ∀ u ∈ items, StepsOf P σ t u) : StepsOf P σ t (.list i items) := by
  intro scope name _
  refine .after (traced_areConstant fun u _ => traced_isConstant u) fun constant => ?_
  split
  · exact (traced_compileAll ih).bind fun _ => (quiet_constantList And.right).traced
  · exact (traced_compileAll ih).bind fun _ => .calls (quiet_newList And.right) fun _ =>
      .calls (quiet_collect σ) fun _ => .pure fun _ => trivial

theorem compileFields_keys {p p' : Progress} {values : Dict Operand}
    (h : outcome (compileFields σ scope fs) p = (.ok values, p')) : values.keys = fs.map Prod.fst := by
  induction fs generalizing p p' values with
  | nil => cases h; rfl
  | cons f fs ih =>
    obtain ⟨x, p1, -, h⟩ := bind_returns h
    obtain ⟨rest, p2, hrest, h⟩ := bind_returns h
    cases h
    rw [Dict.keys_cons, ih hrest, map_cons]

theorem stepsOf_record (h : (Term.record i fields).Inside t) (ih : ∀ f ∈ fields, StepsOf P σ t f.2) :
    StepsOf P σ t (.record i fields) := by
  intro scope name _
  refine .after (areConstantFields_eq fields ▸ traced_areConstant fun u _ => traced_isConstant u) fun constant => ?_
  split
  · exact (traced_compileConstantFields (fun f hf => mem_keyNames h (mem_map_of_mem hf)) ih).bind
      fun _ => (quiet_newConstant (by decide) fun h => ⟨h.2.1, forall_mem_map.mpr h.2.2⟩).traced
  · refine (traced_compileFields ih).bindRun fun {values _ _} hrun => ?_
    have hrecord : Term.sortedNames values.keys ∈ t.recordKeys :=
      compileFields_keys hrun ▸ mem_filterMap.mpr ⟨_, Term.mem_inside h, rfl⟩
    refine .after (traced_recordBuilder σ hrecord) fun _ =>
      .calls (quiet_bind fun hC => ⟨nil_subset _, forall_mem_map.mpr fun k _ => ?_⟩) fun _ =>
        .pure fun _ => trivial
    cases hk : values.get? k with
    | none => trivial
    | some x => exact hC.2.get? hk

theorem stepsOf_access {o f : Term} (h : (Term.access i o f).Inside t) (ih : StepsOf P σ t o) :
    StepsOf P σ t (.access i o f) := by
  intro scope name _
  cases f with
  | var j k =>
    have hkey : k ∈ t.keyNames := mem_keyNames h (mem_singleton.mpr rfl)
    exact (ih.unnamed scope).bind fun _ => (quiet_useKey hkey).traced.bind fun _ =>
      .calls (quiet_emit rfl fun h => .one h.1.2) fun _ =>
        .calls (quiet_bind fun h => .key h.2 (forall_mem_singleton.mpr h.1.2)) fun _ =>
          .calls (quiet_emit rfl fun _ => .one trivial) fun _ => .pure fun _ => trivial
  | _ => exact .throw

theorem stepsOf_function (h : (Term.function i q b).Inside t) (ih : StepsOf P σ t b) :
    StepsOf P σ t (.function i q b) := by
  intro scope name hname
  have hbody (own : Scope) : Traced P t (Knows P own) (do emit (.return (← compile σ own none b))) fun _ => True :=
    (ih.unnamed own).bind fun _ => (quiet_emit rfl fun h => .one h.2).traced
  refine ⟨listing_function hbody, fun hrun => steps_function hbody hrun (fun x hx => ?_) fun free hfree => .inl ?_⟩
  · obtain ⟨k, c, j, hscope⟩ := hname x hx
    exact mem_functionNames hscope rfl
  · cases hq : q.paramName? with
    | some x => exact mem_filterMap.mpr ⟨_, Term.mem_inside h, hq⟩
    | none =>
      rw [Term.freeVars, hq] at hfree
      cases hfree

theorem stepsOf_matchFunction {cases : List (Term × Term)} (h : (Term.matchFunction i cases).Inside t)
    (ih : ∀ c ∈ cases, StepsOf P σ t c.2) : StepsOf P σ t (.matchFunction i cases) := by
  intro scope name hname
  have hpatterns : ∀ c ∈ cases, c.1.Inside t := fun c hc => Inside.of_part h (Term.mem_parts_cases hc).1
  have hbody (arg : String) (own : Scope) : Traced P t (Knows P own) (do
      compileCases σ own arg 1 cases
      emit .noMatch) fun _ => True :=
    .after (traced_compileCases hpatterns ih arg 1) fun _ => (quiet_emit rfl unlisted).traced
  refine ⟨.bind (listing_newName _) fun arg => (listing_function (hbody arg)).when And.left, fun {p a p'} hrun => ?_⟩
  obtain ⟨arg, p1, harg, hrun⟩ := bind_returns hrun
  obtain ⟨rfl, rfl⟩ := newName_returns harg
  refine .head .temp (steps_function (hbody _) hrun (fun x hx => ?_)
    fun _ _ => .inr ⟨p.made, Nat.lt_succ_self _, rfl⟩)
  obtain ⟨k, c, j, hscope⟩ := hname x hx
  exact mem_functionNames hscope rfl

theorem stepsOf_of_parts (hu : u.Inside t) (ih : ∀ v ∈ u.parts, StepsOf P σ t v)
    (ihparts : ∀ v ∈ u.parts, ∀ w ∈ v.parts, StepsOf P σ t w) : StepsOf P σ t u := by
  cases u with
  | int i n => exact fun _ _ _ => .after (traced_literal n) fun _ => .pure fun _ => trivial
  | truth | hole => exact fun _ _ _ => .pure fun _ => trivial
  | string i s => exact fun _ _ _ => traced_string s
  | variant => exact stepsOf_variant hu (ih _ (.head _))
  | var i x =>
    intro scope name _
    rw [compile]
    split
    · exact .pure fun h => h.get? ‹_›
    · exact .throw
  | binop => exact stepsOf_binop (ih _ (.head _)) (ih _ (.tail _ (.head _)))
  | scope => exact stepsOf_scope hu (ih _ (.head _)) (ihparts _ (.tail _ (.head _)))
  | apply =>
    exact fun scope _ _ => ((ih _ (.head _)).unnamed scope).bind fun _ =>
      .bind (((ih _ (.tail _ (.head _))).unnamed scope).when And.left) fun _ =>
        .calls (quiet_bind fun h => .two h.1.2 h.2) fun _ => .pure fun _ => trivial
  | list => exact stepsOf_list ih
  | record => exact stepsOf_record hu fun f hf => ih f.2 (Term.mem_parts_fields hf)
  | access => exact stepsOf_access hu (ih _ (.head _))
  | function => exact stepsOf_function hu (ih _ (.tail _ (.head _)))
  | matchFunction => exact stepsOf_matchFunction hu fun c hc => ih c.2 (Term.mem_parts_cases hc).2
  | _ =>
    intro scope name _
    simp only [compile]
    split <;> exact .throw

theorem stepsOf (u : Term) (hu : u.Inside t) : StepsOf P σ t u := by
  -- the value of an assignment is compiled with its scope, two levels down
  suffices h : u.Inside t → StepsOf P σ t u ∧ ∀ v ∈ u.parts, StepsOf P σ t v from (h hu).1
  clear hu
  induction u using Term.parts_induction with
  | step u ih =>
    intro hu
    have hparts : ∀ v ∈ u.parts, StepsOf P σ t v := fun v hv => (ih v hv (Inside.of_part hu hv)).1
    exact ⟨stepsOf_of_parts hu hparts fun v hv => (ih v hv (Inside.of_part hu hv)).2, hparts⟩

end Terms

theorem traced_main {t : Term} : Traced P t True (do emit (.return (← compile σ [] none t))) fun _ => True :=
  (((stepsOf t .self).unnamed []).when fun _ _ he => (not_mem_nil he).elim).bind
    fun _ => (quiet_emit rfl fun h => .one h.2).traced

section Programs
variable {t : Term} {p : Program}

theorem compiled_run (h : t.compiled σ = .ok p) :
    ∃ q, outcome (do emit (.return (← compile σ [] none t)))
      (({} : Progress).opened { name := "scrap_main", params := [] }) = (.ok (), q) ∧ q.program = p := by
  rw [compiled_eq] at h
  rcases hrun : outcome (mainCode σ t) {} with ⟨e | u, q⟩
  · rw [hrun] at h
    cases h
  · rw [hrun] at h
    cases h
    obtain ⟨_, p1, hopen, hrest⟩ := bind_returns hrun
    cases hopen
    exact ⟨q, hrest, rfl⟩

/-- A program is written by steps, from a main function without parameters. -/
theorem compiled_steps (h : t.compiled σ = .ok p) :
    ∃ q, ReflTransGen (Step t) (({} : Progress).opened { name := "scrap_main", params := [] }) q ∧ q.program = p := by
  obtain ⟨q, hrun, hq⟩ := compiled_run h
  exact ⟨q, (traced_main (P := p)).steps hrun, hq⟩

/-- A program lists all keys and tags in its code. -/
theorem compiled_listed (h : t.compiled σ = .ok p) : Listed p p := by
  obtain ⟨q, hrun, rfl⟩ := compiled_run h
  refine (traced_main.lists trivial hrun (.refl _)).2 ⟨fun f hf s hs => ?_, fun c hc => by cases hc⟩
  cases mem_singleton.mp hf
  cases mem_singleton.mp hs
  exact .nil

end Programs

end Compile

end Scrap
