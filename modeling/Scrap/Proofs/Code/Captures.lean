import Scrap.Proofs.Code.Scoping
import Scrap.Proofs.Code.Writing
import Scrap.Proofs.Dict
import Scrap.Proofs.Term.SortedNames

/-! # Capturing names

What a function captures is looked up in the scope around it. A program in scope is compiled unless such a name is
missing there, or an integer has no text. -/

namespace Scrap.Compile

open Code List Dict

variable {names : List String} {good : Prop} {scope : Scope} {σ : Setting} {α : Type} {Q : α → Prop}
  {fs : List (String × Term)} {i j : Nat} {name : Option String} {own : Scope} {body : Scope → CompileM Unit}
  {param x : String} {code t : Term} {u : Term}

/-- How a program in scope can fail. -/
def Blocked (e : CompileError) : Prop := e = .printing .tooManyDigits ∨ ∃ x, e = .missingCapture x

/-- The computation returns something that satisfies `Q`, or it is blocked, which it is not if `good` holds. -/
structure Runs {α : Type} (good : Prop) (m : CompileM α) (Q : α → Prop) : Prop where
  returns : ∀ {p a p'}, outcome m p = (.ok a, p') → Q a
  fails : ∀ {p e p'}, outcome m p = (.error e, p') → Blocked e ∧ ¬good

namespace Runs
variable {β : Type} {good' : Prop} {m : CompileM α} {f : α → CompileM β} {R : β → Prop}

theorem pure {a : α} (h : Q a) : Runs good (Pure.pure a : CompileM α) Q where
  returns ho := by
    cases ho
    exact h
  fails ho := nomatch ho

theorem throw {e : CompileError} (he : Blocked e) (hgood : ¬good) : Runs good (throw e : CompileM α) Q where
  returns ho := nomatch ho
  fails ho := by
    cases ho
    exact ⟨he, hgood⟩

theorem bind (hm : Runs good m Q) (hf : ∀ a, Q a → Runs good (f a) R) : Runs good (m >>= f) R where
  returns ho := by
    obtain ⟨a, p, ha, ho⟩ := bind_returns ho
    exact (hf a (hm.returns ha)).returns ho
  fails {p e p'} ho := by
    rw [outcome_bind] at ho
    rcases hp : outcome m p with ⟨e' | a, p1⟩ <;> rw [hp] at ho
    · cases ho
      exact hm.fails hp
    · exact (hf a (hm.returns hp)).fails ho

theorem get {f : Progress → CompileM α} (hf : ∀ p, Runs good (f p) Q) : Runs good (MonadState.get >>= f) Q where
  returns {p _ _} ho := (hf p).returns ho
  fails {p _ _} ho := (hf p).fails ho

theorem mono {R : α → Prop} (hm : Runs good m Q) (hQ : ∀ a, Q a → R a) : Runs good m R :=
  ⟨fun ho => hQ _ (hm.returns ho), hm.fails⟩

theorem weaken (hm : Runs good' m Q) (hgood : good → good') : Runs good m Q :=
  ⟨hm.returns, fun ho => (hm.fails ho).imp_right fun hn hg => hn (hgood hg)⟩

theorem step (hm : ∀ good, Runs good m fun _ => True) (hf : ∀ a, Runs good (f a) R) : Runs good (m >>= f) R :=
  (hm good).bind fun a _ => hf a

theorem both {a b : Bool} {P R : Prop} (h : Runs (a = true ∧ b = true) m fun _ => P → R → a = true ∧ b = true) :
    Runs ((a && b) = true) m fun _ => P → R → (a && b) = true := by rwa [Bool.and_eq_true]

end Runs

/-! ### Steps that cannot fail -/

theorem runs_modify (f : Progress → Progress) (good : Prop) : Runs good (modify f : CompileM Unit) fun _ => True :=
  ⟨fun _ => trivial, fun ho => nomatch ho⟩

theorem runs_emit (s : Statement) (good : Prop) : Runs good (emit s) fun _ => True := runs_modify _ good

theorem runs_useKey (k : String) (good : Prop) : Runs good (useKey k) fun _ => True := runs_modify _ good

theorem runs_useTag (t : String) (good : Prop) : Runs good (useTag t) fun _ => True := runs_modify _ good

theorem runs_closeFunction (n : Nat) (good : Prop) : Runs good (closeFunction n) fun _ => True := runs_modify _ good

theorem runs_newName (stem : String) (good : Prop) : Runs good (newName stem) fun _ => True :=
  ⟨fun _ => trivial, fun ho => nomatch ho⟩

theorem runs_openFunction (f : Function) (good : Prop) : Runs good (openFunction f) fun _ => True :=
  ⟨fun _ => trivial, fun ho => nomatch ho⟩

theorem runs_bind (c : Call) (good : Prop) : Runs good (Compile.bind c) fun _ => True :=
  .step (runs_newName _) fun _ => .step (runs_emit _) fun _ => .pure trivial

theorem runs_collect (σ : Setting) (good : Prop) : Runs good (collect σ) fun _ => True := by
  unfold collect
  split
  · exact runs_emit _ good
  · exact .pure trivial

theorem runs_newConstant (stem : String) (c : Constant) (good : Prop) : Runs good (newConstant stem c) fun _ => True :=
  .step (runs_newName _) fun _ => .step (runs_modify _) fun _ => .pure trivial

theorem runs_requireNumber (σ : Setting) (t : Term) (x : Operand) (good : Prop) :
    Runs good (requireNumber σ t x) fun _ => True := by
  unfold requireNumber
  split
  · exact .pure trivial
  · exact runs_emit _ good

theorem runs_requireString (σ : Setting) (t : Term) (x : Operand) (good : Prop) :
    Runs good (requireString σ t x) fun _ => True := by
  unfold requireString
  split
  · exact .pure trivial
  · exact runs_emit _ good

theorem runs_constantList (xs : List Operand) (good : Prop) : Runs good (constantList xs) fun _ => True := by
  induction xs with
  | nil => exact .pure trivial
  | cons x xs ih => exact ih.bind fun _ _ => runs_newConstant _ _ good

theorem runs_newList (xs : List Operand) (good : Prop) : Runs good (newList xs) fun _ => True := by
  induction xs with
  | nil => exact runs_bind _ good
  | cons x xs ih => exact ih.bind fun _ _ => runs_bind _ good

theorem runs_forM {f : α → CompileM Unit} {as : List α}
    (hf : ∀ a ∈ as, Runs good (f a) fun _ => Q a) : Runs good (as.forM f) fun _ => ∀ a ∈ as, Q a := by
  induction as with
  | nil => exact .pure fun _ ha => by cases ha
  | cons a as ih =>
    refine (hf a (.head _)).bind fun _ ha => (ih fun b hb => hf b (.tail _ hb)).mono fun _ has => ?_
    exact forall_mem_cons.2 ⟨ha, has⟩

theorem runs_recordBuilder (σ : Setting) (keys : List String) (good : Prop) :
    Runs good (recordBuilder σ keys) fun _ => True := by
  refine .get fun p => ?_
  split
  · exact .pure trivial
  · refine .step (runs_openFunction _) fun _ => .step (runs_bind _) fun result =>
      Runs.bind (runs_forM (Q := fun _ => True) fun f _ => ?_) fun _ _ => ?_
    · exact .step (runs_useKey _) fun _ => runs_emit _ good
    · exact .step (runs_collect σ) fun _ => .step (runs_emit _) fun _ => .step (runs_closeFunction _) fun _ =>
        .step (runs_modify _) fun _ => .pure trivial

theorem runs_string {s : String} (hs : Text.isAscii s = true) (good : Prop) : Runs good (string s) fun _ => True := by
  unfold string
  split
  · rename_i hlen
    rw [if_pos (by rwa [Text.utf8_length hs])]
    exact .pure trivial
  · exact runs_newConstant _ _ good

theorem runs_literal (n : Int) :
    Runs ((Text.intText? n).isSome = true) (literal n) fun _ => (Text.intText? n).isSome = true := by
  unfold literal
  split
  · exact .pure ‹_›
  · exact .throw (.inl rfl) ‹_›

/-! ### Patterns -/

section Patterns
variable {target : Label}

/-- A pattern is tested, and the scope it gives has its names. -/
def Tested (σ : Setting) (target : Label) (names : List String) (q : Term) : Prop :=
  ∀ x, Runs (q.closes names none = true) (tryMatch σ x target q)
    fun found => q.closes names none = true ∧ ∀ y, found.has y = true ↔ y ∈ q.freeNames

theorem matchItems_runs {qs : List Term} (hqs : Term.areTestable qs = true)
    (ih : ∀ q ∈ qs, q.isTestable = true → Tested σ target names q) (x : String) (found : Scope) :
    Runs (Term.allClose names qs = true) (matchItems σ x target found qs) fun scope =>
      Term.allClose names qs = true ∧ ∀ y, scope.has y = true ↔ found.has y = true ∨ y ∈ qs.flatMap Term.freeNames := by
  induction qs generalizing x found with
  | nil => exact .step (runs_emit _) fun _ => .pure ⟨rfl, by simp⟩
  | cons q qs ihqs =>
    rcases Term.areTestable_cons hqs with ⟨i, name, rfl, hname, rfl⟩ | ⟨hq, hqs⟩
    · cases name with
      | none => exact .pure ⟨rfl, by simp [Term.freeNames, Term.freeVars]⟩
      | some z =>
        rw [matchItems]
        · refine .pure ⟨rfl, fun y => ?_⟩
          rw [has_set, or_comm]
          simp [Term.freeNames, Term.freeVars]
        · rintro rfl
          exact hname rfl
    · have hspread : ∀ i name, q ≠ .spread i name := by
        rintro i name rfl
        cases hq
      rw [matchItems_cons_eq hspread, Term.allClose_cons, Bool.and_eq_true]
      refine .step (runs_emit _) fun _ => .step (runs_bind _) fun first =>
        ((ih q (.head _) hq first).weaken And.left).bind fun scope hq => .step (runs_bind _) fun rest => ?_
      obtain ⟨hclose, hscope⟩ := hq
      refine ((ihqs hqs (fun r hr => ih r (.tail _ hr)) rest (found.merge scope)).weaken And.right).mono ?_
      rintro scope' ⟨hclose', hscope'⟩
      refine ⟨⟨hclose, hclose'⟩, fun y => ?_⟩
      rw [hscope', has_merge, hscope, flatMap_cons, mem_append, or_assoc]

theorem matchFields_runs (hfs : Term.areTestableFields fs = true)
    (ih : ∀ f ∈ fs, f.2.isTestable = true → Tested σ target names f.2) (x : String) (count : Nat) (found : Scope) :
    Runs (Term.fieldsClose names fs = true) (matchFields σ x target count found fs) fun scope =>
      Term.fieldsClose names fs = true ∧
        ∀ y, scope.has y = true ↔ found.has y = true ∨ y ∈ fs.flatMap fun f => f.2.freeNames := by
  induction fs generalizing found with
  | nil => exact .step (runs_emit _) fun _ => .pure ⟨rfl, by simp⟩
  | cons f fs ihfs =>
    obtain ⟨k, q⟩ := f
    rcases Term.areTestableFields_cons hfs with ⟨i, rfl, rfl⟩ | ⟨hq, hfs⟩
    · exact .pure ⟨rfl, by simp [Term.freeNames, Term.freeVars]⟩
    · have hspread : ∀ i name, q ≠ .spread i name := by
        rintro i name rfl
        cases hq
      rw [matchFields_cons_eq hspread, Term.fieldsClose_cons, Bool.and_eq_true]
      refine .step (runs_useKey _) fun _ => .step (runs_bind _) fun value => .step (runs_emit _) fun _ =>
        ((ih (k, q) (.head _) hq value).weaken And.left).bind fun scope hq => ?_
      obtain ⟨hclose, hscope⟩ := hq
      refine ((ihfs hfs (fun f hf => ih f (.tail _ hf)) (found.merge scope)).weaken And.right).mono ?_
      rintro scope' ⟨hclose', hscope'⟩
      refine ⟨⟨hclose, hclose'⟩, fun y => ?_⟩
      rw [hscope', has_merge, hscope, flatMap_cons, mem_append, or_assoc]

theorem tested (q : Term) : q.isTestable = true → Tested σ target names q := by
  induction q using Term.parts_induction with
  | step q ih =>
    intro hq x
    cases q with
    | int i n =>
      refine (runs_literal n).bind fun l hl => .step (runs_emit _) fun _ => .pure ⟨hl, ?_⟩
      simp [Term.freeNames, Term.freeVars, Dict.has]
    | truth | hole =>
      refine .step (runs_emit _) fun _ => .pure ⟨rfl, ?_⟩
      simp [Term.freeNames, Term.freeVars, Dict.has]
    | var i y =>
      refine .pure ⟨rfl, fun z => ?_⟩
      rw [has_cons]
      simp [Term.freeNames, Term.freeVars, Dict.has]
    | string i t =>
      have hnone : ∀ y, Dict.has ([] : Scope) y = true ↔ y ∈ (Term.string i t).freeNames := by
        simp [Term.freeNames, Term.freeVars, Dict.has]
      rw [tryMatch]
      split
      · exact .step (runs_emit _) fun _ => .pure ⟨rfl, hnone⟩
      · exact .step (runs_emit _) fun _ => .step (runs_emit _) fun _ => .pure ⟨rfl, hnone⟩
    | variant i tag q =>
      by_cases hhole : ∃ j, q = .hole j
      · obtain ⟨j, rfl⟩ := hhole
        refine .step (runs_useTag _) fun _ => .step (runs_emit _) fun _ => .pure ⟨rfl, ?_⟩
        simp [Term.freeNames, Term.freeVars, Dict.has]
      · have hcontent := ih q (.head _) hq
        rw [tryMatch]
        · exact .step (runs_useTag _) fun _ => .step (runs_emit _) fun _ => .step (runs_emit _) fun _ =>
            .step (runs_bind _) fun y => hcontent y
        · exact fun j hj => hhole ⟨j, hj⟩
    | list i qs =>
      refine .step (runs_emit _) fun _ => (matchItems_runs hq ih x []).mono ?_
      rintro scope ⟨hclose, hscope⟩
      refine ⟨hclose, fun y => ?_⟩
      rw [hscope, Term.freeNames_list hq]
      simp [Dict.has]
    | record i fs =>
      refine .step (runs_emit _) fun _ =>
        (matchFields_runs hq (fun f hf => ih f.2 (Term.mem_parts_fields hf)) x _ []).mono ?_
      rintro scope ⟨hclose, hscope⟩
      refine ⟨hclose, fun y => ?_⟩
      rw [hscope, Term.freeNames_record hq]
      simp [Dict.has]
    | _ => cases hq

end Patterns

/-! ### Functions -/

theorem freeVars_eq (h : t.HasNames) : freeVars t = Pure.pure t.freeNames := by
  rw [freeVars, h]

theorem runs_newTemp (good : Prop) : Runs good (newName "tmp") fun x => ∃ k, x = tempName k :=
  ⟨fun {p _ _} ho => ⟨p.made, by cases ho; rfl⟩, fun ho => nomatch ho⟩

theorem runs_newClosure {f : Function} (hgood : good → ∀ x ∈ f.captures, scope.has x = true) :
    Runs good (newClosure σ scope f) fun _ => ∀ x ∈ f.captures, scope.has x = true := by
  refine .step (runs_bind _) fun c => Runs.bind (Q := fun _ => ∀ a ∈ f.captures.zipIdx, scope.has a.1 = true)
    (runs_forM ?_) fun _ h => .step (runs_collect σ) fun _ => .pure fun x hx => ?_
  · rintro ⟨x, i⟩ hx
    have hmem : x ∈ f.captures := fst_mem_of_mem_zipIdx hx
    dsimp only
    cases hget : scope.get? x with
    | none =>
      refine .throw (.inr ⟨x, rfl⟩) fun hg => ?_
      have hhas := hgood hg x hmem
      rw [Dict.has, hget] at hhas
      cases hhas
    | some v => exact (runs_emit _ good).mono fun _ _ => by rw [Dict.has, hget]; rfl
  · rw [← zipIdx_map_fst 0 f.captures] at hx
    obtain ⟨a, ha, rfl⟩ := mem_map.1 hx
    exact h a ha

theorem runs_captured (own : Scope) (as : List (String × Nat)) :
    Runs good (as.foldlM (fun s (x, i) => return s.set x (.name (← Compile.bind (.captured x i)))) own)
      fun s => ∀ y, s.has y = true ↔ own.has y = true ∨ y ∈ as.map Prod.fst := by
  induction as generalizing own with
  | nil => exact .pure (by simp)
  | cons a as ih =>
    obtain ⟨x, i⟩ := a
    rw [foldlM_cons]
    refine Runs.bind (Q := fun s => ∀ y, s.has y = true ↔ y = x ∨ own.has y = true) ?_ fun s hs => (ih s).mono ?_
    · exact .step (runs_bind _) fun c => .pure fun y => has_set _ _ _ _
    · intro s' hs' y
      rw [hs', hs, map_cons, mem_cons]
      tauto

/-- The scope inside of a function: itself, its parameter, its own name, and what it captures. -/
def Own (own : Scope) (name : Option String) (code : Term) (param : String) : Prop :=
  ∀ x, own.has x = true ↔ x = "this" ∨ x = param ∨ some x = name ∨ x ∈ code.captures name

/-- A function is compiled if its body is, in the scope of what it knows, and what it captures is there. -/
theorem runs_function {done : Prop} (hcode : code.HasNames)
    (hgood : good → ∀ x ∈ code.captures name, scope.has x = true)
    (hbody : ∀ own, Own own name code param → Runs good (body own) fun _ => done) :
    Runs good (function σ scope name code param body) fun _ =>
      done ∧ ∀ x ∈ code.captures name, scope.has x = true := by
  have hcaptures : ∀ x, x ∈ Term.sortedNames (code.freeNames.filter fun x => some x ≠ name) ↔ x ∈ code.captures name :=
    fun x => Term.mem_sortedNames
  unfold function
  rw [freeVars_eq hcode, pure_bind]
  refine .step (runs_newName _) fun f => .step (runs_openFunction _) fun before =>
    (runs_captured _ _).bind fun own hown => (hbody own fun x => ?_).bind fun _ hdone =>
      .step (runs_closeFunction _) fun _ => ?_
  · rw [hown, zipIdx_map_fst, hcaptures]
    cases name with
    | none =>
      simp only [has_set, has_cons, has_nil, Bool.false_eq_true, reduceCtorEq]
      tauto
    | some z =>
      simp only [has_set, has_cons, has_nil, Bool.false_eq_true, Option.some.injEq]
      tauto
  · split
    · rename_i hempty
      refine (runs_newConstant _ _ good).mono fun _ _ => ⟨hdone, fun x hx => ?_⟩
      rw [← hcaptures, List.isEmpty_iff.1 hempty] at hx
      cases hx
    · refine (runs_newClosure fun hg x hx => hgood hg x ((hcaptures x).1 hx)).mono fun _ h => ⟨hdone, fun x hx => ?_⟩
      exact h x ((hcaptures x).2 hx)

/-! ### Terms -/

/-- The scope has the free variables of the term that are among `names`. -/
def Covers (scope : Scope) (names : List String) (t : Term) : Prop :=
  ∀ x ∈ t.freeNames, x ∈ names → scope.has x = true

/-- The names that compilation puts into scopes by itself. -/
def IsMade (x : String) : Prop := x = "this" ∨ ∃ k, x = tempName k

/-- All names of the scope are among `names`, but for those that are made. -/
def Within (scope : Scope) (names : List String) : Prop := ∀ x, scope.has x = true → x ∈ names ∨ IsMade x

/-- No free variable of the term, or of a term inside, is a name that is made. -/
def Unmade (t : Term) : Prop := ∀ u : Term, u.Inside t → ∀ x ∈ u.freeNames, ¬IsMade x

theorem Own.has_of_free (h : Own own name code param) (hx : x ∈ code.freeNames) : own.has x = true := by
  by_cases hself : some x = name
  · exact (h x).2 (.inr (.inr (.inl hself)))
  · exact (h x).2 (.inr (.inr (.inr (mem_filter.2 ⟨hx, by simpa using hself⟩))))

theorem Own.within {inner : List String} (h : Own own name code param)
    (hall : (code.captures name).all names.contains = true) (hparam : param ∈ inner ∨ IsMade param)
    (hinner : name.toList ++ names ⊆ inner) : Within own inner := by
  intro x hx
  rcases (h x).1 hx with rfl | rfl | rfl | hx
  · exact .inr (.inl rfl)
  · exact hparam
  · exact .inl (hinner (by simp))
  · have hmem : x ∈ names := by simpa using all_eq_true.1 hall x hx
    exact .inl (hinner (mem_append_right _ hmem))

theorem Unmade.part (h : Unmade t) (hu : u ∈ t.parts) : Unmade u := fun v hv => h v (.part hu hv)

/-- In every scope that has what it needs, the term is compiled if it closes, and only then if the scope has no other
names. -/
def Compiles (σ : Setting) (names : List String) (name : Option String) (t : Term) : Prop :=
  ∀ scope, Covers scope names t → Runs (t.closes names name = true) (compile σ scope name t) fun _ =>
    Within scope names → Unmade t → t.closes names name = true

section Terms
variable {ts : List Term} {b v l r : Term}

theorem selfName_none_append (t : Term) (names : List String) : names = t.selfName none ++ names := by
  cases t <;> rfl

theorem Covers.part (h : Covers scope names t) (hu : u.freeNames ⊆ t.freeNames) : Covers scope names u :=
  fun x hx => h x (hu hx)

theorem areConstant_runs (h : ∀ t ∈ ts, Runs good (isConstant t) fun _ => True) :
    Runs good (areConstant ts) fun _ => True := by
  induction ts with
  | nil => exact .pure trivial
  | cons t ts ih =>
    refine (h t (.head _)).bind fun constant _ => ?_
    split
    · exact ih fun u hu => h u (.tail _ hu)
    · exact .pure trivial

theorem isConstant_runs (h : Term.InScope names t) (good : Prop) : Runs good (isConstant t) fun _ => True := by
  induction h with
  | int | truth | hole | string => exact .pure trivial
  | variant _ ih => exact ih
  | list _ ih => exact areConstant_runs ih
  | record _ ih =>
    rw [isConstant, areConstantFields_eq]
    exact areConstant_runs (forall_mem_map.mpr ih)
  | function hb =>
    rw [isConstant, freeVars_eq (Term.InScope.function hb).hasNames]
    exact .pure trivial
  | _ => exact .pure trivial

theorem compileAll_runs (ih : ∀ t ∈ ts, Compiles σ names none t) (hcovers : ∀ t ∈ ts, Covers scope names t) :
    Runs (Term.allClose names ts = true) (compileAll σ scope ts) fun _ =>
      Within scope names → (∀ t ∈ ts, Unmade t) → Term.allClose names ts = true := by
  induction ts with
  | nil => exact .pure fun _ _ => rfl
  | cons t ts ihts =>
    rw [Term.allClose_cons, Bool.and_eq_true]
    refine ((ih t (.head _) scope (hcovers t (.head _))).weaken And.left).bind fun _ ht =>
      ((ihts (fun u hu => ih u (.tail _ hu)) fun u hu => hcovers u (.tail _ hu)).weaken And.right).bind fun _ hts =>
        .pure fun hw hu => ?_
    exact ⟨ht hw (hu t (.head _)), hts hw fun u hmem => hu u (.tail _ hmem)⟩

theorem fields_run {m : List (String × Term) → CompileM (Dict Operand)} {key : String → CompileM Unit}
    (hkey : ∀ k good, Runs good (key k) fun _ => True) (hnil : m [] = return [])
    (hcons : ∀ f fs, m (f :: fs) = do
      key f.1
      let x ← compile σ scope none f.2
      return (f.1, x) :: (← m fs))
    (ih : ∀ f ∈ fs, Compiles σ names none f.2) (hcovers : ∀ f ∈ fs, Covers scope names f.2) :
    Runs (Term.fieldsClose names fs = true) (m fs) fun _ =>
      Within scope names → (∀ f ∈ fs, Unmade f.2) → Term.fieldsClose names fs = true := by
  induction fs with
  | nil =>
    rw [hnil]
    exact .pure fun _ _ => rfl
  | cons f fs ihfs =>
    rw [Term.fieldsClose_cons, Bool.and_eq_true, hcons]
    refine .step (hkey _) fun _ => ((ih f (.head _) scope (hcovers f (.head _))).weaken And.left).bind fun _ hf =>
      ((ihfs (fun g hg => ih g (.tail _ hg)) fun g hg => hcovers g (.tail _ hg)).weaken And.right).bind fun _ hfs =>
        .pure fun hw hu => ?_
    exact ⟨hf hw (hu f (.head _)), hfs hw fun g hmem => hu g (.tail _ hmem)⟩

theorem compileCases_runs {arg : String} {cs : List (Term × Term)} (number : Nat)
    (hpatterns : ∀ c ∈ cs, c.1.isTestable = true) (ih : ∀ c ∈ cs, Compiles σ (c.1.freeNames ++ names) none c.2)
    (hcovers : ∀ c ∈ cs, ∀ x ∈ c.2.freeNames, x ∉ c.1.freeNames → x ∈ names → own.has x = true) :
    Runs (Term.casesClose names cs = true) (compileCases σ own arg number cs) fun _ =>
      Within own names → (∀ c ∈ cs, Unmade c.2) → Term.casesClose names cs = true := by
  induction cs generalizing number with
  | nil => exact .pure fun _ _ => rfl
  | cons c cs ihcs =>
    obtain ⟨p, b⟩ := c
    rw [Term.casesClose, Bool.and_eq_true, Bool.and_eq_true]
    refine ((tested p (hpatterns _ (.head _)) arg).weaken fun h => h.1.1).bind fun found hpattern => ?_
    obtain ⟨hp, hfound⟩ := hpattern
    have hbody : Covers (own.merge found) (p.freeNames ++ names) b := by
      intro x hx hmem
      rw [has_merge, hfound]
      by_cases hbound : x ∈ p.freeNames
      · exact .inr hbound
      · exact .inl (hcovers _ (.head _) x hx hbound ((mem_append.1 hmem).resolve_left hbound))
    refine ((ih _ (.head _) _ hbody).weaken fun h => h.1.2).bind fun _ hb => .step (runs_emit _) fun _ =>
      .step (runs_emit _) fun _ => ((ihcs (number + 1) (fun d hd => hpatterns d (.tail _ hd))
        (fun d hd => ih d (.tail _ hd)) fun d hd => hcovers d (.tail _ hd)).weaken And.right).mono fun _ hcs hw hu => ?_
    have hwithin : Within (own.merge found) (p.freeNames ++ names) := by
      intro x hx
      rw [has_merge, hfound] at hx
      rcases hx with hx | hx
      · exact (hw x hx).imp_left (mem_append_right _)
      · exact .inl (mem_append_left _ hx)
    exact ⟨⟨hp, hb hwithin (hu _ (.head _))⟩, hcs hw fun d hd => hu d (.tail _ hd)⟩

theorem runs_capturing {inner : Prop} (hcode : code.HasNames) (hcovers : Covers scope names code)
    (hgood : good → (code.captures name).all names.contains = true)
    (hbody : ∀ own, Own own name code param → Runs good (body own) fun _ =>
      (code.captures name).all names.contains = true → Unmade code → inner) :
    Runs good (function σ scope name code param body) fun _ => Within scope names → Unmade code →
      (code.captures name).all names.contains = true ∧ inner := by
  have hmem : ∀ x ∈ code.captures name, x ∈ code.freeNames := fun x hx => mem_of_mem_filter hx
  refine (runs_function hcode (fun hg x hx => ?_) hbody).mono fun _ ⟨hinner, hhas⟩ hw hu => ?_
  · have hall := all_eq_true.1 (hgood hg) x hx
    exact hcovers x (hmem x hx) (by simpa using hall)
  · -- what was captured was found in the scope, and is none of the names that are made
    have hall : (code.captures name).all names.contains = true := by
      refine all_eq_true.2 fun x hx => ?_
      have hin := (hw x (hhas x hx)).resolve_right (hu code .self x (hmem x hx))
      simpa using hin
    exact ⟨hall, hinner hall hu⟩

theorem compiles_function (hb : Term.InScope (x :: (name.toList ++ names)) b)
    (ih : Compiles σ (x :: (name.toList ++ names)) none b) : Compiles σ names name (.function i (.var j x) b) := by
  intro scope hcovers
  have hcode : (Term.function i (.var j x) b).HasNames := (Term.InScope.function hb).hasNames
  have hnames : (Term.function i (.var j x) b).freeNames = Term.without x b.freeNames :=
    Term.freeNames_eq (Term.freeVars_function hb.hasNames)
  refine .both ?_
  refine runs_capturing hcode hcovers And.left fun own hown => ?_
  have hbody : Covers own (x :: (name.toList ++ names)) b := by
    intro y hy _
    by_cases hx : y = x
    · exact (hown y).2 (.inr (.inl hx))
    · refine hown.has_of_free ?_
      rw [hnames]
      exact mem_filter.2 ⟨hy, by simpa using hx⟩
  refine ((ih own hbody).weaken And.right).bind fun _ hclose => (runs_emit _ _).mono fun _ _ hall hu => ?_
  exact hclose (hown.within hall (.inl (.head _)) (subset_cons_self _ _)) (hu.part (.tail _ (.head _)))

theorem compiles_matchFunction {cases : List (Term × Term)} (hp : ∀ c ∈ cases, c.1.isTestable = true)
    (hb : ∀ c ∈ cases, Term.InScope (c.1.freeNames ++ (name.toList ++ names)) c.2)
    (ih : ∀ c ∈ cases, Compiles σ (c.1.freeNames ++ (name.toList ++ names)) none c.2) :
    Compiles σ names name (.matchFunction i cases) := by
  intro scope hcovers
  have hcode : (Term.matchFunction i cases).HasNames := (Term.InScope.matchFunction hp hb).hasNames
  have hnames : (Term.matchFunction i cases).freeNames =
      cases.flatMap fun c => c.2.freeNames.filter fun x => !c.1.freeNames.contains x :=
    Term.freeNames_eq (Term.freeVarsCases_eq fun c hc => ⟨Term.hasNames_of_testable c.1 (hp c hc), (hb c hc).hasNames⟩)
  refine .both ?_
  refine (runs_newTemp _).bind fun arg harg => runs_capturing hcode hcovers And.left fun own hown => ?_
  have hbodies : ∀ c ∈ cases, ∀ x ∈ c.2.freeNames, x ∉ c.1.freeNames → x ∈ name.toList ++ names → own.has x = true := by
    intro c hc y hy hfree _
    refine hown.has_of_free ?_
    rw [hnames]
    exact mem_flatMap.2 ⟨c, hc, mem_filter.2 ⟨hy, by simpa using hfree⟩⟩
  refine ((compileCases_runs 1 hp ih hbodies).weaken And.right).bind fun _ hclose =>
    (runs_emit _ _).mono fun _ _ hall hu => ?_
  have hwithin : Within own (name.toList ++ names) := hown.within hall (.inr (.inr harg)) (List.Subset.refl _)
  exact hclose hwithin fun c hc => hu.part (Term.mem_parts_cases hc).2

theorem compiles_scope (hv : v.HasNames) (hb : b.HasNames) (ihv : Compiles σ names (some x) v)
    (ihb : Compiles σ (x :: names) none b) : Compiles σ names name (.scope i b (.assign j x v)) := by
  intro scope hcovers
  have hnames : (Term.scope i b (.assign j x v)).freeNames = Term.without x b.freeNames ++ v.freeNames :=
    Term.freeNames_eq (Term.freeVars_scope hb hv)
  have hvalue : Covers scope names v := hcovers.part (hnames ▸ subset_append_right _ _)
  refine .both ?_
  refine ((ihv scope hvalue).weaken And.left).bind fun value hclose => ?_
  have hbody : Covers (scope.set x value) (x :: names) b := by
    intro y hy hmem
    rw [has_set]
    by_cases hx : y = x
    · exact .inl hx
    · refine .inr (hcovers y ?_ ((mem_cons.1 hmem).resolve_left hx))
      rw [hnames]
      exact mem_append_left _ (mem_filter.2 ⟨hy, by simpa using hx⟩)
  refine ((ihb _ hbody).weaken And.right).mono fun _ hclose' hw hu => ⟨hclose hw ?_, hclose' (fun y hy => ?_) ?_⟩
  · exact (hu.part (.tail _ (.head _))).part (.head _)
  · rcases (has_set _ _ _ _).1 hy with rfl | hy
    · exact .inl (.head _)
    · exact (hw y hy).imp_left (.tail _)
  · exact hu.part (.head _)

theorem compiles_variant {tag : String} (hv : Term.InScope names v) (ih : Compiles σ names none v) :
    Compiles σ names name (.variant i tag v) := by
  intro scope hcovers
  by_cases hhole : ∃ j, v = .hole j
  · obtain ⟨j, rfl⟩ := hhole
    exact .step (runs_useTag _) fun _ => .pure fun _ _ => rfl
  have hvalue : Runs (v.closes names none = true) (compile σ scope none v) fun _ =>
      Within scope names → Unmade (.variant i tag v) → v.closes names none = true :=
    (ih scope hcovers).mono fun _ h hw hu => h hw (hu.part (.head _))
  rw [compile_variant_eq fun j hj => hhole ⟨j, hj⟩]
  refine (isConstant_runs hv _).bind fun constant _ => ?_
  split
  · exact .step (runs_useTag _) fun _ => hvalue.bind fun _ h => (runs_newConstant _ _ _).mono fun _ _ => h
  · exact .step (runs_collect σ) fun _ => .step (runs_useTag _) fun _ => hvalue.bind fun _ h =>
      .step (runs_bind _) fun _ => .step (runs_emit _) fun _ => .pure h

theorem compiles_list {items : List Term} (hitems : ∀ t ∈ items, Term.InScope names t)
    (ih : ∀ t ∈ items, Compiles σ names none t) : Compiles σ names name (.list i items) := by
  intro scope hcovers
  have hnames : (Term.list i items).freeNames = items.flatMap Term.freeNames :=
    Term.freeNames_eq (Term.freeVarsAll_eq fun t ht => (hitems t ht).hasNames)
  have heach : ∀ t ∈ items, Covers scope names t := fun t ht =>
    hcovers.part fun x hx => hnames ▸ mem_flatMap.2 ⟨t, ht, hx⟩
  have hall := (compileAll_runs ih heach).mono fun _ h hw (hu : Unmade (.list i items)) =>
    h hw fun t ht => hu.part ht
  refine (areConstant_runs fun t ht => isConstant_runs (hitems t ht) _).bind fun constant _ => ?_
  split
  · exact hall.bind fun _ h => (runs_constantList _ _).mono fun _ _ => h
  · exact hall.bind fun _ h => .step (runs_newList _) fun _ => .step (runs_collect σ) fun _ => .pure h

theorem compiles_record {fields : List (String × Term)} (hfields : ∀ f ∈ fields, Term.InScope names f.2)
    (ih : ∀ f ∈ fields, Compiles σ names none f.2) : Compiles σ names name (.record i fields) := by
  intro scope hcovers
  have hnames : (Term.record i fields).freeNames = fields.flatMap fun f => f.2.freeNames :=
    Term.freeNames_eq (Term.freeVarsFields_eq fun f hf => (hfields f hf).hasNames)
  have heach : ∀ f ∈ fields, Covers scope names f.2 := fun f hf =>
    hcovers.part fun x hx => hnames ▸ mem_flatMap.2 ⟨f, hf, hx⟩
  have hunmade : Unmade (.record i fields) → ∀ f ∈ fields, Unmade f.2 := fun hu f hf =>
    hu.part (Term.mem_parts_fields hf)
  have hconstant (good : Prop) : Runs good (areConstantFields fields) fun _ => True :=
    areConstantFields_eq fields ▸ areConstant_runs (forall_mem_map.mpr fun f hf => isConstant_runs (hfields f hf) good)
  refine .step hconstant fun constant => ?_
  split
  · have hconstant := fields_run (m := compileConstantFields σ scope) runs_useKey rfl (fun _ _ => rfl) ih heach
    exact hconstant.bind fun _ h => (runs_newConstant _ _ _).mono fun _ _ hw hu => h hw (hunmade hu)
  · have hcomputed := fields_run (m := compileFields σ scope) (fun _ _ => Runs.pure (a := ()) trivial) rfl
      (fun _ _ => rfl) ih heach
    exact hcomputed.bind fun _ h => .step (runs_recordBuilder σ _) fun _ => .step (runs_bind _) fun _ =>
      .pure fun hw hu => h hw (hunmade hu)

theorem runs_two {rest : Operand → Operand → CompileM Operand} (hl : l ∈ t.parts) (hr : r ∈ t.parts)
    (hnames : t.freeNames = l.freeNames ++ r.freeNames) (hcovers : Covers scope names t)
    (ihl : Compiles σ names none l) (ihr : Compiles σ names none r)
    (hrest : ∀ a b good, Runs good (rest a b) fun _ => True) :
    Runs ((l.closes names none && r.closes names none) = true)
      (do
        let a ← compile σ scope none l
        let b ← compile σ scope none r
        rest a b)
      fun _ => Within scope names → Unmade t → (l.closes names none && r.closes names none) = true := by
  have hleft : Covers scope names l := hcovers.part (hnames ▸ subset_append_left _ _)
  have hright : Covers scope names r := hcovers.part (hnames ▸ subset_append_right _ _)
  refine .both ?_
  refine ((ihl scope hleft).weaken And.left).bind fun a ha => ((ihr scope hright).weaken And.right).bind fun b hb => ?_
  exact (hrest a b _).mono fun _ _ hw hu => ⟨ha hw (hu.part hl), hb hw (hu.part hr)⟩

theorem compiles_binop {op : BinaryOp} (hop : Term.isCompiled op = true) (hl : l.HasNames) (hr : r.HasNames)
    (ihl : Compiles σ names none l) (ihr : Compiles σ names none r) : Compiles σ names name (.binop i op l r) := by
  intro scope hcovers
  have hnames : (Term.binop i op l r).freeNames = l.freeNames ++ r.freeNames :=
    Term.freeNames_eq (Term.freeVars_binop hl hr)
  refine runs_two (.head _) (.tail _ (.head _)) hnames hcovers ihl ihr fun a b good => ?_
  cases op with
  | add | mul | sub =>
    exact .step (runs_collect σ) fun _ => .step (runs_requireNumber σ l a) fun _ => .step (runs_requireNumber σ r b)
      fun _ => .step (runs_bind _) fun _ => .pure trivial
  | listCons => exact .step (runs_collect σ) fun _ => .step (runs_bind _) fun _ => .pure trivial
  | stringConcat =>
    exact .step (runs_collect σ) fun _ => .step (runs_requireString σ l a) fun _ => .step (runs_requireString σ r b)
      fun _ => .step (runs_bind _) fun _ => .pure trivial
  | _ => cases hop

theorem compiles_apply {f a : Term} (hf : f.HasNames) (ha : a.HasNames) (ihf : Compiles σ names none f)
    (iha : Compiles σ names none a) : Compiles σ names name (.apply i f a) := by
  intro scope hcovers
  have hnames : (Term.apply i f a).freeNames = f.freeNames ++ a.freeNames :=
    Term.freeNames_eq (Term.freeVars_apply hf ha)
  exact runs_two (.head _) (.tail _ (.head _)) hnames hcovers ihf iha fun _ _ _ =>
    .step (runs_bind _) fun _ => .pure trivial

theorem compiles_access {o : Term} {k : String} (ho : o.HasNames) (ih : Compiles σ names none o) :
    Compiles σ names name (.access i o (.var j k)) := by
  intro scope hcovers
  have hnames : (Term.access i o (.var j k)).freeNames = o.freeNames ++ [k] :=
    Term.freeNames_eq (Term.freeVars_access ho rfl)
  exact (ih scope (hcovers.part (hnames ▸ subset_append_left _ _))).bind fun _ h => .step (runs_useKey _) fun _ =>
    .step (runs_emit _) fun _ => .step (runs_bind _) fun _ => .step (runs_emit _) fun _ =>
      .pure fun hw hu => h hw (hu.part (.head _))

/-- Every term in scope is compiled if and only if it closes, in a scope of what it needs and nothing else. -/
theorem compiles {bound : List String} (h : Term.InScope bound t) :
    ∀ {names name}, bound = t.selfName name ++ names → Compiles σ names name t := by
  induction h with
  | int =>
    rintro names name - scope -
    exact (runs_literal _).bind fun _ h => .pure fun _ _ => h
  | truth | hole =>
    rintro names name - scope -
    exact .pure fun _ _ => rfl
  | string hs =>
    rintro names name - scope -
    exact (runs_string hs _).mono fun _ _ _ _ => rfl
  | @var _ i x hx =>
    rintro names name rfl scope hcovers
    have hhas := hcovers x (.head _) hx
    obtain ⟨v, hget⟩ := Option.isSome_iff_exists.1 hhas
    rw [compile, hget]
    exact .pure fun _ _ => rfl
  | variant hv ih =>
    rintro names name rfl
    exact compiles_variant hv (ih (selfName_none_append _ _))
  | list hitems ih =>
    rintro names name rfl
    exact compiles_list hitems fun t ht => ih t ht (selfName_none_append _ _)
  | record hfields ih =>
    rintro names name rfl
    exact compiles_record hfields fun f hf => ih f hf (selfName_none_append _ _)
  | binop hop hl hr ihl ihr =>
    rintro names name rfl
    exact compiles_binop hop hl.hasNames hr.hasNames (ihl (selfName_none_append _ _)) (ihr (selfName_none_append _ _))
  | apply hf ha ihf iha =>
    rintro names name rfl
    exact compiles_apply hf.hasNames ha.hasNames (ihf (selfName_none_append _ _)) (iha (selfName_none_append _ _))
  | access ho ih =>
    rintro names name rfl
    exact compiles_access ho.hasNames (ih (selfName_none_append _ _))
  | scope hv hb ihv ihb =>
    rintro names name rfl
    exact compiles_scope hv.hasNames hb.hasNames (ihv rfl) (ihb (selfName_none_append _ _))
  | function hb ih =>
    rintro names name rfl
    exact compiles_function hb (ih (selfName_none_append _ _))
  | matchFunction hp hb ih =>
    rintro names name rfl
    exact compiles_matchFunction hp hb fun c hc => ih c hc (selfName_none_append _ _)

end Terms

/-! ### Programs -/

def mainCode (σ : Setting) (t : Term) : CompileM Unit := do
  discard (openFunction { name := "scrap_main", params := [] })
  emit (.return (← compile σ [] none t))

theorem compiled_eq (σ : Setting) (t : Term) :
    t.compiled σ = (outcome (mainCode σ t) {}).1.map fun _ => (outcome (mainCode σ t) {}).2.program := rfl

theorem mainCode_runs (σ : Setting) (h : t.InScope []) :
    Runs (t.closes [] none = true) (mainCode σ t) fun _ => Unmade t → t.closes [] none = true :=
  .step (fun _ => ⟨fun _ => trivial, fun ho => nomatch ho⟩) fun _ =>
    (compiles h (selfName_none_append t []) [] nofun).bind fun _ hv => (runs_emit _ _).mono fun _ _ hu => hv nofun hu

/-- A program whose names are all bound is compiled if it closes. If it does not, it is blocked, or it uses names that
compilation makes itself. It never fails for another reason. -/
theorem compiled_iff_closes (σ : Setting) {t : Term} (h : t.InScope []) :
    (t.closes [] none = true → ∃ p, t.compiled σ = .ok p) ∧
      (∀ e, t.compiled σ = .error e → Blocked e ∧ t.closes [] none = false) ∧
      (Unmade t → ∀ p, t.compiled σ = .ok p → t.closes [] none = true) := by
  have hmain := mainCode_runs σ h
  rw [compiled_eq]
  rcases ho : outcome (mainCode σ t) {} with ⟨e | u, p⟩
  · obtain ⟨hblocked, hopen⟩ := hmain.fails ho
    refine ⟨fun hc => absurd hc hopen, fun e' he' => ?_, fun _ p' hp' => nomatch hp'⟩
    cases he'
    exact ⟨hblocked, Bool.eq_false_iff.2 hopen⟩
  · exact ⟨fun _ => ⟨p.program, rfl⟩, fun e' he' => (nomatch he'), fun hu _ _ => hmain.returns ho hu⟩

/-- The program `f 3 . f = | 0 -> k | n -> n + f (n - 1) . k = 5`. -/
def countdown : Term :=
  .scope 0
    (.scope 0 (.apply 0 (.var 0 "f") (.int 0 3)) (.assign 0 "f" (.matchFunction 0
      [(.int 0 0, .var 0 "k"),
        (.var 0 "n", .binop 0 .add (.var 0 "n") (.apply 0 (.var 0 "f") (.binop 0 .sub (.var 0 "n") (.int 0 1))))])))
    (.assign 0 "k" (.int 0 5))

theorem countdown_inScope : countdown.InScope [] := by
  refine .scope .int (.scope (.matchFunction (by decide) ?_) (.apply (.var (by decide)) .int))
  rintro c (_ | ⟨_, _ | ⟨_, _ | _⟩⟩)
  · exact .var (by decide)
  · exact .binop rfl (.var (by decide)) (.apply (.var (by decide)) (.binop rfl (.var (by decide)) .int))

theorem countdown_compiled :
    countdown.InScope [] ∧ countdown.closes [] none = true ∧ ∃ p, countdown.compiled {} = .ok p := by
  have hcloses : countdown.closes [] none = true := by decide +kernel
  exact ⟨countdown_inScope, hcloses, (compiled_iff_closes {} countdown_inScope).1 hcloses⟩

/-- The program `(x -> x@a) {a = 1}`, whose function captures the name of the field. -/
def fieldOfParam : Term :=
  .apply 0 (.function 0 (.var 0 "x") (.access 0 (.var 0 "x") (.var 0 "a"))) (.record 0 [("a", .int 0 1)])

/-- The program `g () . g = x -> (f x . f = y -> f y)`, whose outer function captures the name of the inner one. -/
def innerLoop : Term :=
  .scope 0 (.apply 0 (.var 0 "g") (.hole 0)) (.assign 0 "g" (.function 0 (.var 0 "x")
    (.scope 0 (.apply 0 (.var 0 "f") (.var 0 "x")) (.assign 0 "f" (.function 0 (.var 0 "y")
      (.apply 0 (.var 0 "f") (.var 0 "y")))))))

def missing? : Except CompileError Program → Option String
  | .error (.missingCapture x) => some x
  | _ => none

theorem bound_programs_not_compiled :
    (fieldOfParam.InScope [] ∧ missing? (fieldOfParam.compiled {}) = some "a") ∧
      innerLoop.InScope [] ∧ missing? (innerLoop.compiled {}) = some "f" := by
  refine ⟨⟨.apply (.function (.access (.var (by decide)))) (.record ?_), by decide +kernel⟩, ?_, by decide +kernel⟩
  · rintro f (_ | ⟨_, _ | _⟩)
    exact .int
  · exact .scope (.function (.scope (.function (.apply (.var (by decide)) (.var (by decide))))
      (.apply (.var (by decide)) (.var (by decide))))) (.apply (.var (by decide)) .hole)

end Scrap.Compile
