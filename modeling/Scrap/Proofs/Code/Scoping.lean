import Scrap.Code.Compile
import Scrap.Proofs.Machine.Values
import Scrap.Proofs.Term.Parts

/-! # Names in scope

The free variables of a function are more than the names it needs: the field of an access counts, and the name of an
inner function that calls itself. A program closes if all that its functions capture is in scope where they stand. -/

namespace Scrap.Term

variable {fs : List (String × Term)} {cs : List (Term × Term)} {ps : List Term} {i j : Nat} {x : String} {b f t : Term}

def freeNames (t : Term) : List String :=
  match t.freeVars with
  | .ok names => names
  | .error _ => []

mutual

/-- Patterns that code can test: in a list only the last item may be a spread, in a record only the last one without a
name. -/
def isTestable : Term → Bool
  | .int _ _ | .truth _ _ | .hole _ | .string _ _ | .var _ _ => true
  | .variant _ _ p => isTestable p
  | .list _ ps => areTestable ps
  | .record _ fs => areTestableFields fs
  | _ => false

def areTestable : List Term → Bool
  | [] => true
  | .spread _ name :: ps => name ≠ some "" && ps.isEmpty
  | p :: ps => isTestable p && areTestable ps

def areTestableFields : List (String × Term) → Bool
  | [] => true
  | (_, .spread _ name) :: fs => name.isNone && fs.isEmpty
  | (_, p) :: fs => isTestable p && areTestableFields fs

end

def isCompiled : BinaryOp → Bool
  | .add | .sub | .mul | .listCons | .stringConcat => true
  | _ => false

def selfName (name : Option String) : Term → List String
  | .function _ _ _ | .matchFunction _ _ => name.toList
  | _ => []

/-- Programs of the kinds that are compiled, in which every name is bound inside or is one of `names`. -/
inductive InScope : List String → Term → Prop
  | int {names i n} : InScope names (.int i n)
  | truth {names i b} : InScope names (.truth i b)
  | hole {names i} : InScope names (.hole i)
  | string {names i s} (ascii : Text.isAscii s = true) : InScope names (.string i s)
  | var {names i x} (bound : x ∈ names) : InScope names (.var i x)
  | variant {names i tag v} (value : InScope names v) : InScope names (.variant i tag v)
  | list {names i items} (each : ∀ t ∈ items, InScope names t) : InScope names (.list i items)
  | record {names i} {fields : List (String × Term)} (each : ∀ f ∈ fields, InScope names f.2) :
    InScope names (.record i fields)
  | binop {names i op l r} (compiled : isCompiled op = true) (left : InScope names l) (right : InScope names r) :
    InScope names (.binop i op l r)
  | apply {names i f a} (func : InScope names f) (arg : InScope names a) : InScope names (.apply i f a)
  | access {names i o j k} (object : InScope names o) : InScope names (.access i o (.var j k))
  | scope {names i b j x v} (value : InScope (selfName (some x) v ++ names) v) (body : InScope (x :: names) b) :
    InScope names (.scope i b (.assign j x v))
  | function {names i j x b} (body : InScope (x :: names) b) : InScope names (.function i (.var j x) b)
  | matchFunction {names i} {cases : List (Term × Term)} (patterns : ∀ c ∈ cases, isTestable c.1 = true)
    (bodies : ∀ c ∈ cases, InScope (c.1.freeNames ++ names) c.2) : InScope names (.matchFunction i cases)

def captures (name : Option String) (t : Term) : List String := t.freeNames.filter fun x => some x ≠ name

mutual

/-- Whether what the functions in a term capture is in scope where they stand, and its integers have texts. The term is
bound to `name`. -/
def closes (names : List String) (name : Option String) : Term → Bool
  | .int _ n => (Text.intText? n).isSome
  | .variant _ _ v => closes names none v
  | .list _ items => allClose names items
  | .record _ fields => fieldsClose names fields
  | .binop _ _ l r => closes names none l && closes names none r
  | .apply _ f a => closes names none f && closes names none a
  | .access _ o _ => closes names none o
  | .scope _ b (.assign _ x v) => closes names (some x) v && closes (x :: names) none b
  | .function i p b =>
    (captures name (.function i p b)).all names.contains &&
      closes (p.freeNames ++ (name.toList ++ names)) none b
  | .matchFunction i cases =>
    (captures name (.matchFunction i cases)).all names.contains && casesClose (name.toList ++ names) cases
  | _ => true

def allClose (names : List String) : List Term → Bool
  | [] => true
  | t :: ts => closes names none t && allClose names ts

def fieldsClose (names : List String) : List (String × Term) → Bool
  | [] => true
  | (_, t) :: fs => closes names none t && fieldsClose names fs

def casesClose (names : List String) : List (Term × Term) → Bool
  | [] => true
  | (p, b) :: cs => closes names none p && closes (p.freeNames ++ names) none b && casesClose names cs

end

section Closing
variable {names : List String} {name : Option String}

theorem allClose_cons {ts : List Term} : allClose names (t :: ts) = (closes names none t && allClose names ts) := rfl

theorem fieldsClose_cons {f : String × Term} :
    fieldsClose names (f :: fs) = (closes names none f.2 && fieldsClose names fs) := rfl

end Closing

/-! ### Patterns -/

theorem areTestable_cons {q : Term} (h : areTestable (q :: ps) = true) :
    (∃ i x, q = .spread i x ∧ x ≠ some "" ∧ ps = []) ∨ isTestable q = true ∧ areTestable ps = true := by
  cases q <;> simp_all [areTestable, isTestable]

theorem areTestableFields_cons {k : String} {q : Term} (h : areTestableFields ((k, q) :: fs) = true) :
    (∃ i, q = .spread i none ∧ fs = []) ∨ isTestable q = true ∧ areTestableFields fs = true := by
  cases q <;> simp_all [areTestableFields, isTestable]

theorem mem_areTestable (h : areTestable ps = true) {p : Term} (hp : p ∈ ps) :
    isTestable p = true ∨ ∃ i x, p = .spread i x := by
  induction ps with
  | nil => cases hp
  | cons q ps ih =>
    rcases areTestable_cons h with ⟨i, x, rfl, -, rfl⟩ | ⟨hq, hps⟩
    · exact .inr ⟨i, x, List.mem_singleton.1 hp⟩
    · rcases List.mem_cons.1 hp with rfl | hp
      · exact .inl hq
      · exact ih hps hp

theorem mem_areTestableFields (h : areTestableFields fs = true) {f : String × Term} (hf : f ∈ fs) :
    isTestable f.2 = true ∨ ∃ i x, f.2 = .spread i x := by
  induction fs with
  | nil => cases hf
  | cons g fs ih =>
    obtain ⟨k, q⟩ := g
    rcases areTestableFields_cons h with ⟨i, rfl, rfl⟩ | ⟨hq, hfs⟩
    · rw [List.mem_singleton.1 hf]
      exact .inr ⟨i, none, rfl⟩
    · rcases List.mem_cons.1 hf with rfl | hf
      · exact .inl hq
      · exact ih hfs hf

/-! ### Free variables -/

theorem freeNames_eq {names : List String} (h : t.freeVars = .ok names) : t.freeNames = names := by
  rw [freeNames, h]

def HasNames (t : Term) : Prop := t.freeVars = .ok t.freeNames

theorem HasNames.of_eq {names : List String} (h : t.freeVars = .ok names) : t.HasNames := by
  rw [HasNames, freeNames_eq h, h]

theorem freeVarsAll_eq {ts : List Term} (h : ∀ t ∈ ts, t.HasNames) : freeVarsAll ts = .ok (ts.flatMap freeNames) := by
  induction ts with
  | nil => rfl
  | cons t ts ih =>
    show (do return (← t.freeVars) ++ (← freeVarsAll ts)) = _
    rw [h t (.head _), ih fun u hu => h u (.tail _ hu)]
    rfl

theorem freeVarsFields_eq (h : ∀ f ∈ fs, f.2.HasNames) :
    freeVarsFields fs = .ok (fs.flatMap fun f => f.2.freeNames) := by
  induction fs with
  | nil => rfl
  | cons f fs ih =>
    show (do return (← f.2.freeVars) ++ (← freeVarsFields fs)) = _
    rw [h f (.head _), ih fun g hg => h g (.tail _ hg)]
    rfl

theorem freeVarsCases_eq (h : ∀ c ∈ cs, c.1.HasNames ∧ c.2.HasNames) :
    freeVarsCases cs = .ok (cs.flatMap fun c => c.2.freeNames.filter fun x => !c.1.freeNames.contains x) := by
  induction cs with
  | nil => rfl
  | cons c cs ih =>
    show (do
      let body ← c.2.freeVars
      let bound ← c.1.freeVars
      return body.filter (fun x => !bound.contains x) ++ (← freeVarsCases cs)) = _
    rw [(h c (.head _)).2, (h c (.head _)).1, ih fun d hd => h d (.tail _ hd)]
    rfl

theorem hasNames_of_testable (p : Term) : isTestable p = true → p.HasNames := by
  induction p using parts_induction with
  | step p ih =>
    intro h
    cases p with
    | int | truth | hole | string | var => rfl
    | variant i tag p => exact .of_eq (ih p (.head _) h)
    | list i ps =>
      refine .of_eq (freeVarsAll_eq fun q hq => ?_)
      rcases mem_areTestable h hq with htest | ⟨j, x, rfl⟩
      · exact ih q hq htest
      · rfl
    | record i fs =>
      refine .of_eq (freeVarsFields_eq fun f hf => ?_)
      rcases mem_areTestableFields h hf with htest | ⟨j, x, hx⟩
      · exact ih f.2 (mem_parts_fields hf) htest
      · rw [hx]
        rfl
    | _ => cases h

theorem freeNames_list (h : areTestable ps = true) : (Term.list i ps).freeNames = ps.flatMap freeNames := by
  refine freeNames_eq (freeVarsAll_eq fun p hp => ?_)
  rcases mem_areTestable h hp with htest | ⟨j, x, rfl⟩
  · exact hasNames_of_testable p htest
  · rfl

theorem freeNames_record (h : areTestableFields fs = true) :
    (Term.record i fs).freeNames = fs.flatMap fun f => f.2.freeNames := by
  refine freeNames_eq (freeVarsFields_eq fun f hf => ?_)
  rcases mem_areTestableFields h hf with htest | ⟨j, x, hx⟩
  · exact hasNames_of_testable f.2 htest
  · rw [hx]
    rfl

theorem freeVars_function (hb : b.HasNames) :
    (Term.function i (.var j x) b).freeVars = .ok (without x b.freeNames) := by
  show (do return without x (← b.freeVars)) = _
  rw [hb]
  rfl

theorem freeVars_scope {v : Term} (hb : b.HasNames) (hv : v.HasNames) :
    (Term.scope i b (.assign j x v)).freeVars = .ok (without x b.freeNames ++ v.freeNames) := by
  show (do return without x (← b.freeVars) ++ (← v.freeVars)) = _
  rw [hb, hv]
  rfl

theorem freeVars_binop {op : BinaryOp} {l r : Term} (hl : l.HasNames) (hr : r.HasNames) :
    (Term.binop i op l r).freeVars = .ok (l.freeNames ++ r.freeNames) := by
  show (do return (← l.freeVars) ++ (← r.freeVars)) = _
  rw [hl, hr]
  rfl

theorem freeVars_apply {a : Term} (hf : f.HasNames) (ha : a.HasNames) :
    (Term.apply i f a).freeVars = .ok (f.freeNames ++ a.freeNames) := by
  show (do return (← f.freeVars) ++ (← a.freeVars)) = _
  rw [hf, ha]
  rfl

theorem freeVars_access {o : Term} (ho : o.HasNames) (hf : f.HasNames) :
    (Term.access i o f).freeVars = .ok (o.freeNames ++ f.freeNames) := by
  show (do return (← o.freeVars) ++ (← f.freeVars)) = _
  rw [ho, hf]
  rfl

theorem InScope.hasNames {names : List String} (h : InScope names t) : t.HasNames := by
  induction h with
  | int | truth | hole | string | var => rfl
  | variant _ ih => exact .of_eq ih
  | list _ ih => exact .of_eq (freeVarsAll_eq ih)
  | record _ ih => exact .of_eq (freeVarsFields_eq ih)
  | binop _ _ _ ihl ihr => exact .of_eq (freeVars_binop ihl ihr)
  | apply _ _ ihf iha => exact .of_eq (freeVars_apply ihf iha)
  | access _ ih => exact .of_eq (freeVars_access ih rfl)
  | scope _ _ ihv ihb => exact .of_eq (freeVars_scope ihb ihv)
  | function _ ih => exact .of_eq (freeVars_function ih)
  | matchFunction hp _ ih => exact .of_eq (freeVarsCases_eq fun c hc => ⟨hasNames_of_testable c.1 (hp c hc), ih c hc⟩)

end Scrap.Term
