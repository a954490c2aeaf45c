import Scrap.Proofs.Code.Writing
import Scrap.Proofs.Dict
import Scrap.Proofs.Machine.Values

/-! # Running straight-line code

Code without labels leads from one point of a run to another, whatever follows it. A test that fails sends the run off
to a label; a binding puts one word on the stack and gives it a new name. -/

namespace Scrap.Machine

open Code Compile List

variable {call : Caller} {m : Image} {made made' : Nat} {a b : Point} {s : State} {stop : Stop} {frame : Frame}
  {x : String} {w : Word}

/-! ### Points of a run -/

/-- A point of a run within a function: its local variables, the store and the stack, and the label that a jump is on
its way to. -/
structure Point where
  frame : Frame
  state : State
  skip : Option Label := none

/-- Running `code` leads from one point to another, whatever follows. -/
def Leads (m : Image) (call : Caller) (args : Dict Word) (code : List Statement) (a b : Point) : Prop :=
  ∀ rest, outcome (exec m call args a.frame a.skip (code ++ rest)) a.state =
    outcome (exec m call args b.frame b.skip rest) b.state

section
variable {args : Dict Word} {code code' : List Statement} {c : Point} {r : Requirement}

theorem Leads.refl (a : Point) : Leads m call args [] a a := fun _ => rfl

theorem Leads.trans (h : Leads m call args code a b) (h' : Leads m call args code' b c) :
    Leads m call args (code ++ code') a c := by
  intro rest
  rw [append_assoc, h, h']

def NoLabels (code : List Statement) : Prop := ∀ s ∈ code, ∀ l, s ≠ .label l

theorem NoLabels.append (h : NoLabels code) (h' : NoLabels code') : NoLabels (code ++ code') :=
  fun s hs => (mem_append.mp hs).elim (h s) (h' s)

theorem exec_bind (c : Call) (rest : List Statement) : exec m call args frame none (.bind x c :: rest) =
    result m call frame c >>= fun w => setLocal frame x w >>= fun frame => exec m call args frame none rest := rfl

theorem exec_require (rest : List Statement) : exec m call args frame none (.require r :: rest) =
    met m frame r >>= fun b => if b then exec m call args frame none rest else throw (.report r.message) := rfl

theorem Leads.skip (h : NoLabels code) (frame : Frame) (s : State) (l : Label) :
    Leads m call args code ⟨frame, s, some l⟩ ⟨frame, s, some l⟩ := by
  intro rest
  induction code with
  | nil => rfl
  | cons st code ih =>
    have hst := h st ((.head _) ..) l
    rw [← ih fun s hs => h s (.tail _ hs), cons_append, exec, if_neg hst]

theorem Leads.jumpIf {t : Test} {l : Label} {b : Bool} (h : outcome (fails m frame t) s = (.ok b, s)) :
    Leads m call args [.jumpIf t l] ⟨frame, s, none⟩ ⟨frame, s, if b then some l else none⟩ := by
  intro rest
  rw [singleton_append, exec, bind_ok h]
  cases b <;> rfl

theorem outcome_push (w : Word) (hroom : s.stack.size < stackSize) :
    outcome (push w) s = (.ok (), { s with stack := s.stack.push w }) := by
  show outcome (ensure (decide (s.stack.size < stackSize)) >>= _) s = _
  rw [decide_eq_true hroom]
  rfl

theorem outcome_setLocal (frame : Frame) (x : String) (w : Word) (hroom : s.stack.size < stackSize) :
    outcome (setLocal frame x w) s = (.ok (frame.set x s.stack.size), { s with stack := s.stack.push w }) := by
  show outcome (push w >>= _) s = _
  rw [bind_ok (outcome_push w hroom)]
  rfl

theorem Leads.bind {s' : State} {c : Call}
    (h : outcome (result m call frame c) s = (.ok w, s')) (hroom : s'.stack.size < stackSize) :
    Leads m call args [.bind x c] ⟨frame, s, none⟩
      ⟨frame.set x s'.stack.size, { s' with stack := s'.stack.push w }, none⟩ := by
  intro rest
  rw [singleton_append, exec_bind, bind_ok h, bind_ok (outcome_setLocal frame x w hroom)]

theorem Leads.require (h : outcome (met m frame r) s = (.ok true, s)) :
    Leads m call args [.require r] ⟨frame, s, none⟩ ⟨frame, s, none⟩ := by
  intro rest
  rw [singleton_append, exec_require, bind_ok h]
  rfl

/-! ### Code that stops the run -/

/-- Running `code` stops the run, whatever follows. -/
def Stops (m : Image) (call : Caller) (args : Dict Word) (code : List Statement) (a : Point) (stop : Stop) : Prop :=
  ∀ rest, (outcome (exec m call args a.frame a.skip (code ++ rest)) a.state).1 = .error stop

theorem Stops.append (h : Stops m call args code a stop) (code' : List Statement) :
    Stops m call args (code ++ code') a stop := by
  intro rest
  rw [append_assoc]
  exact h _

theorem Leads.stops (h : Leads m call args code a b) (h' : Stops m call args code' b stop) :
    Stops m call args (code ++ code') a stop := by
  intro rest
  rw [append_assoc, h]
  exact h' rest

theorem Stops.require (h : outcome (met m frame r) s = (.ok false, s)) :
    Stops m call args [.require r] ⟨frame, s, none⟩ (.report r.message) := by
  intro rest
  rw [singleton_append, exec_require, bind_ok h]
  rfl

theorem Stops.bind {c : Call} (h : (outcome (result m call frame c) s).1 = .error stop) :
    Stops m call args [.bind x c] ⟨frame, s, none⟩ stop := by
  intro rest
  rw [singleton_append, exec_bind]
  exact bind_error h

theorem Stops.bind_full {c : Call} (h : outcome (result m call frame c) s = (.ok w, s))
    (hfull : stackSize ≤ s.stack.size) : Stops m call args [.bind x c] ⟨frame, s, none⟩ .violated := by
  intro rest
  have hset : (outcome (setLocal frame x w) s).1 = .error .violated := by
    refine bind_error (m := push w) ?_
    show (outcome (ensure (decide (s.stack.size < stackSize)) >>= _) s).1 = _
    rw [decide_eq_false (by omega)]
    rfl
  rw [singleton_append, exec_bind, bind_ok h]
  exact bind_error hset

end

/-! ### Calls -/

theorem Image.ofProgram_program (program : Program) : (Image.ofProgram program).program = program :=
  Array.foldl_induction (motive := fun _ (m : Image) => m.program = program) rfl fun _ _ h => h

section
variable {fuel : Nat} {name : String} {args : List Word} {f : Function} {s' : State}

theorem callWithin_eq (hf : m.program.functions.find? (·.name = name) = some f) (fuel : Nat) (args : List Word) :
    callWithin m (fuel + 1) name args = (do
      let base := (← get).stack.size
      let w ← exec m (callWithin m fuel) (f.params.zip args) [] none f.body.toList
      modify fun s => { s with stack := s.stack.shrink base }
      return w) := by
  rw [callWithin, hf]

theorem outcome_call (hf : m.program.functions.find? (·.name = name) = some f)
    (hbody : outcome (exec m (callWithin m fuel) (f.params.zip args) [] none f.body.toList) s = (.ok w, s')) :
    outcome (callWithin m (fuel + 1) name args) s = (.ok w, { s' with stack := s'.stack.shrink s.stack.size }) := by
  rw [callWithin_eq hf]
  show outcome (exec m (callWithin m fuel) (f.params.zip args) [] none f.body.toList >>= _) s = _
  rw [bind_ok hbody]
  rfl

theorem outcome_call_error (hf : m.program.functions.find? (·.name = name) = some f)
    (hbody : (outcome (exec m (callWithin m fuel) (f.params.zip args) [] none f.body.toList) s).1 = .error stop) :
    (outcome (callWithin m (fuel + 1) name args) s).1 = .error stop := by
  rw [callWithin_eq hf]
  show (outcome (exec m (callWithin m fuel) (f.params.zip args) [] none f.body.toList >>= _) s).1 = _
  exact bind_error hbody

end

/-! ### Variables -/

theorem tempName_ne_heap (n : Nat) : "heap" ≠ tempName n := by
  intro h
  have h' := congrArg (fun s => s.toList.head?) h
  simp [tempName] at h'

def Holds (frame : Frame) (s : State) (x : String) (w : Word) : Prop :=
  ∃ i, frame.get? x = some i ∧ s.stack[i]? = some w

theorem Holds.outcome (h : Holds frame s x w) : outcome (variableOf frame x) s = (.ok w, s) := by
  obtain ⟨i, hi, hw⟩ := h
  unfold variableOf
  rw [hi]
  show (Except.ok (s.stack.getD i 0), s) = _
  rw [Array.getD_eq_getD_getElem?, hw]
  rfl

/-- What a run without jumps, allocations or labels leaves as it was: the store, the stack below its height, and the
variables whose names had been made before. -/
structure Kept (made : Nat) (a b : Point) : Prop where
  store : b.state.store = a.state.store
  stack : ∀ (i : Nat) (w : Word), a.state.stack[i]? = some w → b.state.stack[i]? = some w
  frame : ∀ x, Settled made x → b.frame.get? x = a.frame.get? x

namespace Kept
variable {c : Point}

theorem refl (made : Nat) (a : Point) : Kept made a a := ⟨rfl, fun _ _ h => h, fun _ _ => rfl⟩

theorem trans (h : Kept made a b) (h' : Kept made' b c) (hm : made ≤ made') : Kept made a c where
  store := h'.store.trans h.store
  stack i w hi := h'.stack i w (h.stack i w hi)
  frame x hx := (h'.frame x (hx.mono hm)).trans (h.frame x hx)

theorem holds (h : Kept made a b) (hx : Settled made x) (hw : Holds a.frame a.state x w) :
    Holds b.frame b.state x w := by
  obtain ⟨i, hi, hw⟩ := hw
  exact ⟨i, (h.frame x hx).trans hi, h.stack i w hw⟩

theorem bind (frame : Frame) (s : State) (n : Nat) (w : Word) (l l' : Option Label) :
    Kept n ⟨frame, s, l⟩ ⟨frame.set (tempName n) s.stack.size, { s with stack := s.stack.push w }, l'⟩ where
  store := rfl
  stack i v hi := by
    have hi : s.stack[i]? = some v := hi
    obtain ⟨hlt, hv⟩ := Array.getElem?_eq_some_iff.mp hi
    show (s.stack.push w)[i]? = some v
    rw [Array.getElem?_push, if_neg (by omega), hi]
  frame x hx := by
    show (frame.set _ _).get? x = _
    rw [Dict.get?_set, if_neg (hx n (Nat.le_refl n))]

end Kept

theorem holds_bound (frame : Frame) (s : State) (x : String) (w : Word) :
    Holds (frame.set x s.stack.size) { s with stack := s.stack.push w } x w :=
  ⟨s.stack.size, by rw [Dict.get?_set, if_pos rfl], by simp⟩

/-- An operand stands for a word: by itself, or as a variable whose name has been made. -/
inductive Provides (m : Image) (made : Nat) (a : Point) : Operand → Word → Prop
  | immediate {o : Operand} (ho : ∀ x, o ≠ .name x) : Provides m made a o (m.word o)
  | named {x : String} {w : Word} (hx : Settled made x) (hw : Holds a.frame a.state x w) :
    Provides m made a (.name x) w

namespace Provides
variable {o : Operand} {w : Word}

theorem outcome (h : Provides m made a o w) : outcome (operand m a.frame o) a.state = (.ok w, a.state) := by
  cases h with
  | immediate ho =>
    cases o with
    | name x => exact absurd rfl (ho x)
    | _ => rfl
  | named _ hw => exact hw.outcome

theorem kept (h : Provides m made a o w) (hk : Kept made a b) (hm : made ≤ made') : Provides m made' b o w := by
  cases h with
  | immediate ho => exact .immediate ho
  | named hx hw => exact .named (hx.mono hm) (hk.holds hx hw)

end Provides

/-! ### Tests and parts of values -/

section
variable {frame : Frame} {x : String} {w : Word}

theorem outcome_get? (w : Word) (s : State) : outcome (get? w) s = (.ok (s.store.get? w), s) := rfl

theorem outcome_isString (w : Word) (s : State) : outcome (isString w) s = (.ok (s.store.bytes? w).isSome, s) := by
  unfold isString Store.bytes?
  split
  · rfl
  · rw [bind_ok (outcome_get? w s)]
    rcases s.store.get? w with _ | (_ | _ | _ | _ | _) <;> rfl

theorem outcome_stringBytes {bs : List UInt8} (h : s.store.bytes? w = some bs) :
    outcome (stringBytes w) s = (.ok bs, s) := by
  unfold stringBytes
  unfold Store.bytes? at h
  by_cases hshort : w.isShortString
  · rw [if_pos hshort] at h ⊢
    cases h
    rfl
  · rw [if_neg hshort] at h ⊢
    rw [bind_ok (outcome_get? w s)]
    rcases hw : s.store.get? w with _ | (_ | _ | _ | _ | _) <;> rw [hw] at h <;> cases h
    rfl

theorem outcome_isVariant (w : Word) (s : State) : outcome (isVariant w) s = (.ok (s.store.content? w).isSome, s) := by
  unfold isVariant Store.content?
  split
  · rfl
  · rw [bind_ok (outcome_get? w s)]
    rcases s.store.get? w with _ | (_ | _ | _ | _ | _) <;> rfl

theorem outcome_variantParts {t : Nat} {v : Word} (h : s.store.content? w = some (t, v)) :
    outcome (variantParts w) s = (.ok (t, v), s) := by
  unfold variantParts
  unfold Store.content? at h
  by_cases hvariant : w.isVariant
  · rw [if_pos hvariant] at h ⊢
    cases h
    rfl
  · rw [if_neg hvariant] at h ⊢
    rw [bind_ok (outcome_get? w s)]
    rcases hw : s.store.get? w with _ | (_ | _ | _ | _ | _) <;> rw [hw] at h <;> cases h
    rfl

theorem outcome_isList (w : Word) (s : State) : outcome (isList w) s = (.ok (s.store.isList w), s) := by
  unfold isList Store.isList
  split
  · rfl
  · rw [bind_ok (outcome_get? w s)]
    rcases s.store.get? w with _ | (_ | _ | _ | _ | _) <;> rfl

theorem outcome_listParts {a b : Word} (h : s.store.get? w = some (.list a b)) :
    outcome (listParts w) s = (.ok (a, b), s) := by
  rw [listParts, bind_ok (outcome_get? w s), h]
  rfl

end

end Scrap.Machine
