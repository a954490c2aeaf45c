import Mathlib.Data.Int.ModEq
import Scrap.Machine.Output
import Scrap.Proofs.Code.Captures
import Scrap.Proofs.Machine.Running

/-! # Calculations with integers

A literal loses what does not fit into 63 bits, a result that does not fit stops the program, and a product loses what
does not fit into 64 bits before that is looked at. So a program that does not stop prints the exact result modulo
2^63. -/

namespace Scrap

variable {op : BinaryOp} {b n v : Int} {program : Program} {σ : Setting} {e : Term} {a x y : Int}

/-! ### Integers in words -/

namespace Machine.Word

theorem int_eq_int_iff : int a = int b ↔ a ≡ b [ZMOD 9223372036854775808] := by
  rw [← UInt64.toNat_inj, toNat_int, toNat_int, Int.ModEq]
  omega

theorem isInt_int (n : Int) : (int n).isInt = true := by
  have h := toNat_and_low (int n) 1 (by omega)
  have heven := int_even n
  rw [isInt, decide_eq_true_eq, ← UInt64.toNat_inj]
  refine (h : (int n &&& 1).toNat = _).trans ?_
  simpa using heven

theorem intValue_int (hn : fits n = true) : (int n).intValue = n := by
  rw [fits_iff] at hn
  rw [intValue, toInt, toNat_int]
  split <;> omega

theorem int_intValue (n : Int) : int (int n).intValue = int n := by
  rw [int_eq_int_iff, Int.ModEq, intValue, toInt, toNat_int]
  split <;> omega

theorem int_toInt_ofInt (n : Int) : int (ofInt n).toInt = int n := by
  rw [int_eq_int_iff, Int.ModEq, toInt, toNat_ofInt]
  split <;> omega

end Machine.Word

/-! ### Calculations -/

def Code.Operation.on : Code.Operation → Int → Int → Int
  | .add, x, y => x + y
  | .sub, x, y => x - y
  | .mul, x, y => x * y

/-- What an operation gives in a word, unless that does not fit. -/
def Code.Operation.onWords (o : Code.Operation) (x y : Int) : Option Int :=
  let n := (Machine.Word.ofInt (o.on x y)).toInt
  if Machine.Word.fits n then some n else none

def BinaryOp.operation? : BinaryOp → Option Code.Operation
  | .add => some .add
  | .sub => some .sub
  | .mul => some .mul
  | _ => none

namespace Term

variable {o : Code.Operation}

/-- An expression of integers, sums, differences and products, and its value. -/
inductive Calculates : Term → Int → Prop
  | literal (i : Nat) (n : Int) : Calculates (.int i n) n
  | operation (i : Nat) {op : BinaryOp} {o : Code.Operation} {l r : Term} {x y : Int} (ho : op.operation? = some o)
    (hl : Calculates l x) (hr : Calculates r y) : Calculates (.binop i op l r) (o.on x y)

/-- What a calculation comes to in words, unless a result does not fit. -/
def wordValue? : Term → Option Int
  | .int _ n => some (Machine.Word.int n).intValue
  | .binop _ op l r => do (← op.operation?).onWords (← l.wordValue?) (← r.wordValue?)
  | _ => none

def operations : Term → Nat
  | .binop _ _ l r => l.operations + r.operations + 1
  | _ => 0

theorem wordValue?_operation (ho : op.operation? = some o) (i : Nat) (l r : Term) :
    (Term.binop i op l r).wordValue? = l.wordValue?.bind fun x => r.wordValue?.bind (o.onWords x) := by
  rw [wordValue?, ho]
  rfl

theorem exists_of_wordValue? {i : Nat} (ho : op.operation? = some o) {l r : Term}
    (hn : (Term.binop i op l r).wordValue? = some n) :
    ∃ x y, l.wordValue? = some x ∧ r.wordValue? = some y ∧ Machine.Word.fits n = true ∧
      n = (Machine.Word.ofInt (o.on x y)).toInt := by
  rw [wordValue?_operation ho] at hn
  obtain ⟨x, hx, hn⟩ := Option.bind_eq_some_iff.mp hn
  obtain ⟨y, hy, hn⟩ := Option.bind_eq_some_iff.mp hn
  obtain ⟨hfits, hn⟩ := Option.ite_none_right_eq_some.mp hn
  cases hn
  exact ⟨x, y, hx, hy, hfits, rfl⟩

/-- The result in words fits, and has the word of the exact result. -/
theorem Calculates.int_eq (he : Calculates e v) (hn : e.wordValue? = some n) :
    Machine.Word.fits n = true ∧ Machine.Word.int n = Machine.Word.int v := by
  induction he generalizing n with
  | literal i k =>
    cases hn
    refine ⟨?_, Machine.Word.int_intValue k⟩
    rw [Machine.Word.fits_iff, Machine.Word.intValue, Machine.Word.toInt, Machine.Word.toNat_int]
    split <;> omega
  | @operation i op o l r x y ho hl hr ihl ihr =>
    obtain ⟨x', y', hx, hy, hfits, rfl⟩ := exists_of_wordValue? ho hn
    refine ⟨hfits, ?_⟩
    have hx := Machine.Word.int_eq_int_iff.mp (ihl hx).2
    have hy := Machine.Word.int_eq_int_iff.mp (ihr hy).2
    rw [Machine.Word.int_toInt_ofInt, Machine.Word.int_eq_int_iff]
    cases o with
    | add => exact hx.add hy
    | sub => exact hx.sub hy
    | mul => exact hx.mul hy

/-- Whether bits are lost: a literal does not fit, or a product does not fit into the word in which it is checked. -/
def losesBits : Term → Bool
  | .int _ n => !Machine.Word.fits n
  | .binop _ op l r =>
    l.losesBits || r.losesBits ||
      match op, l.wordValue?, r.wordValue? with
      | .mul, some x, some y => (Machine.Word.ofInt (x * y)).toInt != x * y
      | _, _, _ => false
  | _ => false

/-- Where no bits are lost, the result in words is the exact one. -/
theorem Calculates.eq_of_exact (he : Calculates e v) (hlost : e.losesBits = false) (hn : e.wordValue? = some n) :
    n = v := by
  induction he generalizing n with
  | literal i k =>
    cases hn
    exact Machine.Word.intValue_int (by simpa [losesBits] using hlost)
  | @operation i op o l r x y ho hl hr ihl ihr =>
    obtain ⟨x', y', hx, hy, -, rfl⟩ := exists_of_wordValue? ho hn
    simp only [losesBits, hx, hy, Bool.or_eq_false_iff] at hlost
    obtain ⟨⟨hl', hr'⟩, hop⟩ := hlost
    have hxfits := Machine.Word.fits_iff.mp (hl.int_eq hx).1
    have hyfits := Machine.Word.fits_iff.mp (hr.int_eq hy).1
    rw [← ihl hl' hx, ← ihr hr' hy]
    cases op <;> cases ho
    · refine Machine.Word.toInt_ofInt_of_lt ?_ ?_ <;> rw [Code.Operation.on] <;> omega
    · refine Machine.Word.toInt_ofInt_of_lt ?_ ?_ <;> rw [Code.Operation.on] <;> omega
    · exact bne_eq_false_iff_eq.mp hop

theorem Calculates.evaluates (he : Calculates e v) : ∃ depth, ∀ fuel, depth ≤ fuel → ∀ (env : Env)
    (s : Session), ∃ i s', outcome (eval fuel env e) s = (.ok (.int i v), s') := by
  -- Evaluation logs the term first, and goes on from there.
  have hnote (fuel : Nat) (env : Env) (t : Term) (s : Session) :
      ∃ s', outcome (eval (fuel + 1) env t) s = outcome (Eval.step .standard (evalBy .standard fuel) env t) s' := ⟨_, rfl⟩
  induction he with
  | literal i n =>
    refine ⟨1, fun fuel hfuel env s => ?_⟩
    obtain ⟨k, rfl⟩ := Nat.exists_eq_add_of_le' hfuel
    exact ⟨i, _, rfl⟩
  | @operation i op o l r x y ho hl hr ihl ihr =>
    obtain ⟨dl, ihl⟩ := ihl
    obtain ⟨dr, ihr⟩ := ihr
    refine ⟨max dl dr + 1, fun fuel hfuel env s => ?_⟩
    obtain ⟨k, rfl⟩ := Nat.exists_eq_add_of_le' (Nat.le_trans (Nat.le_add_left ..) hfuel)
    obtain ⟨s0, hs0⟩ := hnote k env (.binop i op l r) s
    obtain ⟨j, s1, hl'⟩ := ihl k (by omega) env s0
    obtain ⟨j', s2, hr'⟩ := ihr k (by omega) env s1
    have hl' : outcome (evalBy .standard k env l) s0 = _ := hl'
    have hr' : outcome (evalBy .standard k env r) s1 = _ := hr'
    rw [hs0]
    cases op <;> cases ho <;>
    · show ∃ i s', outcome (evalBy .standard k env l >>= _) s0 = _
      rw [bind_ok hl']
      show ∃ i s', outcome (evalBy .standard k env r >>= _) s1 = _
      rw [bind_ok hr']
      exact ⟨_, _, rfl⟩

theorem Calculates.inScope (he : Calculates e v) : e.InScope [] := by
  induction he with
  | literal i n => exact .int
  | operation i ho hl hr ihl ihr =>
    refine .binop ?_ ihl ihr
    cases ‹BinaryOp› <;> cases ho <;> rfl

end Term

/-! ### Texts of integers -/

namespace Decimal

theorem natText_inj {a b : Nat} (h : natText a = natText b) : a = b := by
  have h' := congrArg String.toList h
  simp only [natText, String.toList_ofList] at h'
  rw [← Nat.ofDigitChars_ten_toDigits (n := a), h', Nat.ofDigitChars_ten_toDigits]

theorem natText_ne_minus (a : Nat) (s : String) : natText a ≠ "-" ++ s := by
  intro h
  have hmem : '-' ∈ Nat.toDigits 10 a := by
    have h' := congrArg String.toList h
    simp only [natText, String.toList_ofList, String.toList_append] at h'
    rw [h']
    simp
  exact absurd (Nat.isDigit_of_mem_toDigits (by omega) (by omega) hmem) (by decide)

theorem intText_inj (h : intText a = intText b) : a = b := by
  unfold intText at h
  split at h <;> split at h
  · have h' := congrArg String.toList h
    simp only [String.toList_append, List.append_cancel_left_eq] at h'
    have := natText_inj (String.toList_inj.mp h')
    omega
  · exact absurd h.symm (natText_ne_minus _ _)
  · exact absurd h (natText_ne_minus _ _)
  · have := natText_inj h
    omega

end Decimal

namespace Machine

open Code Compile

variable {memory : Nat}

/-! ### Running calculations -/

theorem Store.collect_unused {s : Store} (hs : s.objects = #[]) (hu : s.used = 0) (roots : Array Word) :
    s.collect roots = (roots, s) := by
  have henlist (ws : List Word) : s.enlist [] ws = [] := by
    induction ws with
    | nil => rfl
    | cons w ws ih =>
      rw [enlist, if_neg (by simp [hs])]
      exact ih
  have horder : s.copyOrder roots = [] := by
    rw [copyOrder, henlist]
    rfl
  have hforward : s.forward [] = id := funext fun w => if_neg (by simp)
  have hroots : roots.map (s.forward []) = roots := by rw [hforward, Array.map_id]
  obtain ⟨constants, objects, used, space⟩ := s
  cases hs
  cases hu
  rw [collect, horder]
  exact congrArg (·, _) hroots

theorem outcome_arithmetic (o : Operation) (hx : Word.fits x = true) (hy : Word.fits y = true) (s : State) :
    outcome (arithmetic o (Word.int x) (Word.int y)) s =
      ((o.onWords x y).elim (.error .violated) fun n => .ok (Word.int n), s) := by
  have hnumber {n : Int} (hn : Word.fits n = true) : outcome (number (Word.int n)) s = (.ok n, s) := by
    unfold number
    rw [Word.isInt_int, Word.intValue_int hn]
    rfl
  have hnew (n : Int) : outcome (ofNumber n) s =
      ((if Word.fits n then some n else none).elim (.error .violated) fun n => .ok (Word.int n), s) := by
    unfold ofNumber
    cases Word.fits n <;> rfl
  unfold arithmetic
  rw [bind_ok (hnumber hx), bind_ok (hnumber hy)]
  cases o <;> exact hnew _

/-- A point at which the run goes on, with nothing allocated and the store in sight. -/
structure Ready (a : Point) : Prop where
  skip : a.skip = none
  room : a.state.stack.size ≤ stackSize
  objects : a.state.store.objects = #[]
  used : a.state.store.used = 0
  visible : hidesStore a.frame = false

section
variable {m : Image} {call : Caller} {args : Dict Word} {a : Point} {made : Nat} {x : Operand}

theorem Ready.collect (ha : Ready a) (σ : Setting) : Leads m call args (if σ.debug then [.collect] else []) a a := by
  obtain ⟨frame, ⟨store, stack⟩, skip⟩ := a
  obtain ⟨rfl, -, hobjects, hused, hvisible⟩ := ha
  split
  · intro rest
    have hcollect : outcome Machine.collect ⟨store, stack⟩ = (.ok (), ⟨store, stack⟩) := by
      show (Except.ok (), State.mk (store.collect stack).2 (store.collect stack).1) = _
      rw [Store.collect_unused hobjects hused]
    simp only [List.singleton_append, exec, hvisible]
    exact bind_ok hcollect
  · exact .refl _

theorem Ready.bind {frame : Frame} {s : State} (ha : Ready ⟨frame, s, none⟩) (hroom : s.stack.size + 1 ≤ stackSize)
    (n : Nat) (w : Word) :
    Ready ⟨frame.set (tempName n) s.stack.size, { s with stack := s.stack.push w }, none⟩ where
  skip := rfl
  room := by simpa using hroom
  objects := ha.objects
  used := ha.used
  visible := by
    have hvisible := ha.visible
    unfold hidesStore at hvisible ⊢
    rw [Bool.eq_false_iff] at hvisible ⊢
    rw [Ne, Dict.has_set]
    rintro (h | h)
    · exact tempName_ne_heap n h
    · exact hvisible h

/-- What the code of a calculation comes to at a point: an operand stands for the result, or the run is stopped. -/
def Delivers (m : Image) (call : Caller) (args : Dict Word) (code : List Statement) (made made' size : Nat) (o : Operand)
    (a : Point) : Option Int → Prop
  | none => Stops m call args code a .violated
  | some n => ∃ b, Leads m call args code a b ∧ Ready b ∧ Kept made a b ∧ b.state.stack.size = size ∧
      Provides m made' b o (Word.int n)

section
variable {code code' : List Statement} {made made1 made2 size size' : Nat} {o o' : Operand} {a : Point}
  {value value' : Option Int}

theorem Delivers.trans (h : Delivers m call args code made made1 size o a value) (hm : made ≤ made1)
    (hnone : value = none → value' = none)
    (hnext : ∀ n b, value = some n → Ready b → b.state.stack.size = size → Kept made a b →
      Provides m made1 b o (Word.int n) → Delivers m call args code' made1 made2 size' o' b value') :
    Delivers m call args (code ++ code') made made2 size' o' a value' := by
  cases value with
  | none =>
    rw [hnone rfl]
    exact Stops.append h code'
  | some n =>
    obtain ⟨b, hlead, hb, hk, hsize, hn⟩ := h
    have hrest := hnext n b rfl hb hsize hk hn
    cases value' with
    | none => exact hlead.stops hrest
    | some n' =>
      obtain ⟨c, hlead', hc, hk', hsize', hn'⟩ := hrest
      exact ⟨c, hlead.trans hlead', hc, hk.trans hk' hm, hsize', hn'⟩

theorem Delivers.after (h : Delivers m call args code made made1 size o a value) (hlead : Leads m call args code' a a) :
    Delivers m call args (code' ++ code) made made1 size o a value := by
  cases value with
  | none => exact hlead.stops h
  | some n =>
    obtain ⟨b, hlead', hb⟩ := h
    exact ⟨b, hlead.trans hlead', hb⟩

end

theorem compile_operation_eq {o : Operation} (ho : op.operation? = some o) (σ : Setting) (scope : Scope)
    (name : Option String) (i : Nat) (l r : Term) : compile σ scope name (.binop i op l r) = (do
      let a ← compile σ scope none l
      let b ← compile σ scope none r
      Compile.collect σ
      requireNumber σ l a
      requireNumber σ r b
      return .name (← Compile.bind (.arithmetic o a b))) := by
  cases op <;> cases ho <;> rfl

theorem leads_requireNumber (ha : Ready a) (hx : Provides m made a x (Word.int n)) (σ : Setting) (t : Term) :
    Leads m call args (if σ.hasType t "int" then [] else [.require (.number x)]) a a := by
  obtain ⟨frame, s, skip⟩ := a
  obtain ⟨rfl, -⟩ := ha
  split
  · exact .refl _
  · refine .require ?_
    show outcome (operand m frame x >>= _) s = _
    rw [bind_ok hx.outcome, Word.isInt_int]
    rfl

theorem delivers_arithmetic {made' : Nat} (hm : made < made') {y : Operand} {k : Int}
    (ha : Ready a) (hk : Word.fits k = true) (hn : Word.fits n = true) (hx : Provides m made a x (Word.int k))
    (hy : Provides m made a y (Word.int n)) (o : Operation) :
    Delivers m call args [.bind (tempName made) (.arithmetic o x y)] made made' (a.state.stack.size + 1)
      (.name (tempName made)) a (if a.state.stack.size + 1 ≤ stackSize then o.onWords k n else none) := by
  obtain ⟨frame, s, skip⟩ := a
  cases ha.skip
  have hresult : outcome (result m call frame (.arithmetic o x y)) s =
      ((o.onWords k n).elim (.error .violated) fun n => .ok (Word.int n), s) := by
    show outcome (operand m frame x >>= _) s = _
    rw [bind_ok hx.outcome, bind_ok hy.outcome]
    exact outcome_arithmetic o hk hn s
  cases hvalue : o.onWords k n with
  | none =>
    rw [hvalue] at hresult
    rw [ite_self]
    exact .bind (congrArg Prod.fst hresult)
  | some n' =>
    rw [hvalue] at hresult
    by_cases hroom : s.stack.size + 1 ≤ stackSize
    · rw [if_pos hroom]
      exact ⟨_, .bind hresult hroom, ha.bind hroom made _, .bind frame s made _ _ _, by simp,
        .named (settled_tempName hm) (holds_bound frame s _ _)⟩
    · rw [if_neg hroom]
      exact .bind_full hresult (by omega)

end

/-- The code of a calculation: with room on the stack for its operations it delivers the result in words, and otherwise it
stops the run. -/
theorem compile_delivers (he : e.Calculates v) {scope : Scope} {name : Option String} {p p' : Progress} {o : Operand}
    (hc : outcome (compile σ scope name e) p = (.ok o, p')) :
    ∃ code, Wrote p p' code ∧ ∀ (m : Image) (call : Caller) (args : Dict Word) (a : Point), Ready a →
      Delivers m call args code p.made p'.made (a.state.stack.size + e.operations) o a
        (if a.state.stack.size + e.operations ≤ stackSize then e.wordValue? else none) := by
  induction he generalizing name p p' o with
  | literal i n =>
    obtain ⟨lit, p1, hlit, hret⟩ := bind_returns (show outcome (literal n >>= _) p = _ from hc)
    have hn : lit = .int n ∧ p1 = p := by
      unfold literal at hlit
      split at hlit <;> cases hlit
      exact ⟨rfl, rfl⟩
    obtain ⟨rfl, rfl⟩ := hn
    cases hret
    refine ⟨[], .refl _, fun m call args a ha => ?_⟩
    rw [show (Term.int i n).operations = 0 from rfl, Nat.add_zero, if_pos ha.room]
    refine ⟨a, .refl a, ha, .refl _ a, rfl, ?_⟩
    rw [Word.int_intValue]
    exact .immediate (fun x h => by cases h)
  | @operation i op o' l r x y ho hl hr ihl ihr =>
    rw [compile_operation_eq ho] at hc
    obtain ⟨a1, p1, hcl, hc⟩ := bind_returns hc
    obtain ⟨a2, p2, hcr, hc⟩ := bind_returns hc
    obtain ⟨codel, hwl, hdl⟩ := ihl hcl
    obtain ⟨coder, hwr, hdr⟩ := ihr hcr
    obtain ⟨p3, hc3, hw3, hm3⟩ := collect_wrote σ p2
    obtain ⟨p4, hc4, hw4, hm4⟩ := requireNumber_wrote σ l a1 p3
    obtain ⟨p5, hc5, hw5, hm5⟩ := requireNumber_wrote σ r a2 p4
    obtain ⟨p6, hc6, hw6, hm6⟩ := bind_wrote (.arithmetic o' a1 a2) p5
    rw [bind_ok hc3, bind_ok hc4, bind_ok hc5, bind_ok hc6] at hc
    cases hc
    refine ⟨codel ++ (coder ++ (_ ++ (_ ++ (_ ++ [_])))), hwl.trans (hwr.trans (hw3.trans (hw4.trans (hw5.trans hw6)))), ?_⟩
    intro m call args a ha
    have hmade : p5.made = p2.made := by rw [hm5, hm4, hm3]
    rw [show (Term.binop i op l r).operations = l.operations + r.operations + 1 from rfl, hmade,
      Term.wordValue?_operation ho]
    refine (hdl m call args a ha).trans hwl.made (fun hnone => ?_) fun k b hk hb hsizeb hkb hprovl => ?_
    · split at hnone
      · rw [hnone, Option.bind_none, ite_self]
      · exact if_neg (by omega)
    have hk := (Option.ite_none_right_eq_some.mp hk).2
    rw [hk, Option.bind_some]
    refine (hdr m call args b hb).trans hwr.made (fun hnone => ?_) fun n c hn hc hsizec hkc hprovr => ?_
    · split at hnone
      · rw [hnone, Option.bind_none, ite_self]
      · exact if_neg (by omega)
    have hn := (Option.ite_none_right_eq_some.mp hn).2
    have hprovl' := hprovl.kept hkc hwr.made
    have hlast : Delivers m call args _ _ p'.made _ _ c _ :=
      delivers_arithmetic (hmade ▸ hm6) hc (hl.int_eq hk).1 (hr.int_eq hn).1 hprovl' hprovr o'
    have hsize : c.state.stack.size + 1 = a.state.stack.size + (l.operations + r.operations + 1) := by omega
    rw [hsize] at hlast
    rw [hn, Option.bind_some]
    exact ((hlast.after (leads_requireNumber hc hprovr σ r)).after (leads_requireNumber hc hprovl' σ l)).after
      (hc.collect σ)

/-! ### Programs that calculate -/

def printed (n : Int) : Outcome where
  output := (Text.utf8 (Decimal.intText n)).toArray ++ (Text.utf8 "\n").toArray

def aborted : Outcome where
  stop := some .violated

theorem printed_inj (h : printed a = printed b) : a = b := by
  have h' := congrArg (fun r : Outcome => r.output.toList) h
  simp only [printed, Array.toList_append, List.append_cancel_right_eq] at h'
  have htext := congrArg Text.ofUtf8 h'
  rw [Text.ofUtf8_utf8, Text.ofUtf8_utf8] at htext
  exact Decimal.intText_inj (Except.ok.inj htext)

def begun : Progress where
  program := { functions := #[{ name := "scrap_main", params := [], body := #[.enter] }] }

theorem compiled_returns (h : e.compiled σ = .ok program) :
    ∃ o p, outcome (compile σ [] none e) begun = (.ok o, p) ∧ ∀ code, Wrote begun p code →
      program.functions =
        #[{ name := "scrap_main", params := [], body := #[.enter] ++ code.toArray ++ #[.return o] }] := by
  rw [compiled_eq] at h
  rcases hmain : outcome (mainCode σ e) {} with ⟨_ | _, p'⟩ <;> rw [hmain] at h <;> cases h
  have hmain : outcome (compile σ [] none e >>= fun o => emit (.return o)) begun = _ := hmain
  obtain ⟨o, p, hc, hreturn⟩ := bind_returns hmain
  refine ⟨o, p, hc, fun code hw => ?_⟩
  obtain rfl : _ = p' := congrArg Prod.snd hreturn
  have hemit : (outcome (emit (.return o)) p).2.program.functions =
      p.program.functions.modify p.current fun f => { f with body := f.body.push (.return o) } := rfl
  rw [hemit, hw.functions, hw.current]
  rfl

theorem start_calculation (he : e.Calculates v) (hp : e.compiled σ = .ok program) (store : Store)
    (hobjects : store.objects = #[]) (hused : store.used = 0) :
    (outcome (start (.ofProgram program)) { store }).1 =
      (if e.operations ≤ stackSize then e.wordValue? else none).elim (.error .violated) fun n => .ok (Word.int n) := by
  obtain ⟨o, p, hc, hfunctions⟩ := compiled_returns hp
  obtain ⟨code, hw, hdelivers⟩ := compile_delivers he hc
  have hfind : (Image.ofProgram program).program.functions.find? (·.name = "scrap_main") =
      some { name := "scrap_main", params := [], body := #[.enter] ++ code.toArray ++ #[.return o] } := by
    rw [Image.ofProgram_program, hfunctions code hw]
    simp
  have hready : Ready ⟨[], { store }, none⟩ := ⟨rfl, by simp, hobjects, hused, rfl⟩
  have hd := hdelivers (.ofProgram program) (callWithin (.ofProgram program) (stackSize + 1)) [] _ hready
  simp only [List.size_toArray, List.length_nil, Nat.zero_add] at hd
  have hbody : (#[Statement.enter] ++ code.toArray ++ #[Statement.return o]).toList =
      .enter :: (code ++ [.return o]) := by simp
  cases hvalue : if e.operations ≤ stackSize then e.wordValue? else none with
  | none =>
    rw [hvalue] at hd
    refine bind_error (outcome_call_error hfind ?_)
    rw [hbody]
    exact hd _
  | some n =>
    rw [hvalue] at hd
    obtain ⟨b, hlead, hb, -, -, hprovides⟩ := hd
    have hreturns : outcome (exec (.ofProgram program) (callWithin (.ofProgram program) (stackSize + 1)) [] [] none
        (.enter :: (code ++ [.return o]))) { store } = (.ok (Word.int n), b.state) := by
      refine (hlead _).trans ?_
      rw [hb.skip]
      exact hprovides.outcome
    show (outcome (callWithin _ (stackSize + 1 + 1) _ [] >>= _) _).1 = _
    rw [bind_ok (outcome_call hfind (by rw [hbody]; exact hreturns))]
    rw [bind_ok (outcome_push _ (by simp [stackSize]))]
    rfl

def startState (program : Program) (memory : Nat) : State where
  store := { constants := (Image.ofProgram program).objects, space := aligned 4096 memory }

theorem run_of_stop {stop : Stop}
    (h : (outcome (start (.ofProgram program)) (startState program memory)).1 = .error stop) :
    run program memory = { stop := some stop } := by
  rcases hs : outcome (start (.ofProgram program)) (startState program memory) with ⟨r, s⟩
  rw [hs] at h
  cases h
  rw [outcome, startState] at hs
  simp only [run, hs]

theorem run_of_int (hn : Word.fits n = true)
    (h : (outcome (start (.ofProgram program)) (startState program memory)).1 = .ok (Word.int n)) :
    run program memory = printed n := by
  rcases hs : outcome (start (.ofProgram program)) (startState program memory) with ⟨r, s⟩
  rw [hs] at h
  cases h
  have hline : (Output.line (.ofProgram program) s.store (Word.int n)).run.run #[] = (.ok (), (printed n).output) := by
    unfold Output.line Output.value
    rw [Word.isInt_int, Word.intValue_int hn]
    show (Except.ok (), #[] ++ (Text.utf8 (Decimal.intText n)).toArray ++ _) = _
    rw [Array.empty_append]
    rfl
  rw [outcome, startState] at hs
  simp only [run, hs, hline]
  rfl

theorem run_calculation (he : e.Calculates v) (hp : e.compiled σ = .ok program) (memory : Nat) :
    run program memory = (if e.operations ≤ stackSize then e.wordValue? else none).elim aborted printed := by
  have hstart := start_calculation he hp (startState program memory).store rfl rfl
  cases hvalue : if e.operations ≤ stackSize then e.wordValue? else none with
  | none =>
    rw [hvalue] at hstart
    exact run_of_stop hstart
  | some n =>
    rw [hvalue] at hstart
    exact run_of_int (he.int_eq (Option.ite_none_right_eq_some.mp hvalue).2).1 hstart

/-- A calculation, where evaluated, gives its value. Its compiled program is stopped, or it prints the integer of 63 bits
that differs from the value by a multiple of 2^63. It is stopped exactly if the operations are too many for the stack or
a result in words does not fit, so it prints the value or is stopped exactly if it is stopped or the value fits. That is so
in all calculations that lose no bits in a literal or a product. -/
theorem run_exact_iff {e : Term} {v : Int} (he : e.Calculates v) (ht : e.closes [] none = true) (σ : Setting)
    (memory : Nat) :
    (∃ depth, ∀ fuel, depth ≤ fuel → ∀ (env : Env) (s : Session), ∃ i s',
      outcome (eval fuel env e) s = (.ok (.int i v), s')) ∧
    ∃ program, e.compiled σ = .ok program ∧
      (run program memory = aborted ∨ run program memory = printed (Word.int v).intValue) ∧
      (run program memory = aborted ↔ stackSize < e.operations ∨ e.wordValue? = none) ∧
      ((run program memory = aborted ∨ run program memory = printed v) ↔
        run program memory = aborted ∨ Word.fits v = true) ∧
      (e.losesBits = false → run program memory = aborted ∨ run program memory = printed v) := by
  refine ⟨he.evaluates, ?_⟩
  obtain ⟨program, hp⟩ : ∃ program, e.compiled σ = .ok program := by
    rw [compiled_eq]
    rcases ho : outcome (mainCode σ e) {} with ⟨_ | _, p⟩
    · exact absurd ht ((mainCode_runs σ he.inScope).fails ho).2
    · exact ⟨p.program, rfl⟩
  refine ⟨program, hp, ?_⟩
  rw [run_calculation he hp memory]
  cases hvalue : if e.operations ≤ stackSize then e.wordValue? else none with
  | none =>
    refine ⟨.inl rfl, ⟨fun _ => ?_, fun _ => rfl⟩, ⟨fun _ => .inl rfl, fun _ => .inl rfl⟩, fun _ => .inl rfl⟩
    by_cases hroom : e.operations ≤ stackSize
    · exact .inr (by rwa [if_pos hroom] at hvalue)
    · exact .inl (by omega)
  | some n =>
    obtain ⟨hroom, hn⟩ := Option.ite_none_right_eq_some.mp hvalue
    obtain ⟨hfits, hword⟩ := he.int_eq hn
    have hrest : n = (Word.int v).intValue := by rw [← hword, Word.intValue_int hfits]
    have hstop : ¬(some n).elim aborted printed = aborted := fun h => by cases congrArg Outcome.stop h
    refine ⟨.inr (congrArg printed hrest), ⟨fun h => absurd h hstop, ?_⟩, ⟨?_, ?_⟩, fun hlost => ?_⟩
    · rintro (h | h)
      · omega
      · cases h.symm.trans hn
    · rintro (h | h)
      · exact absurd h hstop
      · rw [← printed_inj h]
        exact .inr hfits
    · rintro (h | h)
      · exact absurd h hstop
      · rw [Word.intValue_int h] at hrest
        exact .inr (congrArg printed hrest)
    · exact .inr (congrArg printed (he.eq_of_exact hlost hn))

/-- The product of 2^32 with itself. -/
def wideProduct : Term := .binop 0 .mul (.int 0 4294967296) (.int 0 4294967296)

theorem wideProduct_calculates : wideProduct.Calculates 18446744073709551616 :=
  .operation 0 (o := .mul) rfl (.literal 0 4294967296) (.literal 0 4294967296)

theorem run_wideProduct : wideProduct.closes [] none = true ∧ wideProduct.losesBits = true ∧
    ∃ program, wideProduct.compiled {} = .ok program ∧ run program 65536 = printed 0 := by
  have ht : wideProduct.closes [] none = true := by decide +kernel
  obtain ⟨-, program, hp, hor, hstop, -⟩ := run_exact_iff wideProduct_calculates ht {} 65536
  refine ⟨ht, by decide +kernel, program, hp, ?_⟩
  have hgoes : ¬run program 65536 = aborted := by
    rw [hstop]
    decide +kernel
  exact hor.resolve_left hgoes

/-- A literal that does not fit evaluates to itself, and its program prints another integer. -/
theorem wideLiteral_differs :
    (outcome (eval 1 [] (.int 0 4611686018427387904)) {}).1.toOption.map Term.int? = some (some 4611686018427387904) ∧
      ((Term.int 0 4611686018427387904).compiled {}).toOption.map (fun p => (run p 65536).output.toList) =
        some (Text.utf8 "-4611686018427387904\n") := by
  constructor
  · decide +kernel
  · decide +kernel

end Machine

end Scrap
