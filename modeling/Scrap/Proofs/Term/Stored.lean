import Scrap.Proofs.Term.FromSource
import Scrap.Proofs.Wire.Format

/-! # Storing and showing programs

Terms that the reader made have no identities, so nothing is taken for something met before, and the printer and the
encoder return exactly if no term inside is one of the forms that they refuse: both floor division, the encoder also
assertions, and the printer functions of a parameter that is no variable. -/

namespace Scrap

open List

variable {h : Heap} {P Q : Prop} {t : Term} {op : BinaryOp} {fields : Dict Term} {cases : List (Term × Term)}
  {items : List Term} {i : Nat} {l r : Term}

section Returning
variable {ε σ α β : Type} {m : ExceptT ε (StateM σ) α}

/-- From any state, the computation returns exactly if `P` holds. -/
def ReturnsIff (m : ExceptT ε (StateM σ) α) (P : Prop) : Prop := ∀ s, (∃ a t, outcome m s = (.ok a, t)) ↔ P

namespace ReturnsIff

variable {f : α → ExceptT ε (StateM σ) β}

theorem congr (h : ReturnsIff m P) (hPQ : P ↔ Q) : ReturnsIff m Q := fun s => (h s).trans hPQ

theorem pure (a : α) : ReturnsIff (Pure.pure a : ExceptT ε (StateM σ) α) True := fun s =>
  iff_true_intro ⟨a, s, rfl⟩

theorem throw (e : ε) : ReturnsIff (MonadExcept.throw e : ExceptT ε (StateM σ) α) False := by
  refine fun s => ⟨?_, False.elim⟩
  rintro ⟨a, t, h⟩
  cases h

theorem modify (f : σ → σ) : ReturnsIff (MonadStateOf.modifyGet fun s => ((), f s) : ExceptT ε (StateM σ) Unit) True :=
  fun s => iff_true_intro ⟨(), f s, rfl⟩

theorem bind (hm : ReturnsIff m P) (hf : ∀ a, ReturnsIff (f a) Q) : ReturnsIff (m >>= f) (P ∧ Q) := by
  intro s
  constructor
  · rintro ⟨b, u, h⟩
    obtain ⟨a, t, ha, hb⟩ := bind_returns h
    exact ⟨(hm s).mp ⟨a, t, ha⟩, (hf a t).mp ⟨b, u, hb⟩⟩
  · rintro ⟨hP, hQ⟩
    obtain ⟨a, t, ha⟩ := (hm s).mpr hP
    obtain ⟨b, u, hb⟩ := (hf a t).mpr hQ
    exact ⟨b, u, by rw [bind_ok ha, hb]⟩

theorem after (hm : ReturnsIff m True) (hf : ∀ a, ReturnsIff (f a) Q) : ReturnsIff (m >>= f) Q :=
  (hm.bind hf).congr (by simp)

theorem map {f : α → β} (hm : ReturnsIff m P) : ReturnsIff (m >>= fun a => Pure.pure (f a)) P :=
  (hm.bind fun _ => ReturnsIff.pure _).congr (by simp)

variable {P : α → Prop} {l : List α} {f : α → ExceptT ε (StateM σ) β}

theorem mapM (hf : ∀ a ∈ l, ReturnsIff (f a) (P a)) : ReturnsIff (l.mapM f) (∀ a ∈ l, P a) := by
  induction l with
  | nil => exact (ReturnsIff.pure []).congr (by simp)
  | cons a l ih =>
    obtain ⟨ha, hl⟩ := forall_mem_cons.mp hf
    rw [mapM_cons]
    exact (ha.bind fun _ => (ih hl).map).congr (by simp)

theorem forM {f : α → ExceptT ε (StateM σ) PUnit} (hf : ∀ a ∈ l, ReturnsIff (f a) (P a)) :
    ReturnsIff (l.forM f) (∀ a ∈ l, P a) := by
  induction l with
  | nil => exact (ReturnsIff.pure PUnit.unit).congr (by simp)
  | cons a l ih =>
    obtain ⟨ha, hl⟩ := forall_mem_cons.mp hf
    exact (ha.bind fun _ => ih hl).congr (by simp)

end ReturnsIff

end Returning

namespace Term

def isFloorDiv : Term → Bool
  | .binop _ op _ _ => op = .floorDiv
  | _ => false

def isAssertion : Term → Bool
  | .assert _ _ _ => true
  | _ => false

def takesPattern : Term → Bool
  | .function _ (.var _ _) _ => false
  | .function _ _ _ => true
  | _ => false

/-- Whether a term can be printed once its parts can. -/
def Shows (t : Term) : Prop := t.isFloorDiv = false ∧ t.takesPattern = false

/-- Whether a term can be written as bytes once its parts can. -/
def Stores (t : Term) : Prop := t.isFloorDiv = false ∧ t.isAssertion = false

theorem symbol?_of_floorDiv : op.symbol? = none ↔ op = .floorDiv := by
  cases op <;> simp [BinaryOp.symbol?]

section Parts
variable {good : Term → Prop} {u v : Term} {Q : Term → Prop}

theorem throughout_leaf (ht : good t) (hparts : t.parts = []) : True ↔ t.Throughout good := by
  rw [throughout_iff, hparts]
  simp [ht]

theorem throughout_one (ht : good t) (hparts : t.parts = [u]) : u.Throughout good ↔ t.Throughout good := by
  rw [throughout_iff (t := t), hparts]
  simp [ht]

theorem throughout_two (ht : good t) (hparts : t.parts = [u, v]) :
    (u.Throughout good ∧ v.Throughout good) ↔ t.Throughout good := by
  rw [throughout_iff (t := t), hparts]
  simp [ht]

theorem throughout_many (ht : good t) : (∀ u ∈ t.parts, u.Throughout good) ↔ t.Throughout good := by
  rw [throughout_iff (t := t)]
  simp [ht]

theorem not_throughout (ht : ¬ good t) : False ↔ t.Throughout good :=
  ⟨False.elim, fun h => ht (throughout_iff.mp h).1⟩

theorem forall_fields : (∀ p ∈ fields, Q p.2) ↔ ∀ u ∈ fields.map Prod.snd, Q u :=
  forall_mem_map.symm

theorem forall_cases : (∀ c ∈ cases, Q c.1 ∧ Q c.2) ↔ ∀ u ∈ cases.flatMap (fun c => [c.1, c.2]), Q u := by
  simp only [mem_flatMap, mem_cons, not_mem_nil, or_false]
  constructor
  · rintro h u ⟨c, hc, rfl | rfl⟩
    · exact (h c hc).1
    · exact (h c hc).2
  · exact fun h c hc => ⟨h _ ⟨c, hc, .inl rfl⟩, h _ ⟨c, hc, .inr rfl⟩⟩

end Parts

end Term

/-! ### Printing -/

namespace Printer
open Term

section Printing
variable {far : Term → Strength → Printer String}

theorem returns_inside {body : Printer String} (ht : t.isRead = true) (hbody : ReturnsIff body P) :
    ReturnsIff (Printer.inside h t body) P := by
  intro seen
  have hany : seen.any t.same = false := any_eq_false.mpr fun s _ => by simp [same_of_isRead ht s]
  rw [outcome_inside, hany, ← hbody (seen ++ [t])]
  rcases outcome body (seen ++ [t]) with ⟨e | s, seen'⟩ <;> simp

theorem returns_integer {n : Int} (hn : (Text.intText? n).isSome = true) : ReturnsIff (integer n) True := by
  obtain ⟨s, hs⟩ := Option.isSome_iff_exists.mp hn
  exact fun seen => iff_true_intro ⟨s, seen, outcome_integer hs⟩

/-- The printer returns exactly if all that is inside of the term can be printed. -/
def Decides (h : Heap) (far : Term → Strength → Printer String) (t : Term) : Prop :=
  ∀ p, ReturnsIff (printWith h far t p) (t.Throughout Shows)

theorem decides_function {param body : Term} (ht : (Term.function i param body).isRead = true)
    (hbody : Decides h far body) : Decides h far (.function i param body) := by
  intro p
  cases param with
  | var j x =>
    refine returns_inside ht (((hbody _).map).congr ?_)
    have hvar : True ↔ (Term.var j x).Throughout Shows := throughout_leaf ⟨rfl, rfl⟩ rfl
    rw [← throughout_two (t := .function i (.var j x) body) ⟨rfl, rfl⟩ rfl, ← hvar, true_and]
  | _ =>
    refine returns_inside ht ((ReturnsIff.throw PrintError.paramNotVariable).congr (not_throughout fun hgood => ?_))
    cases hgood.2

theorem decides_binop (ht : (Term.binop i op l r).isRead = true) (hl : Decides h far l)
    (hr : Decides h far r) : Decides h far (.binop i op l r) := by
  intro p
  refine returns_inside ht ?_
  cases hop : op.symbol? with
  | none =>
    refine (ReturnsIff.throw _).congr (not_throughout fun hgood => ?_)
    simpa [isFloorDiv, symbol?_of_floorDiv.mp hop] using hgood.1
  | some s =>
    refine ((hl _).bind fun _ => (hr _).map).congr (throughout_two ⟨?_, rfl⟩ rfl)
    have hne : op ≠ .floorDiv := fun hop' => by
      rw [symbol?_of_floorDiv.mpr hop'] at hop
      cases hop
    simpa [isFloorDiv] using hne

theorem decides_printWith (h : Heap) (far : Term → Strength → Printer String) (t : Term) :
    t.FromSource → Decides h far t := by
  induction t using parts_induction with
  | step t ih =>
    intro hsource
    have ht : t.isRead = true := (throughout_iff.mp hsource).1
    have ih : ∀ u ∈ t.parts, Decides h far u := fun u hu => ih u hu (hsource.part hu)
    cases t with
    | function i param body => exact decides_function ht (ih body (.tail _ (.head _)))
    | binop i op l r => exact decides_binop ht (ih l (.head _)) (ih r (.tail _ (.head _)))
    | int i n =>
      intro p
      simp only [isRead, Bool.and_eq_true] at ht
      exact returns_inside (by simpa [isRead] using ht) ((returns_integer ht.2).congr (throughout_leaf ⟨rfl, rfl⟩ rfl))
    | float | string | bytes | var | hole | spread =>
      exact fun p => returns_inside ht ((ReturnsIff.pure _).congr (throughout_leaf ⟨rfl, rfl⟩ rfl))
    | list i items =>
      intro p
      rw [printWith, printAll_eq]
      exact returns_inside ht ((ReturnsIff.mapM fun u hu => ih u hu 0).map.congr (throughout_many ⟨rfl, rfl⟩))
    | record i fields =>
      intro p
      rw [printWith, printFields_eq]
      exact returns_inside ht ((ReturnsIff.mapM fun q hq => (forall_fields.mpr ih q hq 0).map).map.congr
        (forall_fields.trans (throughout_many (t := .record i fields) ⟨rfl, rfl⟩)))
    | matchFunction i cases =>
      intro p
      rw [printWith, printCases_eq]
      exact returns_inside ht ((ReturnsIff.mapM fun c hc => ((forall_cases.mpr ih c hc).1 _).bind fun _ =>
        ((forall_cases.mpr ih c hc).2 _).map).map.congr
        (forall_cases.trans (throughout_many (t := .matchFunction i cases) ⟨rfl, rfl⟩)))
    | assign i x v | variant i x v =>
      exact fun p => returns_inside ht ((ih v (.head _) _).map.congr (throughout_one ⟨rfl, rfl⟩ rfl))
    | apply i l r | scope i l r | assert i l r | access i l r =>
      exact fun p => returns_inside ht (((ih l (.head _) _).bind fun _ => (ih r (.tail _ (.head _)) _).map).congr
        (throughout_two ⟨rfl, rfl⟩ rfl))
    | truth | complex | matchCase | environment | relocation | native | closure | link => cases ht

end Printing

end Printer

/-! ### Writing -/

namespace Encoder
open Term Wire

section Writing
variable {order : Order} {far : Term → EncodeM Unit}

theorem returns_emit (bs : List UInt8) : ReturnsIff (emit bs) True := .modify _

theorem returns_shared {tag : Tag} {body : EncodeM Unit} (ht : t.isRead = true) (hbody : ReturnsIff body P) :
    ReturnsIff (shared tag t body) P := by
  intro e
  have hnone : e.known.findIdx? t.same = none := findIdx?_eq_none_iff.mpr fun s _ => same_of_isRead ht s
  have hnumber : outcome (number? t) e = (.ok none, e) := by rw [← hnone]; rfl
  rw [shared, bind_ok hnumber]
  exact (returns_emit _).after (fun _ => hbody) e

theorem returns_integer (n : Int) : ReturnsIff (encodeWith.integer n) True := by
  unfold encodeWith.integer
  split <;> exact (returns_emit _).after fun _ => returns_emit _

/-- The encoder returns exactly if all that is inside of the term can be written. -/
def Decides (order : Order) (h : Heap) (far : Term → EncodeM Unit) (t : Term) : Prop :=
  ReturnsIff (encodeWith order h far t) (t.Throughout Stores)

theorem decides_binop (hl : Decides order h far l) (hr : Decides order h far r) :
    Decides order h far (.binop i op l r) := by
  refine (returns_emit _).after fun _ => ?_
  cases hop : op.symbol? with
  | none =>
    refine (ReturnsIff.throw _).congr (not_throughout fun hgood => ?_)
    simpa [isFloorDiv, symbol?_of_floorDiv.mp hop] using hgood.1
  | some s =>
    refine ((returns_emit _).after fun _ => hl.bind fun _ => hr).congr (throughout_two ⟨?_, rfl⟩ rfl)
    have hne : op ≠ .floorDiv := fun hop' => by
      rw [symbol?_of_floorDiv.mpr hop'] at hop
      cases hop
    simpa [isFloorDiv] using hne

theorem decides_encodeWith (order : Order) (h : Heap) (far : Term → EncodeM Unit) (t : Term) :
    t.FromSource → Decides order h far t := by
  induction t using parts_induction with
  | step t ih =>
    intro hsource
    have ht : t.isRead = true := (throughout_iff.mp hsource).1
    have ih : ∀ u ∈ t.parts, Decides order h far u := fun u hu => ih u hu (hsource.part hu)
    cases t with
    | binop i op l r => exact decides_binop (ih l (.head _)) (ih r (.tail _ (.head _)))
    | int i n => exact (returns_integer n).congr (throughout_leaf ⟨rfl, rfl⟩ rfl)
    | hole => exact (returns_emit _).congr (throughout_leaf ⟨rfl, rfl⟩ rfl)
    | string | var | float =>
      exact ((returns_emit _).after fun _ => returns_emit _).congr (throughout_leaf ⟨rfl, rfl⟩ rfl)
    | bytes =>
      exact ((returns_emit _).after fun _ => (returns_emit _).after fun _ => returns_emit _).congr
        (throughout_leaf ⟨rfl, rfl⟩ rfl)
    | spread i x =>
      cases x with
      | none => exact (returns_emit _).congr (throughout_leaf ⟨rfl, rfl⟩ rfl)
      | some x => exact ((returns_emit _).after fun _ => returns_emit _).congr (throughout_leaf ⟨rfl, rfl⟩ rfl)
    | list i items =>
      rw [Decides, encodeWith, encodeAll_eq]
      exact returns_shared ht (((ReturnsIff.modify _).after fun _ => (returns_emit _).after fun _ =>
        .forM ih).congr (throughout_many ⟨rfl, rfl⟩))
    | record i fields =>
      rw [Decides, encodeWith, encodeFields_eq]
      exact ((returns_emit _).after fun _ => (returns_emit _).after fun _ => ReturnsIff.forM fun p hp =>
        (returns_emit _).after fun _ => forall_fields.mpr ih p hp).congr
        (forall_fields.trans (throughout_many (t := .record i fields) ⟨rfl, rfl⟩))
    | matchFunction i cases =>
      rw [Decides, encodeWith, encodeCases_eq]
      exact ((returns_emit _).after fun _ => (returns_emit _).after fun _ => ReturnsIff.forM fun c hc =>
        (forall_cases.mpr ih c hc).1.bind fun _ => (forall_cases.mpr ih c hc).2).congr
        (forall_cases.trans (throughout_many (t := .matchFunction i cases) ⟨rfl, rfl⟩))
    | variant i x v =>
      exact ((returns_emit _).after fun _ => (returns_emit _).after fun _ => ih v (.head _)).congr
        (throughout_one ⟨rfl, rfl⟩ rfl)
    | assign i x v =>
      exact ((returns_emit _).after fun _ => (returns_emit _).after fun _ => (returns_emit _).after fun _ =>
        ih v (.head _)).congr (throughout_one ⟨rfl, rfl⟩ rfl)
    | function i l r | apply i l r | scope i l r | access i l r =>
      exact ((returns_emit _).after fun _ => (ih l (.head _)).bind fun _ => ih r (.tail _ (.head _))).congr
        (throughout_two ⟨rfl, rfl⟩ rfl)
    | assert i v c => exact (ReturnsIff.throw _).congr (not_throughout fun hgood => by cases hgood.2)
    | truth | complex | matchCase | environment | relocation | native | closure | link => cases ht

end Writing

end Encoder

theorem Term.pretty_returns_iff (ht : t.FromSource) (h : Heap) : (∃ s, t.pretty h = .ok s) ↔ t.Throughout Shows := by
  have hprint := Printer.decides_printWith h (Printer.printWithin h h.knots.length) t ht 0 []
  refine Iff.trans ⟨?_, ?_⟩ hprint
  · rintro ⟨s, hs⟩
    exact ⟨s, _, Prod.ext hs rfl⟩
  · rintro ⟨s, seen, hs⟩
    exact ⟨s, congrArg Prod.fst hs⟩

theorem Term.serialized_returns_iff (ht : t.FromSource) (h : Heap) :
    (∃ bs, t.serialized h = .ok bs) ↔ t.Throughout Stores := by
  obtain ⟨n, hn⟩ : ∃ n, h.rounds = n + 1 :=
    Nat.exists_eq_succ_of_ne_zero (Nat.mul_ne_zero (by unfold Heap.turns; omega) (by unfold Heap.turns; omega))
  have hencode := Encoder.decides_encodeWith .beforeCode h (Encoder.encodeWithin .beforeCode h n) t ht {}
  have hrun : t.encodeIn .beforeCode h = Encoder.encodeWith .beforeCode h (Encoder.encodeWithin .beforeCode h n) t := by
    rw [encodeIn, hn, Encoder.encodeWithin]
  refine Iff.trans ?_ hencode
  unfold serialized serializedIn outcome
  rw [hrun]
  rcases (Encoder.encodeWith .beforeCode h (Encoder.encodeWithin .beforeCode h n) t).run.run {} with ⟨e | u, e'⟩ <;> simp

/-- A program can be stored exactly if no floor division and no assertion is in it, and shown exactly if no floor
division and no function of a pattern is in it. -/
theorem Source.stored_shown_iff {g : Nat} {text : String} {t : Term} (ht : (Source.read g text).1 = .ok t) (h : Heap) :
    ((∃ bs, t.serialized h = .ok bs) ↔ ∀ u : Term, u.Inside t → u.isFloorDiv = false ∧ u.isAssertion = false) ∧
      ((∃ s, t.pretty h = .ok s) ↔ ∀ u : Term, u.Inside t → u.isFloorDiv = false ∧ u.takesPattern = false) :=
  have hsource := Source.fromSource_of_read ht
  ⟨Term.serialized_returns_iff hsource h, Term.pretty_returns_iff hsource h⟩

def assertedIdentity : Term :=
  .assert 0 (.function 0 (.var 0 "x") (.var 0 "x")) (.binop 0 .equal (.int 0 1) (.int 0 1))

theorem assertedIdentity_read : (Source.read 0 "x -> x ? 1 == 1").1 = .ok assertedIdentity := by
  have htokens : tokenize "x -> x ? 1 == 1" = .ok
      [⟨.name "x", ⟨1, 1, 0⟩, ⟨1, 1, 0⟩⟩, ⟨.operator "->", ⟨1, 3, 2⟩, ⟨1, 4, 3⟩⟩, ⟨.name "x", ⟨1, 6, 5⟩, ⟨1, 6, 5⟩⟩,
        ⟨.operator "?", ⟨1, 8, 7⟩, ⟨1, 8, 7⟩⟩, ⟨.int 1, ⟨1, 10, 9⟩, ⟨1, 10, 9⟩⟩,
        ⟨.operator "==", ⟨1, 12, 11⟩, ⟨1, 13, 12⟩⟩, ⟨.int 1, ⟨1, 15, 14⟩, ⟨1, 15, 14⟩⟩] := by decide +kernel
  unfold Source.read
  rw [htokens]
  rfl

theorem assertedIdentity_shown : (Source.read 0 "x -> x ? 1 == 1").1 = .ok assertedIdentity ∧
    (∃ s, assertedIdentity.pretty {} = .ok s) ∧ ¬ ∃ bs, assertedIdentity.serialized {} = .ok bs := by
  obtain ⟨hstored, hshown⟩ := Source.stored_shown_iff assertedIdentity_read {}
  refine ⟨assertedIdentity_read, hshown.mpr ?_, fun h => ?_⟩
  · have hvar : (Term.var 0 "x").Throughout Term.Shows := (Term.throughout_leaf ⟨rfl, rfl⟩ rfl).mp trivial
    have hone : (Term.int 0 1).Throughout Term.Shows := (Term.throughout_leaf ⟨rfl, rfl⟩ rfl).mp trivial
    exact (Term.throughout_two ⟨rfl, rfl⟩ rfl).mp ⟨(Term.throughout_two ⟨rfl, rfl⟩ rfl).mp ⟨hvar, hvar⟩,
      (Term.throughout_two ⟨rfl, rfl⟩ rfl).mp ⟨hone, hone⟩⟩
  · cases (hstored.mp h _ .self).2

/-- Not every program whose functions take variables can be stored and shown: none with a floor division can. -/
theorem floorDiv_neither_stored_nor_shown :
    ∃ t, Source.term "1 // 2" = .ok t ∧ (∀ u : Term, u.Inside t → u.takesPattern = false) ∧
      (t.serialized {} = .error (.noSymbol .floorDiv)) ∧ t.pretty {} = .error (.noSymbol .floorDiv) := by
  have htokens : tokenize "1 // 2" = .ok [⟨.int 1, ⟨1, 1, 0⟩, ⟨1, 1, 0⟩⟩, ⟨.operator "//", ⟨1, 3, 2⟩, ⟨1, 4, 3⟩⟩,
      ⟨.int 2, ⟨1, 6, 5⟩, ⟨1, 6, 5⟩⟩] := by decide +kernel
  refine ⟨.binop 0 .floorDiv (.int 0 1) (.int 0 2), ?_, ?_, rfl, rfl⟩
  · unfold Source.term Source.read
    rw [htokens]
    rfl
  · have hint : ∀ n, (Term.int 0 n).Throughout (·.takesPattern = false) := fun n =>
      Term.throughout_iff.mpr ⟨rfl, by simp [Term.parts]⟩
    exact Term.throughout_iff.mpr ⟨rfl, by simp [Term.parts, hint]⟩

end Scrap
