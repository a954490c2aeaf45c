import Scrap.Proofs.Eval.Keeping
import Scrap.Repl.Basic

/-! # Lines that fail

A line that cannot be read or evaluated leaves every name as it was. A value gets the name `_` before it is printed,
also if it cannot be printed. -/

namespace Scrap.Repl

open Eval

variable {r r' : Repl} {value t : Term} {source : String}

/-! ### Stages -/

theorem read_keeps (r : Repl) (source : String) :
    (r.read source).2.env = r.env ∧ (r.read source).2.session.heap = r.session.heap := by
  unfold read
  dsimp only
  split <;> exact ⟨rfl, rfl⟩

theorem enter_keeps (r : Repl) (t : Term) :
    (r.enter t).2.env = r.env ∧ r.session.heap.Kept (r.enter t).2.session.heap := by
  refine ⟨rfl, (r.session.heap.kept_place t).trans ?_⟩
  exact (keeps_noteTerm "AST: " (r.session.heap.place t).1 { r.session with heap := (r.session.heap.place t).2 }).heap

section Settling
variable {r r' : Repl} {depth : Nat} {t value : Term}

theorem after_plain (h : ∀ i bs, value ≠ .environment i bs) (env : Env) :
    Chain.after env value = env.set "_" value := by
  cases value with
  | environment i bs => exact absurd rfl (h i bs)
  | _ => rfl

theorem settle_error {x : EvalError} (h : r.settle depth t = (.error x, r')) :
    outcome (eval depth r.env t) r.session = (.error x, r'.session) ∧ r'.env = r.env := by
  unfold settle at h
  split at h <;> rename_i ho <;> cases h
  exact ⟨ho, rfl⟩

/-- A session takes over a value as a chain does. -/
theorem settle_ok (h : r.settle depth t = (.ok value, r')) :
    outcome (eval depth r.env t) r.session = (.ok value, r'.session) ∧ r'.env = Chain.after r.env value := by
  unfold settle at h
  split at h <;> rename_i ho <;> cases h
  · exact ⟨ho, rfl⟩
  · rename_i hplain
    exact ⟨ho, (after_plain hplain r.env).symm⟩

theorem settle_keeps (r : Repl) (depth : Nat) (t : Term) : r.session.heap.Kept (r.settle depth t).2.session.heap := by
  have hkept := (keeps_eval depth r.env t r.session).heap
  rcases h : r.settle depth t with ⟨x | value, r'⟩
  · rwa [(settle_error h).1] at hkept
  · rwa [(settle_ok h).1] at hkept

end Settling

theorem answer_keeps (r : Repl) (value : Term) :
    (r.answer value).2.env = r.env ∧ (r.answer value).2.session.heap = r.session.heap := by
  unfold answer
  rcases (value.print r.session.heap).run.run r.session.seen with ⟨x | text, seen⟩ <;> exact ⟨rfl, rfl⟩

theorem answer_failed (h : (r.answer value).1.err ≠ "") :
    ∃ x, (outcome (value.print r.session.heap) r.session.seen).1 = .error x := by
  unfold answer at h
  rcases ho : (value.print r.session.heap).run.run r.session.seen with ⟨x | text, seen⟩ <;> rw [ho] at h
  · exact ⟨x, by rw [show outcome (value.print r.session.heap) r.session.seen = _ from ho]⟩
  · exact absurd rfl h

/-! ### Failures -/

/-- A term comes to a value in the session that is no definition, and the printer fails on it. -/
structure ComesUnprintable (r : Repl) (t value : Term) : Prop where
  settles : ∃ r' x, (r.enter t).2.settle Boot.depth (r.enter t).1 = (.ok value, r') ∧
    (outcome (value.print r'.session.heap) r'.session.seen).1 = .error x
  plain : ∀ i bs, value ≠ .environment i bs

/-- A source comes to such a value. -/
def Unprintable (r : Repl) (source : String) (value : Term) : Prop :=
  ∃ t r', r.read source = (.ok t, r') ∧ mayContinue source t = false ∧ r'.ComesUnprintable t value

theorem ComesUnprintable.env (h : r.ComesUnprintable t value) : (r.evaluate t).2.env = r.env.set "_" value := by
  obtain ⟨⟨r', x, hsettle, -⟩, hplain⟩ := h
  have henv : r'.env = r.env.set "_" value := by
    rw [(settle_ok hsettle).2, after_plain hplain, (r.enter_keeps t).1]
  have hanswer : r.evaluate t = r'.answer value := by
    unfold evaluate
    dsimp only
    rw [hsettle]
    cases value with
    | environment i bs => exact absurd rfl (hplain i bs)
    | _ => rfl
  rw [hanswer, (r'.answer_keeps value).1, henv]

theorem evaluate_failed (h : (r.evaluate t).1.err ≠ "") :
    (r.evaluate t).2.env = r.env ∨ ∃ value, r.ComesUnprintable t value := by
  unfold evaluate at h ⊢
  dsimp only at h ⊢
  split at h
  · rename_i x r' hsettle
    exact .inl ((settle_error hsettle).2.trans (r.enter_keeps t).1)
  · exact absurd rfl h
  · rename_i value r' hplain hsettle
    obtain ⟨x, hx⟩ := answer_failed h
    exact .inr ⟨value, ⟨r', x, hsettle, hx⟩, hplain⟩

theorem evaluate_keeps (r : Repl) (t : Term) : r.session.heap.Kept (r.evaluate t).2.session.heap := by
  have hkept := (r.enter_keeps t).2.trans ((r.enter t).2.settle_keeps Boot.depth (r.enter t).1)
  unfold evaluate
  dsimp only
  split <;> rename_i hsettle <;> rw [hsettle] at hkept
  · exact hkept
  · exact hkept
  · rwa [(answer_keeps _ _).2]

theorem runSource_of_ok (h : r.read source = (.ok t, r')) :
    r.runSource source = if mayContinue source t then ({ more := true }, r') else r'.evaluate t := by
  rw [runSource, h]

theorem runSource_of_error {e : SourceError} (h : r.read source = (.error e, r')) : (r.runSource source).2 = r' := by
  rw [runSource, h]
  dsimp only
  split
  · rfl
  · split <;> rfl

theorem Unprintable.env (h : r.Unprintable source value) : (r.runSource source).2.env = r.env.set "_" value := by
  obtain ⟨t, r', hread, hcomplete, hvalue⟩ := h
  have henv := (r.read_keeps source).1
  rw [hread] at henv
  rw [runSource_of_ok hread, if_neg (by simp [hcomplete]), hvalue.env, henv]

theorem env_or_unprintable (h : (r.runSource source).1.err ≠ "") :
    (r.runSource source).2.env = r.env ∨ ∃ value, r.Unprintable source value := by
  have henv := (r.read_keeps source).1
  rcases hread : r.read source with ⟨e | t, r'⟩ <;> rw [hread] at henv
  · exact .inl (by rw [runSource_of_error hread, henv])
  · rw [runSource_of_ok hread] at h ⊢
    split at h
    · exact absurd rfl h
    · rename_i hcomplete
      rw [if_neg hcomplete]
      rcases evaluate_failed h with hsame | ⟨value, hvalue⟩
      · exact .inl (hsame.trans henv)
      · exact .inr ⟨value, t, r', hread, by simpa using hcomplete, hvalue⟩

theorem runSource_keeps (r : Repl) (source : String) : r.session.heap.Kept (r.runSource source).2.session.heap := by
  have hheap := (r.read_keeps source).2
  rcases hread : r.read source with ⟨e | t, r'⟩ <;> rw [hread] at hheap
  · rw [runSource_of_error hread, hheap]
    exact .refl _
  · rw [runSource_of_ok hread, ← hheap]
    split
    · exact .refl _
    · exact r'.evaluate_keeps t

/-- A line that fails changes no name but `_`, and that one exactly if it is a value that cannot be printed. The objects
of the session are kept in any case. -/
theorem runSource_failed (r : Repl) (source : String) (h : (r.runSource source).1.err ≠ "") :
    ((r.runSource source).2.env = r.env ↔ ∀ value, r.Unprintable source value → r.env.get? "_" = some value) ∧
      (∀ value, r.Unprintable source value → (r.runSource source).2.env = r.env.set "_" value) ∧
      r.session.heap.Kept (r.runSource source).2.session.heap := by
  refine ⟨⟨fun hsame value hvalue => ?_, fun hall => ?_⟩, fun value hvalue => hvalue.env, r.runSource_keeps source⟩
  · rwa [hvalue.env, Dict.set_eq_self_iff] at hsame
  · rcases env_or_unprintable h with hsame | ⟨value, hvalue⟩
    · exact hsame
    · rw [hvalue.env, Dict.set_eq_self_iff.mpr (hall value hvalue)]

def counted : Repl := { session := {}, env := [("_", .int 1 1)] }

/-- A function with a floor division is a value, but it has no written form. -/
theorem halving_fails : (counted.runSource "x -> x // 2").1.err ≠ "" := by decide +kernel

theorem halving_takes_name : (counted.runSource "x -> x // 2").2.env ≠ counted.env := by
  have hkind : ((counted.runSource "x -> x // 2").2.env.get? "_").map Term.kind ≠
      (counted.env.get? "_").map Term.kind := by decide +kernel
  exact fun h => hkind (by rw [h])

theorem halving_unprintable : (counted.runSource "x -> x // 2").1.err ≠ "" ∧
    ∃ value, counted.Unprintable "x -> x // 2" value ∧ counted.env.get? "_" ≠ some value := by
  refine ⟨halving_fails, Classical.byContradiction fun hnone => halving_takes_name ?_⟩
  exact (runSource_failed counted _ halving_fails).1.mpr fun value hvalue =>
    Classical.byContradiction fun hother => hnone ⟨value, hvalue, hother⟩

/-- Not every line that fails leaves the names as they were. -/
theorem runSource_failed_changes :
    ¬ ∀ (r : Repl) (source : String), (r.runSource source).1.err ≠ "" → (r.runSource source).2.env = r.env :=
  fun h => halving_takes_name (h counted _ halving_fails)

end Scrap.Repl
