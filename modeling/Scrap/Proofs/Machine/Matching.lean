import Scrap.Machine.Output
import Scrap.Proofs.Machine.Patterns
import Scrap.Proofs.Term.Instances

/-! # Compiled matching and matching

The code of a pattern agrees with matching exactly if the value does not match, or no variant of the hole in the
pattern meets a variant that is an object. A program that puts a computed hole into a variant makes such an object. -/

namespace Scrap

mutual

theorem Term.isPattern_of_isWordPattern (q : Term) (hq : q.isWordPattern = true) : q.isPattern = true := by
  cases q with
  | int | hole | string | var => rfl
  | variant i tag q => exact isPattern_of_isWordPattern q hq
  | list i qs => exact arePatterns_of_areWordPatterns qs hq
  | _ => cases hq

theorem Term.arePatterns_of_areWordPatterns (qs : List Term) (hqs : areWordPatterns qs = true) :
    arePatterns qs = true := by
  cases qs with
  | nil => rfl
  | cons q qs =>
    cases q with
    | spread i name => exact (Bool.and_eq_true_iff.mp hqs).2
    | _ =>
      obtain ⟨hq, hqs⟩ := Bool.and_eq_true_iff.mp hqs
      exact Bool.and_eq_true_iff.mpr ⟨isPattern_of_isWordPattern _ hq, arePatterns_of_areWordPatterns qs hqs⟩

end

namespace Machine

open Code Compile

/-- No run both goes on after some code and is sent off to a label by it. -/
theorem FallsThrough.not_leads {m : Image} {call : Caller} {args : Dict Word} {target : Label} {code : List Statement}
    {a b : Point} (h : FallsThrough m call args target code a) (hb : b.skip = none) : ¬Leads m call args code a b := by
  obtain ⟨c, hc, hfall⟩ := h
  intro hlead
  -- What follows tells the two apart: code that reports that nothing matches, which a jump passes.
  have heq := (hlead [.noMatch]).symm.trans (hfall [.noMatch])
  rw [hb, hc] at heq
  have hpass : exec m call args c.frame (some target) [.noMatch] = throw .crashed := by
    simp [exec]
  rw [hpass] at heq
  cases heq

theorem Ends.fallsThrough_iff {m : Image} {call : Caller} {args : Dict Word} {target : Label} {code : List Statement}
    {n n' : Nat} {B : Env → Point → Prop} {a : Point} {v : Option Env} (h : Ends m call args target code n n' B a v) :
    FallsThrough m call args target code a ↔ v = none := by
  cases v with
  | none => exact iff_of_true h rfl
  | some env =>
    obtain ⟨b, hb, hlead, -⟩ := h
    exact iff_of_false (fun hfall => hfall.not_leads hb hlead) (by simp)

/-- The code of a pattern agrees with matching on a value: it falls through exactly if the value does not match, and
otherwise binds the names of the pattern to the words of what they match. -/
structure Agrees (heap : Heap) (m : Image) (call : Caller) (args : Dict Word) (target : Label) (code : List Statement)
    (scope : Scope) (made : Nat) (a : Point) (q o : Term) : Prop where
  fallsThrough : FallsThrough m call args target code a ↔ q.matchPattern heap o = .ok none
  binds : ∀ env, q.matchPattern heap o = .ok (some env) →
    ∃ b, b.skip = none ∧ Leads m call args code a b ∧ Binds m made scope env b

/-- Every pattern has code, and for every value in the variable that the code tests, however its word came about, the
code agrees with matching exactly if the value does not match or no variant of the hole meets an object. -/
theorem tryMatch_agrees_iff (σ : Setting) (heap : Heap) (x : String) (target : Label) (q : Term) (p : Progress)
    (hq : q.isWordPattern = true) (hx : Settled p.made x) :
    ∃ scope p' code, outcome (tryMatch σ x target q) p = (.ok scope, p') ∧ Wrote p p' code ∧
      ∀ (m : Image) (call : Caller) (args : Dict Word) (frame : Frame) (s : State) (w : Word) (o : Term),
        p'.program.tags ⊆ m.program.tags → m.TagsFit → Holds frame s x w → Shows m s.store w o →
        s.stack.size + p'.made ≤ stackSize + p.made →
        (Agrees heap m call args target code scope p'.made ⟨frame, s, none⟩ q o ↔
          q.matchPattern heap o = .ok none ∨ meetsBox s.store q w = false) := by
  obtain ⟨scope, p', code, hp, hcode⟩ : HasCode σ heap x target q p := tryMatch_hasCode q x p hq hx
  refine ⟨scope, p', code, hp, hcode.wrote, ?_⟩
  intro m call args frame s w o htags hm hw ho hroom
  obtain ⟨r, hr, -⟩ := Term.matchPattern_finds (Term.inherited_true heap)
    (Term.isPattern_of_isWordPattern q hq) (t := o) trivial
  have hend : Ends m call args target code p.made p'.made (Binds m p'.made scope) ⟨frame, s, none⟩
      (if meetsBox s.store q w then none else r) :=
    hcode.decides htags hm rfl hw ho hroom hr
  have hfalls := hend.fallsThrough_iff
  cases hbox : meetsBox s.store q w with
  | true =>
    rw [hbox, if_pos rfl] at hend
    refine ⟨fun h => .inl (h.fallsThrough.mp hend), fun h => ?_⟩
    have hnone := h.resolve_right (by simp)
    exact ⟨⟨fun _ => hnone, fun _ => hend⟩, fun env henv => by cases hnone.symm.trans henv⟩
  | false =>
    rw [hbox] at hend hfalls
    refine ⟨fun _ => .inr rfl, fun _ => ⟨hfalls.trans ⟨fun h => h ▸ hr, fun h => ?_⟩, fun env henv => ?_⟩⟩
    · exact Except.ok.inj (hr.symm.trans h)
    · cases hr.symm.trans henv
      obtain ⟨b, hb, hlead, -, -, hbinds⟩ := hend
      exact ⟨b, hb, hlead, hbinds⟩

/-- The pattern `[#a (), ...rest]`. -/
def tagAndRest : Term := .list 0 [.variant 0 "a" (.hole 0), .spread 0 (some "rest")]

def oneTag : Image := { program := { tagNumbers := [("a", 0)] } }

/-- A run whose only variable holds the list `[#a (), 7]`. -/
def tagAndSeven : State where
  store := { objects := #[.list (Word.int 7) Word.emptyList, .list (Word.variant 0) (Word.pointer 0)] }
  stack := #[Word.pointer 1]

theorem tagAndSeven_shows : Shows oneTag tagAndSeven.store (Word.pointer 1)
    (.list 0 [.variant 0 "a" (.hole 0), .int 0 7]) :=
  have seven : tagAndSeven.store.get? (Word.pointer 0) = some (.list (Word.int 7) Word.emptyList) :=
    Store.get?_pointer (by decide) _
  have both : tagAndSeven.store.get? (Word.pointer 1) = some (.list (Word.variant (oneTag.tag "a")) (Word.pointer 0)) :=
    Store.get?_pointer (by decide) _
  .cons 0 0 both (.tag 0 0 (by decide)) (.cons 0 0 seven (.int 0 (by decide)) (.nil 0))

theorem tagAndRest_agrees :
    ∃ scope p' code, outcome (tryMatch {} (tempName 0) .noMatch tagAndRest) { made := 1 } = (.ok scope, p') ∧
      Wrote { made := 1 } p' code ∧
      Agrees {} oneTag (callWithin oneTag 1) [] .noMatch code scope p'.made ⟨[(tempName 0, 0)], tagAndSeven, none⟩
        tagAndRest (.list 0 [.variant 0 "a" (.hole 0), .int 0 7]) := by
  obtain ⟨scope, p', code, hp, hw, h⟩ := tryMatch_agrees_iff {} {} (tempName 0) .noMatch tagAndRest { made := 1 }
    (by decide) (settled_tempName (by decide))
  have hp' : p' = (outcome (tryMatch {} (tempName 0) .noMatch tagAndRest) { made := 1 }).2 := by rw [hp]
  have htags : p'.program.tags = ["a"] := by rw [hp']; rfl
  have hmade : p'.made = 3 := by rw [hp']; rfl
  refine ⟨scope, p', code, hp, hw, ?_⟩
  refine (h oneTag (callWithin oneTag 1) [] [(tempName 0, 0)] tagAndSeven (Word.pointer 1) _ ?_
    (Nat.le_of_ble_eq_true rfl) ⟨0, rfl, rfl⟩ tagAndSeven_shows ?_).mpr (.inr (by decide))
  · rw [htags]
    decide
  · rw [hmade]
    decide

/-- A program that matches a variant with a hole that it has computed: `(| #a () -> 1 | _ -> 2) (#a x) . x = ()`. -/
def computedHole : Term :=
  .scope 0 (.apply 0 (.matchFunction 0 [(.variant 0 "a" (.hole 0), .int 0 1), (.var 0 "_", .int 0 2)])
    (.variant 0 "a" (.var 0 "x"))) (.assign 0 "x" (.hole 0))

/-- Evaluation takes the first case, the compiled program the second. -/
theorem computedHole_differs :
    (outcome (eval 9 [] computedHole) {}).1.toOption.map Term.int? = some (some 1) ∧
      (computedHole.compiled {}).toOption.map (fun p => (run p 65536).output.toList) = some (Text.utf8 "2\n") := by
  constructor
  · decide +kernel
  · decide +kernel

end Machine

end Scrap
