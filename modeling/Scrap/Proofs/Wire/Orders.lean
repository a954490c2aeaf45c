import Scrap.Proofs.Wire.RoundTrip

/-! # Terms without closures

The encoder and the decoder number a closure at different times. Where there are none, both orders write the same. -/

namespace Scrap.Wire

variable {t : Term} {R R' : Writing}

/-- Whatever `R` writes for the term, `R'` writes too. -/
def Rewrites (R R' : Writing) (t : Term) : Prop := ∀ K bs K', R K t bs K' → R' K t bs K'

section Sequences
variable {K K' : List Term} {bs : List UInt8}

theorem rewrites_items {ts : List Term} (hR : ∀ t ∈ ts, Rewrites R R' t) (hw : Items R K ts bs K') :
    Items R' K ts bs K' := by
  induction hw with
  | nil => exact .nil
  | cons hw _ ih =>
    exact .cons (hR _ (.head _) _ _ _ hw) (ih fun t ht => hR t (.tail _ ht))

theorem rewrites_entries {fs : Dict Term} (hR : ∀ p ∈ fs, Rewrites R R' p.2) (hw : Entries R K fs bs K') :
    Entries R' K fs bs K' := by
  induction hw with
  | nil => exact .nil
  | cons hw _ ih =>
    exact .cons (hR _ (.head _) _ _ _ hw) (ih fun p hp => hR p (.tail _ hp))

theorem rewrites_branches {cases : List (Term × Term)} (hR : ∀ c ∈ cases, Rewrites R R' c.1 ∧ Rewrites R R' c.2)
    (hw : Branches R K cases bs K') : Branches R' K cases bs K' := by
  induction hw with
  | nil => exact .nil
  | cons hp hb _ ih =>
    obtain ⟨hp', hb'⟩ := hR _ (.head _)
    exact .cons (hp' _ _ _ hp) (hb' _ _ _ hb) (ih fun c hc => hR c (.tail _ hc))

end Sequences

section Orders
variable {h : Heap} {root : Term}

theorem rewrites_written (hnone : ∀ e c, ¬ h.Reaches root (.closure e c))
    (hfar : ∀ t, h.Reaches root t → Rewrites R R' t) (ht : h.Reaches root t) :
    Rewrites (Written .beforeCode h R) (Written .afterCode h R') t := by
  induction t using Term.parts_induction with
  | step t ih =>
    have part : ∀ {u}, u ∈ t.parts → Rewrites (Written .beforeCode h R) (Written .afterCode h R') u :=
      fun hu => ih _ hu (ht.part hu)
    intro K bs K' hw
    cases hw with
    | int | truth | string | var | float | bytes | hole | spread | namedSpread => constructor
    | knownList hn => exact .knownList hn
    | list hn hxs => exact .list hn (rewrites_items (fun _ hu => part hu) hxs)
    | knownClosure | closureBefore | closureAfter => exact absurd ht (hnone _ _)
    | link hw => exact .link (hfar _ ht.link _ _ _ hw)
    | variant hv => exact .variant (part (.head _) _ _ _ hv)
    | assign hv => exact .assign (part (.head _) _ _ _ hv)
    | record hf => exact .record (rewrites_entries (fun p hp => part (Term.mem_parts_fields hp)) hf)
    | matchFunction hc =>
      exact .matchFunction (rewrites_branches (fun c hm =>
        ⟨part (Term.mem_parts_cases hm).1, part (Term.mem_parts_cases hm).2⟩) hc)
    | function hl hr | apply hl hr | scope hl hr | access hl hr =>
      have hl' := part (.head _) _ _ _ hl
      have hr' := part (.tail _ (.head _)) _ _ _ hr
      constructor <;> assumption
    | binop hs hl hr => exact .binop hs (part (.head _) _ _ _ hl) (part (.tail _ (.head _)) _ _ _ hr)

theorem rewrites_within (hnone : ∀ e c, ¬ h.Reaches root (.closure e c)) (turns : Nat)
    (ht : h.Reaches root t) : Rewrites (WrittenWithin .beforeCode h turns) (WrittenWithin .afterCode h turns) t := by
  induction turns generalizing t with
  | zero => exact fun _ _ _ hw => hw.elim
  | succ turns ih => exact rewrites_written hnone (fun _ hu => ih hu) ht

end Orders

end Scrap.Wire
