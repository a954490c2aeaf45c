import Scrap.Proofs.Term.Printed

/-! # Printing terms in two heaps

A term is described and printed alike in two heaps with the same links and the same environments for the closures that
can be met. -/

namespace Scrap.Term

/-- The heaps do not differ in what can be met from a term whose closures and links are in `O`. -/
structure Agrees (h h' : Heap) (O : Term → Prop) : Prop where
  next : h'.next = h.next
  size : h'.envs.size = h.envs.size
  knots : h'.knots = h.knots
  resolves : Resolves h O
  envs : ∀ e c, O (.closure e c) → EnvAlike h h' O e

section Agrees
variable {h h' : Heap} {O : Term → Prop}

theorem Agrees.resolve (ha : Agrees h h' O) (t : Term) : h'.resolve t = h.resolve t := by
  cases t with
  | link i =>
    show (List.lookup i h'.knots).getD _ = (List.lookup i h.knots).getD _
    rw [ha.knots]
  | _ => rfl

theorem Agrees.turns (ha : Agrees h h' O) : h'.turns = h.turns := by
  rw [Heap.turns, Heap.turns, ha.size, ha.knots]

theorem Agrees.rounds (ha : Agrees h h' O) : h'.rounds = h.rounds := by
  rw [Heap.rounds, Heap.rounds, ha.turns, ha.next]

theorem Agrees.comparable (ha : Agrees h h' O) : Comparable h h' O O where
  links := ha.resolve
  turns := by rw [comparisons, comparisons, ha.turns, ha.next]
  left := ha.resolves
  right := ha.resolves
  envs e c e' c' hc hc' := ⟨ha.envs e c hc, ha.envs e' c' hc'⟩

end Agrees

/-! ### Descriptions -/

section Describing
variable {h h' : Heap} {O : Term → Prop} {far far' : List Term → Term → Option String}

theorem mapM_congr {α β : Type} {f g : α → Option β} {l : List α} (hl : ∀ a ∈ l, f a = g a) : l.mapM f = l.mapM g := by
  induction l with
  | nil => rfl
  | cons a l ih =>
    rw [List.mapM_cons, List.mapM_cons, hl a (.head _), ih fun b hb => hl b (.tail _ hb)]

theorem describeAll_alike {ts : List Term}
    (ih : ∀ t ∈ ts, ∀ path, describeWith h' far' path t = describeWith h far path t) (path : List Term) :
    describeAll h' far' path ts = describeAll h far path ts := by
  induction ts with
  | nil => rw [describeAll, describeAll]
  | cons t ts ihts =>
    rw [describeAll, describeAll, ih t (.head _), ihts fun u hu => ih u (.tail _ hu)]

theorem describeFields_alike {fs : Dict Term}
    (ih : ∀ p ∈ fs, ∀ path, describeWith h' far' path p.2 = describeWith h far path p.2) (path : List Term) :
    describeFields h' far' path fs = describeFields h far path fs := by
  induction fs with
  | nil => rw [describeFields, describeFields]
  | cons p fs ihfs =>
    obtain ⟨k, t⟩ := p
    rw [describeFields, describeFields, ih (k, t) (.head _), ihfs fun q hq => ih q (.tail _ hq)]

theorem describeCases_alike {cs : List (Term × Term)}
    (ih : ∀ c ∈ cs, (∀ path, describeWith h' far' path c.1 = describeWith h far path c.1) ∧
      ∀ path, describeWith h' far' path c.2 = describeWith h far path c.2) (path : List Term) :
    describeCases h' far' path cs = describeCases h far path cs := by
  induction cs with
  | nil => rw [describeCases, describeCases]
  | cons c cs ihcs =>
    obtain ⟨p, b⟩ := c
    obtain ⟨ihp, ihb⟩ := ih (p, b) (.head _)
    rw [describeCases, describeCases, ihp, ihb, ihcs fun d hd => ih d (.tail _ hd)]

theorem describeWith_alike (ha : Agrees h h' O) (hfar : ∀ path, ∀ u : Term, u.Leaves O → far' path u = far path u)
    (t : Term) (ht : t.Leaves O) : ∀ path, describeWith h' far' path t = describeWith h far path t := by
  induction t using parts_induction with
  | step t ih =>
    intro path
    have part := fun u hu => ih u hu (ht.part hu)
    cases t with
    | list i items =>
      have hitems : ∀ t ∈ items, ∀ path, describeWith h' far' path t = describeWith h far path t := part
      unfold describeWith
      dsimp only
      rw [describeAll_alike hitems]
    | record i fields =>
      unfold describeWith
      dsimp only
      rw [describeFields_alike fun p hp => part p.2 (mem_parts_fields hp)]
    | environment i bs =>
      unfold describeWith
      rw [describeFields_alike fun p hp => part p.2 (mem_parts_fields hp)]
    | matchFunction i cs =>
      unfold describeWith
      rw [describeCases_alike fun c hc => ⟨part c.1 (mem_parts_cases hc).1, part c.2 (mem_parts_cases hc).2⟩]
    | assign i x v | variant i x v =>
      unfold describeWith
      rw [part v (.head _)]
    | binop i op l r =>
      unfold describeWith
      rw [part l (.head _), part r (.tail _ (.head _))]
    | function i l r | apply i l r | scope i l r | assert i l r | matchCase i l r | access i l r =>
      unfold describeWith
      rw [part l (.head _), part r (.tail _ (.head _))]
    | closure e c =>
      have he := ha.envs e c (ht _ .self rfl)
      have hentries : ∀ path, (h.envOf e).mapM (fun p => far' path p.2 >>= fun s => pure (p.1, s)) =
          (h.envOf e).mapM fun p => far path p.2 >>= fun s => pure (p.1, s) :=
        fun path => mapM_congr fun p hp => by rw [hfar path p.2 (he.leaves p hp)]
      unfold describeWith
      dsimp only
      rw [he.same, part c (.head _), hentries]
    | link i =>
      unfold describeWith
      rw [ha.resolve, hfar path _ (ha.resolves _ ht)]
    | _ =>
      unfold describeWith
      rfl

theorem describeWithin_alike (ha : Agrees h h' O) (n : Nat) (path : List Term) {t : Term} (ht : t.Leaves O) :
    describeWithin h' n path t = describeWithin h n path t := by
  induction n generalizing path t with
  | zero => rfl
  | succ n ih => exact describeWith_alike ha (fun path u hu => ih path hu) t ht path

theorem envDescription?_alike (ha : Agrees h h' O) {env : Env} (henv : ∀ p ∈ env, p.2.Leaves O) :
    envDescription? h' env = envDescription? h env := by
  have hfar : ∀ path, ∀ u : Term, u.Leaves O → describeWithin h' h.turns path u = describeWithin h h.turns path u :=
    fun path u hu => describeWithin_alike ha _ path hu
  unfold envDescription?
  rw [ha.turns, describeFields_alike fun p hp => describeWith_alike ha hfar p.2 (henv p hp)]

end Describing

end Scrap.Term

namespace Scrap.Printer

open Term

section Alike
variable {α β : Type} {O : Term → Prop}

/-- Two printers do the same, as long as only terms with leaves in `O` are remembered. -/
def Alike (O : Term → Prop) (m m' : Printer α) : Prop :=
  ∀ seen : List Term, (∀ t ∈ seen, t.Leaves O) →
    outcome m' seen = outcome m seen ∧ ∀ t ∈ (outcome m seen).2, t.Leaves O

theorem Alike.pure (a : α) : Alike O (Pure.pure a) (Pure.pure a) := fun _ h => ⟨rfl, h⟩

theorem Alike.throw (x : PrintError) : Alike O (throw x : Printer α) (MonadExcept.throw x) := fun _ h => ⟨rfl, h⟩

theorem Alike.bind {m m' : Printer α} {f f' : α → Printer β} (hm : Alike O m m') (hf : ∀ a, Alike O (f a) (f' a)) :
    Alike O (m >>= f) (m' >>= f') := by
  intro seen hseen
  obtain ⟨hout, hl⟩ := hm seen hseen
  rw [outcome_bind, outcome_bind, hout]
  rcases ho : outcome m seen with ⟨x | a, seen'⟩ <;> rw [ho] at hl
  · exact ⟨rfl, hl⟩
  · exact hf a seen' hl

theorem Alike.map {m m' : Printer α} (hm : Alike O m m') (f : α → β) :
    Alike O (m >>= fun a => Pure.pure (f a)) (m' >>= fun a => Pure.pure (f a)) :=
  hm.bind fun a => .pure (f a)

theorem Alike.two {m m' n n' : Printer α} (hm : Alike O m m') (hn : Alike O n n') (f : α → α → β) :
    Alike O (m >>= fun a => n >>= fun b => Pure.pure (f a b)) (m' >>= fun a => n' >>= fun b => Pure.pure (f a b)) :=
  hm.bind fun a => hn.map (f a)

theorem Alike.mapM {f f' : α → Printer β} {l : List α} (hf : ∀ a ∈ l, Alike O (f a) (f' a)) :
    Alike O (l.mapM f) (l.mapM f') := by
  induction l with
  | nil => exact .pure []
  | cons a l ih =>
    rw [List.mapM_cons, List.mapM_cons]
    exact (hf a (.head _)).bind fun _ => (ih fun b hb => hf b (.tail _ hb)).map _

variable {h h' : Heap}

theorem forget_alike (ha : Agrees h h' O) {t : Term} (ht : t.Leaves O) {seen : List Term}
    (hseen : ∀ u ∈ seen, u.Leaves O) : forget h' t seen = forget h t seen := by
  unfold forget
  induction seen with
  | nil => rfl
  | cons u seen ih =>
    rw [List.eraseP_cons, List.eraseP_cons, ha.comparable.equal (hseen u (.head _)) ht,
      ih fun v hv => hseen v (.tail _ hv)]

theorem Alike.inside (ha : Agrees h h' O) {t : Term} (ht : t.Leaves O) {body body' : Printer String}
    (hbody : Alike O body body') : Alike O (Printer.inside h t body) (Printer.inside h' t body') := by
  intro seen hseen
  rw [outcome_inside, outcome_inside]
  split
  · exact ⟨rfl, hseen⟩
  · have hseen' : ∀ u ∈ seen ++ [t], u.Leaves O := by
      intro u hu
      rcases List.mem_append.mp hu with hu | hu
      · exact hseen u hu
      · cases List.mem_singleton.mp hu
        exact ht
    obtain ⟨hout, hl⟩ := hbody _ hseen'
    rw [hout]
    rcases ho : outcome body (seen ++ [t]) with ⟨x | s, seen2⟩ <;> rw [ho] at hl
    · exact ⟨rfl, hl⟩
    · refine ⟨?_, fun u hu => hl u (List.mem_of_mem_eraseP hu)⟩
      simp only [forget_alike ha ht hl]

end Alike

section Printing
variable {h h' : Heap} {O : Term → Prop} {far far' : Term → Strength → Printer String}

theorem printWith_alike (ha : Agrees h h' O) (hfar : ∀ u : Term, u.Leaves O → ∀ p, Alike O (far u p) (far' u p))
    (t : Term) (ht : t.Leaves O) : ∀ p, Alike O (printWith h far t p) (printWith h' far' t p) := by
  induction t using parts_induction with
  | step t ih =>
    intro p
    have part := fun u hu => ih u hu (ht.part hu)
    cases t with
    | int i n =>
      rw [printWith, printWith]
      refine .inside ha ht ?_
      unfold integer
      split
      · exact .pure _
      · exact .throw _
    | list i items =>
      rw [printWith, printWith, printAll_eq, printAll_eq]
      exact .inside ha ht ((Alike.mapM fun u hu => part u hu 0).map _)
    | record i fields =>
      rw [printWith, printWith, printFields_eq, printFields_eq]
      exact .inside ha ht ((Alike.mapM fun q hq => (part q.2 (mem_parts_fields hq) 0).map _).map _)
    | closure e c =>
      rw [printWith, printWith, (ha.envs e c (ht _ .self rfl)).same]
      exact .inside ha ht ((part c (.head _) _).map _)
    | environment i bs =>
      rw [printWith, printWith, envDescription?_alike ha (leaves_environment.mp ht)]
      refine .inside ha ht ?_
      split
      · exact .pure _
      · exact .throw _
    | variant i x v | assign i x v =>
      rw [printWith, printWith]
      exact .inside ha ht ((part v (.head _) _).map _)
    | binop i op l r =>
      rw [printWith, printWith]
      refine .inside ha ht ?_
      split
      · exact .throw _
      · exact (part l (.head _) _).two (part r (.tail _ (.head _)) _) _
    | function i q b =>
      unfold printWith
      refine .inside ha ht ?_
      split
      · exact (part b (.tail _ (.head _)) _).map _
      · exact .throw _
    | matchFunction i cs =>
      rw [printWith, printWith, printCases_eq, printCases_eq]
      exact .inside ha ht ((Alike.mapM fun c hc =>
        (part c.1 (mem_parts_cases hc).1 _).two (part c.2 (mem_parts_cases hc).2 _) _).map _)
    | scope i l r | assert i l r | apply i l r | access i l r =>
      rw [printWith, printWith]
      exact .inside ha ht ((part l (.head _) _).two (part r (.tail _ (.head _)) _) _)
    | matchCase i q b =>
      rw [printWith, printWith]
      exact .inside ha ht (.throw _)
    | link i =>
      rw [printWith, printWith, ha.resolve]
      exact hfar _ (ha.resolves _ ht) p
    | _ =>
      rw [printWith, printWith]
      exact .inside ha ht (.pure _)

theorem printWithin_alike (ha : Agrees h h' O) (n : Nat) {t : Term} (ht : t.Leaves O) (p : Strength) :
    Alike O (printWithin h n t p) (printWithin h' n t p) := by
  induction n generalizing t p with
  | zero => exact .pure _
  | succ n ih => exact printWith_alike ha (fun u hu p => ih hu p) t ht p

theorem shown_alike (ha : Agrees h h' O) {t : Term} (ht : t.Leaves O) : Alike O (t.shown h) (t.shown h') := by
  have hprint : ∀ u : Term, u.Leaves O → Alike O (u.print h) (u.print h') := fun u hu => by
    unfold Term.print
    rw [ha.knots]
    exact printWithin_alike ha _ hu _
  have hr := ha.resolves t ht
  unfold Term.shown
  rw [ha.resolve]
  split
  · exact .pure _
  · exact hprint _ hr

end Printing

end Scrap.Printer
