import Scrap.Proofs.Wire.Copies

/-! # Reading copies

A decoder numbers a closure after its code. If a term was written in that order, the decoder gives the k-th number to
the copy of the k-th term, so that every reference finds its copy. -/

namespace Scrap.Wire

open Decoder List

variable {α : Type} {m : DecodeM α} {d : Decoder} {h : Heap} {K K' K1 K2 : List Term} {bs cs : List UInt8} {Q : Pairs}
  {tag : Tag} {f l r root t v : Term} {one : DecodeM Term} {post : Heap → Pairs → Term → Prop}
  {cases : List (Term × Term)} {i n : Nat} {s : String} {b : Term} {p : Term × Term} {op : BinaryOp}

/-! ### Numbered terms and their copies -/

/-- What a decoder has under a number stands for the copy of a pair: before a list has been read there is a link. -/
def Stands (g : Heap) (u b : Term) : Prop :=
  u = b ∨ ∃ j ys, b = .link j ∧ u = .list j ys ∧ g.resolve (.link j) = .list j ys

/-- The decoder has copies of the numbered terms, in the same order. -/
structure Keeps (h : Heap) (root : Term) (K : List Term) (Q : Pairs) (d : Decoder) : Prop where
  originals : Q.map Prod.fst = K
  size : d.known.size = Q.length
  stands : ∀ {n : Nat} {p : Term × Term}, Q[n]? = some p → ∃ u, d.known[n]? = some u ∧ Stands d.heap u p.2
  shapes : ∀ p ∈ Q, (∃ i xs j, p = (Term.list i xs, Term.link j)) ∨
    ∃ e c e' c', p = (Term.closure e c, Term.closure e' c')
  reached : ∀ p ∈ Q, h.Reaches root p.1
  links : ∀ {a : Term} {i : Nat}, (a, Term.link i) ∈ Q → i < d.heap.next
  placed : ∀ {a : Term} {i : Nat}, (a, Term.link i) ∈ Q → i ≠ 0
  positive : 0 < d.heap.next
  closures : ∀ {a c : Term} {e : Nat}, (a, Term.closure e c) ∈ Q → e < d.heap.envs.size
  knots : ∀ p ∈ d.heap.knots, p.1 < d.heap.next
  apart : Q.Pairwise Apart

namespace Keeps
variable {u : Term} {xs : List Term} (hk : Keeps h root K Q d)
include hk

theorem carries {d' : Decoder} {new : Pairs} (hl : d.heap.Later d'.heap) :
    Carries Q d.heap (Q ++ new) d'.heap where
  pairs _ hp := mem_append_left _ hp
  lists _ _ hp := .inr (hl.knots _ (hk.links hp))

theorem past (n : Nat) : Keeps h root K Q (d.past n) := { hk with }

/-- The heap hands out numbers; its links stay as they are. -/
theorem grow {g : Heap} (hnext : d.heap.next ≤ g.next) (hsize : d.heap.envs.size ≤ g.envs.size)
    (hknots : g.knots = d.heap.knots) : Keeps h root K Q { d with heap := g } :=
  have hresolve : ∀ j, g.resolve (.link j) = d.heap.resolve (.link j) := fun j => by rw [Heap.resolve, Heap.resolve, hknots]
  { hk with
    stands := fun hp => by simpa only [Stands, hresolve] using hk.stands hp
    links := fun hp => Nat.lt_of_lt_of_le (hk.links hp) hnext
    positive := Nat.lt_of_lt_of_le hk.positive hnext
    closures := fun hp => Nat.lt_of_lt_of_le (hk.closures hp) hsize
    knots := fun p hp => Nat.lt_of_lt_of_le (hk.knots p (hknots ▸ hp)) hnext }

theorem fresh : Keeps h root K Q { d with heap := { d.heap with next := d.heap.next + 1 } } :=
  hk.grow (Nat.le_succ _) (Nat.le_refl _) rfl

theorem original_unique (hcoh : h.Coherent root) (ht : h.Reaches root t)
    (hp : p ∈ Q) (hs : t.same p.1 = true) (hform : (∃ i xs, t = .list i xs) ∨ ∃ e c, t = .closure e c) : p.1 = t := by
  have hr := hk.reached p hp
  rcases hk.shapes p hp with ⟨i, xs, j, rfl⟩ | ⟨e, c, e', c', rfl⟩ <;>
    rcases hform with ⟨i', ys, rfl⟩ | ⟨e2, c2, rfl⟩
  · obtain ⟨rfl, hne⟩ := Term.same_list.mp hs
    rw [hcoh.lists hne hr ht]
  · cases hs
  · cases hs
  · cases Term.same_closure.mp hs
    rw [hcoh.codes hr ht]

theorem numbered (hcoh : h.Coherent root) (ht : h.Reaches root t)
    (hform : (∃ i xs, t = .list i xs) ∨ ∃ e c, t = .closure e c) (hn : K.findIdx? t.same = some n) :
    ∃ b u, (t, b) ∈ Q ∧ d.known[n]? = some u ∧ Stands d.heap u b := by
  obtain ⟨hlt, hsame, -⟩ := findIdx?_eq_some_iff_getElem.mp hn
  rw [← hk.originals, length_map] at hlt
  have hq : Q[n]? = some Q[n] := getElem?_eq_getElem hlt
  have hmem : Q[n] ∈ Q := getElem_mem hlt
  have hfst : K[n]? = some Q[n].1 := by rw [← hk.originals, getElem?_map, hq, Option.map_some]
  have hsame' : t.same Q[n].1 = true := by
    rw [getElem?_eq_getElem, Option.some.injEq] at hfst
    rwa [← hfst]
  obtain ⟨u, hu, hst⟩ := hk.stands hq
  refine ⟨Q[n].2, u, ?_, hu, hst⟩
  have heq := hk.original_unique hcoh ht hmem hsame' hform
  rw [← heq]
  exact hmem

theorem alike (hq : (t, b) ∈ Q) (hst : Stands d.heap u b) : Alike h d.heap Q t u := by
  rcases hk.shapes _ hq with ⟨i, xs, j, hp⟩ | ⟨e, c, e', c', hp⟩ <;> cases hp
  · rcases hst with rfl | ⟨j', ys, hb, rfl, hr⟩
    · exact .list hq (.inl rfl)
    · cases hb
      exact .list hq (.inr ⟨ys, rfl, hr⟩)
  · rcases hst with rfl | ⟨j', ys, hb, _⟩
    · exact .closure hq
    · cases hb

/-- A term gets the next number, and the decoder has its copy under it. -/
theorem add (ht : h.Reaches root t) (hn : K.findIdx? t.same = none)
    (hcopy : ∀ q ∈ Q, q.2.same u = false)
    (hform : (∃ i xs j, t = .list i xs ∧ u = .link j ∧ j < d.heap.next ∧ j ≠ 0) ∨
      ∃ e c e' c', t = .closure e c ∧ u = .closure e' c' ∧ e' < d.heap.envs.size) :
    Keeps h root (K ++ [t]) (Q ++ [(t, u)]) { d with known := d.known.push u } where
  originals := by simp [hk.originals]
  size := by simp [hk.size]
  stands := by
    intro n p hp
    rcases Nat.lt_trichotomy n Q.length with hlt | heq | hgt
    · rw [getElem?_append_left hlt] at hp
      obtain ⟨u, hu, hst⟩ := hk.stands hp
      exact ⟨u, by rw [Array.getElem?_push, if_neg (by rw [hk.size]; omega)]; exact hu, hst⟩
    · rw [heq, getElem?_append_right (Nat.le_refl _), Nat.sub_self] at hp
      cases hp
      exact ⟨u, by rw [Array.getElem?_push, if_pos (by rw [hk.size]; exact heq)], .inl rfl⟩
    · rw [getElem?_eq_none (by simp; omega)] at hp
      cases hp
  shapes p hp := by
    rcases mem_append.mp hp with hp | hp
    · exact hk.shapes p hp
    · rcases hform with ⟨i, xs, j, rfl, rfl, -⟩ | ⟨e, c, e', c', rfl, rfl, -⟩ <;> cases mem_singleton.mp hp
      · exact .inl ⟨_, _, _, rfl⟩
      · exact .inr ⟨_, _, _, _, rfl⟩
  reached p hp := by
    rcases mem_append.mp hp with hp | hp
    · exact hk.reached p hp
    · exact mem_singleton.mp hp ▸ ht
  links hp := by
    rcases mem_append.mp hp with hp | hp
    · exact hk.links hp
    · grind
  placed hp := by
    rcases mem_append.mp hp with hp | hp
    · exact hk.placed hp
    · grind
  positive := hk.positive
  closures hp := by
    rcases mem_append.mp hp with hp | hp
    · exact hk.closures hp
    · grind
  knots := hk.knots
  apart := by
    refine pairwise_append.mpr ⟨hk.apart, pairwise_singleton _ _, fun q hq r hr => ?_⟩
    cases mem_singleton.mp hr
    refine ⟨?_, hcopy q hq⟩
    rw [Term.same_comm]
    have hq' : q.1 ∈ K := hk.originals ▸ mem_map_of_mem hq
    simpa using findIdx?_eq_none_iff.mp hn q.1 hq'

theorem add_list (ht : h.Reaches root (.list i xs)) (hn : K.findIdx? (Term.list i xs).same = none) :
    Keeps h root (K ++ [.list i xs]) (Q ++ [(.list i xs, .link d.heap.next)])
      { d with known := d.known.push (.link d.heap.next), heap := { d.heap with next := d.heap.next + 1 } } := by
  refine (hk.grow (g := { d.heap with next := d.heap.next + 1 }) (Nat.le_succ _) (Nat.le_refl _) rfl).add ht hn
    (fun q hq => ?_) (.inl ⟨_, _, _, rfl, rfl, Nat.lt_succ_self _, Nat.ne_of_gt hk.positive⟩)
  rcases hk.shapes q hq with ⟨_, _, j, rfl⟩ | ⟨_, _, _, _, rfl⟩
  · have hlt := hk.links hq
    rw [Bool.eq_false_iff]
    intro hs
    have := (Term.same_link.mp hs).1
    omega
  · rfl

/-- The items have been read: the list takes the place of the link to it. -/
theorem tie_list {j : Nat} {ys : List Term} {a : Term} (hn : Q[n]? = some (a, .link j)) (hr : d.heap.resolve (.link j) = .link j) :
    Keeps h root K Q
      { d with known := d.known.setIfInBounds n (.list j ys), heap := d.heap.tie j (.list j ys) } where
  __ := hk
  size := by simp [hk.size]
  stands := by
    intro m p hp
    obtain ⟨u, hu, hst⟩ := hk.stands hp
    have hm : m < d.known.size := (Array.getElem?_eq_some_iff.mp hu).1
    by_cases hmn : m = n
    · subst hmn
      rw [hn] at hp
      cases hp
      exact ⟨.list j ys, by simp [hm], .inr ⟨j, ys, rfl, rfl, by rw [Heap.resolve_tie, if_pos rfl]⟩⟩
    · refine ⟨u, by simpa [Array.getElem?_setIfInBounds, Ne.symm hmn] using hu, hst.imp_right ?_⟩
      rintro ⟨j', ys', hb, hu', hr'⟩
      refine ⟨j', ys', hb, hu', ?_⟩
      have hne : j' ≠ j := by
        rintro rfl
        rw [hr] at hr'
        cases hr'
      rw [Heap.resolve_tie, if_neg hne]
      exact hr'
  knots p hp := by
    rcases mem_cons.mp hp with rfl | hp
    · exact hk.links (mem_of_getElem? hn)
    · exact hk.knots p hp

theorem setEnv (e : Nat) (env : Env) : Keeps h root K Q { d with heap := d.heap.setEnv e env } :=
  hk.grow (Nat.le_refl _) (Nat.le_of_eq (Heap.size_setEnv _ _ _).symm) rfl

theorem add_closure {e : Nat} {c : Term} (c' : Term) (ht : h.Reaches root (.closure e c))
    (hn : K.findIdx? (Term.closure e c).same = none) :
    Keeps h root (K ++ [.closure e c]) (Q ++ [(.closure e c, .closure d.heap.envs.size c')])
      { d with
        known := d.known.push (.closure d.heap.envs.size c')
        heap := { d.heap with envs := d.heap.envs.push [] } } := by
  have hsize : d.heap.envs.size < (d.heap.envs.push []).size := by simp
  refine (hk.grow (g := { d.heap with envs := d.heap.envs.push [] }) (Nat.le_refl _) (Nat.le_of_lt hsize) rfl).add ht hn
    (fun q hq => ?_) (.inr ⟨_, _, _, _, rfl, rfl, hsize⟩)
  rcases hk.shapes q hq with ⟨_, _, j, rfl⟩ | ⟨_, _, e', _, rfl⟩
  · rfl
  · have hlt := hk.closures hq
    rw [Bool.eq_false_iff]
    intro hs
    have := Term.same_closure.mp hs
    omega

end Keeps

/-- From before `bs`, the computation returns, stands behind `bs` and has copies of what was numbered on the way; its
result is right, and stays so. -/
def Copies {α : Type} (h : Heap) (root : Term) (K K' : List Term) (bs : List UInt8) (m : DecodeM α)
    (post : Heap → Pairs → α → Prop) : Prop :=
  ∀ (d : Decoder) (Q : Pairs) (rest : List UInt8), Keeps h root K Q d → d.Ahead (bs ++ rest) →
    ∃ a d' new, outcome m d = (.ok a, d') ∧ d'.Ahead rest ∧ Keeps h root K' (Q ++ new) d' ∧
      d.heap.Later d'.heap ∧ (∀ p ∈ new, Filled h d'.heap (Q ++ new) p) ∧
      ∀ Q' g', Carries (Q ++ new) d'.heap Q' g' → post g' Q' a

section Copies
variable {β : Type} {f : α → DecodeM β} {post' : α → Heap → Pairs → β → Prop} {post : Heap → Pairs → β → Prop}

theorem Copies.pure (a : α) : Copies h root K K [] (Pure.pure a) fun _ _ x => x = a := fun d Q rest hk ha =>
  ⟨a, d, [], rfl, ha, by simpa using hk, .refl _, by simp, fun _ _ _ => rfl⟩

theorem Copies.mono {m : DecodeM α} {post post' : Heap → Pairs → α → Prop} (hm : Copies h root K K1 bs m post)
    (hp : ∀ g Q a, post g Q a → post' g Q a) : Copies h root K K1 bs m post' := fun d Q rest hk ha => by
  obtain ⟨a, d', new, ho, ha', hk', hl, hf, hpost⟩ := hm d Q rest hk ha
  exact ⟨a, d', new, ho, ha', hk', hl, hf, fun Q' g' hc => hp _ _ _ (hpost Q' g' hc)⟩

theorem Copies.bindIf {m : DecodeM α} {post : Heap → Pairs → α → Prop} (hm : Copies h root K K1 bs m post)
    (hf : ∀ a, (∃ g Q, post g Q a) → Copies h root K1 K2 cs (f a) (post' a)) :
    Copies h root K K2 (bs ++ cs) (m >>= f) fun g Q b => ∃ a, post g Q a ∧ post' a g Q b := fun d Q rest hk ha => by
  rw [append_assoc] at ha
  obtain ⟨a, d1, new1, ho1, ha1, hk1, hl1, hf1, hp1⟩ := hm d Q _ hk ha
  obtain ⟨b, d2, new2, ho2, ha2, hk2, hl2, hf2, hp2⟩ := hf a ⟨_, _, hp1 _ _ (.refl _ _)⟩ d1 (Q ++ new1) rest hk1 ha1
  have hc : Carries (Q ++ new1) d1.heap (Q ++ new1 ++ new2) d2.heap := hk1.carries hl2
  rw [append_assoc] at hk2 hf2 hp2 hc
  refine ⟨b, d2, new1 ++ new2, by rw [bind_ok ho1, ho2], ha2, hk2, hl1.trans hl2, fun p hp => ?_,
    fun Q' g' hc' => ⟨a, hp1 Q' g' (hc.trans hc'), hp2 Q' g' hc'⟩⟩
  rcases mem_append.mp hp with hp | hp
  · have hp' : p ∈ Q ++ new1 := mem_append_right _ hp
    refine (hf1 p hp).mono hc hp' fun e c hpc => hl2.envs e ?_
    obtain ⟨a, b⟩ := p
    cases hpc
    exact hk1.closures hp'
  · exact hf2 p hp

theorem Copies.bind {m : DecodeM α} {post : Heap → Pairs → α → Prop} (hm : Copies h root K K1 bs m post)
    (hf : ∀ a, Copies h root K1 K2 cs (f a) (post' a)) :
    Copies h root K K2 (bs ++ cs) (m >>= f) fun g Q b => ∃ a, post g Q a ∧ post' a g Q b :=
  hm.bindIf fun a _ => hf a

theorem Copies.bindLast {m : DecodeM α} {post : Heap → Pairs → α → Prop} (hm : Copies h root K K1 bs m post)
    (hf : ∀ a, Copies h root K1 K2 [] (f a) (post' a)) :
    Copies h root K K2 bs (m >>= f) fun g Q b => ∃ a, post g Q a ∧ post' a g Q b := by
  have hb := hm.bind hf
  rwa [append_nil] at hb

theorem Copies.read {a : α} (hm : Reads m bs a)
    (hf : Copies h root K K1 cs (f a) post) : Copies h root K K1 (bs ++ cs) (m >>= f) post := fun d Q rest hk ha => by
  rw [append_assoc] at ha
  obtain ⟨b, d', new, ho, h'⟩ := hf (d.past bs.length) Q rest (hk.past _) ha.past
  exact ⟨b, d', new, by rw [bind_ok (hm d _ ha), ho], h'⟩

theorem Copies.fresh : Copies h root K K [] fresh fun _ _ _ => True := fun d Q rest hk ha =>
  ⟨d.heap.next, { d with heap := { d.heap with next := d.heap.next + 1 } }, [], rfl, ha, by simpa using hk.fresh,
    ⟨Nat.le_succ _, Nat.le_refl _, fun _ _ => rfl, fun _ _ => rfl⟩, by simp, fun _ _ _ => trivial⟩

theorem Copies.readLast {a : α}
    (hm : Reads m bs a) (hf : Copies h root K K1 [] (f a) post) : Copies h root K K1 bs (m >>= f) post := by
  have hr := Copies.read hm hf
  rwa [append_nil] at hr

end Copies

/-! ### References -/

theorem outcome_reference (n : Nat) (d : Decoder) :
    outcome (reference n) d =
      match d.known[n]? with
      | some u => (.ok u, d)
      | none => (.error (.noReference n), d) := by
  show outcome (match if (if (n : Int) < 0 then (n : Int) + d.known.size else n) < 0 then none
      else d.known[(if (n : Int) < 0 then (n : Int) + d.known.size else n).toNat]? with
    | some t => Pure.pure t
    | none => throw (DecodeError.noReference n)) d = _
  rw [if_neg (Int.not_lt.mpr (Int.natCast_nonneg n)), if_neg (Int.not_lt.mpr (Int.natCast_nonneg n)), Int.toNat_natCast]
  cases d.known[n]? <;> rfl

theorem copies_reference (hcoh : h.Coherent root) (ht : h.Reaches root t)
    (hform : (∃ i xs, t = .list i xs) ∨ ∃ e c, t = .closure e c) (hn : K.findIdx? t.same = some n)
    (one : DecodeM Term) (flagged : Bool) :
    Copies h root K K (short n) (node one flagged .reference) fun g Q t' => Alike h g Q t t' := by
  refine Copies.readLast (reads_readShort n) fun d Q rest hk ha => ?_
  obtain ⟨b, u, hq, hu, hst⟩ := hk.numbered hcoh ht hform hn
  refine ⟨u, d, [], by rw [outcome_reference, hu], ha, by simpa using hk, .refl _, by simp, fun Q' g' hc => ?_⟩
  rw [append_nil] at hc
  exact (hk.alike hq hst).mono hc

/-! ### Lists -/

section Lists
variable {xs : List Term}

theorem copies_list (ht : h.Reaches root (.list i xs)) (hn : K.findIdx? (Term.list i xs).same = none)
    (hitems : Copies h root (K ++ [.list i xs]) K' bs (repeated one xs.length) fun g Q ys => AlikeAll h g Q xs ys) :
    Copies h root K K' (short xs.length ++ bs) (node one true .list) fun g Q t => Alike h g Q (.list i xs) t := by
  refine Copies.read (reads_readShort _) fun d Q rest hk ha => ?_
  rw [Int.toNat_natCast]
  obtain ⟨ys, d2, new, ho, ha2, hk2, hl2, hf2, hp2⟩ := hitems _ _ rest (hk.add_list ht hn) ha
  have hsplit : Q ++ [(Term.list i xs, Term.link d.heap.next)] ++ new = Q ++ (.list i xs, .link d.heap.next) :: new := by
    simp
  rw [hsplit] at hk2 hf2 hp2
  have hpair : (Term.list i xs, Term.link d.heap.next) ∈ Q ++ (.list i xs, .link d.heap.next) :: new := by simp
  have hnum : (Q ++ (Term.list i xs, Term.link d.heap.next) :: new)[d.known.size]? =
      some (.list i xs, .link d.heap.next) := by
    rw [hk.size, getElem?_append_right (Nat.le_refl _), Nat.sub_self]
    rfl
  have hopen : d2.heap.resolve (.link d.heap.next) = .link d.heap.next := by
    rw [hl2.knots _ (Nat.lt_succ_self _)]
    exact Heap.resolve_unknown fun p hp => Nat.ne_of_lt (hk.knots p hp)
  have hcarry : Carries (Q ++ (.list i xs, .link d.heap.next) :: new) d2.heap
      (Q ++ (.list i xs, .link d.heap.next) :: new) (d2.heap.tie d.heap.next (.list d.heap.next ys)) := by
    refine ⟨fun _ hp => hp, fun a j _ => ?_⟩
    by_cases hj : j = d.heap.next
    · exact .inl (hj ▸ hopen)
    · exact .inr (by rw [Heap.resolve_tie, if_neg hj])
  refine ⟨.list d.heap.next ys,
    { d2 with
      known := d2.known.setIfInBounds d.known.size (.list d.heap.next ys)
      heap := d2.heap.tie d.heap.next (.list d.heap.next ys) },
    (.list i xs, .link d.heap.next) :: new, ?_, ha2, hk2.tie_list hnum hopen, ?_, ?_, ?_⟩
  · show outcome (repeated one xs.length >>= _) _ = _
    rw [bind_ok ho]
    rfl
  · refine ⟨Nat.le_trans (Nat.le_succ _) hl2.next, hl2.size, hl2.envs, fun j hj => ?_⟩
    rw [Heap.resolve_tie, if_neg (Nat.ne_of_lt hj), hl2.knots j (Nat.lt_succ_of_lt hj)]
    rfl
  · intro p hp
    rcases mem_cons.mp hp with rfl | hp
    · exact .list (by rw [Heap.resolve_tie, if_pos rfl]) (hp2 _ _ hcarry)
    · exact (hf2 p hp).mono hcarry (by simp [hp]) fun _ _ _ => rfl
  · intro Q' g' hc
    exact .list (hc.pairs _ hpair) (.inr ⟨ys, rfl, hc.list_stays hpair (by rw [Heap.resolve_tie, if_pos rfl])⟩)

end Lists

/-! ### Closures -/

theorem copies_closure {e : Nat} {c : Term} (ht : h.Reaches root (.closure e c))
    (hcode : isCode c = true) (hproper : (h.envOf e).Proper)
    (hc : Copies h root K K1 bs one fun g Q c' => Alike h g Q c c') (hn : K1.findIdx? (Term.closure e c).same = none)
    (henv : Copies h root (K1 ++ [.closure e c]) K2 cs (repeated (field one) (h.envOf e).length)
      fun g Q es => AlikeFields h g Q (h.envOf e) es) :
    Copies h root K K2 (bs ++ (short (h.envOf e).length ++ cs)) (node one true .closure)
      fun g Q t => Alike h g Q (.closure e c) t := by
  intro d Q rest hk ha
  rw [append_assoc] at ha
  obtain ⟨c', d1, new1, ho1, ha1, hk1, hl1, hf1, hp1⟩ := hc d Q _ hk ha
  rw [append_assoc] at ha1
  have hcount := reads_readShort (h.envOf e).length d1 _ ha1
  have hk2 := (hk1.past (short (h.envOf e).length).length).add_closure c' ht hn
  obtain ⟨es, d3, new3, ho3, ha3, hk3, hl3, hf3, hp3⟩ := henv _ _ rest hk2 ha1.past
  simp only [past_heap] at hk3 hl3 hf3 hp3 ho3
  obtain ⟨new, hall⟩ : ∃ new, new = new1 ++ (Term.closure e c, Term.closure d1.heap.envs.size c') :: new3 := ⟨_, rfl⟩
  have hsplit : Q ++ new1 ++ [(Term.closure e c, Term.closure d1.heap.envs.size c')] ++ new3 = Q ++ new := by simp [hall]
  rw [hsplit] at hk3 hf3 hp3
  have hpair : (Term.closure e c, Term.closure d1.heap.envs.size c') ∈ Q ++ new := by simp [hall]
  have hnew : d1.heap.envs.size < d3.heap.envs.size := hk3.closures hpair
  have hes : Dict.ofEntries es = es := by
    refine Dict.ofEntries_of_proper ?_
    unfold Dict.Proper
    rw [(hp3 _ _ (.refl _ _)).keys]
    exact hproper
  have hsame : ∀ e', e' < d1.heap.envs.size →
      (d3.heap.setEnv d1.heap.envs.size es).envOf e' = d1.heap.envOf e' := by
    intro e' he'
    rw [Heap.envOf_setEnv hnew, if_neg (Nat.ne_of_lt he'), hl3.envs e' (by rw [Array.size_push]; omega), Heap.envOf_push,
      if_neg (Nat.ne_of_lt he')]
  have hcarry : Carries (Q ++ new1) d1.heap (Q ++ new) (d3.heap.setEnv d1.heap.envs.size es) := by
    refine ⟨fun p hp => ?_, fun _ _ hp => .inr (hl3.knots _ (hk1.links hp))⟩
    rw [hall, ← append_assoc]
    exact mem_append_left _ hp
  have hcarry3 : Carries (Q ++ new) d3.heap (Q ++ new) (d3.heap.setEnv d1.heap.envs.size es) :=
    ⟨fun _ hp => hp, fun _ _ _ => .inr rfl⟩
  refine ⟨.closure d1.heap.envs.size c', { d3 with heap := d3.heap.setEnv d1.heap.envs.size es }, new, ?_, ha3, hk3.setEnv _ _, ?_, ?_, ?_⟩
  · have hcode' : isCode c' = true := (hp1 _ _ (.refl _ _)).isCode hcode
    rw [node, bind_ok ho1, captured, bind_ok hcount, Int.toNat_natCast, hcode']
    refine (bind_ok (f := fun env => (modify fun d =>
      { d with heap := d.heap.setEnv d1.heap.envs.size (Dict.ofEntries env) }) >>= fun _ =>
        Pure.pure (Term.closure d1.heap.envs.size c')) ho3).trans ?_
    rw [hes]
    rfl
  · refine ⟨Nat.le_trans hl1.next hl3.next, ?_, fun e' he' => ?_, fun i hi => ?_⟩
    · rw [Heap.size_setEnv]
      exact Nat.le_trans hl1.size (Nat.le_of_lt hnew)
    · rw [hsame e' (Nat.lt_of_lt_of_le he' hl1.size), hl1.envs e' he']
    · exact (hl3.knots i (Nat.lt_of_lt_of_le hi hl1.next)).trans (hl1.knots i hi)
  · intro p hp
    rcases mem_append.mp (hall ▸ hp) with hp | hp
    · have hpQ : p ∈ Q ++ new1 := mem_append_right _ hp
      refine (hf1 p hp).mono hcarry hpQ fun e' c'' hpc => hsame e' ?_
      obtain ⟨x, y⟩ := p
      cases hpc
      exact hk1.closures hpQ
    · rcases mem_cons.mp hp with rfl | hp
      · refine .closure (hp1 _ _ hcarry) ?_
        rw [Heap.envOf_setEnv hnew, if_pos rfl]
        exact hp3 _ _ hcarry3
      · refine (hf3 p hp).mono hcarry3 (by simp [hall, hp]) fun e' c'' hpc => ?_
        -- a closure read on the way is another one
        have hne : e' ≠ d1.heap.envs.size := by
          have hapart := (pairwise_cons.mp (pairwise_append.mp (hall ▸ (pairwise_append.mp hk3.apart).2.1)).2.1).1 p hp
          rintro rfl
          have := hapart.2
          rw [hpc, Bool.eq_false_iff] at this
          exact this (Term.same_closure.mpr rfl)
        rw [Heap.envOf_setEnv hnew, if_neg hne]
  · intro Q' g' hc'
    exact .closure (hc'.pairs _ hpair)

/-! ### Terms -/

theorem tag_byte (t : Tag) : Tag.ofByte? (t.byte &&& 0x7f) = some t ∧ decide (128 ≤ t.byte.toNat) = false := by
  cases t <;> decide

theorem tag_flagged (t : Tag) : Tag.ofByte? (t.flagged &&& 0x7f) = some t ∧ decide (128 ≤ t.flagged.toNat) = true := by
  cases t <;> decide

theorem ofSymbol?_symbol? (hs : op.symbol? = some s) : BinaryOp.ofSymbol? s = some op := by
  cases op <;> cases hs <;> rfl

theorem reads_flag (b : Bool) : Reads (flag b b) [] () := by
  unfold flag
  rw [if_pos rfl]
  exact Reads.pure ()

section Terms
variable {fuel : Nat}

theorem Copies.flag {f : Unit → DecodeM α} {post : Heap → Pairs → α → Prop} {b : Bool}
    (hf : Copies h root K K1 bs (f ()) post) : Copies h root K K1 bs (Decoder.flag b b >>= f) post :=
  Copies.read (reads_flag b) hf

/-- A term starts with its tag; one level of the decoder's depth goes with it. -/
theorem copies_tag {byte : UInt8} {flagged : Bool}
    (hbyte : Tag.ofByte? (byte &&& 0x7f) = some tag ∧ decide (128 ≤ byte.toNat) = flagged)
    (hlen : (byte :: bs).length ≤ fuel)
    (hn : ∀ fuel, bs.length ≤ fuel → Copies h root K K' bs (node (decode fuel) flagged tag) post) :
    Copies h root K K' (byte :: bs) (decode fuel) post := by
  obtain ⟨fuel, rfl⟩ : ∃ f, fuel = f + 1 := ⟨fuel - 1, by simp at hlen; omega⟩
  refine Copies.read (reads_readByte byte) ?_
  rw [hbyte.1, hbyte.2]
  exact hn fuel (by simpa using hlen)

theorem copies_leaf {a : α} (hm : Reads m bs a) (f : Nat → α → Term) :
    Copies h root K K bs (Decoder.flag false false >>= fun _ => fresh >>= fun i => m >>= fun a => Pure.pure (f i a))
      fun _ _ t => ∃ i, t = f i a := by
  refine (Copies.flag (Copies.fresh.bind fun i =>
    Copies.readLast hm (Copies.pure (f i a)))).mono fun g Q t => ?_
  rintro ⟨i, _, rfl⟩
  exact ⟨i, rfl⟩

theorem copies_two (f : Nat → Term → Term → Term)
    (hl : Copies h root K K1 bs one fun g Q t => Alike h g Q l t)
    (hr : Copies h root K1 K2 cs one fun g Q t => Alike h g Q r t) :
    Copies h root K K2 (bs ++ cs) (one >>= fun a => fresh >>= fun i => one >>= fun b => Pure.pure (f i a b))
      fun g Q t => ∃ i a b, Alike h g Q l a ∧ Alike h g Q r b ∧ t = f i a b := by
  refine (hl.bind fun a => Copies.fresh.bind fun i => hr.bindLast fun b => Copies.pure (f i a b)).mono fun g Q t => ?_
  rintro ⟨a, ha, i, _, b, hb, rfl⟩
  exact ⟨i, a, b, ha, hb, rfl⟩

theorem copies_field {k : String} (ht : Copies h root K K1 bs one fun g Q t' => Alike h g Q t t') :
    Copies h root K K1 (string k ++ bs) (field one) fun g Q p => ∃ t', Alike h g Q t t' ∧ p = (k, t') :=
  Copies.read (reads_readString k) (ht.bindLast fun t' => Copies.pure (k, t'))

theorem copies_branch {p : Term} (hp : Copies h root K K1 bs one fun g Q t => Alike h g Q p t)
    (hb : Copies h root K1 K2 cs one fun g Q t => Alike h g Q b t) :
    Copies h root K K2 (bs ++ cs) (branch one) fun g Q c => ∃ p' b', Alike h g Q p p' ∧ Alike h g Q b b' ∧ c = (p', b') := by
  refine (hp.bind fun p' => hb.bindLast fun b' => Copies.pure (p', b')).mono fun g Q c => ?_
  rintro ⟨p', hp', b', hb', rfl⟩
  exact ⟨p', b', hp', hb', rfl⟩

/-- The bytes are read as a copy of the term, to any depth that the bytes can need. -/
def ReadAs (h : Heap) (root : Term) (K : List Term) (t : Term) (bs : List UInt8) (K' : List Term) : Prop :=
  ∀ fuel, bs.length ≤ fuel → Copies h root K K' bs (decode fuel) fun g Q t' => Alike h g Q t t'

theorem readAs_integer {n : Int} (ht : ∀ g Q i, Alike h g Q t (.int i n)) : ReadAs h root K t (integerBytes n) K := by
  unfold ReadAs integerBytes
  intro fuel hlen
  split at hlen <;> rename_i hs <;> simp only [hs]
  · exact (copies_tag (tag_byte _) hlen fun _ _ => copies_leaf (reads_readShort n) Term.int).mono fun g Q _ ⟨i, he⟩ => he ▸ ht g Q i
  · exact (copies_tag (tag_byte _) hlen fun _ _ => copies_leaf (reads_readLong n) Term.int).mono fun g Q _ ⟨i, he⟩ => he ▸ ht g Q i

theorem readAs_string : ReadAs h root K (.string i s) (Tag.string.byte :: string s) K :=
  fun _ hlen => (copies_tag (tag_byte _) hlen fun _ _ => copies_leaf (reads_readString s) Term.string).mono
    fun _ _ _ ⟨_, he⟩ => he ▸ .string

theorem copies_var (x : String) (hlen : (Tag.var.byte :: string x).length ≤ fuel) :
    Copies h root K K (Tag.var.byte :: string x) (decode fuel) fun _ _ t => ∃ i, t = .var i x :=
  copies_tag (tag_byte _) hlen fun _ _ => copies_leaf (reads_readString x) Term.var

theorem readAs_float {x : Binary64} :
    ReadAs h root K (.float i x) (Tag.float.byte :: littleEndian 8 x.bits.toNat) K := by
  have hlen := length_littleEndian 8 x.bits.toNat
  have hread : Reads (Decoder.read 8) (littleEndian 8 x.bits.toNat) (littleEndian 8 x.bits.toNat) :=
    reads_read (congrArg Nat.cast hlen).symm
  have hvalue : UInt64.ofNat (ofLittleEndian (littleEndian 8 x.bits.toNat)) = x.bits := by
    have hlt : x.bits.toNat % 256 ^ 8 = x.bits.toNat := Nat.mod_eq_of_lt (UInt64.toNat_lt _)
    rw [ofLittleEndian_littleEndian, hlt, UInt64.ofNat_toNat]
  refine fun fuel hle => copies_tag (tag_byte _) hle fun _ _ => Copies.flag (Copies.readLast hread ?_)
  rw [if_pos hlen, hvalue]
  refine (Copies.fresh.bind fun j => Copies.pure (Term.float j x)).mono fun g Q t => ?_
  rintro ⟨j, _, rfl⟩
  exact .float

theorem readAs_bytes : ReadAs h root K (.bytes i cs) (Tag.bytes.byte :: (short cs.length ++ cs)) K := by
  refine fun fuel hlen => copies_tag (tag_byte _) hlen fun _ _ => Copies.flag (Copies.read (reads_readShort _) ?_)
  refine (Copies.fresh.bind fun j => Copies.readLast (reads_read rfl) (Copies.pure (Term.bytes j cs))).mono fun g Q t => ?_
  rintro ⟨j, _, rfl⟩
  exact .bytes

theorem readAs_hole : ReadAs h root K (.hole i) [Tag.hole.byte] K := by
  refine fun fuel hlen => copies_tag (tag_byte _) hlen fun _ _ => Copies.flag ?_
  refine (Copies.fresh.bind fun j => Copies.pure (Term.hole j)).mono fun g Q t => ?_
  rintro ⟨j, _, rfl⟩
  exact .hole

theorem readAs_spread : ReadAs h root K (.spread i none) [Tag.spread.byte] K := by
  refine fun fuel hlen => copies_tag (tag_byte _) hlen fun _ _ => ?_
  refine (Copies.fresh.bind fun j => Copies.pure (Term.spread j none)).mono fun g Q t => ?_
  rintro ⟨j, _, rfl⟩
  exact .spread

theorem readAs_namedSpread {x : String} :
    ReadAs h root K (.spread i (some x)) (Tag.namedSpread.byte :: string x) K := by
  refine fun fuel hlen => copies_tag (tag_byte _) hlen fun _ _ => ?_
  refine (Copies.fresh.bind fun j =>
    Copies.readLast (reads_readString x) (Copies.pure (Term.spread j (some x)))).mono fun g Q t => ?_
  rintro ⟨j, _, rfl⟩
  exact .spread

theorem readAs_variant {tag : String} (hv : ReadAs h root K v bs K') :
    ReadAs h root K (.variant i tag v) (Tag.variant.byte :: (string tag ++ bs)) K' := by
  refine fun fuel hlen => copies_tag (tag_byte _) hlen fun fuel hl => Copies.flag (Copies.read (reads_readString tag) ?_)
  rw [length_append] at hl
  refine (Copies.fresh.bind fun j => (hv fuel (by omega)).bindLast fun v' =>
    Copies.pure (Term.variant j tag v')).mono fun g Q t => ?_
  rintro ⟨j, _, v', hv', rfl⟩
  exact .variant hv'

theorem readAs_binop (hs : op.symbol? = some s) (hl : ReadAs h root K l bs K1) (hr : ReadAs h root K1 r cs K2) :
    ReadAs h root K (.binop i op l r) (Tag.binop.byte :: (string s ++ (bs ++ cs))) K2 := by
  refine fun fuel hlen => copies_tag (tag_byte _) hlen fun fuel hle => Copies.flag (Copies.read (reads_readString s) ?_)
  rw [length_append, length_append] at hle
  rw [ofSymbol?_symbol? hs]
  refine (copies_two (fun j l r => Term.binop j op l r) (hl fuel (by omega)) (hr fuel (by omega))).mono fun g Q t => ?_
  rintro ⟨_, _, _, hl', hr', rfl⟩
  exact .binop hl' hr'

theorem readAs_assign {x : String} (hv : ReadAs h root K v bs K') :
    ReadAs h root K (.assign i x v) (Tag.assign.byte :: Tag.var.byte :: (string x ++ bs)) K' := by
  refine fun fuel hlen => copies_tag (tag_byte _) hlen fun fuel hl => Copies.flag ?_
  rw [length_cons, length_append] at hl
  have hname : Copies h root K K (Tag.var.byte :: string x) (decode fuel) fun _ _ t => ∃ i, t = .var i x :=
    copies_var x (by rw [length_cons]; omega)
  refine (hname.bindIf fun name hex => ?_).mono fun g Q t ⟨_, _, ha⟩ => ha
  obtain ⟨_, _, k, rfl⟩ := hex
  refine ((hv fuel (by omega)).bindLast fun v' =>
    Copies.fresh.bind fun j => Copies.pure (Term.assign j x v')).mono fun g Q t => ?_
  rintro ⟨v', hv', j, _, rfl⟩
  exact .assign hv'

theorem readAs_record {fields : Dict Term} (hproper : fields.Proper)
    (hf : ∀ fuel, bs.length ≤ fuel →
      Copies h root K K' bs (repeated (field (decode fuel)) fields.length) fun g Q es => AlikeFields h g Q fields es) :
    ReadAs h root K (.record i fields) (Tag.record.byte :: (short fields.length ++ bs)) K' := by
  refine fun fuel hlen => copies_tag (tag_byte _) hlen fun fuel hl => Copies.flag (Copies.read (reads_readShort _) ?_)
  rw [Int.toNat_natCast]
  rw [length_append] at hl
  refine ((hf fuel (by omega)).bindLast fun es =>
    Copies.fresh.bind fun j => Copies.pure (Term.record j (Dict.ofEntries es))).mono fun g Q t => ?_
  rintro ⟨es, hes, j, _, rfl⟩
  have hproper' : Dict.Proper es := by
    unfold Dict.Proper
    rw [hes.keys]
    exact hproper
  rw [Dict.ofEntries_of_proper hproper']
  exact .record hes

theorem readAs_matchFunction
    (hc : ∀ fuel, bs.length ≤ fuel →
      Copies h root K K' bs (repeated (branch (decode fuel)) cases.length) fun g Q cs => AlikeCases h g Q cases cs) :
    ReadAs h root K (.matchFunction i cases) (Tag.matchFunction.byte :: (short cases.length ++ bs)) K' := by
  refine fun fuel hlen => copies_tag (tag_byte _) hlen fun fuel hl => Copies.flag (Copies.read (reads_readShort _) ?_)
  rw [Int.toNat_natCast]
  rw [length_append] at hl
  refine ((hc fuel (by omega)).bindLast fun cs =>
    Copies.fresh.bind fun j => Copies.pure (Term.matchFunction j cs)).mono fun g Q t => ?_
  rintro ⟨cs, hcs, j, _, rfl⟩
  exact .matchFunction hcs

/-- What `R` writes for the term is read as a copy of it. -/
def CopiesOf (h : Heap) (root : Term) (R : Writing) (t : Term) : Prop :=
  ∀ (K K' : List Term) (bs : List UInt8), h.Reaches root t → R K t bs K' → ReadAs h root K t bs K'

section Sequences
variable {R : Writing}

theorem copies_items {ts : List Term} (hR : ∀ t ∈ ts, h.Reaches root t ∧ CopiesOf h root R t) (hw : Items R K ts bs K')
    (fuel : Nat) (hlen : bs.length ≤ fuel) :
    Copies h root K K' bs (repeated (decode fuel) ts.length) fun g Q ys => AlikeAll h g Q ts ys := by
  induction hw with
  | nil =>
    refine (Copies.pure []).mono fun _ _ ys he => ?_
    cases he
    exact .nil
  | cons hw _ ih =>
    rw [length_append] at hlen
    obtain ⟨ht, hc⟩ := hR _ (.head _)
    have hfirst := hc _ _ _ ht hw fuel (by omega)
    have hrest := ih (fun t hm => hR t (.tail _ hm)) (by omega)
    refine (hfirst.bind fun y => hrest.bindLast fun ys => Copies.pure (y :: ys)).mono fun g Q ys => ?_
    rintro ⟨y, hy, ys, hys, rfl⟩
    exact .cons hy hys

theorem copies_entries {fs : Dict Term} (hR : ∀ p ∈ fs, h.Reaches root p.2 ∧ CopiesOf h root R p.2)
    (hw : Entries R K fs bs K') (fuel : Nat) (hlen : bs.length ≤ fuel) :
    Copies h root K K' bs (repeated (field (decode fuel)) fs.length) fun g Q es => AlikeFields h g Q fs es := by
  induction hw with
  | nil =>
    refine (Copies.pure []).mono fun _ _ ys he => ?_
    cases he
    exact .nil
  | cons hw _ ih =>
    rw [length_append, length_append] at hlen
    rw [← append_assoc]
    obtain ⟨ht, hc⟩ := hR _ (.head _)
    have hfirst := hc _ _ _ ht hw fuel (by omega)
    have hrest := ih (fun p hp => hR p (.tail _ hp)) (by omega)
    refine ((copies_field hfirst).bind fun y => hrest.bindLast fun ys => Copies.pure (y :: ys)).mono fun g Q ys => ?_
    rintro ⟨_, ⟨y, hy, rfl⟩, ys, hys, rfl⟩
    exact .cons hy hys

theorem copies_branches
    (hR : ∀ c ∈ cases, (h.Reaches root c.1 ∧ CopiesOf h root R c.1) ∧ h.Reaches root c.2 ∧ CopiesOf h root R c.2)
    (hw : Branches R K cases bs K') (fuel : Nat) (hlen : bs.length ≤ fuel) :
    Copies h root K K' bs (repeated (branch (decode fuel)) cases.length) fun g Q cs => AlikeCases h g Q cases cs := by
  induction hw with
  | nil =>
    refine (Copies.pure []).mono fun _ _ ys he => ?_
    cases he
    exact .nil
  | cons hp hb _ ih =>
    rw [length_append, length_append] at hlen
    rw [← append_assoc]
    obtain ⟨⟨htp, hcp⟩, htb, hcb⟩ := hR _ (.head _)
    have hpattern := hcp _ _ _ htp hp fuel (by omega)
    have hbody := hcb _ _ _ htb hb fuel (by omega)
    have hrest := ih (fun c hc => hR c (.tail _ hc)) (by omega)
    refine ((copies_branch hpattern hbody).bind fun c =>
      hrest.bindLast fun cs => Copies.pure (c :: cs)).mono fun g Q cs => ?_
    rintro ⟨_, ⟨p', b', hp', hb', rfl⟩, cs, hcs', rfl⟩
    exact .cons hp' hb' hcs'

end Sequences

theorem readAs_written {R : Writing} (hcoh : h.Coherent root) (hfar : ∀ t, CopiesOf h root R t) (t : Term) :
    CopiesOf h root (Written .afterCode h R) t := by
  induction t using Term.parts_induction with
  | step t ih =>
    intro K K' bs ht hw
    have ihs : ∀ u ∈ t.parts, h.Reaches root u ∧ CopiesOf h root (Written .afterCode h R) u :=
      fun u hu => ⟨ht.part hu, ih u hu⟩
    have part : ∀ {u K K' bs}, u ∈ t.parts → Written .afterCode h R K u bs K' → ReadAs h root K u bs K' :=
      fun hu hw => ih _ hu _ _ _ (ht.part hu) hw
    cases hw with
    | int => exact readAs_integer fun _ _ _ => .int
    | truth => exact readAs_integer fun _ _ _ => .truth
    | string => exact readAs_string
    | var => exact fun fuel hlen => (copies_var _ hlen).mono fun _ _ _ ⟨_, he⟩ => he ▸ .var
    | float => exact readAs_float
    | bytes => exact readAs_bytes
    | hole => exact readAs_hole
    | spread => exact readAs_spread
    | namedSpread => exact readAs_namedSpread
    | knownList hn =>
      exact fun fuel hlen => copies_tag (tag_byte _) hlen fun _ _ => copies_reference hcoh ht (.inl ⟨_, _, rfl⟩) hn _ _
    | list hn hxs =>
      refine fun fuel hlen => copies_tag (tag_flagged _) hlen fun fuel hl => copies_list ht hn ?_
      rw [length_append] at hl
      exact copies_items ihs hxs fuel (by omega)
    | knownClosure hn =>
      exact fun fuel hlen => copies_tag (tag_byte _) hlen fun _ _ => copies_reference hcoh ht (.inr ⟨_, _, rfl⟩) hn _ _
    | closureBefore ho => cases ho
    | closureAfter _ _ hc hn henv =>
      refine fun fuel hlen => copies_tag (tag_flagged _) hlen fun fuel hl => ?_
      rw [length_append, length_append] at hl
      exact copies_closure ht (hcoh.functions ht) (hcoh.names ht) (part (.head _) hc fuel (by omega)) hn
        (copies_entries (fun p hp => ⟨ht.value hp, hfar p.2⟩) henv fuel (by omega))
    | variant hv => exact readAs_variant (part (.head _) hv)
    | record hf =>
      exact readAs_record (hcoh.fields ht) (copies_entries (fun p hp => ihs _ (Term.mem_parts_fields hp)) hf)
    | function hl hr | apply hl hr | scope hl hr | access hl hr =>
      refine fun fuel hlen => copies_tag (tag_byte _) hlen fun fuel hle => ?_
      rw [length_append] at hle
      refine (Copies.flag (copies_two _ (part (.head _) hl fuel (by omega)) (part (.tail _ (.head _)) hr fuel
        (by omega)))).mono fun g Q t => ?_
      rintro ⟨_, _, _, hl', hr', rfl⟩
      constructor <;> assumption
    | matchFunction hc =>
      exact readAs_matchFunction (copies_branches (fun c hm =>
        ⟨ihs _ (Term.mem_parts_cases hm).1, ihs _ (Term.mem_parts_cases hm).2⟩) hc)
    | assign hv => exact readAs_assign (part (.head _) hv)
    | binop hs hl hr => exact readAs_binop hs (part (.head _) hl) (part (.tail _ (.head _)) hr)
    | link hw => exact fun fuel hlen => (hfar _ _ _ _ ht.link hw fuel hlen).mono fun _ _ _ ha => .link ha

theorem copiesOf_within (hcoh : h.Coherent root) (turns : Nat) (t : Term) :
    CopiesOf h root (WrittenWithin .afterCode h turns) t := by
  induction turns generalizing t with
  | zero => exact fun _ _ _ _ hw => hw.elim
  | succ turns ih => exact readAs_written hcoh ih t

end Terms

end Scrap.Wire
