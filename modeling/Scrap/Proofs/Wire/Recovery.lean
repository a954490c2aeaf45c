import Scrap.Proofs.Wire.Frames
import Scrap.Proofs.Wire.Reading
import Mathlib.Data.List.Pairwise

/-! # What a copy says about the numbers

If bytes written with closures numbered before their code are read as a copy, then every reference in them has the
number that the decoder gives, so the other order writes the same bytes. -/

namespace Scrap.Wire

open Decoder List

variable {one : DecodeM Term} {d d' d2 : Decoder} {g h : Heap} {E E' E1 E2 L : List Term}
  {late late1 late2 : List Term → List Term → Prop} {bs cs : List UInt8} {fuel : Nat} {P Q : Pairs} {c' root u : Term}
  {α : Type} {a : α} {e i n : Nat} {f : Nat → Term → Term → Term} {tag : Tag} {c t : Term} {p q : Term × Term}
  {want : Term → Prop}

/-- The closures read from `d` to `d'` have in `g` the environments that they have at the end. -/
def Settled (g : Heap) (d d' : Decoder) : Prop :=
  ∀ e, d.heap.envs.size ≤ e → e < d'.heap.envs.size → g.envOf e = d'.heap.envOf e

/-- Reading `bs`, where the terms of `E` had numbers when they were written, has given a result as wanted. Then the
terms of which the decoder has copies are those of a writing in the decoder's order, before and after. -/
def Recovers {α : Type} (h g : Heap) (root : Term) (P : Pairs) (E : List Term) (m : DecodeM α) (bs : List UInt8)
    (E' : List Term) (late : List Term → List Term → Prop) (want : α → Prop) : Prop :=
  ∀ (L : List Term) (Q : Pairs) (d : Decoder) (rest : List UInt8) (a : α) (d' : Decoder), (∀ u ∈ L, u ∈ E) →
    Keeps h root L Q d → (∀ p ∈ Q, p ∈ P) → d.Ahead (bs ++ rest) → outcome m d = (.ok a, d') → Settled g d d' →
    want a → (∀ u ∈ E, u ∈ E') ∧ ∃ L' new, late L L' ∧ (∀ u ∈ L', u ∈ E') ∧ Keeps h root L' (Q ++ new) d' ∧
      (∀ p ∈ Q ++ new, p ∈ P) ∧ d'.Ahead rest

section Recovers
variable {β γ : Type} {d1 : Decoder} {m : DecodeM α} {m' : DecodeM β} {want1 : α → Prop}

/-- A run takes environments to be as it leaves them. -/
theorem Settled.split {b : β} (hs : Settled g d d2) (hm : ∀ k n, Frames k n m) (hm' : ∀ k n, Frames k n m')
    (ho : outcome m d = (.ok a, d1)) (ho' : outcome m' d1 = (.ok b, d2)) : Settled g d d1 ∧ Settled g d1 d2 := by
  have hl := Frames.later hm ho
  have hl' := Frames.later hm' ho'
  exact ⟨fun e hle hlt => (hs e hle (Nat.lt_of_lt_of_le hlt hl'.size)).trans (hl'.envs e hlt),
    fun e hle hlt => hs e (Nat.le_trans hl.size hle) hlt⟩

theorem Recovers.late_mono {want : α → Prop} (hm : Recovers h g root P E m bs E' late1 want)
    (hl : ∀ L L', late1 L L' → late2 L L') : Recovers h g root P E m bs E' late2 want := by
  intro L Q d rest a d' hL hk hQ ha ho hs hw
  obtain ⟨hE, L', new, hlate, hrest⟩ := hm L Q d rest a d' hL hk hQ ha ho hs hw
  exact ⟨hE, L', new, hl _ _ hlate, hrest⟩

theorem Recovers.want_mono {want want' : α → Prop} (hm : Recovers h g root P E m bs E' late want)
    (hw : ∀ a, want' a → want a) : Recovers h g root P E m bs E' late want' :=
  fun L Q d rest a d' hL hk hQ ha ho hs hwant => hm L Q d rest a d' hL hk hQ ha ho hs (hw a hwant)

theorem Keeps.pairs_eq {K : List Term} {new : Pairs} (hk : Keeps h root K Q d) (hk' : Keeps h root K (Q ++ new) d1) :
    new = [] := by
  have hlen := congrArg List.length (hk.originals.trans hk'.originals.symm)
  simpa using hlen

theorem recovers_of_copies {post : Heap → Pairs → α → Prop} {want : α → Prop}
    (hm : ∀ K, Copies h root K K bs m post) : Recovers h g root P E m bs E (fun L L' => L' = L) want := by
  intro L Q d rest a d' hL hk hQ ha ho _ _
  obtain ⟨a', d'', new, ho', ha', hk', -⟩ := hm L d Q rest hk ha
  rw [ho] at ho'
  cases ho'
  cases hk.pairs_eq hk'
  exact ⟨fun _ hu => hu, L, [], rfl, hL, hk', by simpa using hQ, ha'⟩

theorem recovers_after {f : α → DecodeM β} {good : α → Prop} {want : β → Prop}
    (hm : ∀ K, Copies h root K K bs m fun _ _ a => good a)
    (hf : ∀ a, good a → Recovers h g root P E (f a) cs E' late want) :
    Recovers h g root P E (m >>= f) (bs ++ cs) E' late want := by
  intro L Q d rest b d' hL hk hQ ha ho hs hw
  rw [append_assoc] at ha
  obtain ⟨a, d1, new, ho1, ha1, hk1, hl, -, hpost⟩ := hm L d Q _ hk ha
  cases hk.pairs_eq hk1
  rw [append_nil] at hk1
  rw [bind_ok ho1] at ho
  exact hf a (hpost _ _ (.refl _ _)) L Q d1 rest b d' hL hk1 hQ ha1 ho
    (fun e hle hlt => hs e (Nat.le_trans hl.size hle) hlt) hw

theorem recovers_read {f : α → DecodeM β} {want : β → Prop} (hm : Reads m bs a)
    (hf : Recovers h g root P E (f a) cs E' late want) : Recovers h g root P E (m >>= f) (bs ++ cs) E' late want := by
  intro L Q d rest b d' hL hk hQ ha ho hs hw
  rw [append_assoc] at ha
  rw [bind_ok (hm d _ ha)] at ho
  exact hf L Q _ rest b d' hL (hk.past _) hQ ha.past ho hs hw

theorem recovers_flag {f : Unit → DecodeM α} {b : Bool} {want : α → Prop}
    (hf : Recovers h g root P E (f ()) bs E' late want) : Recovers h g root P E (flag b b >>= f) bs E' late want :=
  recovers_read (reads_flag b) hf

theorem recovers_fresh {f : Nat → DecodeM α} {want : α → Prop}
    (hf : ∀ i, Recovers h g root P E (f i) bs E' late want) : Recovers h g root P E (fresh >>= f) bs E' late want := by
  intro L Q d rest b d' hL hk hQ ha ho hs hw
  exact hf d.heap.next L Q { d with heap := { d.heap with next := d.heap.next + 1 } } rest b d' hL hk.fresh hQ ha ho hs hw

theorem recovers_bind {f : α → DecodeM β} {want : β → Prop}
    (hm : Recovers h g root P E m bs E1 late1 want1) (hf : ∀ a, Recovers h g root P E1 (f a) cs E2 late2 want)
    (fm : ∀ k n, Frames k n m) (ff : ∀ a k n, Frames k n (f a))
    (hw : ∀ a d b d', outcome (f a) d = (.ok b, d') → want b → want1 a) :
    Recovers h g root P E (m >>= f) (bs ++ cs) E2 (fun L L'' => ∃ L', late1 L L' ∧ late2 L' L'') want := by
  intro L Q d rest b d' hL hk hQ ha ho hs hwant
  rw [append_assoc] at ha
  obtain ⟨a, d1, ho1, ho2⟩ := bind_returns ho
  obtain ⟨hs1, hs2⟩ := hs.split fm (ff a) ho1 ho2
  obtain ⟨hE1, L1, new1, hl1, hL1, hk1, hQ1, ha1⟩ := hm L Q d _ a d1 hL hk hQ ha ho1 hs1 (hw a d1 b d' ho2 hwant)
  obtain ⟨hE2, L2, new2, hl2, h2⟩ := hf a L1 _ d1 rest b d' hL1 hk1 hQ1 ha1 ho2 hs2 hwant
  rw [append_assoc] at h2
  exact ⟨fun u hu => hE2 u (hE1 u hu), L2, new1 ++ new2, ⟨L1, hl1, hl2⟩, h2⟩

theorem recovers_map {f : α → β} {want : β → Prop} (hm : Recovers h g root P E m bs E' late fun a => want (f a)) :
    Recovers h g root P E (m >>= fun a => Pure.pure (f a)) bs E' late want := by
  intro L Q d rest b d' hL hk hQ ha ho hs hwant
  obtain ⟨a, d1, ho1, ho2⟩ := bind_returns ho
  cases ho2
  exact hm L Q d rest a d' hL hk hQ ha ho1 hs hwant

theorem recovers_wrap {f : Nat → α → Term} (hm : Recovers h g root P E m bs E' late want1)
    (hw : ∀ d j a d1, outcome m d = (.ok a, d1) → want (f j a) → want1 a) :
    Recovers h g root P E (m >>= fun a => fresh >>= fun j => Pure.pure (f j a)) bs E' late want := by
  intro L Q d rest t d' hL hk hQ ha ho hs hwant
  obtain ⟨a, d1, ho1, ho2⟩ := bind_returns ho
  cases ho2
  obtain ⟨hE, L', new, hlate, hL', hk', hrest⟩ := hm L Q d rest a d1 hL hk hQ ha ho1 hs (hw _ _ _ _ ho1 hwant)
  exact ⟨hE, L', new, hlate, hL', hk'.fresh, hrest⟩

theorem recovers_two {wantl wantr : Term → Prop}
    (hl : Recovers h g root P E one bs E1 late1 wantl) (hr : Recovers h g root P E1 one cs E2 late2 wantr)
    (fone : ∀ k n, Frames k n one) (hw : ∀ i a b, want (f i a b) → wantl a ∧ wantr b) :
    Recovers h g root P E (one >>= fun a => fresh >>= fun i => one >>= fun b => Pure.pure (f i a b)) (bs ++ cs) E2
      (fun L L'' => ∃ L', late1 L L' ∧ late2 L' L'') want := by
  refine recovers_bind hl (fun a => recovers_fresh fun i => recovers_map (hr.want_mono fun b hb => (hw i a b hb).2)) fone
    (fun a k n => frames_fresh.bind fun _ => (fone k n).bind fun _ => Frames.pure _) fun a d t d' ho hwant => ?_
  obtain ⟨i, d1, -, ho⟩ := bind_returns ho
  obtain ⟨b, d2, -, ho⟩ := bind_returns ho
  cases ho
  exact (hw i a b hwant).1

theorem recovers_pair {f : α → β → γ} {want : γ → Prop}
    {want2 : β → Prop} (hm : Recovers h g root P E m bs E1 late1 want1)
    (hm' : Recovers h g root P E1 m' cs E2 late2 want2) (fm : ∀ k n, Frames k n m) (fm' : ∀ k n, Frames k n m')
    (hw : ∀ a b, want (f a b) → want1 a ∧ want2 b) :
    Recovers h g root P E (m >>= fun a => m' >>= fun b => Pure.pure (f a b)) (bs ++ cs) E2
      (fun L L'' => ∃ L', late1 L L' ∧ late2 L' L'') want := by
  refine recovers_bind hm (fun a => recovers_map (hm'.want_mono fun b hb => (hw a b hb).2)) fm
    (fun a k n => (fm' k n).bind fun _ => Frames.pure _) fun a d t d' ho hwant => ?_
  obtain ⟨b, d1, -, ho⟩ := bind_returns ho
  cases ho
  exact (hw a b hwant).1

theorem recovers_tag {byte : UInt8} {flagged : Bool}
    (hbyte : Tag.ofByte? (byte &&& 0x7f) = some tag ∧ decide (128 ≤ byte.toNat) = flagged)
    (hlen : (byte :: bs).length ≤ fuel)
    (hn : ∀ fuel, bs.length ≤ fuel → Recovers h g root P E (node (decode fuel) flagged tag) bs E' late want) :
    Recovers h g root P E (decode fuel) (byte :: bs) E' late want := by
  obtain ⟨fuel, rfl⟩ : ∃ f, fuel = f + 1 := ⟨fuel - 1, by simp at hlen; omega⟩
  refine recovers_read (reads_readByte byte) ?_
  rw [hbyte.1, hbyte.2]
  exact hn fuel (by simpa using hlen)

end Recovers

/-! ### Numbered terms -/

theorem Apart.symm (hpq : Apart p q) : Apart q p := by
  unfold Apart at hpq ⊢
  rwa [Term.same_comm q.1, Term.same_comm q.2]

instance : Std.Symm Apart := ⟨fun _ _ => Apart.symm⟩

theorem pair_of_copy (hP : P.Pairwise Apart) (hp : p ∈ P) (hq : q ∈ P) (hs : p.2.same q.2 = true) : p = q := by
  by_contra hne
  have := (hP.forall hp hq hne).2
  rw [hs] at this
  cases this

theorem pair_of_original (hP : P.Pairwise Apart) (hp : p ∈ P) (hq : q ∈ P) (hs : p.1.same q.1 = true) : p = q := by
  by_contra hne
  have := (hP.forall hp hq hne).1
  rw [hs] at this
  cases this

/-- If the term that a reference finds is a copy of the term, the reference has the decoder's number. -/
theorem number_of_copy (hP : P.Pairwise Apart) (hk : Keeps h root L Q d) (hQ : ∀ p ∈ Q, p ∈ P)
    (hself : t.same t = true) (hu : d.known[n]? = some u) (ht : Alike h g P t u)
    (hform : (∃ i xs, t = .list i xs) ∨ ∃ e c, t = .closure e c) : L.findIdx? t.same = some n := by
  have hn : n < Q.length := hk.size ▸ (Array.getElem?_eq_some_iff.mp hu).1
  have hq : Q[n]? = some Q[n] := getElem?_eq_getElem hn
  have hmem : Q[n] ∈ Q := getElem_mem hn
  obtain ⟨u', hu', hst⟩ := hk.stands hq
  rw [hu] at hu'
  cases hu'
  -- both the term and what has the number there go with what was found
  have horig : Q[n].1 = t := by
    generalize Q[n] = p at hmem hst
    obtain ⟨o, b⟩ := p
    rcases hform with ⟨i, xs, rfl⟩ | ⟨e, c, rfl⟩
    · cases ht with
      | @list _ j _ _ hpair hcopy =>
        have hb : b = .link j := by
          rcases hk.shapes _ hmem with ⟨_, _, j', hp⟩ | ⟨_, _, _, _, hp⟩ <;> cases hp <;>
            rcases hst with rfl | ⟨_, _, hl, rfl, _⟩ <;> rcases hcopy with hc | ⟨_, hc, _⟩ <;> cases hc
          · rfl
          · cases hl
            rfl
          · cases hl
        subst hb
        have := pair_of_copy hP (hQ _ hmem) hpair (Term.same_link.mpr ⟨rfl, hk.placed hmem⟩)
        exact congrArg Prod.fst this
    · cases ht with
      | @closure _ _ e' c' hpair =>
        have hb : b = .closure e' c' := by
          rcases hst with rfl | ⟨_, _, _, hl, _⟩
          · rfl
          · cases hl
        subst hb
        have := pair_of_copy hP (hQ _ hmem) hpair (Term.same_closure.mpr rfl)
        exact congrArg Prod.fst this
  have hlen : n < L.length := by
    rw [← hk.originals, length_map]
    exact hn
  have hget : ∀ m (hm : m < Q.length) (hm' : m < L.length), L[m] = Q[m].1 := by
    intro m hm hm'
    simp [← hk.originals]
  refine findIdx?_eq_some_iff_getElem.mpr ⟨hlen, ?_, fun m hm => ?_⟩
  · rw [hget n hn hlen, horig]
    exact hself
  · have hm' : m < Q.length := Nat.lt_trans hm hn
    rw [hget m hm' (Nat.lt_trans hm hlen)]
    have hap := (pairwise_iff_getElem.mp hk.apart) m n hm' hn hm
    have := hap.1
    rw [horig, Term.same_comm] at this
    simp [this]

theorem findIdx?_none_of_subset (hL : ∀ u ∈ L, u ∈ E) (hE : E.findIdx? t.same = none) : L.findIdx? t.same = none := by
  rw [findIdx?_eq_none_iff] at hE ⊢
  exact fun u hu => hE u (hL u hu)

theorem same_self (hn : E.findIdx? t.same = some n) (hform : (∃ i xs, t = .list i xs) ∨ ∃ e c, t = .closure e c) :
    t.same t = true := by
  rcases hform with ⟨i, xs, rfl⟩ | ⟨e, c, rfl⟩
  · obtain ⟨hlt, hs, -⟩ := findIdx?_eq_some_iff_getElem.mp hn
    refine Term.same_list.mpr ⟨rfl, ?_⟩
    rw [Term.same_eq] at hs
    simp only [Term.isClosure, Bool.false_and, Bool.false_eq_true, if_false, Bool.not_false, Bool.true_and,
      Bool.and_eq_true, decide_eq_true_eq] at hs
    exact hs.2
  · exact Term.same_closure.mpr rfl

theorem recovers_reference (hP : P.Pairwise Apart) {flagged : Bool}
    (hn : E.findIdx? t.same = some n) (hform : (∃ i xs, t = .list i xs) ∨ ∃ e c, t = .closure e c) :
    Recovers h g root P E (node one flagged .reference) (short n) E
      (fun L L' => L.findIdx? t.same = some n ∧ L' = L) fun t' => Alike h g P t t' := by
  intro L Q d rest u d' hL hk hQ ha ho _ hw
  rw [node, bind_ok (reads_readShort n d rest ha), outcome_reference] at ho
  split at ho
  · rename_i v hu
    cases ho
    exact ⟨fun _ hu => hu, L, [], ⟨number_of_copy hP (hk.past _) hQ (same_self hn hform) hu hw hform, rfl⟩, hL,
      by simpa using hk.past _, by simpa using hQ, ha.past⟩
  · cases ho

/-! ### Lists and closures -/

theorem length_repeated {one : DecodeM α} {xs : List α}
    (ho : outcome (repeated one n) d = (.ok xs, d')) : xs.length = n := by
  induction n generalizing d d' xs with
  | zero =>
    cases ho
    rfl
  | succ n ih =>
    obtain ⟨a, d1, -, ho⟩ := bind_returns ho
    obtain ⟨as, d2, ho2, ho⟩ := bind_returns ho
    cases ho
    rw [length_cons, ih ho2]

theorem recovers_list (hfill : ∀ p ∈ P, Filled h g P p) (fone : ∀ k n, Frames k n one) {xs : List Term}
    (ht : h.Reaches root (.list i xs)) (hn : E.findIdx? (Term.list i xs).same = none)
    (hitems : Recovers h g root P (E ++ [.list i xs]) (repeated one xs.length) bs E' late fun ys => AlikeAll h g P xs ys) :
    Recovers h g root P E (node one true .list) (short xs.length ++ bs) E'
      (fun L L' => L.findIdx? (Term.list i xs).same = none ∧ late (L ++ [.list i xs]) L')
      fun t => Alike h g P (.list i xs) t := by
  refine recovers_read (reads_readShort _) fun L Q d rest t d' hL hk hQ ha ho hs hw => ?_
  rw [Int.toNat_natCast] at ho
  have hnL := findIdx?_none_of_subset hL hn
  obtain ⟨ys, d2, ho2, ho3⟩ := bind_returns (m := repeated one xs.length) (s := { d with
    known := d.known.push (.link d.heap.next)
    heap := { d.heap with next := d.heap.next + 1 } }) ho
  cases ho3
  cases hw with
  | @list _ j _ _ hpair hcopy =>
    obtain ⟨_, heq, hres⟩ := hcopy.resolve_left fun hc => nomatch hc
    cases heq
    have hall : AlikeAll h g P xs ys := by
      cases hfill _ hpair with
      | list hres' hall =>
        rw [hres] at hres'
        cases hres'
        exact hall
    obtain ⟨hE, L', new, hlate, hL', hk', hQ', ha'⟩ := hitems (L ++ [.list i xs])
      (Q ++ [(.list i xs, .link d.heap.next)]) _ rest ys d2
      (fun u hu => mem_append.mpr ((mem_append.mp hu).imp_left (hL u))) (hk.add_list ht hnL)
      (fun p hp => (mem_append.mp hp).elim (hQ p) fun hp => mem_singleton.mp hp ▸ hpair) ha ho2 hs hall
    rw [append_assoc, singleton_append] at hk' hQ'
    have hnum : (Q ++ (Term.list i xs, Term.link d.heap.next) :: new)[d.known.size]? =
        some (.list i xs, .link d.heap.next) := by
      rw [hk.size, getElem?_append_right (Nat.le_refl _), Nat.sub_self]
      rfl
    have hopen : d2.heap.resolve (.link d.heap.next) = .link d.heap.next := by
      rw [(Frames.later (fun _ _ => frames_repeated (fone _ _) _) ho2).knots _ (Nat.lt_succ_self _)]
      exact Heap.resolve_unknown fun p hp => Nat.ne_of_lt (hk.knots p hp)
    exact ⟨fun u hu => hE u (mem_append_left _ hu), L', _, ⟨hnL, hlate⟩, hL', hk'.tie_list hnum hopen, hQ', ha'⟩

theorem Keeps.unnumbered (hP : P.Pairwise Apart) (hk : Keeps h root L Q d) (hQ : ∀ p ∈ Q, p ∈ P)
    (hpair : (Term.closure e c, Term.closure d.heap.envs.size c') ∈ P) : L.findIdx? (Term.closure e c).same = none := by
  rw [findIdx?_eq_none_iff]
  intro u hu
  rw [← hk.originals] at hu
  obtain ⟨p, hp, rfl⟩ := mem_map.mp hu
  rw [Bool.eq_false_iff]
  intro hs
  have := pair_of_original hP (hQ p hp) hpair (Term.same_comm _ p.1 ▸ hs)
  rw [this] at hp
  exact Nat.lt_irrefl _ (hk.closures hp)

theorem captured_returns (ho : outcome (captured one true c) d = (.ok t, d')) :
    ∃ (count : Int) (d1 d2 : Decoder) (es : List (String × Term)), outcome readShort d = (.ok count, d1) ∧
      outcome (repeated (field one) count.toNat) { d1 with
        known := d1.known.push (.closure d1.heap.envs.size c)
        heap := { d1.heap with envs := d1.heap.envs.push [] } } = (.ok es, d2) ∧
      t = .closure d1.heap.envs.size c ∧
      d' = { d2 with heap := d2.heap.setEnv d1.heap.envs.size (Dict.ofEntries es) } := by
  obtain ⟨count, d1, ho1, ho⟩ := bind_returns ho
  cases hc : isCode c with
  | false =>
    rw [hc] at ho
    cases ho
  | true =>
    rw [hc] at ho
    obtain ⟨es, d2, ho2, ho3⟩ := bind_returns (m := repeated (field one) count.toNat) (s := { d1 with
      known := d1.known.push (.closure d1.heap.envs.size c)
      heap := { d1.heap with envs := d1.heap.envs.push [] } }) ho
    cases ho3
    exact ⟨count, d1, d2, es, ho1, ho2, rfl, rfl⟩

/-- In the final heap a closure has the environment that was read, and those read on the way have theirs. -/
theorem Settled.captured {es : Env} (hsize : d.heap.envs.size < d2.heap.envs.size)
    (hs : Settled g d { d2 with heap := d2.heap.setEnv d.heap.envs.size es }) :
    g.envOf d.heap.envs.size = es ∧
      Settled g { d with known := d.known.push u, heap := { d.heap with envs := d.heap.envs.push [] } } d2 := by
  constructor
  · rw [hs _ (Nat.le_refl _) (by rw [Heap.size_setEnv]; exact hsize), Heap.envOf_setEnv hsize, if_pos rfl]
  · intro e he hlt
    rw [Array.size_push] at he
    rw [hs e (by omega) (by rw [Heap.size_setEnv]; exact hlt), Heap.envOf_setEnv hsize, if_neg (by omega)]

theorem recovers_closure (hfill : ∀ p ∈ P, Filled h g P p) (hP : P.Pairwise Apart) (fone : ∀ k n, Frames k n one)
    (ht : h.Reaches root (.closure e c)) (hn : E.findIdx? (Term.closure e c).same = none)
    (hcode : Recovers h g root P (E ++ [.closure e c]) one bs E1 late1 fun c' => Alike h g P c c')
    (henv : Recovers h g root P E1 (repeated (field one) (h.envOf e).length) cs E' late2
      fun es => AlikeFields h g P (h.envOf e) es) :
    Recovers h g root P E (node one true .closure) (bs ++ (short (h.envOf e).length ++ cs)) E'
      (fun L L' => L.findIdx? (Term.closure e c).same = none ∧ ∃ L1, late1 L L1 ∧
        L1.findIdx? (Term.closure e c).same = none ∧ late2 (L1 ++ [.closure e c]) L')
      fun t => Alike h g P (.closure e c) t := by
  intro L Q d rest t d' hL hk hQ ha ho hs hw
  rw [append_assoc, append_assoc] at ha
  obtain ⟨c', d1, ho1, ho⟩ := bind_returns ho
  obtain ⟨hs1, hs2⟩ := hs.split fone (fun _ _ => Tracking.captured _ (fone _ _) _ trivial) ho1 ho
  obtain ⟨count, d2, d3, es, hcount, ho3, rfl, rfl⟩ := captured_returns ho
  have hpair : (Term.closure e c, Term.closure d2.heap.envs.size c') ∈ P := by
    cases hw with
    | closure hp => exact hp
  obtain _ | ⟨halike, hfields⟩ := hfill _ hpair
  obtain ⟨hE1, L1, new1, hlate1, hL1, hk1, hQ1, ha1⟩ := hcode L Q d _ c' d1
    (fun u hu => mem_append_left _ (hL u hu)) hk hQ ha ho1 hs1 halike
  rw [reads_readShort _ d1 _ ha1] at hcount
  cases hcount
  rw [Int.toNat_natCast] at ho3
  have hnL := hk1.unnumbered hP hQ1 hpair
  have hk2 := (hk1.past (short (h.envOf e).length).length).add_closure c' ht hnL
  have hsize : (d1.past (short (h.envOf e).length).length).heap.envs.size < d3.heap.envs.size := by
    have hle := (Frames.later (fun _ _ => frames_repeated (frames_field (fone _ _)) _) ho3).size
    rwa [Array.size_push] at hle
  obtain ⟨hset, hs3⟩ := Settled.captured (u := .closure (d1.past (short (h.envOf e).length).length).heap.envs.size c') hsize hs2
  rw [hset] at hfields
  have hes : Dict.ofEntries es = es := by
    refine Dict.ofEntries_of_length ?_
    rw [length_repeated ho3]
    simpa [Dict.keys] using congrArg List.length hfields.keys
  rw [hes] at hfields
  obtain ⟨hE3, L3, new3, hlate3, hL3, hk3, hQ3, ha3⟩ := henv (L1 ++ [.closure e c]) _ _ rest es d3
    (fun u hu => (mem_append.mp hu).elim (hL1 u) fun hu => hE1 u (mem_append_right _ hu)) hk2
    (fun p hp => (mem_append.mp hp).elim (hQ1 p) fun hp => mem_singleton.mp hp ▸ hpair) ha1.past ho3 hs3 hfields
  rw [append_assoc, append_assoc] at hk3 hQ3
  exact ⟨fun u hu => hE3 u (hE1 u (mem_append_left _ hu)), L3, _,
    ⟨findIdx?_none_of_subset hL hn, L1, hlate1, hnL, hlate3⟩, hL3, hk3.setEnv _ _, hQ3, ha3⟩

/-! ### Terms -/

/-- What `R` writes for the term and a copy of it is read from is what `R'` writes. -/
def RecoversOf (h g : Heap) (root : Term) (P : Pairs) (R R' : Writing) (t : Term) : Prop :=
  ∀ (E E' : List Term) (bs : List UInt8), h.Reaches root t → R E t bs E' → ∀ fuel, bs.length ≤ fuel →
    Recovers h g root P E (decode fuel) bs E' (fun L L' => R' L t bs L') fun t' => Alike h g P t t'

section Terms
variable {R R' : Writing}

theorem recovers_items {ts : List Term} (hR : ∀ t ∈ ts, h.Reaches root t ∧ RecoversOf h g root P R R' t)
    (hw : Items R E ts bs E') (fuel : Nat) (hlen : bs.length ≤ fuel) :
    Recovers h g root P E (repeated (decode fuel) ts.length) bs E' (fun L L' => Items R' L ts bs L')
      fun ys => AlikeAll h g P ts ys := by
  induction hw with
  | nil => exact (recovers_of_copies fun _ => Copies.pure []).late_mono fun L L' he => he ▸ .nil
  | cons hw _ ih =>
    rw [length_append] at hlen
    obtain ⟨ht, hr⟩ := hR _ (.head _)
    have hfirst := hr _ _ _ ht hw fuel (by omega)
    have hrest := ih (fun t hm => hR t (.tail _ hm)) (by omega)
    refine (recovers_pair hfirst hrest (fun _ _ => frames_decode _ _ _)
      (fun _ _ => frames_repeated (frames_decode _ _ _) _) ?_).late_mono fun L L' ⟨L1, h1, h2⟩ => .cons h1 h2
    rintro y ys (_ | ⟨hy, hys⟩)
    exact ⟨hy, hys⟩

theorem recovers_entries {fs : Dict Term} (hR : ∀ p ∈ fs, h.Reaches root p.2 ∧ RecoversOf h g root P R R' p.2)
    (hw : Entries R E fs bs E') (fuel : Nat) (hlen : bs.length ≤ fuel) :
    Recovers h g root P E (repeated (field (decode fuel)) fs.length) bs E' (fun L L' => Entries R' L fs bs L')
      fun es => AlikeFields h g P fs es := by
  induction hw with
  | nil => exact (recovers_of_copies fun _ => Copies.pure []).late_mono fun L L' he => he ▸ .nil
  | @cons _ t _ _ _ _ _ k hw _ ih =>
    rw [length_append, length_append] at hlen
    rw [← append_assoc]
    obtain ⟨ht, hr⟩ := hR _ (.head _)
    have hfirst := hr _ _ _ ht hw fuel (by omega)
    have hrest := ih (fun p hp => hR p (.tail _ hp)) (by omega)
    have hfield : Recovers h g root P _ (field (decode fuel)) _ _ _ fun p => Alike h g P t p.2 :=
      recovers_read (reads_readString k) (recovers_map hfirst)
    refine (recovers_pair hfield hrest (fun _ _ => frames_field (frames_decode _ _ _))
      (fun _ _ => frames_repeated (frames_field (frames_decode _ _ _)) _) ?_).late_mono fun L L' ⟨L1, h1, h2⟩ => ?_
    · rintro y ys (_ | ⟨hy, hys⟩)
      exact ⟨hy, hys⟩
    · rw [append_assoc]
      exact .cons h1 h2

theorem recovers_branches {cases : List (Term × Term)}
    (hR : ∀ c ∈ cases, (h.Reaches root c.1 ∧ RecoversOf h g root P R R' c.1) ∧
      h.Reaches root c.2 ∧ RecoversOf h g root P R R' c.2)
    (hw : Branches R E cases bs E') (fuel : Nat) (hlen : bs.length ≤ fuel) :
    Recovers h g root P E (repeated (branch (decode fuel)) cases.length) bs E' (fun L L' => Branches R' L cases bs L')
      fun cs => AlikeCases h g P cases cs := by
  induction hw with
  | nil => exact (recovers_of_copies fun _ => Copies.pure []).late_mono fun L L' he => he ▸ .nil
  | @cons _ p _ _ b _ _ _ _ _ hp hb _ ih =>
    rw [length_append, length_append] at hlen
    rw [← append_assoc]
    obtain ⟨⟨htp, hrp⟩, htb, hrb⟩ := hR _ (.head _)
    have hpattern := hrp _ _ _ htp hp fuel (by omega)
    have hbody := hrb _ _ _ htb hb fuel (by omega)
    have hrest := ih (fun c hc => hR c (.tail _ hc)) (by omega)
    have hbranch : Recovers h g root P _ (branch (decode fuel)) _ _ _ fun c => Alike h g P p c.1 ∧ Alike h g P b c.2 :=
      recovers_pair hpattern hbody (fun _ _ => frames_decode _ _ _) (fun _ _ => frames_decode _ _ _) fun _ _ hw => hw
    refine (recovers_pair hbranch hrest (fun _ _ => frames_branch (frames_decode _ _ _))
      (fun _ _ => frames_repeated (frames_branch (frames_decode _ _ _)) _) ?_).late_mono
      fun L L' ⟨L2, ⟨L1, h1, h2⟩, h3⟩ => ?_
    · rintro y ys (_ | ⟨hp', hb', hys⟩)
      exact ⟨⟨hp', hb'⟩, hys⟩
    · rw [append_assoc]
      exact .cons h1 h2 h3

theorem recovers_leaf (hr : ∀ K, ReadAs h root K t bs K) (hw : ∀ K, R' K t bs K) (fuel : Nat)
    (hlen : bs.length ≤ fuel) :
    Recovers h g root P E (decode fuel) bs E (fun L L' => R' L t bs L') fun t' => Alike h g P t t' :=
  (recovers_of_copies fun K => hr K fuel hlen).late_mono fun L _ he => he ▸ hw L

theorem recovers_record {fields : Dict Term}
    (hf : Recovers h g root P E (repeated (field one) fields.length) bs E' late fun es => AlikeFields h g P fields es) :
    Recovers h g root P E (node one false .record) (short fields.length ++ bs) E' late
      fun t' => Alike h g P (.record i fields) t' := by
  refine recovers_flag (recovers_read (reads_readShort _) ?_)
  rw [Int.toNat_natCast]
  refine recovers_wrap hf fun d j es d1 ho hw => ?_
  cases hw with
  | record hfs =>
    -- no key was read twice, or the copy would have fewer fields
    have hes : Dict.ofEntries es = es := by
      refine Dict.ofEntries_of_length ?_
      rw [length_repeated ho]
      simpa [Dict.keys] using congrArg List.length hfs.keys
    rwa [hes] at hfs

theorem recovers_assign {x : String} {v : Term} (hlen : (Tag.var.byte :: (Wire.string x ++ bs)).length ≤ fuel)
    (hv : Recovers h g root P E (decode fuel) bs E' late fun v' => Alike h g P v v') :
    Recovers h g root P E (node (decode fuel) false .assign) (Tag.var.byte :: (Wire.string x ++ bs)) E' late
      fun t' => Alike h g P (.assign i x v) t' := by
  rw [length_cons, length_append] at hlen
  have hname : ∀ K, Copies h root K K (Tag.var.byte :: Wire.string x) (decode fuel) fun _ _ t => ∃ k, t = .var k x :=
    fun K => copies_var x (by rw [length_cons]; omega)
  refine recovers_flag (recovers_after hname ?_)
  rintro _ ⟨k, rfl⟩
  refine recovers_wrap hv fun _ _ _ _ _ hw => ?_
  cases hw with
  | assign hv' => exact hv'

theorem recovers_written (hfill : ∀ p ∈ P, Filled h g P p) (hP : P.Pairwise Apart)
    (hfar : ∀ t, RecoversOf h g root P R R' t) (t : Term) :
    RecoversOf h g root P (Written .beforeCode h R) (Written .afterCode h R') t := by
  induction t using Term.parts_induction with
  | step t ih =>
    intro E E' bs ht hw
    have ihs : ∀ u ∈ t.parts,
        h.Reaches root u ∧ RecoversOf h g root P (Written .beforeCode h R) (Written .afterCode h R') u :=
      fun u hu => ⟨ht.part hu, ih u hu⟩
    have part : ∀ {u E E' bs}, u ∈ t.parts → Written .beforeCode h R E u bs E' → ∀ fuel, bs.length ≤ fuel →
        Recovers h g root P E (decode fuel) bs E' (fun L L' => Written .afterCode h R' L u bs L')
          fun t' => Alike h g P u t' :=
      fun hu hw => ih _ hu _ _ _ (ht.part hu) hw
    cases hw with
    | int => exact recovers_leaf (fun _ => readAs_integer fun _ _ _ => .int) fun _ => .int
    | truth => exact recovers_leaf (fun _ => readAs_integer fun _ _ _ => .truth) fun _ => .truth
    | string => exact recovers_leaf (fun _ => readAs_string) fun _ => .string
    | var =>
      exact recovers_leaf (fun _ fuel hlen => (copies_var _ hlen).mono fun _ _ _ ⟨_, he⟩ => he ▸ .var) fun _ => .var
    | float => exact recovers_leaf (fun _ => readAs_float) fun _ => .float
    | bytes => exact recovers_leaf (fun _ => readAs_bytes) fun _ => .bytes
    | hole => exact recovers_leaf (fun _ => readAs_hole) fun _ => .hole
    | spread => exact recovers_leaf (fun _ => readAs_spread) fun _ => .spread
    | namedSpread => exact recovers_leaf (fun _ => readAs_namedSpread) fun _ => .namedSpread
    | knownList hn =>
      refine fun fuel hlen => recovers_tag (tag_byte _) hlen fun _ _ => ?_
      refine (recovers_reference hP hn (.inl ⟨_, _, rfl⟩)).late_mono ?_
      rintro L _ ⟨h1, rfl⟩
      exact .knownList h1
    | knownClosure hn =>
      refine fun fuel hlen => recovers_tag (tag_byte _) hlen fun _ _ => ?_
      refine (recovers_reference hP hn (.inr ⟨_, _, rfl⟩)).late_mono ?_
      rintro L _ ⟨h1, rfl⟩
      exact .knownClosure h1
    | list hn hxs =>
      refine fun fuel hlen => recovers_tag (tag_flagged _) hlen fun fuel hl => ?_
      rw [length_append] at hl
      exact (recovers_list hfill (fun _ _ => frames_decode _ _ _) ht hn
        (recovers_items ihs hxs fuel (by omega))).late_mono fun L L' ⟨h1, h2⟩ => .list h1 h2
    | closureAfter ho => cases ho
    | closureBefore _ hn hc henv =>
      refine fun fuel hlen => recovers_tag (tag_flagged _) hlen fun fuel hl => ?_
      rw [length_append, length_append] at hl
      exact (recovers_closure hfill hP (fun _ _ => frames_decode _ _ _) ht hn
        (part (.head _) hc fuel (by omega))
        (recovers_entries (fun p hp => ⟨ht.value hp, hfar p.2⟩) henv fuel (by omega))).late_mono
          fun L L' ⟨h1, L1, h2, h3, h4⟩ => .closureAfter rfl h1 h2 h3 h4
    | variant hv =>
      refine fun fuel hlen => recovers_tag (tag_byte _) hlen fun fuel hl => recovers_flag (recovers_read (reads_readString _) ?_)
      rw [length_append] at hl
      refine recovers_fresh fun j => recovers_map (((part (.head _) hv fuel (by omega)).late_mono
        fun _ _ hv' => .variant hv').want_mono ?_)
      intro _ hw
      cases hw with
      | variant hv' => exact hv'
    | record hf =>
      refine fun fuel hlen => recovers_tag (tag_byte _) hlen fun fuel hl => ?_
      rw [length_append] at hl
      exact (recovers_record (recovers_entries (fun p hp => ihs _ (Term.mem_parts_fields hp)) hf fuel (by omega))).late_mono
        fun _ _ hf' => .record hf'
    | matchFunction hc =>
      refine fun fuel hlen => recovers_tag (tag_byte _) hlen fun fuel hl => recovers_flag (recovers_read (reads_readShort _) ?_)
      rw [length_append] at hl
      rw [Int.toNat_natCast]
      have hbranches := recovers_branches (fun c hm =>
        ⟨ihs _ (Term.mem_parts_cases hm).1, ihs _ (Term.mem_parts_cases hm).2⟩)
        hc fuel (by omega)
      refine (recovers_wrap hbranches fun _ _ _ _ _ hw => ?_).late_mono fun _ _ hc' => .matchFunction hc'
      cases hw with
      | matchFunction hc' => exact hc'
    | assign hv =>
      refine fun fuel hlen => recovers_tag (tag_byte _) hlen fun fuel hl => ?_
      have hle := hl
      rw [length_cons, length_append] at hle
      exact (recovers_assign hl (part (.head _) hv fuel (by omega))).late_mono fun _ _ hv' => .assign hv'
    | function hl hr | apply hl hr | scope hl hr | access hl hr =>
      refine fun fuel hlen => recovers_tag (tag_byte _) hlen fun fuel hle => ?_
      rw [length_append] at hle
      refine (recovers_flag (recovers_two (part (.head _) hl fuel (by omega)) (part (.tail _ (.head _)) hr fuel (by omega))
        (fun _ _ => frames_decode _ _ _) fun _ _ _ hw => ?_)).late_mono fun _ _ ⟨_, _, _⟩ => by constructor <;> assumption
      cases hw
      constructor <;> assumption
    | binop hs hl hr =>
      refine fun fuel hlen => recovers_tag (tag_byte _) hlen fun fuel hle => recovers_flag (recovers_read (reads_readString _) ?_)
      rw [length_append, length_append] at hle
      rw [ofSymbol?_symbol? hs]
      refine (recovers_two (part (.head _) hl fuel (by omega)) (part (.tail _ (.head _)) hr fuel (by omega))
        (fun _ _ => frames_decode _ _ _) ?_).late_mono fun _ _ ⟨_, h1, h2⟩ => .binop hs h1 h2
      intro _ _ _ hw
      cases hw with
      | binop hl' hr' => exact ⟨hl', hr'⟩
    | link hw =>
      refine fun fuel hlen => ((hfar _ _ _ _ ht.link hw fuel hlen).late_mono fun _ _ hw' => .link hw').want_mono ?_
      intro _ hw
      cases hw with
      | link hw' => exact hw'

theorem recoversOf_within (hfill : ∀ p ∈ P, Filled h g P p) (hP : P.Pairwise Apart) (turns : Nat) (t : Term) :
    RecoversOf h g root P (WrittenWithin .beforeCode h turns) (WrittenWithin .afterCode h turns) t := by
  induction turns generalizing t with
  | zero => exact fun _ _ _ _ hw => hw.elim
  | succ turns ih => exact recovers_written hfill hP ih t

end Terms

end Scrap.Wire
