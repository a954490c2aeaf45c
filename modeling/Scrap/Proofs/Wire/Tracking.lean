import Scrap.Proofs.Dict
import Scrap.Proofs.Term.Parts
import Scrap.Proofs.Wire.Positions

/-! # Reading part by part

A decoder reads bytes, takes numbers, gives them to terms, and fills in links and environments. What holds of each of
these actions, and of one after the other, holds of reading whole terms. -/

namespace Scrap.Wire

open Decoder List

/-- A property of computations with what is known of their results; more is known as they go on. -/
structure Tracking where
  Known : Type
  le : Known → Known → Prop
  trans : ∀ {u v w}, le u v → le v w → le u w
  Holds : {α : Type} → Known → (Known → α → Prop) → DecodeM α → Prop
  later : ∀ {w v} {α : Type} {ok : Known → α → Prop} {m}, Holds w ok m → le w v → Holds v ok m
  bind : ∀ {w} {α β : Type} {ok : Known → α → Prop} {ok' : Known → β → Prop} {m : DecodeM α} {f : α → DecodeM β},
    Holds w ok m → (∀ v a, le w v → ok v a → Holds v ok' (f a)) → Holds w ok' (m >>= f)
  pure : ∀ {w} {α : Type} {ok : Known → α → Prop} {a : α}, (∀ v, le w v → ok v a) → Holds w ok (Pure.pure a)
  throw : ∀ {w} {α : Type} {ok : Known → α → Prop} (e : DecodeError), Holds w ok (MonadExcept.throw e)
  bytes : ∀ {w} {α : Type} {m : DecodeM α}, Positional m → Holds w (fun _ _ => True) m
  /-- What is known of terms, of the numbers of links and of those of environments. -/
  term : Known → Term → Prop
  link : Known → Nat → Prop
  env : Known → Nat → Prop
  grows : ∀ {w v}, le w v → (∀ t, term w t → term v t) ∧ (∀ i, link w i → link v i) ∧ ∀ e, env w e → env v e
  whole : ∀ {w t}, t.isLeaf = false → (∀ u ∈ t.parts, term w u) → term w t
  fresh : ∀ {w}, Holds w link fresh
  reference : ∀ {w} i, Holds w term (reference i)
  register : ∀ {w i}, link w i → Holds w (fun _ _ => True) (register (.link i))
  tie : ∀ {w i t} n, link w i → term w t → Holds w (fun _ _ => True)
    (modify fun d => { d with known := d.known.setIfInBounds n t, heap := d.heap.tie i t })
  opened : ∀ {w code}, term w code → Holds w (fun v c => term v c ∧ env v c.id) (opened code)
  setEnv : ∀ {w e bs}, env w e → (∀ p ∈ bs, term w p.2) → Holds w (fun _ _ => True)
    (modify fun d => { d with heap := d.heap.setEnv e bs })

namespace Tracking
variable (T : Tracking) {w v : T.Known} {α : Type} {ok : T.Known → α → Prop} {one : DecodeM Term} {t : Term}

/-- The computation reads a term. -/
abbrev Reads (w : T.Known) (m : DecodeM Term) : Prop := T.Holds w T.term m

abbrev Plain (w : T.Known) (m : DecodeM α) : Prop := T.Holds w (fun _ _ => True) m

variable {T} in
theorem up (ht : T.term w t) (hv : T.le w v) : T.term v t := (T.grows hv).1 t ht

variable {T} in
theorem plain (a : α) : T.Plain w (Pure.pure a) := T.pure fun _ _ => trivial

theorem short : T.Plain w readShort := T.bytes positional_readShort

theorem text : T.Plain w readString := T.bytes positional_readString

theorem flag (found wanted : Bool) : T.Plain w (flag found wanted) := by
  unfold Decoder.flag
  split
  · exact T.plain _
  · exact T.throw _

theorem repeated {one : DecodeM α} (hone : T.Holds w ok one) (hok : ∀ v u a, T.le v u → ok v a → ok u a) (count : Nat) :
    T.Holds w (fun v as => ∀ a ∈ as, ok v a) (repeated one count) := by
  induction count generalizing w with
  | zero => exact T.pure fun _ _ _ ha => by cases ha
  | succ count ih =>
    refine T.bind hone fun v a hv ha => T.bind (ih (T.later hone hv)) fun u as hu has => T.pure fun x hx => ?_
    exact forall_mem_cons.mpr ⟨hok _ _ _ (T.trans hu hx) ha, fun b hb => hok _ _ _ hx (has b hb)⟩

/-- A term that gets its number last. -/
theorem placed {f : Nat → Term} {ts : List Term} (hf : ∀ i, (f i).isLeaf = false ∧ (f i).parts = ts)
    (hts : ∀ u ∈ ts, T.term w u) : T.Reads w (Decoder.fresh >>= fun i => Pure.pure (f i)) :=
  T.bind T.fresh fun _ i hv _ => T.pure fun _ hu => T.whole (hf i).1 ((hf i).2 ▸ fun u hu' => up (hts u hu') (T.trans hv hu))

theorem leaf {m : DecodeM α} (hm : Positional m) {f : Nat → α → Term}
    (hf : ∀ i a, (f i a).isLeaf = false ∧ (f i a).parts = []) :
    T.Reads w (Decoder.fresh >>= fun i => m >>= fun a => Pure.pure (f i a)) := by
  refine T.bind T.fresh fun _ i _ _ => T.bind (T.bytes hm) fun _ a _ _ => T.pure fun _ _ => T.whole (hf i a).1 ?_
  rw [(hf i a).2]
  exact fun _ hu => by cases hu

section Terms
variable (hone : T.Reads w one)
include hone

theorem field : T.Holds w (fun v p => T.term v p.2) (field one) :=
  T.bind T.text fun _ _ hv _ => T.bind (T.later hone hv) fun _ _ _ ht => T.pure fun _ hx => up ht hx

theorem fields (count : Nat) :
    T.Holds w (fun v bs => ∀ p ∈ Dict.ofEntries bs, T.term v p.2) (Decoder.repeated (Decoder.field one) count >>= Pure.pure) :=
  T.bind (T.repeated (T.field hone) (fun _ _ _ hv ht => up ht hv) count) fun _ _ _ hbs => T.pure fun _ hx p hp =>
    (Dict.mem_merge hp).elim (fun hn => by cases hn) fun hp => up (hbs p hp) hx

theorem branch : T.Holds w (fun v c => T.term v c.1 ∧ T.term v c.2) (branch one) :=
  T.bind hone fun _ _ hv hp => T.bind (T.later hone hv) fun _ _ hu hb =>
    T.pure fun _ hx => ⟨up hp (T.trans hu hx), up hb hx⟩

theorem captured (flagged : Bool) {code : Term} (hcode : T.term w code) : T.Reads w (captured one flagged code) := by
  rw [captured_eq]
  refine T.bind T.short fun _ count h1 _ => ?_
  split
  · exact T.throw _
  refine T.bind (T.flag _ _) fun _ _ h2 _ => T.bind (T.opened (up hcode (T.trans h1 h2))) fun _ c h3 ⟨hc, he⟩ => ?_
  have hbindings := T.fields (T.later hone (T.trans h1 (T.trans h2 h3))) count.toNat
  rw [bind_pure] at hbindings
  exact T.bind hbindings fun _ bs h4 hbs => T.bind (T.setEnv ((T.grows h4).2.2 _ he) hbs) fun _ _ h5 _ =>
    T.pure fun _ hx => up hc (T.trans h4 (T.trans h5 hx))

theorem list (flagged : Bool) : T.Reads w (Decoder.node one flagged .list) := by
  refine T.bind T.short fun _ count h1 _ => T.bind (T.flag _ _) fun _ _ h2 _ => T.bind T.fresh fun _ i h3 hi => ?_
  refine T.bind (T.register hi) fun _ n h4 _ => ?_
  have hle := T.trans h1 (T.trans h2 (T.trans h3 h4))
  refine T.bind (T.repeated (T.later hone hle) (fun _ _ _ hv ht => up ht hv) _) fun _ items h5 hitems => ?_
  have ht : T.term _ (.list i items) := T.whole rfl hitems
  exact T.bind (T.tie n ((T.grows (T.trans h4 h5)).2.1 i hi) ht) fun _ _ h6 _ => T.pure fun _ hx => up ht (T.trans h6 hx)

theorem two {f : Nat → Term → Term → Term} (hf : ∀ i a b, (f i a b).isLeaf = false ∧ (f i a b).parts = [a, b]) :
    T.Reads w (one >>= fun a => Decoder.fresh >>= fun i => one >>= fun b => Pure.pure (f i a b)) := by
  refine T.bind hone fun _ a h1 ha => T.bind T.fresh fun _ i h2 _ => ?_
  refine T.bind (T.later hone (T.trans h1 h2)) fun _ b h3 hb => T.pure fun _ hx => T.whole (hf i a b).1 ?_
  rw [(hf i a b).2]
  exact forall_mem_cons.mpr ⟨up ha (T.trans h2 (T.trans h3 hx)), forall_mem_singleton.mpr (up hb hx)⟩

theorem node (flagged : Bool) (tag : Tag) : T.Reads w (node one flagged tag) := by
  have flagged_then : ∀ {m : DecodeM Term}, (∀ v, T.le w v → T.Reads v m) →
      T.Reads w (Decoder.flag flagged false >>= fun _ => m) := fun hm =>
    T.bind (T.flag _ _) fun v _ hv _ => hm v hv
  cases tag with
  | reference => exact T.bind T.short fun _ i _ _ => T.reference i
  | list => exact T.list hone flagged
  | closure => exact T.bind hone fun _ _ hv hcode => T.captured (T.later hone hv) flagged hcode
  | spread => exact T.placed (fun _ => ⟨rfl, rfl⟩) fun _ hu => by cases hu
  | namedSpread => exact T.leaf positional_readString fun _ _ => ⟨rfl, rfl⟩
  | short => exact flagged_then fun _ _ => T.leaf positional_readShort fun _ _ => ⟨rfl, rfl⟩
  | long => exact flagged_then fun _ _ => T.leaf positional_readLong fun _ _ => ⟨rfl, rfl⟩
  | string | var => exact flagged_then fun _ _ => T.leaf positional_readString fun _ _ => ⟨rfl, rfl⟩
  | bytes => exact flagged_then fun _ _ => T.bind T.short fun _ n _ _ => T.leaf (positional_read n) fun _ _ => ⟨rfl, rfl⟩
  | hole => exact flagged_then fun _ _ => T.placed (fun _ => ⟨rfl, rfl⟩) fun _ hu => by cases hu
  | float =>
    refine flagged_then fun _ _ => T.bind (T.bytes (positional_read 8)) fun _ bs _ _ => ?_
    split
    · exact T.placed (fun _ => ⟨rfl, rfl⟩) fun _ hu => by cases hu
    · exact T.throw _
  | function | apply | scope | access =>
    exact flagged_then fun _ hv => T.two (T.later hone hv) fun _ _ _ => ⟨rfl, rfl⟩
  | binop =>
    refine flagged_then fun _ h1 => T.bind T.text fun _ s h2 _ => ?_
    split
    · exact T.throw _
    · exact T.two (T.later hone (T.trans h1 h2)) fun _ _ _ => ⟨rfl, rfl⟩
  | record =>
    refine flagged_then fun _ h1 => T.bind T.short fun _ count h2 _ => ?_
    have hbindings := T.fields (T.later hone (T.trans h1 h2)) count.toNat
    rw [bind_pure] at hbindings
    refine T.bind hbindings fun _ bs _ hbs => T.placed (fun _ => ⟨rfl, rfl⟩) fun u hu => ?_
    obtain ⟨p, hp, rfl⟩ := mem_map.mp hu
    exact hbs p hp
  | variant =>
    refine flagged_then fun _ h1 => T.bind T.text fun _ x h2 _ => T.bind T.fresh fun _ i h3 _ => ?_
    exact T.bind (T.later hone (T.trans h1 (T.trans h2 h3))) fun _ u _ hu => T.pure fun _ hx =>
      T.whole rfl (forall_mem_singleton.mpr (up hu hx))
  | matchFunction =>
    refine flagged_then fun _ h1 => T.bind T.short fun _ count h2 _ => ?_
    refine T.bind (T.repeated (T.branch (T.later hone (T.trans h1 h2))) (fun _ _ _ hv h => ⟨up h.1 hv, up h.2 hv⟩) _)
      fun _ cases _ hcs => T.placed (fun _ => ⟨rfl, rfl⟩) fun u hu => ?_
    obtain ⟨c, hc, hu⟩ := mem_flatMap.mp hu
    exact forall_mem_cons.mpr ⟨(hcs c hc).1, forall_mem_singleton.mpr (hcs c hc).2⟩ u hu
  | assign =>
    refine flagged_then fun _ h1 => T.bind (T.later hone h1) fun _ name h2 _ => ?_
    refine T.bind (T.later hone (T.trans h1 h2)) fun _ u _ hu => ?_
    split
    · exact T.placed (fun _ => ⟨rfl, rfl⟩) (forall_mem_singleton.mpr hu)
    · exact T.throw _

end Terms

theorem decode (fuel : Nat) : T.Reads w (decode fuel) := by
  induction fuel generalizing w with
  | zero => exact T.throw _
  | succ fuel ih =>
    refine T.bind (T.bytes positional_readByte) fun _ b _ _ => ?_
    split
    · exact T.throw _
    · exact T.node ih _ _

end Tracking

end Scrap.Wire
