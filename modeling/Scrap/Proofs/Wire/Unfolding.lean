import Scrap.Proofs.Wire.Graphs
import Scrap.Proofs.Wire.Orders
import Scrap.Proofs.Wire.Sequence

/-! # Graphs survive being written and read

A graph of terms unfolds to trees, which are infinite where a list contains itself. Written and read back, the terms
unfold to the same trees, and two places have one list exactly if they had one before. -/

namespace Scrap

open List

/-- What a node of a tree says, apart from what is below it. A truth value counts as a number. -/
inductive Label where
  | int (value : Int)
  | float (value : Binary64)
  | string (value : String)
  | bytes (value : List UInt8)
  | var (name : String)
  | hole
  | spread (name : Option String)
  | binop (op : BinaryOp)
  | list
  | record (keys : List String)
  | assign (name : String)
  | function
  | apply
  | scope
  | matchFunction
  | access
  | variant (tag : String)
  | other (kind : String)

def Term.label : Term → Label
  | .int _ n => .int n
  | .truth _ b => .int (if b then 1 else 0)
  | .float _ x => .float x
  | .string _ s => .string s
  | .bytes _ bs => .bytes bs
  | .var _ x => .var x
  | .hole _ => .hole
  | .spread _ x => .spread x
  | .binop _ op _ _ => .binop op
  | .list _ _ => .list
  | .record _ fs => .record (Dict.keys fs)
  | .assign _ x _ => .assign x
  | .function _ _ _ => .function
  | .apply _ _ _ => .apply
  | .scope _ _ _ => .scope
  | .matchFunction _ _ => .matchFunction
  | .access _ _ _ => .access
  | .variant _ tag _ => .variant tag
  | t => .other t.kind

namespace Heap

/-- The term at the end of a path through parts; links are looked up. -/
def follow (h : Heap) (t : Term) : List Nat → Option Term
  | [] => some (h.resolve t)
  | n :: path => (h.resolve t).parts[n]?.bind fun u => h.follow u path

/-- A place in a sequence of terms: which term, and the path in it. -/
abbrev Place := Nat × List Nat

def visit (h : Heap) (ts : List Term) (a : Place) : Option Term := ts[a.1]?.bind fun t => h.follow t a.2

/-- The trees that the terms unfold to, as the labels at all places. -/
def unfolding (h : Heap) (ts : List Term) (a : Place) : Option Label := (h.visit ts a).map Term.label

/-- There are lists at both places, and they are one. -/
def OneList (h : Heap) (ts : List Term) (a b : Place) : Prop :=
  ∃ i xs j ys, h.visit ts a = some (.list i xs) ∧ h.visit ts b = some (.list j ys) ∧
    (Term.list i xs).same (.list j ys) = true

end Heap

namespace Wire

open Decoder

variable {t u : Term} {ts : List Term} {n : Nat} {d d' : Decoder} {p : List Nat}

/-! ### Copies unfold alike -/

section Opened
variable {h g : Heap} {Q : Pairs} {t' : Term} {a b : Option Term}

/-- Terms that are no links, alike with their parts. -/
structure Opened (h g : Heap) (Q : Pairs) (a b : Term) : Prop where
  label : b.label = a.label
  parts : AlikeAll h g Q a.parts b.parts
  list : ∀ i xs, a = .list i xs → ∃ j ys, b = .list j ys ∧ (a, .link j) ∈ Q

theorem AlikeAll.one (ht : Alike h g Q t t') : AlikeAll h g Q [t] [t'] := .cons ht .nil

theorem AlikeAll.two {u' : Term} (ht : Alike h g Q t t') (hu : Alike h g Q u u') : AlikeAll h g Q [t, u] [t', u'] :=
  .cons ht (.one hu)

theorem AlikeFields.values {fs gs : List (String × Term)} (hf : AlikeFields h g Q fs gs) :
    AlikeAll h g Q (fs.map Prod.snd) (gs.map Prod.snd) := by
  induction fs generalizing gs with
  | nil =>
    cases hf
    exact .nil
  | cons f fs ih =>
    cases hf with
    | cons ht hfs => exact .cons ht (ih hfs)

theorem AlikeCases.terms {cs ds : List (Term × Term)} (hc : AlikeCases h g Q cs ds) :
    AlikeAll h g Q (cs.flatMap fun c => [c.1, c.2]) (ds.flatMap fun d => [d.1, d.2]) := by
  induction cs generalizing ds with
  | nil =>
    cases hc
    exact .nil
  | cons c cs ih =>
    cases hc with
    | cons hp hb hcs => exact .cons hp (.cons hb (ih hcs))

theorem AlikeAll.nth {ts' : List Term} (hts : AlikeAll h g Q ts ts') (n : Nat) :
    (ts[n]? = none ∧ ts'[n]? = none) ∨ ∃ t t', ts[n]? = some t ∧ ts'[n]? = some t' ∧ Alike h g Q t t' := by
  induction ts generalizing ts' n with
  | nil =>
    cases hts
    exact .inl ⟨rfl, rfl⟩
  | cons t ts ih =>
    cases hts with
    | cons ht hts =>
      cases n with
      | zero => exact .inr ⟨_, _, rfl, rfl, ht⟩
      | succ n => exact ih hts n

theorem Alike.opened (hfill : ∀ p ∈ Q, Filled h g Q p) (ht : Alike h g Q t t')
    (hlink : ∀ i, t ≠ .link i) (hclosure : ∀ e c, t ≠ .closure e c) : Opened h g Q t (g.resolve t') := by
  have no : ∀ {a b : Term}, b.label = a.label → AlikeAll h g Q a.parts b.parts → a.label ≠ .list → Opened h g Q a b :=
    fun hl hp hne => ⟨hl, hp, fun i xs he => absurd (congrArg Term.label he) hne⟩
  cases ht with
  | int | truth | float | string | bytes | var | hole | spread => exact no rfl .nil nofun
  | binop hl hr | function hl hr | apply hl hr | scope hl hr | access hl hr => exact no rfl (.two hl hr) nofun
  | assign hv | variant hv => exact no rfl (.one hv) nofun
  | record hf => exact no (congrArg Label.record hf.keys) hf.values nofun
  | matchFunction hc => exact no rfl hc.terms nofun
  | @list t' j i xs hmem hcopy =>
    cases hfill _ hmem with
    | @list _ ys _ _ hr hxs =>
      -- the copy is a link to the list, or the list itself
      have hb : g.resolve t' = .list j ys := by
        rcases hcopy with rfl | ⟨zs, rfl, hz⟩
        · exact hr
        · rw [hr] at hz
          exact hz.symm
      rw [hb]
      refine ⟨rfl, hxs, fun i' xs' he => ⟨j, ys, rfl, ?_⟩⟩
      exact hmem
  | closure => exact absurd rfl (hclosure _ _)
  | link => exact absurd rfl (hlink _)

/-- Behind copies of one graph there is nothing at a place, or there are terms that are alike. -/
def Matched (h g : Heap) (Q : Pairs) : Option Term → Option Term → Prop
  | none, none => True
  | some a, some b => Opened h g Q a b
  | _, _ => False

variable {ts ts' : List Term} {p : List Nat} {t t' : Term}

theorem Alike.resolved (hg : h.Graph ts) (hfill : ∀ p ∈ Q, Filled h g Q p) (hp : h.Occurs ts p t)
    (ht : Alike h g Q t t') : Opened h g Q (h.resolve t) (g.resolve t') := by
  cases ht with
  | @link i _ ht =>
    obtain ⟨q, hq⟩ := hp.step (show h.resolve (.link i) ∈ h.ways (.link i) from .head _)
    refine ht.opened hfill (fun j => hg.links hp) fun e c he => ?_
    rw [he] at hq
    exact hg.not_closure hq
  | closure => exact absurd hp hg.not_closure
  | _ =>
    refine Alike.opened hfill ?_ nofun nofun
    constructor <;> assumption

theorem occurs_resolve (hp : h.Occurs ts p t) : ∃ q, h.Occurs ts q (h.resolve t) := by
  cases t with
  | link i => exact hp.step (.head _)
  | _ => exact ⟨p, hp⟩

theorem occurs_part (hg : h.Graph ts) (hp : h.Occurs ts p t) (hu : u ∈ (h.resolve t).parts) : ∃ q, h.Occurs ts q u := by
  obtain ⟨q, hq⟩ := occurs_resolve hp
  have hlink : ∀ i, h.resolve t ≠ .link i := by
    cases t with
    | link i => exact fun j => hg.links hp
    | _ => exact nofun
  exact hq.step (hg.parts_eq hq hlink ▸ hu)

theorem occurs_visit (hg : h.Graph ts) {a : Heap.Place} (ha : h.visit ts a = some u) : ∃ q, h.Occurs ts q u := by
  have follow : ∀ (path : List Nat) {p : List Nat} {t : Term}, h.Occurs ts p t → h.follow t path = some u →
      ∃ q, h.Occurs ts q u := by
    intro path
    induction path with
    | nil =>
      intro p t hp hu
      cases hu
      exact occurs_resolve hp
    | cons n path ih =>
      intro p t hp hu
      obtain ⟨v, hv, hu⟩ := Option.bind_eq_some_iff.mp hu
      obtain ⟨q, hq⟩ := occurs_part hg hp (mem_of_getElem? hv)
      exact ih hq hu
  obtain ⟨t, ht, hu⟩ := Option.bind_eq_some_iff.mp ha
  exact follow a.2 (.root ht) hu

theorem matched_follow (hg : h.Graph ts) (hfill : ∀ p ∈ Q, Filled h g Q p) (path : List Nat) (hp : h.Occurs ts p t)
    (ht : Alike h g Q t t') : Matched h g Q (h.follow t path) (g.follow t' path) := by
  induction path generalizing p t t' with
  | nil => exact ht.resolved hg hfill hp
  | cons n path ih =>
    have ho := ht.resolved hg hfill hp
    rw [Heap.follow, Heap.follow]
    rcases ho.parts.nth n with ⟨h1, h2⟩ | ⟨u, u', h1, h2, hu⟩ <;> rw [h1, h2]
    · trivial
    · obtain ⟨q, hq⟩ := occurs_part hg hp (mem_of_getElem? h1)
      exact ih hq hu

theorem matched_visit (hg : h.Graph ts) (hfill : ∀ p ∈ Q, Filled h g Q p) (hts : AlikeAll h g Q ts ts')
    (a : Heap.Place) : Matched h g Q (h.visit ts a) (g.visit ts' a) := by
  rw [Heap.visit, Heap.visit]
  rcases hts.nth a.1 with ⟨h1, h2⟩ | ⟨t, t', h1, h2, ht⟩ <;> rw [h1, h2]
  · trivial
  · exact matched_follow hg hfill a.2 (.root h1) ht

theorem Matched.label (hm : Matched h g Q a b) : b.map Term.label = a.map Term.label := by
  cases a <;> cases b
  · rfl
  · exact hm.elim
  · exact hm.elim
  · exact congrArg some (Opened.label hm)

theorem Matched.list (hm : Matched h g Q a b) {i : Nat} {xs : List Term}
    (ha : a = some (.list i xs)) : ∃ j ys, b = some (.list j ys) ∧ (.list i xs, .link j) ∈ Q := by
  subst ha
  cases b with
  | none => exact hm.elim
  | some b =>
    obtain ⟨j, ys, rfl, hq⟩ := Opened.list hm i xs rfl
    exact ⟨j, ys, rfl, hq⟩

theorem eq_list_of_label {a : Term} (ha : a.label = .list) : ∃ i xs, a = .list i xs := by
  cases a with
  | list i xs => exact ⟨i, xs, rfl⟩
  | _ => cases ha

theorem Matched.list_before (hm : Matched h g Q a b) {j : Nat} {ys : List Term}
    (hb : b = some (.list j ys)) : ∃ i xs, a = some (.list i xs) ∧ (.list i xs, .link j) ∈ Q := by
  subst hb
  cases a with
  | none => exact hm.elim
  | some a =>
    obtain ⟨i, xs, rfl⟩ := eq_list_of_label (Opened.label hm).symm
    obtain ⟨j', ys', hb, hq⟩ := Opened.list hm i xs rfl
    cases hb
    exact ⟨i, xs, rfl, hq⟩

theorem oneList_iff (hg : h.Graph ts) (hfill : ∀ p ∈ Q, Filled h g Q p) (hts : AlikeAll h g Q ts ts')
    (hQ : Q.Pairwise Apart) (hplaced : ∀ {a i}, (a, Term.link i) ∈ Q → i ≠ 0) (a b : Heap.Place) :
    g.OneList ts' a b ↔ h.OneList ts a b := by
  have hma := matched_visit hg hfill hts a
  have hmb := matched_visit hg hfill hts b
  constructor
  · rintro ⟨i', xs', j', ys', ha, hb, hs⟩
    obtain ⟨i, xs, ha', h1⟩ := hma.list_before ha
    obtain ⟨j, ys, hb', h2⟩ := hmb.list_before hb
    obtain ⟨p, hp⟩ := occurs_visit hg ha'
    have hcopy := Term.same_list.mp hs
    cases pair_of_copy hQ h1 h2 (Term.same_link.mpr hcopy)
    exact ⟨i, xs, i, xs, ha', hb', Term.same_list.mpr ⟨rfl, (hg.placed hp).1⟩⟩
  · rintro ⟨i, xs, j, ys, ha, hb, hs⟩
    obtain ⟨i', xs', ha', h1⟩ := hma.list ha
    obtain ⟨j', ys', hb', h2⟩ := hmb.list hb
    cases pair_of_original hQ h1 h2 hs
    exact ⟨i', xs', i', ys', ha', hb', Term.same_list.mpr ⟨rfl, hplaced h1⟩⟩

end Opened

/-! ### Reading the items of a sequence -/

theorem parseMany_cons {d1 d2 : Decoder} (h1 : d.parse = (.ok t, d1))
    (h2 : parseMany n d1 = (.ok ts, d2)) : parseMany (n + 1) d = (.ok (t :: ts), d2) := by
  induction n generalizing ts d2 with
  | zero =>
    cases h2
    exact parseMany_succ (show parseMany 0 d = (.ok [], d) from rfl) h1
  | succ n ih =>
    unfold parseMany at h2
    split at h2
    · cases h2
    · rename_i us d' hus
      split at h2
      · cases h2
      · rename_i u d'' hu
        cases h2
        exact parseMany_succ (ih hus) hu

theorem parseMany_of_repeated
    (hr : outcome (repeated (decode (depth + d.data.size)) n) d = (.ok ts, d')) : parseMany n d = (.ok ts, d') := by
  induction n generalizing d ts with
  | zero =>
    cases hr
    rfl
  | succ n ih =>
    obtain ⟨t, d1, ht, hrest⟩ := bind_returns hr
    obtain ⟨us, d2, hus, hlast⟩ := bind_returns hrest
    cases hlast
    have hdata := parse_data (show d.parse = (.ok t, d1) from ht)
    rw [← hdata] at hus
    exact parseMany_cons ht (ih hus)

theorem parseMany_data (hp : parseMany n d = (.ok ts, d')) : d'.data = d.data := by
  induction n generalizing ts d' with
  | zero =>
    cases hp
    rfl
  | succ n ih =>
    unfold parseMany at hp
    split at hp
    · cases hp
    · rename_i us d1 hus
      split at hp
      · cases hp
      · rename_i u d2 hu
        cases hp
        exact (parse_data hu).trans (ih hus)

section Reading
variable {h h' : Heap} {ts : List Term}

/-- One encoder writes the terms of a graph and one decoder reads them back, whatever bytes follow theirs. They unfold
to the same trees, and two places have one list exactly if they had one before. -/
theorem graph_round_trip (hg : h.Graph ts) (rest : List UInt8) (hpos : 0 < h'.next)
    (hknots : ∀ p ∈ h'.knots, p.1 < h'.next) :
    ∃ e ts' d, outcome (ts.forM (Term.encode h)) {} = (.ok (), e) ∧
      parseMany ts.length { data := (e.output.toList ++ rest).toArray, heap := h' } = (.ok ts', d) ∧
      d.index = e.output.size ∧ d.heap.unfolding ts' = h.unfolding ts ∧
      ∀ a b, d.heap.OneList ts' a b ↔ h.OneList ts a b := by
  obtain ⟨bs, K, hw⟩ := exists_items hg
  have hwrites := writes_items ts fun t _ => writes_encodeWithin .beforeCode h h.rounds t
  have hencoded := (hwrites {} ⟨K, bs.toArray⟩).mpr ⟨bs, hw, by simp⟩
  have hstart : Ahead { data := (bs ++ rest).toArray, heap := h' } (bs ++ rest) := ⟨0, rfl, by simp, by simp⟩
  obtain ⟨ts', d, Q, ho, ha, hk, -, hfill, halike⟩ := copies_items
    (fun t ht => ⟨.part .root ht, copiesOf_within hg.coherent h.rounds t⟩) (rewrites_items (fun _ ht =>
      rewrites_within (fun _ _ => hg.not_reaches_closure) h.rounds (.part .root ht)) hw)
    (depth + (bs ++ rest).toArray.size) (by simp; omega) _ [] rest (Keeps.start hpos hknots) hstart
  rw [nil_append] at hk hfill
  have halike' := halike _ _ (.refl _ _)
  have hparse : parseMany ts.length { data := (bs ++ rest).toArray, heap := h' } = (.ok ts', d) :=
    parseMany_of_repeated ho
  refine ⟨⟨K, bs.toArray⟩, ts', d, hencoded, hparse, ?_, ?_, oneList_iff hg hfill halike' hk.apart hk.placed⟩
  · rw [index_of_ahead ha (parseMany_data hparse)]
    simp
  · funext a
    exact (matched_visit hg hfill halike' a).label

end Reading

/-! ### A record and a list that contain themselves -/

/-- The record `r` of a list that contains `r`, and of the list `ones`. -/
def loopRecord : Term := .record 5 [("me", .list 6 [.link 5]), ("ones", .link 7)]

/-- The list of itself and 1. -/
def loopList : Term := .list 7 [.link 7, .int 8 1]

def loopHeap : Heap := { next := 9, knots := [(5, loopRecord), (7, loopList)] }

theorem occurs_loops (ht : loopHeap.Occurs [loopRecord, loopList] p t) :
    t = loopRecord ∨ t = loopList ∨ t = .list 6 [.link 5] ∨ t = .link 5 ∨ t = .link 7 ∨ t = .int 8 1 := by
  induction ht with
  | root hn =>
    have := mem_of_getElem? hn
    simp only [mem_cons, not_mem_nil, or_false] at this
    tauto
  | way _ hn ih =>
    have hu := mem_of_getElem? hn
    rcases ih with rfl | rfl | rfl | rfl | rfl | rfl
    · simp only [Heap.ways, loopRecord, Term.parts, map_cons, map_nil, mem_cons, not_mem_nil,
        or_false] at hu
      tauto
    · simp only [Heap.ways, loopList, Term.parts, mem_cons, not_mem_nil, or_false] at hu
      tauto
    · exact .inr (.inr (.inr (.inl (mem_singleton.mp hu))))
    · exact .inl (mem_singleton.mp hu)
    · exact .inr (.inl (mem_singleton.mp hu))
    · cases hu

/-- Falls with every step that does not lead out of a list. -/
def loopRank : Term → Nat
  | .link 5 => 3
  | .record _ _ => 2
  | .link _ => 1
  | _ => 0

theorem loopRank_falls (ht : loopHeap.Occurs [loopRecord, loopList] p t)
    (hu : loopHeap.Aside t u) : loopRank u < loopRank t := by
  obtain ⟨hlist, hway⟩ := hu
  rcases occurs_loops ht with rfl | rfl | rfl | rfl | rfl | rfl
  · simp only [Heap.ways, loopRecord, Term.parts, map_cons, map_nil, mem_cons, not_mem_nil,
      or_false] at hway
    rcases hway with rfl | rfl <;> decide
  · exact absurd rfl (hlist _ _)
  · exact absurd rfl (hlist _ _)
  · cases mem_singleton.mp hway
    decide
  · cases mem_singleton.mp hway
    decide
  · cases hway

theorem loops_graph : loopHeap.Graph [loopRecord, loopList] where
  placed ht := by
    rcases occurs_loops ht with h | h | h | h | h | h <;> cases h <;> decide
  lists ht ht' := by
    rcases occurs_loops ht with h | h | h | h | h | h <;> cases h <;>
      rcases occurs_loops ht' with h | h | h | h | h | h <;> cases h <;> rfl
  fields ht := by
    rcases occurs_loops ht with h | h | h | h | h | h <;> cases h
    show [_, _].Nodup
    decide
  links ht := by
    rcases occurs_loops ht with h | h | h | h | h | h <;> cases h <;> nofun
  writable ht := by
    rcases occurs_loops ht with rfl | rfl | rfl | rfl | rfl | rfl <;> rfl
  cycles {p t} ht hc := by
    have falls : ∀ {u}, Relation.TransGen loopHeap.Aside t u →
        loopRank u < loopRank t ∧ ∃ q, loopHeap.Occurs [loopRecord, loopList] q u := by
      intro u hu
      induction hu with
      | single hs => exact ⟨loopRank_falls ht hs, ht.step hs.2⟩
      | tail _ hs ih =>
        obtain ⟨hlt, q, hq⟩ := ih
        exact ⟨(loopRank_falls hq hs).trans hlt, hq.step hs.2⟩
    exact absurd (falls hc).1 (Nat.lt_irrefl _)

theorem loops_round_trip :
    loopHeap.Graph [loopRecord, loopList] ∧ ∃ e ts' d,
      outcome ([loopRecord, loopList].forM (Term.encode loopHeap)) {} = (.ok (), e) ∧
      parseMany 2 { data := (e.output.toList ++ [114, 0]).toArray } = (.ok ts', d) ∧ d.index = e.output.size ∧
      d.heap.unfolding ts' = loopHeap.unfolding [loopRecord, loopList] ∧
      ∀ a b, d.heap.OneList ts' a b ↔ loopHeap.OneList [loopRecord, loopList] a b :=
  ⟨loops_graph, graph_round_trip loops_graph [114, 0] (show 0 < ({} : Heap).next by decide) (by simp)⟩

end Wire

end Scrap
