import Scrap.Proofs.Dict
import Scrap.Proofs.Heap
import Scrap.Proofs.Term.Identity
import Scrap.Proofs.Wire.Bytes
import Scrap.Proofs.Wire.Format

/-! # Copies of terms

A term in one heap is a copy of a term in another if they have one form, under a one-to-one correspondence of lists and
closures. Names of environments are the same and in the same order; a truth value is copied as the number it counts as.
-/

namespace Scrap

namespace Term

theorem same_list {i j : Nat} {xs ys : List Term} : (Term.list i xs).same (.list j ys) = true ↔ i = j ∧ i ≠ 0 := by
  show (decide (i = j) && decide (i ≠ 0)) = true ↔ _
  simp

theorem same_link {i j : Nat} : (Term.link i).same (.link j) = true ↔ i = j ∧ i ≠ 0 := by
  show (decide (i = j) && decide (i ≠ 0)) = true ↔ _
  simp

theorem same_closure {e e' : Nat} {c c' : Term} : (Term.closure e c).same (.closure e' c') = true ↔ e = e' := by
  show decide (e = e') = true ↔ _
  simp

end Term

namespace Heap

/-- What can be reached from a term is made of objects: what has one identity is one list or one closure, the code of
a closure is a function, and no key occurs twice. -/
structure Coherent (h : Heap) (root : Term) : Prop where
  lists : ∀ {i : Nat} {xs ys : List Term}, i ≠ 0 → h.Reaches root (.list i xs) → h.Reaches root (.list i ys) → xs = ys
  codes : ∀ {e : Nat} {c c' : Term}, h.Reaches root (.closure e c) → h.Reaches root (.closure e c') → c = c'
  functions : ∀ {e : Nat} {c : Term}, h.Reaches root (.closure e c) → Decoder.isCode c = true
  fields : ∀ {i : Nat} {fs : Dict Term}, h.Reaches root (.record i fs) → fs.Proper
  names : ∀ {e : Nat} {c : Term}, h.Reaches root (.closure e c) → (h.envOf e).Proper

end Heap

namespace Wire

/-- Lists and closures with their copies. The copy of a list is given by a link to it. -/
abbrev Pairs := List (Term × Term)

mutual

/-- A term in the heap `g` is a copy of one in `h`, if the numbered lists and closures and their copies are `pairs`. -/
inductive Alike (h g : Heap) (pairs : Pairs) : Term → Term → Prop
  | int : Alike h g pairs (.int i n) (.int j n)
  | truth : Alike h g pairs (.truth i b) (.int j (if b then 1 else 0))
  | float : Alike h g pairs (.float i x) (.float j x)
  | string : Alike h g pairs (.string i s) (.string j s)
  | bytes : Alike h g pairs (.bytes i bs) (.bytes j bs)
  | var : Alike h g pairs (.var i x) (.var j x)
  | hole : Alike h g pairs (.hole i) (.hole j)
  | spread : Alike h g pairs (.spread i x) (.spread j x)
  | binop : Alike h g pairs l l' → Alike h g pairs r r' → Alike h g pairs (.binop i op l r) (.binop j op l' r')
  | record : AlikeFields h g pairs fs gs → Alike h g pairs (.record i fs) (.record j gs)
  | assign : Alike h g pairs v v' → Alike h g pairs (.assign i x v) (.assign j x v')
  | function : Alike h g pairs p p' → Alike h g pairs b b' → Alike h g pairs (.function i p b) (.function j p' b')
  | apply : Alike h g pairs f f' → Alike h g pairs a a' → Alike h g pairs (.apply i f a) (.apply j f' a')
  | scope : Alike h g pairs b b' → Alike h g pairs d d' → Alike h g pairs (.scope i b d) (.scope j b' d')
  | matchFunction : AlikeCases h g pairs cs ds → Alike h g pairs (.matchFunction i cs) (.matchFunction j ds)
  | access : Alike h g pairs o o' → Alike h g pairs f f' → Alike h g pairs (.access i o f) (.access j o' f')
  | variant : Alike h g pairs v v' → Alike h g pairs (.variant i tag v) (.variant j tag v')
  | list : (.list i xs, .link j) ∈ pairs → t = .link j ∨ (∃ ys, t = .list j ys ∧ g.resolve (.link j) = t) →
      Alike h g pairs (.list i xs) t
  | closure : (.closure e c, .closure e' c') ∈ pairs → Alike h g pairs (.closure e c) (.closure e' c')
  | link : Alike h g pairs (h.resolve (.link i)) t → Alike h g pairs (.link i) t

inductive AlikeAll (h g : Heap) (pairs : Pairs) : List Term → List Term → Prop
  | nil : AlikeAll h g pairs [] []
  | cons : Alike h g pairs t t' → AlikeAll h g pairs ts ts' → AlikeAll h g pairs (t :: ts) (t' :: ts')

inductive AlikeFields (h g : Heap) (pairs : Pairs) : List (String × Term) → List (String × Term) → Prop
  | nil : AlikeFields h g pairs [] []
  | cons : Alike h g pairs t t' → AlikeFields h g pairs ts ts' → AlikeFields h g pairs ((k, t) :: ts) ((k, t') :: ts')

inductive AlikeCases (h g : Heap) (pairs : Pairs) : List (Term × Term) → List (Term × Term) → Prop
  | nil : AlikeCases h g pairs [] []
  | cons : Alike h g pairs p p' → Alike h g pairs b b' → AlikeCases h g pairs cs cs' →
      AlikeCases h g pairs ((p, b) :: cs) ((p', b') :: cs')

end

/-- The contents of a list or a closure have been copied too. -/
inductive Filled (h g : Heap) (pairs : Pairs) : Term × Term → Prop
  | list : g.resolve (.link j) = .list j ys → AlikeAll h g pairs xs ys → Filled h g pairs (.list i xs, .link j)
  | closure : Alike h g pairs c c' → AlikeFields h g pairs (h.envOf e) (g.envOf e') →
      Filled h g pairs (.closure e c, .closure e' c')

/-- Two different lists or closures with two different copies. -/
def Apart (p q : Term × Term) : Prop := p.1.same q.1 = false ∧ p.2.same q.2 = false

/-- The term `t'` of the heap `g` is a copy of `t` in `h`: the two are alike under a one-to-one correspondence of lists
and closures whose contents are alike. -/
def Isomorphic (h : Heap) (t : Term) (g : Heap) (t' : Term) : Prop :=
  ∃ pairs : Pairs, Alike h g pairs t t' ∧ (∀ p ∈ pairs, Filled h g pairs p) ∧ pairs.Pairwise Apart

/-- There are more pairs, and the lists that have been copied stay in place. -/
structure Carries (P : Pairs) (g : Heap) (Q : Pairs) (g' : Heap) : Prop where
  pairs : ∀ p ∈ P, p ∈ Q
  lists : ∀ a j, (a, Term.link j) ∈ P → g.resolve (.link j) = .link j ∨ g'.resolve (.link j) = g.resolve (.link j)

section Carries
variable {h g g' : Heap} {P Q : Pairs}

theorem Carries.refl (P : Pairs) (g : Heap) : Carries P g P g := ⟨fun _ h => h, fun _ _ _ => .inr rfl⟩

theorem Carries.trans {g'' : Heap} {R : Pairs} (K1 : Carries P g Q g') (K2 : Carries Q g' R g'') :
    Carries P g R g'' where
  pairs p hp := K2.pairs p (K1.pairs p hp)
  lists a j hp := by
    rcases K1.lists a j hp with h1 | h1
    · exact .inl h1
    · rcases K2.lists a j (K1.pairs _ hp) with h2 | h2
      · exact .inl (h1 ▸ h2)
      · exact .inr (h2.trans h1)

theorem Carries.list_stays (K : Carries P g Q g') {a : Term} {j : Nat} {ys : List Term} (hp : (a, Term.link j) ∈ P)
    (hr : g.resolve (.link j) = .list j ys) : g'.resolve (.link j) = .list j ys := by
  rcases K.lists a j hp with h1 | h1
  · rw [hr] at h1
    cases h1
  · exact h1.trans hr

mutual

theorem Alike.mono (K : Carries P g Q g') {t t' : Term} : Alike h g P t t' → Alike h g' Q t t'
  | .int => .int
  | .truth => .truth
  | .float => .float
  | .string => .string
  | .bytes => .bytes
  | .var => .var
  | .hole => .hole
  | .spread => .spread
  | .binop hl hr => .binop (hl.mono K) (hr.mono K)
  | .record hf => .record (hf.mono K)
  | .assign hv => .assign (hv.mono K)
  | .function hf hb => .function (hf.mono K) (hb.mono K)
  | .apply hf ha => .apply (hf.mono K) (ha.mono K)
  | .scope hb hd => .scope (hb.mono K) (hd.mono K)
  | .matchFunction hc => .matchFunction (hc.mono K)
  | .access ho hf => .access (ho.mono K) (hf.mono K)
  | .variant hv => .variant (hv.mono K)
  | .list hm ht => .list (K.pairs _ hm) (ht.imp_right fun ⟨ys, hys, hr⟩ =>
      ⟨ys, hys, hys ▸ K.list_stays hm (hys ▸ hr)⟩)
  | .closure hm => .closure (K.pairs _ hm)
  | .link ht => .link (ht.mono K)

theorem AlikeAll.mono (K : Carries P g Q g') {ts ts' : List Term} : AlikeAll h g P ts ts' → AlikeAll h g' Q ts ts'
  | .nil => .nil
  | .cons ht hts => .cons (ht.mono K) (hts.mono K)

theorem AlikeFields.mono (K : Carries P g Q g') {ts ts' : List (String × Term)} :
    AlikeFields h g P ts ts' → AlikeFields h g' Q ts ts'
  | .nil => .nil
  | .cons ht hts => .cons (ht.mono K) (hts.mono K)

theorem AlikeCases.mono (K : Carries P g Q g') {cs cs' : List (Term × Term)} :
    AlikeCases h g P cs cs' → AlikeCases h g' Q cs cs'
  | .nil => .nil
  | .cons ht hb hts => .cons (ht.mono K) (hb.mono K) (hts.mono K)

end

theorem AlikeFields.keys {fs gs : List (String × Term)} (hf : AlikeFields h g P fs gs) :
    Dict.keys gs = Dict.keys fs := by
  induction fs generalizing gs with
  | nil =>
    cases hf
    rfl
  | cons p fs ih =>
    cases hf with
    | cons _ hfs => simp [ih hfs]

theorem Alike.isCode {t t' : Term} (ht : Alike h g P t t') (hc : Decoder.isCode t = true) :
    Decoder.isCode t' = true := by
  cases ht <;> first | rfl | cases hc

theorem Filled.mono (K : Carries P g Q g') {p : Term × Term} (hp : p ∈ P)
    (he : ∀ e c, p.2 = Term.closure e c → g'.envOf e = g.envOf e) (hf : Filled h g P p) : Filled h g' Q p := by
  cases hf with
  | list hr hxs => exact .list (K.list_stays hp hr) (hxs.mono K)
  | closure hc hn =>
    refine .closure (hc.mono K) ?_
    rw [he _ _ rfl]
    exact hn.mono K

end Carries

end Wire

end Scrap
