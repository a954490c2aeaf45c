import Scrap.Proofs.Eval.Comes
import Scrap.Proofs.Term.Equals
import Scrap.Proofs.Term.Nesting

/-! # Values

Evaluation returns values and stores values, as long as it neither quotes code nor reads it from bytes, and defines
names in front of an expression only. -/

namespace Scrap

open Term Session List Dict

variable {fs : Dict Term} {j : Json} {s : String} {u : Term} {α β : Type}

namespace Term

def isNaN : Term → Bool
  | .float _ x => x.isNaN
  | .complex _ z => z.re.isNaN || z.im.isNaN
  | _ => false

def isName : Term → Bool
  | .var _ _ | .spread _ _ => true
  | _ => false

def isAssign : Term → Bool
  | .assign _ _ _ => true
  | _ => false

/-- The right-hand side of a definition; other terms stand for themselves. -/
def side : Term → Term
  | .assign _ _ v => v
  | t => t

/-- Values, and with `code` expressions: they define names in front of an expression only. Keys of a record are
distinct. -/
inductive Regular : Bool → Term → Prop
  | plain {code t} : t.isPlain = true → Regular code t
  | closure {code e c} : Regular true c → Regular code (.closure e c)
  | list {code i xs} : (∀ x ∈ xs, Regular code x) → Regular code (.list i xs)
  | record {code i} {fs : Dict Term} : fs.Proper → (∀ f ∈ fs, Regular code f.2) → Regular code (.record i fs)
  | variant {code i tag v} : Regular code v → Regular code (.variant i tag v)
  | name {t} : t.isName = true → Regular true t
  | binop {i op l r} : Regular true l → Regular true r → Regular true (.binop i op l r)
  | function {i p b} : Regular true b → Regular true (.function i p b)
  | matchFunction {i cs} : (∀ c ∈ cs, Regular true c.2) → Regular true (.matchFunction i cs)
  | apply {i f a} : Regular true f → Regular true a → Regular true (.apply i f a)
  | scope {i b d} : Regular true b → Regular true d.side → Regular true (.scope i b d)
  | assert {i v c} : Regular true v → Regular true c → Regular true (.assert i v c)
  | access {i o f} : Regular true o → Regular true f → Regular true (.access i o f)

abbrev IsValue (t : Term) : Prop := t.Regular false

section Regular
variable {code : Bool} {t : Term} {h : Heap}

theorem Regular.resolve (ht : t.Regular code) : h.resolve t = t := by
  cases ht with
  | plain ht | name ht => cases t <;> first | rfl | cases ht
  | _ => rfl

theorem Regular.closure_code {e : Nat} {c : Term} (ht : (Term.closure e c).Regular code) : c.Regular true := by
  cases ht with
  | closure hc => exact hc
  | plain ht | name ht => cases ht

variable {i : Nat}

theorem Regular.items {xs : List Term} (ht : (Term.list i xs).Regular code) : ∀ x ∈ xs, x.Regular code := by
  cases ht with
  | list hxs => exact hxs
  | plain ht | name ht => cases ht

theorem Regular.fields (ht : (Term.record i fs).Regular code) : fs.Proper ∧ ∀ f ∈ fs, f.2.Regular code := by
  cases ht with
  | record hkeys hfs => exact ⟨hkeys, hfs⟩
  | plain ht | name ht => cases ht

theorem Regular.body {p b : Term} (ht : (Term.function i p b).Regular code) : b.Regular true := by
  cases ht with
  | function hb => exact hb
  | plain ht | name ht => cases ht

theorem Regular.bodies {cs : List (Term × Term)} (ht : (Term.matchFunction i cs).Regular code) :
    ∀ c ∈ cs, c.2.Regular true := by
  cases ht with
  | matchFunction hcs => exact hcs
  | plain ht | name ht => cases ht

theorem Regular.bound {b d : Term} (ht : (Term.scope i b d).Regular code) : b.Regular true ∧ d.side.Regular true := by
  cases ht with
  | scope hb hd => exact ⟨hb, hd⟩
  | plain ht | name ht => cases ht

theorem Regular.content {tag : String} {v : Term} (ht : (Term.variant i tag v).Regular code) : v.Regular code := by
  cases ht with
  | variant hv => exact hv
  | plain ht | name ht => cases ht

theorem Regular.operand (ht : t.Regular code) (hu : u ∈ t.operands) : u.Regular code := by
  cases ht with
  | plain ht | name ht => cases t <;> first | cases hu; done | cases ht
  | closure | function | matchFunction | scope => cases hu
  | list hxs => exact hxs u hu
  | record _ hfs => exact forall_mem_map.mpr hfs u hu
  | variant hv => exact mem_singleton.mp hu ▸ hv
  | binop hl hr | apply hl hr | assert hl hr | access hl hr =>
    exact (mem_pair.mp hu).elim (· ▸ hl) (· ▸ hr)

theorem regular_replaced {fs : Dict α} {gs : Dict Term} (hp : fs.Proper)
    (h : Forall₂ (fun f g => g.1 = f.1 ∧ g.2.Regular code) fs gs) : (Term.record i gs).Regular code := by
  refine .record ?_ (forall_of_forall₂ (h.imp fun _ _ h => h.2))
  rwa [Dict.Proper, keys_eq_of_forall₂ (h.imp fun _ _ h => h.1)]

theorem compound_regular : Compound (Regular code) where
  list := ⟨Regular.items, .list⟩
  record h := h.fields.2
  rest h hs := .record (h.fields.1.sublist (hs.map _)) fun f hf => h.fields.2 f (hs.subset hf)
  variant := ⟨Regular.content, .variant⟩

end Regular

/-! ### Numbering -/

section Numbering
variable {V : Term → Prop}

theorem placeAll_all {ts : List Term} (h : ∀ t ∈ ts, ∀ n, V (t.placeFrom n).1) (n : Nat) :
    ∀ t ∈ (placeAll n ts).1, V t := by
  induction ts generalizing n with
  | nil => exact fun _ ht => (by cases ht)
  | cons t ts ih => exact forall_mem_cons.mpr ⟨h t (.head _) n, ih (fun u hu => h u (.tail _ hu)) _⟩

theorem placeFields_all (h : ∀ f ∈ fs, ∀ n, V (f.2.placeFrom n).1) (n : Nat) :
    Forall₂ (fun f g => g.1 = f.1 ∧ V g.2) fs (placeFields n fs).1 := by
  induction fs generalizing n with
  | nil => exact .nil
  | cons f fs ih => exact .cons ⟨rfl, h f (.head _) n⟩ (ih (fun g hg => h g (.tail _ hg)) _)

theorem placeCases_all {cs : List (Term × Term)} (h : ∀ c ∈ cs, ∀ n, V (c.2.placeFrom n).1) (n : Nat) :
    ∀ c ∈ (placeCases n cs).1, V c.2 := by
  induction cs generalizing n with
  | nil => exact fun _ hc => (by cases hc)
  | cons c cs ih => exact forall_mem_cons.mpr ⟨h c (.head _) _, ih (fun d hd => h d (.tail _ hd)) _⟩

theorem side_placeFrom (d : Term) (n : Nat) : ∃ k, (d.placeFrom n).1.side = (d.side.placeFrom k).1 := by
  cases d <;> exact ⟨_, rfl⟩

theorem Regular.placed {code : Bool} {t : Term} (ht : t.Regular code) (n : Nat) : (t.placeFrom n).1.Regular code := by
  induction ht generalizing n with
  | @plain _ t ht => cases t <;> first | exact .plain rfl | cases ht
  | @name t ht => cases t <;> first | exact .name rfl | cases ht
  | closure _ ih => exact .closure (ih n)
  | list _ ih => exact .list (placeAll_all ih _)
  | record hp _ ih => exact regular_replaced hp (placeFields_all ih _)
  | variant _ ih => exact .variant (ih _)
  | binop _ _ ihl ihr => exact .binop (ihl _) (ihr _)
  | function _ ih => exact .function (ih _)
  | matchFunction _ ih => exact .matchFunction (placeCases_all ih _)
  | apply _ _ ihf iha => exact .apply (ihf _) (iha _)
  | @scope _ b d _ _ ihb ihd =>
    obtain ⟨k, hk⟩ := side_placeFrom d (b.placeFrom (n + 1)).2
    exact .scope (ihb _) (hk ▸ ihd k)
  | assert _ _ ihv ihc => exact .assert (ihv _) (ihc _)
  | access _ _ iho ihf => exact .access (iho _) (ihf _)

end Numbering

end Term

/-! ### Code from text -/

/-- The parts of which none is a definition. -/
def Term.places : Term → List Term
  | .scope _ b _ => [b]
  | t => t.parts

/-- Definitions stand only in front of the expressions they are for. -/
def Term.AssignsBound (t : Term) : Prop :=
  t.isAssign = false ∧ t.Throughout fun u => ∀ v ∈ u.places, v.isAssign = false

section Bound
variable {t : Term}

theorem mem_parts_of_places (hu : u ∈ t.places) : u ∈ t.parts := by
  cases t with
  | scope i b d => exact mem_singleton.mp hu ▸ .head _
  | _ => exact hu

theorem Term.AssignsBound.part (ht : t.AssignsBound) (hu : u ∈ t.places) : u.AssignsBound :=
  ⟨ht.2 t .self u hu, (throughout_iff.mp ht.2).2 u (mem_parts_of_places hu)⟩

theorem side_eq (ht : t.isAssign = false) : t.side = t := by
  cases t <;> first | rfl | cases ht

theorem Term.AssignsBound.binding {i : Nat} {b d : Term} (ht : (Term.scope i b d).AssignsBound) : d.side.AssignsBound := by
  have hd := (throughout_iff.mp ht.2).2 d (.tail _ (.head _))
  cases hassign : d.isAssign with
  | false =>
    rw [side_eq hassign]
    exact ⟨hassign, hd⟩
  | true =>
    obtain ⟨j, x, v, rfl⟩ : ∃ j x v, d = .assign j x v := by
      cases d <;> first | exact ⟨_, _, _, rfl⟩ | cases hassign
    exact ⟨hd _ .self v (.head _), (throughout_iff.mp hd).2 v (.head _)⟩

/-- The term is regular, without the name if it is a definition, if all definitions in it stand in their place. -/
def Read (t : Term) : Prop := t.side.AssignsBound → t.side.Regular true

theorem Read.regular (h : Read t) (ht : t.AssignsBound) : t.Regular true := by
  have hside := side_eq ht.1
  rw [Read, hside] at h
  exact h ht

theorem Read.entry {e : String × Term} (h : Read t) (he : Parser.entryOf t = pure e) : e.2.AssignsBound → e.2.Regular true := by
  have hrun : outcome (Parser.entryOf t) default = (.ok e, default) := by rw [he]; rfl
  cases t with
  | spread | assign =>
    cases hrun
    exact h
  | _ => cases hrun

theorem Read.case {i : Nat} {p b : Term} (h : Read (.function i p b)) (hp : p.AssignsBound) (hb : b.AssignsBound) :
    b.Regular true := by
  refine (h ⟨rfl, throughout_iff.mpr ⟨?_, ?_⟩⟩).body
  · exact forall_mem_cons.mpr ⟨hp.1, forall_mem_singleton.mpr hb.1⟩
  · exact forall_mem_cons.mpr ⟨hp.2, forall_mem_singleton.mpr hb.2⟩

theorem read_plain (ht : t.isPlain = true) : Read t := fun _ => by
  rw [side_eq (by cases t <;> first | rfl | cases ht)]
  exact .plain ht

theorem read_composed {x : String} {l r : Term} (hl : Read l) (hr : Read r) : Read (Parser.composed x l r) := fun ht =>
  have hbody := ht.part (.tail _ (.head _))
  .function (.apply (hr.regular (hbody.part (.head _)))
    (.apply (hl.regular ((hbody.part (.tail _ (.head _))).part (.head _))) (.name rfl)))

theorem read_combined {l r : Term} (hl : Read l) (hr : Read r) (h : Combined s l r t) : Read t := by
  intro ht
  cases h with
  | assign => exact hr.regular ht
  | function => exact .function (hr.regular (ht.part (.tail _ (.head _))))
  | pipe => exact .apply (hr.regular (ht.part (.head _))) (hl.regular (ht.part (.tail _ (.head _))))
  | reversePipe => exact .apply (hl.regular (ht.part (.head _))) (hr.regular (ht.part (.tail _ (.head _))))
  | andThen => exact read_composed hl hr ht
  | after => exact read_composed hr hl ht
  | scope => exact .scope (hl.regular (ht.part (.head _))) (hr ht.binding)
  | assert => exact .assert (hl.regular (ht.part (.head _))) (hr.regular (ht.part (.tail _ (.head _))))
  | access => exact .access (hl.regular (ht.part (.head _))) (hr.regular (ht.part (.tail _ (.head _))))
  | binop => exact .binop (hl.regular (ht.part (.head _))) (hr.regular (ht.part (.tail _ (.head _))))

theorem read_negated (h : Read t) (hu : Parser.negated t = pure u) : Read u := by
  rcases Parser.negated_eq_pure hu with ⟨i, n, rfl, rfl⟩ | ⟨i, x, rfl, rfl⟩ | rfl
  · exact read_plain rfl
  · exact read_plain rfl
  · exact fun ht => .binop (.plain rfl) (h.regular (ht.part (.tail _ (.head _))))

end Bound

def Readings.regular : Readings where
  term _ _ _ t := Read t
  cases _ _ _ cs := ∀ c ∈ cs, c.1.AssignsBound → c.2.AssignsBound → c.2.Regular true
  items _ _ _ _ ts := ∀ t ∈ ts, t.AssignsBound → t.Regular true
  fields _ _ _ _ es := ∀ e ∈ es, e.2.AssignsBound → e.2.Regular true
  int := read_plain rfl
  float := read_plain rfl
  name _ := .name rfl
  string := read_plain rfl
  bytes _ := read_plain rfl
  variant h ht := .variant (h.regular (ht.part (.head _)))
  spread _ := .name rfl
  namedSpread _ := .name rfl
  matchFunction h hcs ht := .matchFunction fun c hc =>
    forall_mem_cons.mpr ⟨h.case, hcs⟩ c hc (ht.part (mem_parts_cases hc).1) (ht.part (mem_parts_cases hc).2)
  hole := read_plain rfl
  paren h _ := h
  emptyList _ := .list fun _ hx => (by cases hx)
  list h hts ht := .list fun x hx => forall_mem_cons.mpr ⟨h.regular, hts⟩ x hx (ht.part hx)
  emptyRecord _ := .record .nil fun _ hf => (by cases hf)
  record h he hes ht := .record (Dict.Proper.nil.merge _) fun f hf =>
    forall_mem_cons.mpr ⟨h.entry he, hes⟩ f ((mem_merge hf).resolve_left not_mem_nil)
      (ht.part (mem_parts_fields hf))
  negative := read_negated
  apply hf hx _ ht := .apply (hf.regular (ht.part (.head _))) (hx.regular (ht.part (.tail _ (.head _))))
  operator hl hr _ _ h := read_combined hl hr h
  andThen := read_composed
  after hl hr := read_composed hr hl
  noCases _ hc := by cases hc
  moreCases h hcs := forall_mem_cons.mpr ⟨h.case, hcs⟩
  noItems _ ht := by cases ht
  moreItems _ _ h hts := forall_mem_cons.mpr ⟨h.regular, hts⟩
  noFields _ he := by cases he
  moreFields _ _ h he hes := forall_mem_cons.mpr ⟨h.entry he, hes⟩

/-! ### Values in other notation -/

namespace Json

/-- What the text stands for is a value. -/
def Good (j : Json) : Prop := ∀ t, Eval.ofJson j = .ok t → t.IsValue

theorem good_array {xs : List Json} (h : ∀ x ∈ xs, x.Good) : (Json.array xs).Good := by
  have hall : ∀ ts, Eval.ofJson.all xs = .ok ts → ∀ t ∈ ts, t.IsValue := by
    induction xs with
    | nil =>
      intro ts hts
      cases hts
      exact fun _ ht => (by cases ht)
    | cons x xs ih =>
      intro ts hts
      obtain ⟨t, ht, hts⟩ := bind_eq_ok.mp hts
      obtain ⟨us, hus, hts⟩ := bind_eq_ok.mp hts
      cases hts
      exact forall_mem_cons.mpr ⟨h x (.head _) t ht, ih (fun y hy => h y (.tail _ hy)) us hus⟩
  intro t ht
  obtain ⟨ts, hts, ht⟩ := bind_eq_ok.mp ht
  cases ht
  exact .list (hall ts hts)

theorem good_object {fs : Dict Json} (hp : fs.Proper) (h : ∀ f ∈ fs, f.2.Good) : (Json.object fs).Good := by
  have hall : ∀ gs, Eval.ofJson.fields fs = .ok gs → Forall₂ (fun f g => g.1 = f.1 ∧ g.2.IsValue) fs gs := by
    clear hp
    induction fs with
    | nil =>
      intro gs hgs
      cases hgs
      exact .nil
    | cons f fs ih =>
      intro gs hgs
      obtain ⟨t, ht, hgs⟩ := bind_eq_ok.mp hgs
      obtain ⟨us, hus, hgs⟩ := bind_eq_ok.mp hgs
      cases hgs
      exact .cons ⟨rfl, h f (.head _) t ht⟩ (ih (fun g hg => h g (.tail _ hg)) us hus)
  intro t ht
  obtain ⟨gs, hgs, ht⟩ := bind_eq_ok.mp ht
  cases ht
  exact regular_replaced hp (hall gs hgs)

theorem good_atom (h : ∀ t, Eval.ofJson j = .ok t → t.isPlain = true) : j.Good := fun t ht => .plain (h t ht)

theorem good_number {cs q : List Char} (h : number? cs = some (.ok j, q)) : j.Good := by
  obtain ⟨_, h⟩ | ⟨_, h⟩ := ite_eq_iff.mp h
  · cases h
  obtain ⟨_, h⟩ | ⟨_, h⟩ := ite_eq_iff.mp h
  · cases h
    exact good_atom fun _ ht => by cases ht
  obtain ⟨_, h⟩ | ⟨_, h⟩ := ite_eq_iff.mp h
  · cases h
  · cases h
    exact good_atom fun _ ht => by cases ht; rfl

theorem map_eq_ok {ε : Type} {x : Except ε α} {f : α → β} {b : β} (h : x.map f = .ok b) : ∃ a, x = .ok a ∧ f a = b := by
  cases x with
  | ok a => exact ⟨a, rfl, Except.ok.inj h⟩
  | error e => cases h

theorem good_value (fuel : Nat) : (∀ cs j q, value fuel cs = .ok (j, q) → j.Good) ∧
    (∀ cs fs q, members fuel cs = .ok (fs, q) → ∀ f ∈ fs, f.2.Good) ∧
    (∀ cs xs q, elements fuel cs = .ok (xs, q) → ∀ x ∈ xs, x.Good) := by
  induction fuel with
  | zero => exact ⟨fun _ _ _ h => (nomatch h), fun _ _ _ h => (nomatch h), fun _ _ _ h => (nomatch h)⟩
  | succ fuel ih =>
    obtain ⟨ihv, ihm, ihe⟩ := ih
    refine ⟨fun cs j q h => ?_, fun cs fs q h => ?_, fun cs xs q h => ?_⟩
    · unfold value at h
      extract_lets simple at h
      split at h
      · cases h
      · obtain ⟨p, _, hp⟩ := map_eq_ok h
        cases hp
        exact good_atom fun _ ht => by cases ht; rfl
      · split at h
        · cases h
          exact good_object .nil fun _ hf => (by cases hf)
        · obtain ⟨p, hp, hj⟩ := map_eq_ok h
          cases hj
          exact good_object (Dict.Proper.nil.merge _) fun f hf => ihm _ _ _ hp f ((mem_merge hf).resolve_left not_mem_nil)
      · split at h
        · cases h
          exact good_array fun _ hx => (by cases hx)
        · obtain ⟨p, hp, hj⟩ := map_eq_ok h
          cases hj
          exact good_array (ihe _ _ _ hp)
      · split at h
        · cases h
          rename_i hw
          simp only [simple, Option.orElse_eq_orElse, Option.orElse_eq_or, Option.or_eq_some_iff,
            Option.map_eq_some_iff, Prod.mk.injEq] at hw
          obtain ⟨_, _, rfl, _⟩ | ⟨-, ⟨_, _, rfl, _⟩ | ⟨-, ⟨_, _, rfl, _⟩ | ⟨-, ⟨_, _, rfl, _⟩ | ⟨-, ⟨_, _, rfl, _⟩ |
            ⟨-, _, _, rfl, _⟩⟩⟩⟩⟩ := hw
          all_goals exact good_atom fun _ ht => by cases ht <;> rfl
        · split at h
          · cases h
            exact good_number ‹_›
          · cases h
          · cases h
    · unfold members at h
      split at h
      · obtain ⟨⟨k, r⟩, _, h⟩ := bind_eq_ok.mp h
        dsimp only at h
        split at h
        · obtain ⟨⟨v, r⟩, hv, h⟩ := bind_eq_ok.mp h
          have hgood := ihv _ _ _ hv
          dsimp only at h
          split at h
          · cases h
            exact forall_mem_singleton.mpr hgood
          · obtain ⟨⟨gs, r⟩, hgs, h⟩ := bind_eq_ok.mp h
            cases h
            exact forall_mem_cons.mpr ⟨hgood, ihm _ _ _ hgs⟩
          · cases h
        · cases h
      · cases h
    · obtain ⟨⟨v, r⟩, hv, h⟩ := bind_eq_ok.mp h
      have hgood := ihv _ _ _ hv
      dsimp only at h
      split at h
      · cases h
        exact forall_mem_singleton.mpr hgood
      · obtain ⟨⟨ys, r⟩, hys, h⟩ := bind_eq_ok.mp h
        cases h
        exact forall_mem_cons.mpr ⟨hgood, ihe _ _ _ hys⟩
      · cases h

theorem good_parse (h : parse s = .ok j) : j.Good := by
  unfold parse at h
  extract_lets cs whole at h
  have hwhole : whole = .ok j := by
    cases hw : whole <;> rw [hw] at h <;> cases h
    rfl
  subst whole
  clear_value cs
  split at hwhole
  · split at hwhole
    · cases hwhole
    · obtain ⟨⟨v, q⟩, hv, hwhole⟩ := bind_eq_ok.mp hwhole
      dsimp only at hwhole
      split at hwhole
      · cases hwhole
        exact (good_value _).1 _ _ _ hv
      · cases hwhole
  · cases hwhole

end Json

namespace Eval

abbrev AreValues (env : Env) : Prop := ∀ p ∈ env, p.2.IsValue

/-- Every closure in the store has an environment of values. -/
def Stored (h : Heap) : Prop := ∀ e, AreValues (h.envOf e)

/-- If the computation returns, values are stored as before, and what it returns satisfies `p`. -/
def Stores {α : Type} (m : EvalM α) (p : α → Prop) : Prop :=
  ∀ ⦃s a s'⦄, Stored s.heap → outcome m s = (.ok a, s') → Stored s'.heap ∧ p a

section Rules
variable {m : EvalM α} {p : α → Prop}

theorem Stores.pure {a : α} (h : p a) : Stores (Pure.pure a) p := fun _ _ _ hs ho => by cases ho; exact ⟨hs, h⟩

theorem Stores.throw (e : EvalError) : Stores (throw e) p := fun _ _ _ _ ho => by cases ho

theorem Stores.bind {f : α → EvalM β} {q : β → Prop} (hm : Stores m p) (hf : ∀ a, p a → Stores (f a) q) :
    Stores (m >>= f) q := fun _ _ _ hs ho => by
  obtain ⟨a, s1, ha, hb⟩ := bind_returns ho
  obtain ⟨hs1, hok⟩ := hm hs ha
  exact hf a hok hs1 hb

theorem Stores.mono {q : α → Prop} (hm : Stores m p) (h : ∀ a, p a → q a) : Stores m q :=
  fun _ _ _ hs ho => (hm hs ho).imp_right (h _)

theorem Stores.look (h : ∀ s, (outcome m s).2.heap = s.heap) : Stores m fun _ => True := fun s _ _ hs ho => by
  have := h s
  rw [ho] at this
  exact ⟨this ▸ hs, trivial⟩

theorem stores_heapNow : Stores heapNow Stored := fun _ _ _ hs ho => by cases ho; exact ⟨hs, hs⟩

theorem stores_onHeap {f : Heap → α × Heap} (h : ∀ g, Stored g → Stored (f g).2 ∧ p (f g).1) :
    Stores (onHeap f) p := fun _ _ _ hs ho => by cases ho; exact h _ hs

theorem stores_fresh : Stores fresh fun _ => True := fun _ _ _ hs ho => by cases ho; exact ⟨hs, trivial⟩

theorem stores_settled {x : Except EvalError α} (h : ∀ a, x = .ok a → p a) : Stores (settled x) p := by
  cases x with
  | ok a => exact .pure (h a rfl)
  | error e => exact .throw e

end Rules

theorem stores_capture {env : Env} {code : Term} (henv : AreValues env) (hcode : code.Regular true) :
    Stores (captureBy trimmed env code) IsValue := by
  refine Stores.bind (p := AreValues) (stores_settled fun d hd => ?_) fun d hd =>
    stores_onHeap fun g hg => ⟨fun e p hp => ?_, .closure hcode⟩
  · unfold trimmed at hd
    split at hd <;> cases hd
    exact fun p hp => henv p (mem_filter.mp hp).1
  · exact (Heap.mem_envOf_push hp).elim (hd p) (hg e p)

/-- The rules of evaluation without quotations and without code that is read from bytes. -/
def Rules.direct : Rules := { Rules.standard with
  native := fun f arg => if f = .deserialize then throw .notBytes else Eval.native f arg
  quote := fun _ => throw .outOfFuel }

theorem stores_placed {f : Nat → Term} (hf : ∀ i, (f i).IsValue) : Stores (fresh >>= fun i => Pure.pure (f i)) IsValue :=
  stores_fresh.bind fun i _ => .pure (hf i)

theorem stores_native (f : Native) (arg : Term) : Stores (Rules.direct.native f arg) IsValue := by
  show Stores (if f = .deserialize then _ else Eval.native f arg) IsValue
  split
  · exact .throw _
  refine stores_heapNow.bind fun h _ => ?_
  split
  · split
    · exact stores_placed fun _ => .plain rfl
    · exact .throw _
  · exact .throw _
  · split
    · exact .throw _
    · split
      · exact stores_onHeap fun g hg => ⟨hg, (Json.good_parse ‹_› _ ‹_›).placed _⟩
      · exact .throw _
  · exact .throw _
  · split
    · exact stores_placed fun _ => .plain rfl
    · exact .throw _
  · contradiction
  · contradiction
  · exact stores_placed fun _ => .plain rfl
  · exact .throw _

def valuing : Congruence .direct .direct where
  Known := Unit
  le _ _ := True
  refl _ := trivial
  trans _ _ := trivial
  fine _ := IsValue
  grows _ h := h
  compound _ := compound_regular
  plain := .plain
  Rel _ ok m _ := Stores m (ok ())
  later hm _ := hm
  mono hm h := hm.mono fun a => h () a trivial
  bind hm hf := hm.bind fun a => hf () a trivial
  pure h := .pure (h () trivial)
  throw := .throw
  fresh := @fun _ => @stores_fresh
  old _ _ := True
  Meets _ h h' := h' = h ∧ Stored h
  Fits _ env env' t := env' = env ∧ AreValues env ∧ t.Regular true
  resolve hm _ := hm.1 ▸ rfl
  resolves _ _ ht := ht.resolve.symm ▸ ht
  text _ := .any _
  still ht _ := ht
  linked _ ht := ht.2.2.resolve.symm ▸ ht
  var ht := ⟨ht.1 ▸ rfl, fun _ hv => ht.2.1 _ (mem_of_get? hv)⟩
  closure _ ht := .closure ht.2.2.closure_code
  operand ht hu := ⟨ht.1, ht.2.1, ht.2.2.operand hu⟩
  record ht h := regular_replaced ht.2.2.fields.1 h
  scope ht := by
    obtain ⟨rfl, henv, ht⟩ := ht
    exact ⟨⟨rfl, henv, ht.bound.2⟩, fun _ _ _ hu => ⟨rfl, values_merge henv (values_set henv hu), ht.bound.1⟩⟩
  assign ht := by
    cases ht.2.2 with
    | plain ht | name ht => cases ht
  body hm hc _ ha := by
    obtain ⟨rfl, hm⟩ := hm
    exact ⟨rfl, values_set (hm _) ha, hc.closure_code.body⟩
  case hm hc hp hf := by
    obtain ⟨rfl, hm⟩ := hm
    exact ⟨rfl, values_merge (hm _) hf.values, hc.closure_code.bodies _ hp⟩
  heap hf := stores_heapNow.bind fun h hh => hf () h h trivial ⟨rfl, hh⟩
  textOf {w v t} _ := .look fun s => by
    rw [Session.textOf, bind_ok (outcome_printing t s)]
    cases (outcome (t.shown s.heap) s.seen).1 <;> rfl
  note _ := .look fun s => by
    rw [outcome_noteTerm]
    split
    · split <;> rfl
    · rfl
  equal a b _ := stores_settled fun _ _ => trivial
  native f _ _ := stores_native f _
  quote _ _ := .throw _
  capture ht _ := by
    obtain ⟨rfl, henv, ht⟩ := ht
    exact stores_capture henv ht
  named {w e c} x hc := by
    refine (stores_onHeap (p := fun _ => True) fun g hg => ⟨fun j p hp => ?_, trivial⟩).bind fun _ _ =>
      stores_heapNow.bind fun g hg => stores_capture (hg e) hc.closure_code
    exact (Heap.mem_envOf_setEnv hp).elim (values_set (hg e) hc p) (hg j p)

/-! ### Values evaluate to themselves -/

theorem eq_self {x : Binary64} (hx : x.isNaN = false) : x.eq x = true := by
  rw [Binary64.eq, Binary64.compare?, decide_eq_true_eq]
  cases hv : x.view with
  | finite s m e => exact congrArg some (by simp)
  | infinite s => simp
  | nan => simp [Binary64.isNaN, hv] at hx

/-- Equal in every heap, without a look at environments or links. -/
abbrev Alike (t u : Term) : Prop := ∀ h envs far, equalWith h envs far t u = true

theorem alike_plain {t : Term} (ht : t.isPlain = true) (hn : t.isNaN = false) : Alike t t := by
  intro h envs far
  cases t with
  | int | truth => simp [equalWith, int?]
  | float i x => simp [equalWith, equalNumbers, eq_self hn]
  | complex i z =>
    obtain ⟨hre, him⟩ := Bool.or_eq_false_iff.mp hn
    simp [equalWith, equalNumbers, Complex.eq, eq_self hre, eq_self him]
  | string | bytes | hole | native => simp [equalWith]
  | _ => cases ht

theorem alike_equal {t : Term} (hu : Alike t u) (h : Heap) : t.equal? h u = some true := by
  obtain ⟨n, hn⟩ : ∃ n, comparisons h = n + 1 := Nat.exists_eq_succ_of_ne_zero (by
    refine Nat.mul_ne_zero ?_ ?_ <;> unfold Heap.turns <;> omega)
  have hwithin (last : Bool) : equalWithin h last (comparisons h) t u = true := by
    rw [hn]
    exact hu _ _ _
  rw [Term.equal?, hwithin, hwithin, if_pos rfl, Term.equal, hwithin]

theorem comes_mapM {r : α → β → Prop} {f : Nat → α → EvalM β} {as : List α} {h : Heap}
    (hf : ∀ a ∈ as, ∀ h, Comes h (fun n => f n a) fun b _ => r a b) :
    Comes h (fun n => as.mapM (f n)) fun bs _ => Forall₂ r as bs := by
  induction as generalizing h with
  | nil => exact .pure .nil
  | cons a as ih =>
    simp only [mapM_cons]
    refine Comes.bind ((hf a (.head _) h).mono fun b g hb => ?_)
    exact Comes.bind ((ih fun c hc => hf c (.tail _ hc)).mono fun bs _ hbs => .pure (.cons hb hbs))

theorem comes_again {t : Term} (ht : t.IsValue) (hn : t.Throughout fun u => u.isNaN = false) (env : Env) (h : Heap) :
    Comes h (fun n => eval n env t) fun u _ => Alike u t := by
  induction t using parts_induction generalizing h with
  | step t ih =>
    refine comes_eval (comes_heapNow ?_)
    rw [ht.resolve]
    have part := fun u hu ht h => ih u hu ht ((throughout_iff.mp hn).2 u hu) h
    cases ht with
    | plain ht =>
      have hself := alike_plain ht (hn t .self)
      cases t <;> first | cases ht; done | exact .pure hself
    | closure hc => exact .pure fun _ _ _ => by simp [equalWith]
    | @list _ _ xs hxs =>
      have hitem : ∀ x ∈ xs, ∀ h, Comes h (fun n => eval n env x) fun y _ => Alike y x := fun x hx => part x hx (hxs x hx)
      refine Comes.bind ((comes_mapM hitem).mono fun ys _ hys => comes_fresh (.pure fun h envs far => ?_))
      have hall : equalAll h envs far ys xs = true := equalAll_iff.mpr (hys.flip.imp fun _ _ hy => hy _ _ _)
      rw [equalWith, hall, Bool.or_true]
    | @record _ _ fs hp hfs =>
      have hfield : ∀ f ∈ fs, ∀ h, Comes h (fun n => do return (f.1, ← eval n env f.2)) fun g _ =>
          f ∈ fs ∧ g.1 = f.1 ∧ Alike g.2 f.2 := fun f hf h =>
        Comes.bind ((part f.2 (mem_parts_fields hf) (hfs f hf) h).mono fun u _ hu => .pure ⟨hf, rfl, hu⟩)
      refine Comes.bind ((comes_mapM hfield).mono fun gs _ hgs => comes_fresh (.pure fun h envs far => ?_))
      have hall : equalFields h envs far gs fs = true := equalFields_iff.mpr <|
        forall_of_forall₂ <| hgs.imp fun f g hg => ⟨f.2, hg.2.1 ▸ get?_of_mem hp hg.1, hg.2.2 _ _ _⟩
      rw [equalWith, hall, decide_eq_true hgs.length_eq.symm, Bool.true_and, Bool.or_true]
    | variant hv =>
      refine Comes.bind ((part _ (.head _) hv h).mono fun v _ hv => ?_)
      exact comes_fresh (.pure fun _ _ _ => by simp [equalWith, hv _ _ _])

/-- The run quotes no code and reads none from bytes: it makes no difference if these are refused. -/
def Direct (n : Nat) (env : Env) (t : Term) (s : Session) : Prop :=
  outcome (evalBy .direct n env t) s = outcome (eval n env t) s

theorem eval_returns_value {r r' : Reader} {t v : Term} {env : Env} {s s' : Session} {k n : Nat}
    (hparse : r.parse = (.ok t, r')) (ht : t.AssignsBound) (henv : AreValues env) (hs : Stored s.heap)
    (hdirect : Direct n env (t.placeFrom k).1 s) (h : outcome (eval n env (t.placeFrom k).1) s = (.ok v, s')) :
    v.IsValue ∧ Stored s'.heap ∧ ((v.Throughout fun u => u.isNaN = false) →
      ∀ env' g, Comes g (fun m => eval m env' v) fun w g' => w.equal? g' v = some true) := by
  obtain ⟨_, _, hread, _⟩ := (Parser.reads .regular _).expression.returns hparse
  have hcode := (hread.regular ht).placed k
  obtain ⟨hs', hv⟩ := (valuing.runs n).value (w := ()) ⟨rfl, henv, hcode⟩ hs (hdirect.trans h)
  refine ⟨hv, hs', fun hn env' g => ?_⟩
  exact (comes_again hv hn env' g).mono fun w g' hw => alike_equal hw g'

/-! ### A list of results -/

/-- The tokens of `[f 1, g] . f = x -> x`. -/
def resultTokens : List Lexeme :=
  [.leftBracket, .name "f", .int 1, .operator ",", .name "g", .rightBracket, .operator ".", .name "f", .operator "=",
    .name "x", .operator "->", .name "x"]

def resultTerm : Term :=
  .scope 0 (.list 0 [.apply 0 (.var 0 "f") (.int 0 1), .var 0 "g"])
    (.assign 0 "f" (.function 0 (.var 0 "x") (.var 0 "x")))

/-- A function that gives its argument a second name. -/
def renamed : Term :=
  .closure 0 (.function 5 (.var 6 "y") (.scope 7 (.var 8 "z") (.assign 9 "z" (.var 10 "y"))))

def resultSession : Session := { heap := { next := 30, envs := #[[]] } }

theorem stored_resultSession : Stored resultSession.heap := fun e p hp => by
  have hnil : resultSession.heap.envOf e = [] := by
    rcases e with _ | e <;> rfl
  rw [hnil] at hp
  cases hp

def resultAfter : Session :=
  { heap := { next := 32, envs := #[[], [("f", .closure 1 (.function 18 (.var 19 "x") (.var 20 "x")))], []] } }

def resultValue : Term := .list 31 [.int 15 1, renamed]

theorem result_values : (tokensOf resultTokens).parse = (.ok resultTerm, tokensOf []) ∧ resultTerm.AssignsBound ∧
    AreValues [("g", renamed)] ∧ Stored resultSession.heap ∧
    Direct 6 [("g", renamed)] (resultTerm.placeFrom 11).1 resultSession ∧
    outcome (eval 6 [("g", renamed)] (resultTerm.placeFrom 11).1) resultSession = (.ok resultValue, resultAfter) ∧
    resultValue.IsValue ∧ Stored resultAfter.heap ∧
    ∀ env g, Comes g (fun m => eval m env resultValue) fun w g' => w.equal? g' resultValue = some true := by
  have hbound : resultTerm.AssignsBound := by
    refine ⟨rfl, ?_⟩
    simp [resultTerm, throughout_iff (t := .scope _ _ _), throughout_iff (t := .list _ _), throughout_iff (t := .apply _ _ _),
      throughout_iff (t := .var _ _), throughout_iff (t := .int _ _), throughout_iff (t := .assign _ _ _),
      throughout_iff (t := .function _ _ _), parts, places, isAssign]
  have hnumbers : resultValue.Throughout fun u => u.isNaN = false := by
    simp [resultValue, renamed, throughout_iff (t := .scope _ _ _), throughout_iff (t := .list _ _),
      throughout_iff (t := .closure _ _), throughout_iff (t := .var _ _), throughout_iff (t := .int _ _),
      throughout_iff (t := .assign _ _ _), throughout_iff (t := .function _ _ _), parts, isNaN]
  have henv : AreValues [("g", renamed)] := forall_mem_singleton.mpr
    (.closure (.function (.scope (.name rfl) (.name rfl))))
  have hparse : (tokensOf resultTokens).parse = (.ok resultTerm, tokensOf []) := rfl
  have heval : outcome (eval 6 [("g", renamed)] (resultTerm.placeFrom 11).1) resultSession =
    (.ok resultValue, resultAfter) := rfl
  have hdirect : Direct 6 [("g", renamed)] (resultTerm.placeFrom 11).1 resultSession :=
    (show outcome (evalBy .direct 6 _ _) _ = (.ok resultValue, resultAfter) from rfl).trans heval.symm
  obtain ⟨hv, hs, hagain⟩ := eval_returns_value hparse hbound henv stored_resultSession hdirect heval
  exact ⟨hparse, hbound, henv, stored_resultSession, hdirect, heval, hv, hs, hagain hnumbers⟩

/-- A function that defines a name when it is called. -/
def defining : Term := .closure 0 (.function 5 (.var 6 "x") (.assign 7 "y" (.var 8 "x")))

/-- Every closure has an environment of values, and the text of the call defines no name, but the call comes to an
environment, which is no value. -/
theorem defining_not_value :
    (tokensOf [.name "f", .int 1]).parse = (.ok (.apply 0 (.var 0 "f") (.int 0 1)), tokensOf []) ∧
    (Term.apply 0 (.var 0 "f") (.int 0 1)).AssignsBound ∧ Stored resultSession.heap ∧
    Direct 4 [("f", defining)] ((Term.apply 0 (.var 0 "f") (.int 0 1)).placeFrom 9).1 resultSession ∧
    (outcome (eval 4 [("f", defining)] ((Term.apply 0 (.var 0 "f") (.int 0 1)).placeFrom 9).1) resultSession).1 =
      .ok (.environment 30 [("x", .int 11 1), ("y", .int 11 1)]) ∧
    ¬(Term.environment 30 [("x", .int 11 1), ("y", .int 11 1)]).IsValue := by
  have hrun (rules : Rules) (hr : rules = .direct ∨ rules = .standard) :
      outcome (evalBy rules 4 [("f", defining)] (.apply 9 (.var 10 "f") (.int 11 1))) resultSession =
        (.ok (.environment 30 [("x", .int 11 1), ("y", .int 11 1)]), { heap := { next := 31, envs := #[[]] } }) := by
    rcases hr with rfl | rfl <;> rfl
  refine ⟨rfl, ⟨rfl, ?_⟩, stored_resultSession, (hrun _ (.inl rfl)).trans (hrun _ (.inr rfl)).symm,
    congrArg Prod.fst (hrun _ (.inr rfl)), fun h => ?_⟩
  · simp [throughout_iff (t := .apply _ _ _), throughout_iff (t := .var _ _), throughout_iff (t := .int _ _), parts, places,
      isAssign]
  · cases h with
    | plain h => cases h

end Eval

end Scrap
