import Scrap.Proofs.Runs
import Scrap.Proofs.Term.Parts

/-! # The format of written terms

The encoder as a relation between a term and its bytes. What is written depends on the lists and closures that have a
number already, so the relation has the numbered terms before and after in it. -/

namespace Scrap.Wire

/-- A way of writing terms: the numbered terms before, the term, its bytes, and the numbered terms after. -/
abbrev Writing := List Term → Term → List UInt8 → List Term → Prop

inductive Items (R : Writing) : List Term → List Term → List UInt8 → List Term → Prop
  | nil : Items R K [] [] K
  | cons : R K t bs K1 → Items R K1 ts cs K2 → Items R K (t :: ts) (bs ++ cs) K2

inductive Entries (R : Writing) : List Term → Dict Term → List UInt8 → List Term → Prop
  | nil : Entries R K [] [] K
  | cons : R K t bs K1 → Entries R K1 ts cs K2 → Entries R K ((k, t) :: ts) (string k ++ (bs ++ cs)) K2

inductive Branches (R : Writing) : List Term → List (Term × Term) → List UInt8 → List Term → Prop
  | nil : Branches R K [] [] K
  | cons : R K p bs K1 → R K1 b cs K2 → Branches R K2 cases ds K3 →
      Branches R K ((p, b) :: cases) (bs ++ (cs ++ ds)) K3

def integerBytes (n : Int) : List UInt8 :=
  if isShort n then Tag.short.byte :: short n else Tag.long.byte :: long n

/-- How a term is written; what lies behind links and in environments of closures is written by `far`. -/
inductive Written (order : Order) (h : Heap) (far : Writing) : List Term → Term → List UInt8 → List Term → Prop
  | int : Written order h far K (.int i n) (integerBytes n) K
  | truth : Written order h far K (.truth i b) (integerBytes (if b then 1 else 0)) K
  | string : Written order h far K (.string i s) (Tag.string.byte :: string s) K
  | float : Written order h far K (.float i x) (Tag.float.byte :: littleEndian 8 x.bits.toNat) K
  | bytes : Written order h far K (.bytes i bs) (Tag.bytes.byte :: (short bs.length ++ bs)) K
  | var : Written order h far K (.var i x) (Tag.var.byte :: string x) K
  | hole : Written order h far K (.hole i) [Tag.hole.byte] K
  | spread : Written order h far K (.spread i none) [Tag.spread.byte] K
  | namedSpread : Written order h far K (.spread i (some x)) (Tag.namedSpread.byte :: string x) K
  | knownList {n : Nat} : K.findIdx? (Term.list i xs).same = some n →
      Written order h far K (.list i xs) (Tag.reference.byte :: short n) K
  | list : K.findIdx? (Term.list i xs).same = none → Items (Written order h far) (K ++ [.list i xs]) xs bs K' →
      Written order h far K (.list i xs) (Tag.list.flagged :: (short xs.length ++ bs)) K'
  | knownClosure {n : Nat} : K.findIdx? (Term.closure e c).same = some n →
      Written order h far K (.closure e c) (Tag.reference.byte :: short n) K
  | closureBefore : order = .beforeCode → K.findIdx? (Term.closure e c).same = none →
      Written order h far (K ++ [.closure e c]) c bs K1 → Entries far K1 (h.envOf e) cs K2 →
      Written order h far K (.closure e c) (Tag.closure.flagged :: (bs ++ (short (h.envOf e).length ++ cs))) K2
  | closureAfter : order = .afterCode → K.findIdx? (Term.closure e c).same = none → Written order h far K c bs K1 →
      K1.findIdx? (Term.closure e c).same = none → Entries far (K1 ++ [.closure e c]) (h.envOf e) cs K2 →
      Written order h far K (.closure e c) (Tag.closure.flagged :: (bs ++ (short (h.envOf e).length ++ cs))) K2
  | variant : Written order h far K v bs K' →
      Written order h far K (.variant i tag v) (Tag.variant.byte :: (Wire.string tag ++ bs)) K'
  | record : Entries (Written order h far) K fields bs K' →
      Written order h far K (.record i fields) (Tag.record.byte :: (short fields.length ++ bs)) K'
  | function : Written order h far K p bs K1 → Written order h far K1 b cs K2 →
      Written order h far K (.function i p b) (Tag.function.byte :: (bs ++ cs)) K2
  | matchFunction : Branches (Written order h far) K cases bs K' →
      Written order h far K (.matchFunction i cases) (Tag.matchFunction.byte :: (short cases.length ++ bs)) K'
  | assign : Written order h far K v bs K' →
      Written order h far K (.assign i x v) (Tag.assign.byte :: Tag.var.byte :: (Wire.string x ++ bs)) K'
  | binop : op.symbol? = some s → Written order h far K l bs K1 → Written order h far K1 r cs K2 →
      Written order h far K (.binop i op l r) (Tag.binop.byte :: (Wire.string s ++ (bs ++ cs))) K2
  | apply : Written order h far K f bs K1 → Written order h far K1 a cs K2 →
      Written order h far K (.apply i f a) (Tag.apply.byte :: (bs ++ cs)) K2
  | scope : Written order h far K b bs K1 → Written order h far K1 d cs K2 →
      Written order h far K (.scope i b d) (Tag.scope.byte :: (bs ++ cs)) K2
  | access : Written order h far K o bs K1 → Written order h far K1 f cs K2 →
      Written order h far K (.access i o f) (Tag.access.byte :: (bs ++ cs)) K2
  | link : far K (h.resolve (.link i)) bs K' → Written order h far K (.link i) bs K'

def WrittenWithin (order : Order) (h : Heap) : Nat → Writing
  | 0 => fun _ _ _ _ => False
  | turns + 1 => Written order h (WrittenWithin order h turns)

/-! ### The encoder writes the format -/

/-- The computation returns exactly where the relation has bytes for it, and adds them to the output. -/
def Writes (m : EncodeM Unit) (R : List Term → List UInt8 → List Term → Prop) : Prop :=
  ∀ e e', outcome m e = (.ok (), e') ↔ ∃ bs, R e.known bs e'.known ∧ e'.output = e.output ++ bs

section Writes
variable {m m' : EncodeM Unit} {R R' : List Term → List UInt8 → List Term → Prop}

theorem append_bytes (out : Array UInt8) (bs cs : List UInt8) : out ++ bs ++ cs = out ++ (bs ++ cs) :=
  Array.toList_inj.mp (by simp)

theorem Writes.congr (hm : Writes m R) (h : ∀ K bs K', R K bs K' ↔ R' K bs K') : Writes m R' := by
  intro e e'
  rw [hm e e']
  simp only [h]

theorem Writes.of_outcome {cs : List UInt8} {f : List Term → List Term}
    (h : ∀ e, outcome m e = (.ok (), ⟨f e.known, e.output ++ cs⟩)) : Writes m fun K bs K' => bs = cs ∧ K' = f K := by
  rintro e ⟨K', out⟩
  rw [h e]
  constructor
  · intro he
    cases he
    exact ⟨cs, ⟨rfl, rfl⟩, rfl⟩
  · rintro ⟨_, ⟨rfl, hK⟩, hout⟩
    rw [← hout, ← hK]

theorem Writes.nothing : Writes (pure ()) fun K bs K' => bs = [] ∧ K' = K :=
  .of_outcome (f := id) fun e => by rw [Array.appendList_nil]; rfl

theorem Writes.emit (cs : List UInt8) : Writes (Encoder.emit cs) fun K bs K' => bs = cs ∧ K' = K :=
  .of_outcome (f := id) fun _ => rfl

theorem Writes.register (t : Term) : Writes (Encoder.register t) fun K bs K' => bs = [] ∧ K' = K ++ [t] :=
  .of_outcome (f := (· ++ [t])) fun e => by rw [Array.appendList_nil]; rfl

theorem Writes.never (x : EncodeError) : Writes (throw x) fun _ _ _ => False := by
  intro e e'
  constructor
  · intro h
    cases h
  · rintro ⟨_, hf, _⟩
    exact hf.elim

theorem Writes.bind (hm : Writes m R) (hm' : Writes m' R') : Writes (m >>= fun _ => m') fun K bs K' =>
    ∃ b1 b2 K1, bs = b1 ++ b2 ∧ R K b1 K1 ∧ R' K1 b2 K' := by
  intro e e'
  constructor
  · intro h
    obtain ⟨_, e1, h1, h2⟩ := bind_returns h
    obtain ⟨b1, hR, ho1⟩ := (hm e e1).mp h1
    obtain ⟨b2, hR', ho2⟩ := (hm' e1 e').mp h2
    exact ⟨b1 ++ b2, ⟨b1, b2, e1.known, rfl, hR, hR'⟩, by rw [ho2, ho1, append_bytes]⟩
  · rintro ⟨_, ⟨b1, b2, K1, rfl, hR, hR'⟩, hout⟩
    have h1 := (hm e ⟨K1, e.output ++ b1⟩).mpr ⟨b1, hR, rfl⟩
    rw [bind_ok h1]
    exact (hm' _ e').mpr ⟨b2, hR', by rw [hout, append_bytes]⟩

theorem Writes.number? (t : Term) {f : Option Nat → EncodeM Unit}
    {S : Option Nat → List Term → List UInt8 → List Term → Prop} (hf : ∀ n, Writes (f n) (S n)) :
    Writes (Encoder.number? t >>= f) fun K bs K' => S (K.findIdx? t.same) K bs K' := by
  intro e e'
  have hn : outcome (Encoder.number? t) e = (.ok (e.known.findIdx? t.same), e) := rfl
  rw [bind_ok hn]
  exact hf _ e e'

theorem Writes.registerNew (t : Term) : Writes (Encoder.registerNew t) fun K bs K' =>
    K.findIdx? t.same = none ∧ bs = [] ∧ K' = K ++ [t] := by
  refine Writes.congr (Writes.number? t (S := fun n K bs K' => n = none ∧ bs = [] ∧ K' = K ++ [t]) ?_) fun _ _ _ => Iff.rfl
  intro n
  cases n with
  | none => exact (Writes.register t).congr fun K bs K' => by simp
  | some n => exact (Writes.never _).congr fun K bs K' => by simp

theorem Writes.shared (tag : Tag) (t : Term) (hm : Writes m R) : Writes (Encoder.shared tag t m) fun K bs K' =>
    (∃ n : Nat, K.findIdx? t.same = some n ∧ bs = Tag.reference.byte :: short n ∧ K' = K) ∨
      K.findIdx? t.same = none ∧ ∃ cs, bs = tag.flagged :: cs ∧ R K cs K' := by
  refine Writes.congr (Writes.number? t (S := fun n K bs K' =>
    (∃ j : Nat, n = some j ∧ bs = Tag.reference.byte :: short j ∧ K' = K) ∨
      n = none ∧ ∃ cs, bs = tag.flagged :: cs ∧ R K cs K') ?_) fun _ _ _ => Iff.rfl
  intro n
  cases n with
  | some n =>
    refine ((Writes.emit [Tag.reference.byte]).bind (Writes.emit (short n))).congr fun K bs K' => ⟨?_, ?_⟩
    · rintro ⟨_, _, _, rfl, ⟨rfl, rfl⟩, rfl, rfl⟩
      exact .inl ⟨n, rfl, rfl, rfl⟩
    · rintro (⟨_, hn, rfl, rfl⟩ | ⟨hn, _⟩) <;> cases hn
      exact ⟨_, _, _, rfl, ⟨rfl, rfl⟩, rfl, rfl⟩
  | none =>
    refine ((Writes.emit [tag.flagged]).bind hm).congr fun K bs K' => ⟨?_, ?_⟩
    · rintro ⟨_, cs, _, rfl, ⟨rfl, rfl⟩, hR⟩
      exact .inr ⟨rfl, cs, rfl, hR⟩
    · rintro (⟨_, hn, _⟩ | ⟨_, cs, rfl, hR⟩)
      · cases hn
      · exact ⟨_, _, _, rfl, ⟨rfl, rfl⟩, hR⟩

end Writes

section Encoder
variable {order : Order} {h : Heap} {far : Term → EncodeM Unit} {R : Writing} {m : EncodeM Unit}
  {S : List Term → List UInt8 → List Term → Prop}

theorem writes_integer (n : Int) :
    Writes (Encoder.encodeWith.integer n) fun K bs K' => bs = integerBytes n ∧ K' = K := by
  unfold Encoder.encodeWith.integer integerBytes
  split
  · refine ((Writes.emit [Tag.short.byte]).bind (Writes.emit (short n))).congr fun K bs K' => ⟨?_, ?_⟩
    · rintro ⟨_, _, _, rfl, ⟨rfl, rfl⟩, rfl, rfl⟩
      exact ⟨rfl, rfl⟩
    · rintro ⟨rfl, rfl⟩
      exact ⟨_, _, _, rfl, ⟨rfl, rfl⟩, rfl, rfl⟩
  · refine ((Writes.emit [Tag.long.byte]).bind (Writes.emit (long n))).congr fun K bs K' => ⟨?_, ?_⟩
    · rintro ⟨_, _, _, rfl, ⟨rfl, rfl⟩, rfl, rfl⟩
      exact ⟨rfl, rfl⟩
    · rintro ⟨rfl, rfl⟩
      exact ⟨_, _, _, rfl, ⟨rfl, rfl⟩, rfl, rfl⟩

theorem writes_emit {d : List UInt8} (hm : Writes m S) :
    Writes (Encoder.emit d >>= fun _ => m) fun K bs K' => ∃ cs, bs = d ++ cs ∧ S K cs K' := by
  refine ((Writes.emit d).bind hm).congr fun K bs K' => ⟨?_, ?_⟩
  · rintro ⟨_, cs, _, rfl, ⟨rfl, rfl⟩, hS⟩
    exact ⟨cs, rfl, hS⟩
  · rintro ⟨cs, rfl, hS⟩
    exact ⟨_, _, _, rfl, ⟨rfl, rfl⟩, hS⟩

theorem writes_tag {tag : Tag} (hm : Writes m S) :
    Writes (Encoder.tag tag >>= fun _ => m) fun K bs K' => ∃ cs, bs = tag.byte :: cs ∧ S K cs K' :=
  writes_emit hm

theorem encodeAll_eq (ts : List Term) :
    Encoder.encodeAll order h far ts = ts.forM (Encoder.encodeWith order h far) := by
  induction ts with
  | nil => rfl
  | cons t ts ih =>
    rw [Encoder.encodeAll, ih]
    rfl

theorem encodeFields_eq (fs : Dict Term) : Encoder.encodeFields order h far fs =
    fs.forM (fun p => do Encoder.emit (string p.1); Encoder.encodeWith order h far p.2) := by
  induction fs with
  | nil => rfl
  | cons p fs ih =>
    rw [Encoder.encodeFields, ih, List.forM, bind_assoc]

theorem encodeCases_eq (cs : List (Term × Term)) : Encoder.encodeCases order h far cs =
    cs.forM (fun c => do Encoder.encodeWith order h far c.1; Encoder.encodeWith order h far c.2) := by
  induction cs with
  | nil => rfl
  | cons c cs ih =>
    rw [Encoder.encodeCases, ih, List.forM, bind_assoc]

theorem writes_items (ts : List Term) (hts : ∀ t ∈ ts, Writes (far t) fun K bs K' => R K t bs K') :
    Writes (ts.forM far) fun K bs K' => Items R K ts bs K' := by
  induction ts with
  | nil =>
    exact Writes.nothing.congr fun K bs K' => ⟨by rintro ⟨rfl, rfl⟩; exact .nil, by rintro ⟨⟩; exact ⟨rfl, rfl⟩⟩
  | cons t ts ih =>
    obtain ⟨ht, hts⟩ := List.forall_mem_cons.mp hts
    refine (ht.bind (ih hts)).congr fun K bs K' => ⟨?_, ?_⟩
    · rintro ⟨_, _, _, rfl, ht, hts⟩
      exact .cons ht hts
    · rintro (_ | ⟨ht, hts⟩)
      exact ⟨_, _, _, rfl, ht, hts⟩

theorem writes_entries (fs : Dict Term) (hfs : ∀ p ∈ fs, Writes (far p.2) fun K bs K' => R K p.2 bs K') :
    Writes (fs.forM fun p => do Encoder.emit (string p.1); far p.2) fun K bs K' => Entries R K fs bs K' := by
  induction fs with
  | nil =>
    exact Writes.nothing.congr fun K bs K' => ⟨by rintro ⟨rfl, rfl⟩; exact .nil, by rintro ⟨⟩; exact ⟨rfl, rfl⟩⟩
  | cons p fs ih =>
    obtain ⟨ht, hfs⟩ := List.forall_mem_cons.mp hfs
    rw [List.forM, bind_assoc]
    refine (writes_emit (ht.bind (ih hfs))).congr fun K bs K' => ⟨?_, ?_⟩
    · rintro ⟨_, rfl, _, _, _, rfl, ht, hts⟩
      exact .cons ht hts
    · intro hw
      cases hw with | cons hv hvs => exact ⟨_, rfl, _, _, _, rfl, hv, hvs⟩

theorem writes_branches (cs : List (Term × Term)) (hcs : ∀ c ∈ cs,
    Writes (far c.1) (fun K bs K' => R K c.1 bs K') ∧ Writes (far c.2) fun K bs K' => R K c.2 bs K') :
    Writes (cs.forM fun c => do far c.1; far c.2) fun K bs K' => Branches R K cs bs K' := by
  induction cs with
  | nil =>
    exact Writes.nothing.congr fun K bs K' => ⟨by rintro ⟨rfl, rfl⟩; exact .nil, by rintro ⟨⟩; exact ⟨rfl, rfl⟩⟩
  | cons c cs ih =>
    obtain ⟨⟨hp, hb⟩, hcs⟩ := List.forall_mem_cons.mp hcs
    rw [List.forM, bind_assoc]
    refine (hp.bind (hb.bind (ih hcs))).congr fun K bs K' => ⟨?_, ?_⟩
    · rintro ⟨_, _, _, rfl, hp, _, _, _, rfl, hb, hcs⟩
      exact .cons hp hb hcs
    · intro hw
      cases hw with | cons hl hr hrest => exact ⟨_, _, _, rfl, hl, _, _, _, rfl, hr, hrest⟩

theorem writes_encodeWith (hfar : ∀ t, Writes (far t) fun K bs K' => R K t bs K') (t : Term) :
    Writes (Encoder.encodeWith order h far t) fun K bs K' => Written order h R K t bs K' := by
  induction t using Term.parts_induction with
  | step t ih =>
    cases t with
    | int | truth =>
      exact (writes_integer _).congr fun K bs K' =>
        ⟨by rintro ⟨rfl, rfl⟩; constructor, by rintro ⟨⟩; exact ⟨rfl, rfl⟩⟩
    | string | var =>
      exact (writes_tag (Writes.emit (Wire.string _))).congr fun K bs K' =>
        ⟨by rintro ⟨_, rfl, rfl, rfl⟩; constructor, by rintro ⟨⟩; exact ⟨_, rfl, rfl, rfl⟩⟩
    | float =>
      exact (writes_tag (Writes.emit _)).congr fun K bs K' =>
        ⟨by rintro ⟨_, rfl, rfl, rfl⟩; exact .float, by rintro ⟨⟩; exact ⟨_, rfl, rfl, rfl⟩⟩
    | bytes =>
      exact (writes_tag (writes_emit (Writes.emit _))).congr fun K bs K' =>
        ⟨by rintro ⟨_, rfl, _, rfl, rfl, rfl⟩; exact .bytes, by rintro ⟨⟩; exact ⟨_, rfl, _, rfl, rfl, rfl⟩⟩
    | hole =>
      exact (Writes.emit [_]).congr fun K bs K' =>
        ⟨by rintro ⟨rfl, rfl⟩; constructor, by rintro ⟨⟩; exact ⟨rfl, rfl⟩⟩
    | spread i x =>
      cases x with
      | none =>
        exact (Writes.emit [_]).congr fun K bs K' =>
          ⟨by rintro ⟨rfl, rfl⟩; constructor, by rintro ⟨⟩; exact ⟨rfl, rfl⟩⟩
      | some s =>
        exact (writes_tag (Writes.emit (Wire.string s))).congr fun K bs K' =>
          ⟨by rintro ⟨_, rfl, rfl, rfl⟩; constructor, by rintro ⟨⟩; exact ⟨_, rfl, rfl, rfl⟩⟩
    | complex =>
      exact (writes_tag (Writes.never _)).congr fun K bs K' => ⟨by rintro ⟨_, _, hf⟩; exact hf.elim, by rintro ⟨⟩⟩
    | variant i tag v =>
      refine (writes_tag (writes_emit (ih v (.head _)))).congr fun K bs K' => ⟨?_, fun hw => ?_⟩
      · rintro ⟨_, rfl, _, rfl, hv⟩
        exact .variant hv
      · cases hw with | variant hv => exact ⟨_, rfl, _, rfl, hv⟩
    | record i fields =>
      rw [Encoder.encodeWith, encodeFields_eq]
      refine (writes_tag (writes_emit (writes_entries _ fun p hp => ih p.2 (Term.mem_parts_fields hp)))).congr
        fun K bs K' => ⟨?_, fun hw => ?_⟩
      · rintro ⟨_, rfl, _, rfl, hv⟩
        exact .record hv
      · cases hw with | record hv => exact ⟨_, rfl, _, rfl, hv⟩
    | matchFunction i cases =>
      rw [Encoder.encodeWith, encodeCases_eq]
      refine (writes_tag (writes_emit (writes_branches _ fun c hc =>
        ⟨ih c.1 (Term.mem_parts_cases hc).1, ih c.2 (Term.mem_parts_cases hc).2⟩))).congr
        fun K bs K' => ⟨?_, fun hw => ?_⟩
      · rintro ⟨_, rfl, _, rfl, hv⟩
        exact .matchFunction hv
      · cases hw with | matchFunction hv => exact ⟨_, rfl, _, rfl, hv⟩
    | function _ l r | apply _ l r | scope _ l r | access _ l r =>
      refine (writes_tag ((ih l (.head _)).bind (ih r (.tail _ (.head _))))).congr fun K bs K' => ⟨?_, fun hw => ?_⟩
      · rintro ⟨_, rfl, _, _, _, rfl, hl, hr⟩
        constructor <;> assumption
      · cases hw
        exact ⟨_, rfl, _, _, _, rfl, ‹_›, ‹_›⟩
    | assign i x v =>
      refine (writes_tag (writes_tag (writes_emit (ih v (.head _))))).congr fun K bs K' => ⟨?_, fun hw => ?_⟩
      · rintro ⟨_, rfl, _, rfl, _, rfl, hv⟩
        exact .assign hv
      · cases hw with | assign hv => exact ⟨_, rfl, _, rfl, _, rfl, hv⟩
    | binop i op l r =>
      rw [Encoder.encodeWith]
      cases hs : op.symbol? with
      | none =>
        refine (writes_tag (Writes.never _)).congr fun K bs K' => ⟨by rintro ⟨_, _, hf⟩; exact hf.elim, fun hw => ?_⟩
        cases hw with | binop hs' => rw [hs] at hs'; cases hs'
      | some s =>
        refine (writes_tag (writes_emit ((ih l (.head _)).bind (ih r (.tail _ (.head _)))))).congr
          fun K bs K' => ⟨?_, fun hw => ?_⟩
        · rintro ⟨_, rfl, _, rfl, _, _, _, rfl, hl, hr⟩
          exact .binop hs hl hr
        · cases hw with | binop hs' hl hr => rw [hs] at hs'; cases hs'; exact ⟨_, rfl, _, rfl, _, _, _, rfl, hl, hr⟩
    | list i xs =>
      rw [Encoder.encodeWith, encodeAll_eq]
      refine (Writes.shared .list (.list i xs) ((Writes.register _).bind (writes_emit (writes_items _ ih)))).congr
        fun K bs K' => ⟨?_, fun hw => ?_⟩
      · rintro (⟨n, hn, rfl, rfl⟩ | ⟨hn, _, rfl, _, _, _, rfl, ⟨rfl, rfl⟩, _, rfl, hxs⟩)
        · exact .knownList hn
        · exact .list hn hxs
      · cases hw with
        | knownList hn => exact .inl ⟨_, hn, rfl, rfl⟩
        | list hn hxs => exact .inr ⟨hn, _, rfl, _, _, _, (List.nil_append _).symm, ⟨rfl, rfl⟩, _, rfl, hxs⟩
    | closure e c =>
      have hcode := ih c (.head _)
      have henv := writes_emit (d := short (h.envOf e).length) (writes_entries (h.envOf e) fun p _ => hfar p.2)
      rw [Encoder.encodeWith]
      cases order with
      | beforeCode =>
        refine (Writes.shared .closure (.closure e c) ((Writes.register _).bind (hcode.bind
          (Writes.nothing.bind henv)))).congr fun K bs K' => ⟨?_, fun hw => ?_⟩
        · rintro (⟨n, hn, rfl, rfl⟩ | ⟨hn, _, rfl, _, _, _, rfl, ⟨rfl, rfl⟩, _, _, _, rfl, hc, _, _, _, rfl, ⟨rfl, rfl⟩, _,
            rfl, he⟩)
          · exact .knownClosure hn
          · exact .closureBefore rfl hn hc he
        · cases hw with
          | knownClosure hn => exact .inl ⟨_, hn, rfl, rfl⟩
          | closureBefore _ hn hc he =>
            exact .inr ⟨hn, _, rfl, [], _, _, rfl, ⟨rfl, rfl⟩, _, _, _, rfl, hc, [], _, _, rfl, ⟨rfl, rfl⟩, _, rfl, he⟩
          | closureAfter ho => cases ho
      | afterCode =>
        refine (Writes.shared .closure (.closure e c) (Writes.nothing.bind (hcode.bind
          ((Writes.registerNew _).bind henv)))).congr fun K bs K' => ⟨?_, fun hw => ?_⟩
        · rintro (⟨n, hn, rfl, rfl⟩ | ⟨hn, _, rfl, _, _, _, rfl, ⟨rfl, rfl⟩, _, _, _, rfl, hc, _, _, _, rfl, ⟨hn', rfl, rfl⟩, _,
            rfl, he⟩)
          · exact .knownClosure hn
          · exact .closureAfter rfl hn hc hn' he
        · cases hw with
          | knownClosure hn => exact .inl ⟨_, hn, rfl, rfl⟩
          | closureBefore ho => cases ho
          | closureAfter _ hn hc hn' he =>
            exact .inr ⟨hn, _, rfl, [], _, _, rfl, ⟨rfl, rfl⟩, _, _, _, rfl, hc, [], _, _, rfl, ⟨hn', rfl, rfl⟩, _, rfl,
              he⟩
    | link i =>
      exact (hfar (h.resolve (.link i))).congr fun K bs K' => ⟨.link, fun hw => by cases hw with | link hw => exact hw⟩
    | assert | matchCase | environment | relocation | native =>
      exact (Writes.never _).congr fun K bs K' => ⟨fun hf => hf.elim, fun hw => nomatch hw⟩

/-- The encoder returns exactly where the format has bytes for the term, and writes these bytes. -/
theorem writes_encodeWithin (order : Order) (h : Heap) (turns : Nat) (t : Term) :
    Writes (Encoder.encodeWithin order h turns t) fun K bs K' => WrittenWithin order h turns K t bs K' := by
  induction turns generalizing t with
  | zero => exact Writes.never _
  | succ turns ih => exact writes_encodeWith ih t

theorem serializedIn_eq_ok {t : Term} {bs : List UInt8} :
    t.serializedIn order h = .ok bs ↔ ∃ K, WrittenWithin order h h.rounds [] t bs K := by
  have hw := writes_encodeWithin order h h.rounds t
  unfold Term.serializedIn
  constructor
  · intro hs
    split at hs
    · rename_i e he
      obtain ⟨cs, hcs, hout⟩ := (hw {} e).mp he
      cases hs
      exact ⟨e.known, by simpa [hout] using hcs⟩
    · cases hs
  · rintro ⟨K, hK⟩
    have he := (hw {} ⟨K, bs.toArray⟩).mpr ⟨bs, hK, by simp⟩
    rw [show (t.encodeIn order h).run.run {} = _ from he]

end Encoder

end Scrap.Wire
