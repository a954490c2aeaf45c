import Scrap.Proofs.Code.Names
import Scrap.Proofs.Machine.Moving

/-! # Constant values

The constants of a program are laid out in order and have distinct names, so a constant that is part of another keeps
its word, and the operand of a constant term leads to the value. -/

namespace Scrap

variable {fields : Dict Term} {os : List Operand} {items : List Term} {o : Operand}

def Code.Program.constantNames (program : Program) : List String := program.constants.toList.map Prod.fst

namespace Machine

open Code Compile Relation

variable {c : Constant} {t : Term} {p p' : Progress}

/-! ### The layout of constants -/

namespace Image

variable {x : String}

def add (m : Image) (d : String × Constant) : Image :=
  { m with constants := (d.1, m.objects.size) :: m.constants, objects := m.objects.push (m.object d.2) }

theorem ofProgram_eq (program : Program) :
    ofProgram program = program.constants.toList.foldl add { program } := by
  rw [ofProgram, ← Array.foldl_toList]
  rfl

section
variable {m : Image} {ds : List (String × Constant)}

theorem program_foldl : (ds.foldl add m).program = m.program := by
  induction ds generalizing m with
  | nil => rfl
  | cons d ds ih => exact ih

theorem size_foldl : (ds.foldl add m).objects.size = m.objects.size + ds.length := by
  induction ds generalizing m with
  | nil => rfl
  | cons d ds ih =>
    rw [List.foldl_cons, ih, List.length_cons]
    simp [add]
    omega

theorem objects_foldl {i : Nat} {x : Object} (h : m.objects[i]? = some x) : (ds.foldl add m).objects[i]? = some x := by
  induction ds generalizing m with
  | nil => exact h
  | cons d ds ih =>
    refine ih ?_
    have hlt := (Array.getElem?_eq_some_iff.mp h).1
    rw [add, Array.getElem?_push, if_neg (Nat.ne_of_lt hlt), h]

theorem lookup_foldl (hx : x ∉ ds.map Prod.fst) :
    List.lookup x (ds.foldl add m).constants = List.lookup x m.constants := by
  induction ds generalizing m with
  | nil => rfl
  | cons d ds ih =>
    rw [List.map_cons, List.mem_cons, not_or] at hx
    have hne : (x == d.1) = false := by simpa using hx.1
    rw [List.foldl_cons, ih hx.2, add, List.lookup_cons, hne]

theorem word_foldl (ho : ∀ x, o = .constant x → x ∉ ds.map Prod.fst) : (ds.foldl add m).word o = m.word o := by
  cases o with
  | constant x => rw [word, word, lookup_foldl (ho x rfl)]
  | tag t => rw [word, word, tag, tag, program_foldl]
  | _ => rfl

theorem object_congr {m' : Image} (hp : m'.program = m.program)
    (hc : ∀ o ∈ c.operands, m'.word o = m.word o) : m'.object c = m.object c := by
  cases c with
  | list a b => rw [object, object, hc a (by simp [Constant.operands]), hc b (by simp [Constant.operands])]
  | string s => rfl
  | variant t v => rw [object, object, tag, tag, hp, hc v (by simp [Constant.operands])]
  | closure f => rfl
  | record fields =>
    have hfields : (fields.map fun f => (m'.key f.1, m'.word f.2)) = fields.map fun f => (m.key f.1, m.word f.2) :=
      List.map_congr_left fun f hf => by rw [key, key, hp, hc f.2 (List.mem_map_of_mem hf)]
    exact congrArg Object.record hfields

end

theorem get?_constant {program : Program} {before after : List (String × Constant)}
    (hsplit : program.constants.toList = before ++ (x, c) :: after) (hnames : program.constantNames.Nodup)
    (hroom : program.constants.size < 2305843009213693952)
    (hc : ∀ o ∈ c.operands, ∀ y, o = .constant y → y ∈ before.map Prod.fst) {store : Store}
    (hstore : store.constants = (ofProgram program).objects) :
    store.get? ((ofProgram program).word (.constant x)) = some ((ofProgram program).object c) := by
  rw [Program.constantNames, hsplit, List.map_append, List.nodup_append] at hnames
  obtain ⟨-, hrest, hapart⟩ := hnames
  have himage : ofProgram program = after.foldl add ((before.foldl add { program }).add (x, c)) := by
    rw [ofProgram_eq, hsplit, List.foldl_append, List.foldl_cons]
  have hsize : (before.foldl add { program }).objects.size = before.length := by
    rw [size_foldl]
    simp
  have hx : x ∉ after.map Prod.fst := (List.nodup_cons.mp hrest).1
  have hword : (ofProgram program).word (.constant x) = Word.pointer before.length := by
    rw [himage, word, lookup_foldl hx, add, List.lookup_cons_self, hsize]
    rfl
  have hlt : before.length < program.constants.size := by
    rw [← Array.length_toList, hsplit]
    simp
  have hobject : (ofProgram program).objects[before.length]? = some ((before.foldl add { program }).object c) := by
    rw [himage]
    refine objects_foldl ?_
    rw [add, ← hsize, Array.getElem?_push, if_pos rfl]
  have hsame : (ofProgram program).object c = (before.foldl add { program }).object c := by
    refine object_congr ?_ fun o ho => ?_
    · rw [himage, program_foldl]
      rfl
    · have hwords : (ofProgram program).word o = (before.foldl add { program }).word o := by
        have hall : ofProgram program = ((x, c) :: after).foldl add (before.foldl add { program }) := himage
        rw [hall]
        refine word_foldl fun y hy hmem => ?_
        exact hapart y (hc o ho y hy) y hmem rfl
      exact hwords
  have hsizes : (ofProgram program).objects.size = program.constants.size := by
    rw [ofProgram_eq, size_foldl, ← Array.length_toList]
    simp
  rw [hword, Store.get?_pointer (by omega), hstore, if_pos (by omega), hobject, hsame]

end Image

/-! ### Programs that grow -/

structure Numbered (p : Progress) : Prop where
  made : ∀ x ∈ p.program.constantNames, ∃ stem n, n < p.made ∧ x = madeName stem n
  nodup : p.program.constantNames.Nodup

section Steps
variable {t : Term} {p p' : Progress}

theorem step_grows (h : Step t p p') : Grows p.program p'.program := by
  cases h with
  | key hk hnew => exact { Grows.refl _ with keys := List.map_subset _ (List.subset_append_left _ _) }
  | tag ht hnew => exact { Grows.refl _ with tags := List.map_subset _ (List.subset_append_left _ _) }
  | constant hstem => exact { Grows.refl _ with constants := by simp }
  | _ => exact ⟨List.prefix_refl p.program.constants.toList, List.Subset.refl p.program.keys,
      List.Subset.refl p.program.tags⟩

theorem steps_grow (h : ReflTransGen (Step t) p p') : Grows p.program p'.program := by
  induction h with
  | refl => exact .refl _
  | tail _ h ih => exact ih.trans (step_grows h)

theorem Numbered.step (hp : Numbered p) (h : Step t p p') : Numbered p' := by
  have hlater : ∀ {n}, p.made ≤ n → ∀ x ∈ p.program.constantNames, ∃ stem k, k < n ∧ x = madeName stem k := by
    intro n hn x hx
    obtain ⟨stem, k, hk, rfl⟩ := hp.made x hx
    exact ⟨stem, k, Nat.lt_of_lt_of_le hk hn, rfl⟩
  cases h with
  | @constant stem c hstem =>
    have hnames : (p.program.constants.push (madeName stem p.made, c)).toList.map Prod.fst =
        p.program.constantNames ++ [madeName stem p.made] := by simp [Program.constantNames]
    refine ⟨?_, ?_⟩
    · show ∀ x ∈ (p.program.constants.push _).toList.map Prod.fst, _
      rw [hnames]
      intro x hx
      rcases List.mem_append.mp hx with hx | hx
      · exact hlater (Nat.le_succ _) x hx
      · exact ⟨stem, p.made, Nat.lt_succ_self _, List.mem_singleton.mp hx⟩
    · show ((p.program.constants.push _).toList.map Prod.fst).Nodup
      rw [hnames]
      refine hp.nodup.append (List.nodup_singleton _) fun x hx hx' => ?_
      obtain ⟨stem', k, hk, rfl⟩ := hp.made x hx
      exact Nat.ne_of_lt hk (madeName_number (List.mem_singleton.mp hx'))
  | bind | temp | function => exact ⟨hlater (Nat.le_succ _), hp.nodup⟩
  | _ => exact ⟨hlater (Nat.le_refl _), hp.nodup⟩

theorem Numbered.steps (hp : Numbered p) (h : ReflTransGen (Step t) p p') : Numbered p' := by
  induction h with
  | refl => exact hp
  | tail _ h ih => exact ih.step h

end Steps

/-! ### Constant terms -/

/-- Terms of constant values: integers that fit, texts below 128, records with different keys, and functions that capture
nothing. -/
inductive IsConstant : Term → Prop
  | int (i : Nat) {n : Int} (hn : Word.fits n = true) : IsConstant (.int i n)
  | truth (i : Nat) (b : Bool) : IsConstant (.truth i b)
  | string (i : Nat) {s : String} (hs : Text.isAscii s = true) : IsConstant (.string i s)
  | hole (i : Nat) : IsConstant (.hole i)
  | variant (i : Nat) (tag : String) {v : Term} (hv : IsConstant v) : IsConstant (.variant i tag v)
  | list (i : Nat) {items : List Term} (h : ∀ t ∈ items, IsConstant t) : IsConstant (.list i items)
  | record (i : Nat) {fields : Dict Term} (hfields : fields.Proper) (h : ∀ f ∈ fields, IsConstant f.2) :
    IsConstant (.record i fields)
  | function (i : Nat) {q b : Term} (h : (Term.function i q b).freeVars = .ok []) : IsConstant (.function i q b)

theorem areConstant_eq_true (h : ∀ t ∈ items, ∀ p, outcome (isConstant t) p = (.ok true, p)) (p : Progress) :
    outcome (areConstant items) p = (.ok true, p) := by
  induction items with
  | nil => rfl
  | cons t items ih =>
    rw [areConstant, bind_ok (h t (.head _) p)]
    exact ih fun u hu => h u (.tail _ hu)

theorem isConstant_eq_true (h : IsConstant t) (p : Progress) : outcome (isConstant t) p = (.ok true, p) := by
  induction h generalizing p with
  | variant i tag hv ih => exact ih p
  | list i h ih => exact areConstant_eq_true ih p
  | record i hfields h ih =>
    rw [isConstant, areConstantFields_eq]
    exact areConstant_eq_true (List.forall_mem_map.mpr ih) p
  | @function i q b h =>
    have hfree : outcome (freeVars (.function i q b)) p = (.ok [], p) := by
      unfold freeVars
      rw [h]
      rfl
    exact bind_ok hfree
  | _ => rfl

/-- A program that a compilation goes on to, and a store that has its constants. -/
structure LaidOut (p : Progress) (program : Program) (store : Store) : Prop where
  grows : Grows p.program program
  nodup : program.constantNames.Nodup
  room : program.constants.size < 2305843009213693952
  constants : store.constants = (Image.ofProgram program).objects

/-- In every program that a compilation goes on to, the operand leads to the value of the term. -/
structure Sits (p : Progress) (o : Operand) (t : Term) : Prop where
  declared : ∀ x, o = .constant x → x ∈ p.program.constantNames
  stands : ∀ {program : Program} {store : Store}, LaidOut p program store →
    Stands (.ofProgram program) store ((Image.ofProgram program).word o) t

theorem Sits.later (h : Sits p o t) (hg : Grows p.program p'.program) : Sits p' o t where
  declared x hx := (hg.constants.map _).subset (h.declared x hx)
  stands he := h.stands { he with grows := hg.trans he.grows }

theorem Sits.immediate (ho : ∀ x, o ≠ .constant x) (h : ∀ {program : Program} (store : Store), Grows p.program program →
      Stands (.ofProgram program) store ((Image.ofProgram program).word o) t) : Sits p o t where
  declared x hx := absurd hx (ho x)
  stands he := h _ he.grows

theorem newConstant_sits {stem : String} (hc : ∀ o ∈ c.operands, ∀ x, o = .constant x → x ∈ p.program.constantNames)
    (hnew : outcome (newConstant stem c) p = (.ok o, p'))
    (h : ∀ {program : Program} {store : Store} {w : Word}, LaidOut p program store →
      store.get? w = some ((Image.ofProgram program).object c) → Stands (.ofProgram program) store w t) :
    Sits p' o t := by
  cases hnew
  refine ⟨fun x hx => ?_, fun {program store} he => ?_⟩
  · cases hx
    simp [Program.constantNames]
  · obtain ⟨after, hafter⟩ := he.grows.constants
    have hsplit : program.constants.toList = p.program.constants.toList ++ (stem ++ "_" ++ toString p.made, c) :: after := by
      rw [← hafter]
      simp
    refine h { he with grows := ⟨⟨_, hsplit.symm⟩, he.grows.keys, he.grows.tags⟩ } ?_
    exact Image.get?_constant hsplit he.nodup he.room hc he.constants

section Compile
variable {σ : Setting} {scope : Scope} {us : List Term}

theorem compile_grows {u : Term} (h : outcome (compile σ scope none u) p = (.ok o, p')) : Grows p.program p'.program :=
  ((stepsOf (P := {}) u .self).unnamed scope).grows h

/-- However it is compiled, the operand of the term leads to its value. -/
def Settles (σ : Setting) (scope : Scope) (u : Term) : Prop :=
  ∀ {p p' : Progress} {o : Operand}, outcome (compile σ scope none u) p = (.ok o, p') → Sits p' o u

theorem settles_string (i : Nat) {s : String} (hs : Text.isAscii s = true) : Settles σ scope (.string i s) := by
  intro p p' o h
  have h : outcome (Compile.string s) p = (.ok o, p') := h
  unfold Compile.string at h
  split at h
  · rename_i hlen
    split at h <;> cases h
    exact .immediate (fun x hx => by cases hx) fun store _ => .immediate (.short i hs hlen)
  · refine newConstant_sits (fun o ho => by cases ho) h fun {program store w} _ hw => .long i hs ?_
    rw [(Image.utf8_eq_stringBytes_iff hs).mpr rfl]
    exact hw

theorem settles_variant (i : Nat) (tag : String) {v : Term} (hv : IsConstant v) (ih : Settles σ scope v) :
    Settles σ scope (.variant i tag v) := by
  intro p p' o h
  by_cases hhole : ∃ j, v = .hole j
  · obtain ⟨j, rfl⟩ := hhole
    obtain ⟨p1, hp1, -, -, htag⟩ := useTag_wrote tag p
    have h : outcome (useTag tag >>= fun _ => pure (.tag tag)) p = (.ok o, p') := h
    rw [bind_ok hp1] at h
    cases h
    refine .immediate (fun x hx => by cases hx) fun store hg => .immediate (.tag i j ?_)
    rw [Image.ofProgram_program]
    exact hg.tags htag
  · rw [compile_variant_eq fun j hj => hhole ⟨j, hj⟩, bind_ok (isConstant_eq_true hv p)] at h
    obtain ⟨p1, hp1, -, -, htag⟩ := useTag_wrote tag p
    have h : outcome (useTag tag >>= fun _ => compile σ scope none v >>= fun a =>
        newConstant "const_variant" (.variant tag a)) p = (.ok o, p') := h
    rw [bind_ok hp1] at h
    obtain ⟨a, p2, hcompile, hnew⟩ := bind_returns h
    have ha := ih hcompile
    refine newConstant_sits (fun b hb x hx => ?_) hnew fun {program store w} he hw => ?_
    · cases List.mem_singleton.mp hb
      exact ha.declared x hx
    · refine .boxed i ?_ hw (ha.stands he)
      rw [Image.ofProgram_program]
      exact he.grows.tags ((compile_grows hcompile).tags htag)

theorem compileAll_sits (ih : ∀ u ∈ us, Settles σ scope u) (h : outcome (compileAll σ scope us) p = (.ok os, p')) :
    Grows p.program p'.program ∧ List.Forall₂ (Sits p') os us := by
  induction us generalizing p os with
  | nil =>
    cases h
    exact ⟨.refl _, .nil⟩
  | cons u us ihus =>
    rw [compileAll] at h
    obtain ⟨o, p1, hcompile, h⟩ := bind_returns h
    obtain ⟨os', p2, hrest, h⟩ := bind_returns h
    cases h
    obtain ⟨hg, hos⟩ := ihus (fun v hv => ih v (.tail _ hv)) hrest
    exact ⟨(compile_grows hcompile).trans hg, .cons ((ih u (.head _) hcompile).later hg) hos⟩

theorem constantList_sits (i : Nat) (hos : List.Forall₂ (Sits p) os us)
    (h : outcome (constantList os) p = (.ok o, p')) : Grows p.program p'.program ∧ Sits p' o (.list i us) := by
  induction hos generalizing o p' i with
  | nil =>
    cases h
    exact ⟨.refl _, .immediate (fun x hx => by cases hx) fun store _ => .immediate (.nil i)⟩
  | @cons a u os us ha _ ih =>
    rw [constantList] at h
    obtain ⟨b, p1, hrest, hnew⟩ := bind_returns h
    obtain ⟨hg, hb⟩ := ih 0 hrest
    have ha := ha.later hg
    refine ⟨hg.trans ?_, newConstant_sits (fun c hc x hx => ?_) hnew fun {program store w} he hw => ?_⟩
    · cases hnew
      exact { Grows.refl _ with constants := by simp }
    · rcases List.mem_pair.mp hc with rfl | rfl
      · exact ha.declared x hx
      · exact hb.declared x hx
    · exact .cons i 0 hw (ha.stands he) (hb.stands he)

theorem settles_list (i : Nat) (hitems : ∀ t ∈ items, IsConstant t) (ih : ∀ t ∈ items, Settles σ scope t) :
    Settles σ scope (.list i items) := by
  intro p p' o h
  have h : outcome (isConstant (.list i items) >>= fun b => if b then compileAll σ scope items >>= constantList else _) p =
    (.ok o, p') := h
  rw [bind_ok (isConstant_eq_true (.list i hitems) p)] at h
  obtain ⟨os, p1, hall, hlist⟩ := bind_returns h
  exact (constantList_sits i (compileAll_sits ih hall).2 hlist).2

theorem useKey_grows {k : String} (h : outcome (useKey k) p = (.ok (), p')) : Grows p.program p'.program :=
  (listing_useKey (P := {}) (C := True) k).grows h

theorem compileConstantFields_sits {fs : Dict Term} (ih : ∀ f ∈ fs, Settles σ scope f.2)
    {values : Dict Operand} (h : outcome (compileConstantFields σ scope fs) p = (.ok values, p')) :
    Grows p.program p'.program ∧ fs.keys ⊆ p'.program.keys ∧ values.keys = fs.keys ∧
      ∀ v ∈ values, ∃ t, (v.1, t) ∈ fs ∧ Sits p' v.2 t := by
  induction fs generalizing p values with
  | nil =>
    cases h
    exact ⟨.refl _, List.nil_subset _, rfl, fun v hv => by cases hv⟩
  | cons f fs ihfs =>
    rw [compileConstantFields] at h
    obtain ⟨p1, hkey, -, -, hmem⟩ := useKey_wrote f.1 p
    rw [bind_ok hkey] at h
    obtain ⟨o, p2, hcompile, h⟩ := bind_returns h
    obtain ⟨values', p3, hrest, h⟩ := bind_returns h
    cases h
    obtain ⟨hg, hkeys, hsame, hvalues⟩ := ihfs (fun g hg => ih g (.tail _ hg)) hrest
    have hg2 := compile_grows hcompile
    refine ⟨(useKey_grows hkey).trans (hg2.trans hg), List.cons_subset.mpr ⟨hg.keys (hg2.keys hmem), hkeys⟩,
      congrArg (f.1 :: ·) hsame, fun v hv => ?_⟩
    rcases List.mem_cons.mp hv with rfl | hv
    · exact ⟨f.2, (.head _), (ih f (.head _) hcompile).later hg⟩
    · obtain ⟨t, ht, hsits⟩ := hvalues v hv
      exact ⟨t, List.mem_cons_of_mem _ ht, hsits⟩

theorem settles_record (i : Nat) (hfields : fields.Proper) (hconst : ∀ f ∈ fields, IsConstant f.2)
    (ih : ∀ f ∈ fields, Settles σ scope f.2) : Settles σ scope (.record i fields) := by
  intro p p' o h
  have h : outcome (isConstant (.record i fields) >>= fun b => if b then compileConstantFields σ scope fields >>= fun values =>
    newConstant "const_record" (.record values) else _) p = (.ok o, p') := h
  rw [bind_ok (isConstant_eq_true (.record i hfields hconst) p)] at h
  obtain ⟨values, p1, hall, hnew⟩ := bind_returns h
  obtain ⟨-, hkeys, hsame, hvalues⟩ := compileConstantFields_sits ih hall
  have hproper : values.Proper := by
    rw [Dict.Proper, hsame]
    exact hfields
  refine newConstant_sits (fun b hb x hx => ?_) hnew fun {program store w} he hw => ?_
  · obtain ⟨v, hv, rfl⟩ := List.mem_map.mp hb
    obtain ⟨t, -, hsits⟩ := hvalues v hv
    exact hsits.declared x hx
  · have hword {k : String} {a : Operand} (ha : (k, a) ∈ values) : (values.get? k).getD .hole = a := by
      rw [Dict.get?_of_mem hproper ha]
      rfl
    refine .record i (fun k => (Image.ofProgram program).word ((values.get? k).getD .hole)) hfields ?_ hw ?_ ?_
    · rw [Image.ofProgram_program]
      exact List.Subset.trans hkeys he.grows.keys
    · rw [← hsame, Dict.keys, List.map_map]
      refine List.Perm.of_eq (List.map_congr_left fun v hv => ?_)
      rw [Function.comp_apply, hword hv]
    · intro k t hkt
      have hmem : k ∈ values.keys := hsame ▸ List.mem_map_of_mem hkt
      obtain ⟨⟨k, a⟩, hka, rfl⟩ := List.mem_map.mp hmem
      obtain ⟨u, hu, hsits⟩ := hvalues _ hka
      have htu : t = u := by
        have := (Dict.get?_of_mem hfields hkt).symm.trans (Dict.get?_of_mem hfields hu)
        exact Option.some.inj this
      rw [hword hka, htu]
      exact hsits.stands he

theorem settles_function (i : Nat) {q b : Term} (hfree : (Term.function i q b).freeVars = .ok []) :
    Settles σ scope (.function i q b) := by
  intro p p' o h
  have h : outcome (function σ scope none (.function i q b) _ _) p = (.ok o, p') := h
  unfold function freeVars at h
  rw [hfree] at h
  obtain ⟨free, p1, hret, h⟩ := bind_returns h
  cases hret
  obtain ⟨name, p2, -, h⟩ := bind_returns h
  obtain ⟨before, p3, -, h⟩ := bind_returns h
  obtain ⟨own, p4, -, h⟩ := bind_returns h
  obtain ⟨_, p5, -, h⟩ := bind_returns h
  obtain ⟨_, p6, -, h⟩ := bind_returns h
  have hnew : outcome (newConstant "const_closure" (.closure name)) p6 = (.ok o, p') := by
    rw [if_pos (by simp [Term.sortedNames])] at h
    exact h
  exact newConstant_sits (fun b hb => by cases hb) hnew fun {program store w} _ hw => .function rfl hw

theorem settles (h : IsConstant t) : Settles σ scope t := by
  induction h with
  | @int i n hn =>
    intro p p' o h
    obtain ⟨v, p1, hlit, hret⟩ := bind_returns (show outcome (literal n >>= _) p = _ from h)
    cases hret
    unfold literal at hlit
    split at hlit <;> cases hlit
    exact .immediate (fun x hx => by cases hx) fun store _ => .immediate (.int i hn)
  | truth i b =>
    intro p p' o h
    cases h
    exact .immediate (fun x hx => by cases hx) fun store _ => .truth i b
  | string i hs => exact settles_string i hs
  | hole i =>
    intro p p' o h
    cases h
    exact .immediate (fun x hx => by cases hx) fun store _ => .immediate (.hole i)
  | variant i tag hv ih => exact settles_variant i tag hv ih
  | list i h ih => exact settles_list i h ih
  | record i hfields h ih => exact settles_record i hfields h ih
  | function i h => exact settles_function i h

end Compile

end Machine

end Scrap
