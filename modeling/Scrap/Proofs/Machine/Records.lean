import Scrap.Proofs.Machine.Constants
import Scrap.Proofs.Machine.Matching

/-! # Records and their fields

A field that is not there is the word zero, which is also the word of the integer zero. So an access reports that a key
is missing if it is, and also if the field is zero; in the same way a pattern falls through. Otherwise compiled code
finds what evaluation finds. -/

namespace Scrap

def Term.isRecord : Term → Bool
  | .record _ _ => true
  | _ => false

/-- Whether the field of a key is there and is the integer zero. -/
def Term.holdsZero (fields : Dict Term) (k : String) : Bool := (fields.get? k).any fun v => v.int? == some 0

/-- The fields of a pattern that are names, with a spread without a name as the last one or without. -/
def Term.areNames : Dict Term → Bool
  | [] => true
  | (_, .var _ _) :: ps => areNames ps
  | (_, .spread _ none) :: ps => ps.isEmpty
  | _ => false

/-- Whether a field that a pattern names is there and is the integer zero. -/
def Term.meetsZero (fields : Dict Term) : Dict Term → Bool
  | (k, .var _ _) :: ps => holdsZero fields k || meetsZero fields ps
  | _ => false

/-- Whether the term is a record, in which a field that the pattern names is the integer zero. -/
def Term.namesZero (ps : Dict Term) : Term → Bool
  | .record _ fields => meetsZero fields ps
  | _ => false

namespace Machine

open Code Compile Relation

variable {k x y : String} {w : Word} {p p' : Progress} {σ : Setting} {scope : Scope} {i j : Nat} {object : Term}
  {m : Image} {fields : Dict Term}
  {code : List Statement} {ps : Dict Term}

/-! ### Looking up -/

theorem Image.key_inj {m : Image} {l : String} (hk : k ∈ m.program.keys) : m.key k = m.key l ↔ k = l :=
  List.idxOf_inj hk

theorem lookup_eq_some_of_mem {slots : List (Nat × Word)} (hn : (slots.map Prod.fst).Nodup) {n : Nat} {u : Word}
    (h : (n, u) ∈ slots) : List.lookup n slots = some u := by
  obtain ⟨before, after, rfl⟩ := List.append_of_mem h
  rw [List.map_append, List.nodup_append] at hn
  refine List.lookup_eq_some_iff.mpr ⟨before, after, rfl, fun p hp => ?_⟩
  rw [bne_iff_ne]
  exact (hn.2.2 _ (List.mem_map_of_mem hp) n (.head _)).symm

def Store.isRecord (store : Store) (w : Word) : Bool :=
  match store.get? w with
  | some (.record _) => true
  | _ => false

theorem outcome_isRecord (w : Word) (s : State) : outcome (isRecord w) s = (.ok (s.store.isRecord w), s) := by
  unfold isRecord Store.isRecord
  rw [bind_ok (outcome_get? w s)]
  rcases s.store.get? w with _ | (_ | _ | _ | _ | _) <;> rfl

theorem outcome_recordFields {s : State} {slots : List (Nat × Word)}
    (h : s.store.get? w = some (.record slots)) : outcome (recordFields w) s = (.ok slots, s) := by
  rw [recordFields, bind_ok (outcome_get? w s), h]
  rfl

namespace Stands
variable {s : State} {o : Term}

theorem resolve (h : Stands m s.store w o) (heap : Heap) : heap.resolve o = o := by
  cases h with
  | immediate h => exact h.resolve heap
  | function ho hw => cases o <;> first | rfl | cases ho
  | _ => rfl

theorem slots (h : Stands m s.store w (.record i fields)) :
    ∃ slots, s.store.get? w = some (.record slots) ∧ slots.length = fields.length := by
  cases h with
  | immediate h => cases h
  | function ho hw => cases ho
  | record i value hfields hkeys hw hslots hvalue =>
    refine ⟨_, hw, ?_⟩
    rw [hslots.length_eq, List.length_map, Dict.keys, List.length_map]

theorem isRecord (h : Stands m s.store w o) : s.store.isRecord w = o.isRecord := by
  cases h with
  | immediate h =>
    rw [Store.isRecord, Store.get?_eq_none h.low]
    cases h <;> rfl
  | truth i b =>
    have := Word.int_even (if b then 1 else 0)
    rw [Store.isRecord, Store.get?_eq_none (by omega)]
    rfl
  | long i hs hw | cons i j hw | boxed i ht hw | record i value hfields hkeys hw =>
    rw [Store.isRecord, hw]
    rfl
  | function ho hw =>
    rw [Store.isRecord, hw]
    cases o <;> first | rfl | cases ho

/-- What a program finds for a key: the word of the field, or zero if there is none. -/
theorem field (h : Stands m s.store w (.record i fields)) (hk : k ∈ m.program.keys) :
    ∃ u, outcome (Machine.field w (m.key k)) s = (.ok u, s) ∧
      (u = 0 ↔ fields.get? k = none ∨ Term.holdsZero fields k = true) ∧
      ∀ v, fields.get? k = some v → Stands m s.store u v := by
  cases h with
  | immediate h => cases h
  | function ho hw => cases ho
  | @record _ _ _ slots value hfields hkeys hw hslots hvalue =>
    have hfield : outcome (Machine.field w (m.key k)) s = (.ok ((List.lookup (m.key k) slots).getD 0), s) := by
      rw [Machine.field, bind_ok (outcome_recordFields hw)]
      rfl
    refine ⟨_, hfield, ?_⟩
    cases hget : fields.get? k with
    | none =>
      have hnone : List.lookup (m.key k) slots = none := by
        rw [List.lookup_eq_none_iff]
        intro p hp
        obtain ⟨l, hl, rfl⟩ := List.mem_map.mp (hslots.mem_iff.mp hp)
        rw [bne_iff_ne, Ne, Image.key_inj hk]
        rintro rfl
        exact Dict.get?_eq_none_iff.mp hget hl
      rw [hnone]
      exact ⟨⟨fun _ => .inl rfl, fun _ => rfl⟩, fun v hv => by cases hv⟩
    | some v =>
      have hnodup : (slots.map Prod.fst).Nodup := by
        rw [(hslots.map Prod.fst).nodup_iff, List.map_map]
        exact hfields.map_on fun a ha b hb hab => (Image.key_inj (hkeys ha)).mp hab
      have hmem : (m.key k, value k) ∈ slots :=
        hslots.mem_iff.mpr (List.mem_map.mpr ⟨k, List.mem_map_of_mem (Dict.mem_of_get? hget), rfl⟩)
      have hv := hvalue k v (Dict.mem_of_get? hget)
      rw [lookup_eq_some_of_mem hnodup hmem, Option.getD_some, hv.eq_zero_iff, Term.holdsZero, hget]
      refine ⟨by simp, fun v' hv' => ?_⟩
      cases hv'
      exact hv

end Stands

/-! ### Access -/

def accessCode (made : Nat) (record : Operand) (k : String) : List Statement :=
  [.require (.record record), .bind (tempName made) (.field record k), .require (.present (tempName made) k)]

theorem emit_keys {st : Statement} (h : outcome (emit st) p = (.ok (), p')) : p'.program.keys = p.program.keys := by
  cases h
  rfl

theorem bind_keys {c : Call} (h : outcome (Compile.bind c) p = (.ok x, p')) : p'.program.keys = p.program.keys := by
  cases h
  rfl

theorem collect_keys (h : outcome (Compile.collect σ) p = (.ok (), p')) : p'.program.keys = p.program.keys := by
  unfold Compile.collect at h
  split at h
  · exact emit_keys h
  · cases h
    rfl

theorem access_wrote {name : Option String} {o : Operand}
    (h : outcome (compile σ scope name (.access i object (.var j k))) p = (.ok o, p')) :
    ∃ record p₁, outcome (compile σ scope none object) p = (.ok record, p₁) ∧ o = .name (tempName p₁.made) ∧
      Wrote p₁ p' (accessCode p₁.made record k) ∧ k ∈ p'.program.keys ∧ p₁.made < p'.made := by
  obtain ⟨record, p₁, hcompile, h⟩ := bind_returns (show outcome (compile σ scope none object >>= _) p = _ from h)
  obtain ⟨p2, hp2, hw2, hm2, hk⟩ := useKey_wrote k p₁
  obtain ⟨p3, hp3, hw3, hm3⟩ := emit_wrote (.require (.record record)) p2
  obtain ⟨p4, hp4, hw4, hm4⟩ := bind_wrote (.field record k) p3
  obtain ⟨p5, hp5, hw5, hm5⟩ := emit_wrote (.require (.present (tempName p3.made) k)) p4
  rw [bind_ok hp2, bind_ok hp3, bind_ok hp4, bind_ok hp5] at h
  cases h
  have hmade : p3.made = p₁.made := hm3.trans hm2
  refine ⟨record, p₁, hcompile, by rw [hmade], ?_, ?_, by omega⟩
  · rw [accessCode, ← hmade]
    exact hw2.trans (hw3.trans (hw4.trans hw5))
  · rw [emit_keys hp5, bind_keys hp4, emit_keys hp3]
    exact hk

section
variable {call : Caller} {args : Dict Word} {a : Point} {made made' : Nat} {record : Operand}

theorem access_runs (hk : k ∈ m.program.keys) (ha : a.skip = none) (hr : Provides m made a record w)
    (hw : Stands m a.state.store w (.record i fields)) (hroom : a.state.stack.size < stackSize) (hmade : made < made') :
    (Stops m call args (accessCode made record k) a (.report ("missing key " ++ k)) ↔
      fields.get? k = none ∨ Term.holdsZero fields k = true) ∧
    ∀ v, fields.get? k = some v → Term.holdsZero fields k = false →
      ∃ b u, Leads m call args (accessCode made record k) a b ∧ b.skip = none ∧ Kept made a b ∧
        Provides m made' b (.name (tempName made)) u ∧ Stands m b.state.store u v := by
  obtain ⟨frame, s, skip⟩ := a
  cases ha
  obtain ⟨u, hu, hzero, hvalue⟩ := hw.field hk
  have hisRecord : Leads m call args [.require (.record record)] ⟨frame, s, none⟩ ⟨frame, s, none⟩ := by
    refine .require ?_
    show outcome (operand m frame record >>= _) s = _
    rw [bind_ok hr.outcome, outcome_isRecord, hw.isRecord]
    rfl
  have hbind : Leads m call args [.bind (tempName made) (.field record k)] ⟨frame, s, none⟩
      ⟨frame.set (tempName made) s.stack.size, { s with stack := s.stack.push u }, none⟩ := by
    refine .bind ?_ hroom
    show outcome (operand m frame record >>= _) s = _
    rw [bind_ok hr.outcome, hu]
  have hheld := holds_bound frame s (tempName made) u
  have hpresent : outcome (met m (frame.set (tempName made) s.stack.size) (.present (tempName made) k))
      { s with stack := s.stack.push u } = (.ok (decide (u ≠ 0)), { s with stack := s.stack.push u }) :=
    bind_ok hheld.outcome
  have hgoes (hne : u ≠ 0) : Leads m call args (accessCode made record k) ⟨frame, s, none⟩
      ⟨frame.set (tempName made) s.stack.size, { s with stack := s.stack.push u }, none⟩ := by
    rw [decide_eq_true hne] at hpresent
    exact hisRecord.trans (hbind.trans (.require hpresent))
  refine ⟨?_, fun v hv hholds => ?_⟩
  · rw [← hzero]
    constructor
    · intro hstop
      by_contra hne
      have hstop := hstop []
      rw [hgoes hne] at hstop
      cases hstop
    · rintro rfl
      rw [decide_eq_false (by simp)] at hpresent
      exact hisRecord.stops (hbind.stops (.require hpresent))
  · have hne : u ≠ 0 := fun h => by simpa [hv, hholds] using hzero.mp h
    exact ⟨_, u, hgoes hne, rfl, .bind frame s made u none none, .named (settled_tempName hmade) hheld, hvalue v hv⟩

end

/-! ### Patterns -/

/-- What an environment gives a name, the variable that the scope gives it stands for. -/
def Bound (m : Image) (made : Nat) (scope : Scope) (env : Env) (a : Point) : Prop :=
  ∀ y t, env.get? y = some t → ∃ z w, scope.get? y = some (.name z) ∧ Settled made z ∧ Holds a.frame a.state z w ∧
    Stands m a.state.store w t

namespace Bound
variable {made made' : Nat} {env : Env} {a b : Point}

theorem nil (m : Image) (made : Nat) (a : Point) : Bound m made [] [] a := fun y t h => by cases h

theorem set (h : Bound m made scope env a) {z : String} {t : Term} (y : String) (hz : Settled made z)
    (hw : Holds a.frame a.state z w) (ht : Stands m a.state.store w t) :
    Bound m made (scope.set y (.name z)) (env.set y t) a := by
  intro y' t' h'
  rw [Dict.get?_set] at h' ⊢
  split at h'
  · cases h'
    exact ⟨z, w, by simp [*], hz, hw, ht⟩
  · rename_i hy
    rw [if_neg hy]
    exact h y' t' h'

theorem kept (h : Bound m made scope env a) (hk : Kept made a b) (hm : made ≤ made') : Bound m made' scope env b := by
  intro y t hy
  obtain ⟨z, w, hz, hset, hw, ht⟩ := h y t hy
  exact ⟨z, w, hz, hset.mono hm, hk.holds hset hw, hk.store ▸ ht⟩

end Bound

/-- The code of the fields of a record pattern, of which `found` are the names so far. -/
structure FieldsCode (heap : Heap) (x : String) (target : Label) (count : Nat) (ps : Dict Term) (found : Scope)
    (p p' : Progress) (code : List Statement) (scope : Scope) : Prop where
  wrote : Wrote p p' code
  noLabels : NoLabels code
  keys : p.program.keys ⊆ p'.program.keys
  decides : ∀ {m : Image} {call : Caller} {args : Dict Word} {a : Point} {w : Word} {i : Nat} {fields : Dict Term}
    {seen : List String} {env : Env} {r : Option Env}, p'.program.keys ⊆ m.program.keys → a.skip = none →
    Holds a.frame a.state x w → Stands m a.state.store w (.record i fields) →
    a.state.stack.size + p'.made ≤ stackSize + p.made → Bound m p.made found env a →
    Term.matchFields heap ps fields count seen env = .ok r →
    Ends m call args target code p.made p'.made (Bound m p'.made scope) a (if Term.meetsZero fields ps then none else r)

section
variable {heap : Heap} {target : Label} {count : Nat}

theorem fieldsCode_nil (found : Scope) : ∃ p' code, outcome (matchFields σ x target count found []) p =
    (.ok found, p') ∧ FieldsCode heap x target count [] found p p' code found := by
  obtain ⟨p', hp', hwrote, hm⟩ := emit_wrote (.jumpIf (.otherSize x count) target) p
  refine ⟨p', [.jumpIf (.otherSize x count) target], ?_, hwrote, noLabels_jumpIf noLabels_nil,
    (emit_keys hp').symm ▸ List.Subset.refl _, ?_⟩
  · rw [matchFields, bind_ok hp']
    rfl
  · intro m call args a w i fields seen env r hkeys ha hx hw hroom hbound hr
    obtain ⟨slots, hget, hlen⟩ := hw.slots
    have htest : outcome (fails m a.frame (.otherSize x count)) a.state =
        (.ok (decide (slots.length ≠ count)), a.state) :=
      (bind_ok hx.outcome).trans (bind_ok (outcome_recordFields hget))
    rw [Term.matchFields] at hr
    cases hr
    have hv : (if Term.meetsZero fields [] then none else if count = fields.length then some env else none) =
        if decide (slots.length ≠ count) then none else some env := by
      rw [hlen]
      by_cases hcount : count = fields.length <;> simp [Term.meetsZero, hcount, Ne.symm]
    rw [hv, hm]
    exact Ends.test ha htest noLabels_nil fun _ => .done ha hbound

theorem fieldsCode_spread (found : Scope) (k : String) (j : Nat) :
    FieldsCode heap x target count [(k, .spread j none)] found p p [] found where
  wrote := .refl p
  noLabels := noLabels_nil
  keys := List.Subset.refl _
  decides {m call args a w i fields seen env r} hkeys ha hx hw hroom hbound hr := by
    rw [Term.matchFields] at hr
    cases hr
    exact .done ha hbound

/-- The code that looks for the field of a name. -/
def lookCode (x : String) (target : Label) (made : Nat) (k : String) : List Statement :=
  [.bind (tempName made) (.field (.name x) k), .jumpIf (.absent (tempName made)) target]

theorem fieldsCode_name {found : Scope} {p₁ : Progress}
    (hx : Settled p.made x) (hw1 : Wrote p p₁ (lookCode x target p.made k))
    (hm1 : p.made < p₁.made) (hk : k ∈ p₁.program.keys) (hk1 : p.program.keys ⊆ p₁.program.keys)
    (hrest : FieldsCode heap x target count ps (found.set y (.name (tempName p.made))) p₁ p' code scope) :
    FieldsCode heap x target count ((k, .var j y) :: ps) found p p' (lookCode x target p.made k ++ code) scope where
  wrote := hw1.trans hrest.wrote
  noLabels := noLabels_bind (noLabels_jumpIf hrest.noLabels)
  keys := List.Subset.trans hk1 hrest.keys
  decides {m call args a w i fields seen env r} hkeys ha hxw hw hroom hbound hr := by
    have hmade := hrest.wrote.made
    obtain ⟨u, hu, hzero, hvalue⟩ := hw.field (hkeys (hrest.keys hk))
    rw [Term.matchFields_cons rfl] at hr
    refine Ends.bind ha hm1 ((bind_ok hxw.outcome).trans hu) (by omega) fun b hb hkept hy hsize => ?_
    have hv : (if Term.meetsZero fields ((k, .var j y) :: ps) then none else r) =
        if decide (u = 0) then none else if Term.meetsZero fields ps then none else r := by
      by_cases h0 : u = 0
      · rcases hzero.mp h0 with hget | hholds
        · rw [hget] at hr
          cases hr
          simp
        · simp [h0, Term.meetsZero, hholds]
      · have hholds : Term.holdsZero fields k = false := by simpa using fun h => h0 (hzero.mpr (.inr h))
        simp [h0, Term.meetsZero, hholds]
    rw [hv]
    refine Ends.test hb (bind_ok hy.outcome) hrest.noLabels fun hne => ?_
    cases hget : fields.get? k with
    | none => exact absurd (hzero.mpr (.inl hget)) (by simpa using hne)
    | some v =>
      rw [hget] at hr
      simp only [Term.matchPattern] at hr
      refine hrest.decides hkeys hb (hkept.holds hx hxw) (hkept.store ▸ hw) (by omega) ?_ hr
      exact (hbound.kept hkept hm1.le).set y (settled_tempName hm1) hy (hkept.store ▸ hvalue v hget)

end

/-- The fields of a pattern have code, and it decides what matching decides unless a field is zero. -/
theorem fieldsCode (σ : Setting) (heap : Heap) (target : Label) (count : Nat)
    (hps : Term.areNames ps = true) (found : Scope) (hx : Settled p.made x) :
    ∃ scope p' code, outcome (matchFields σ x target count found ps) p = (.ok scope, p') ∧
      FieldsCode heap x target count ps found p p' code scope := by
  induction ps generalizing p found with
  | nil =>
    obtain ⟨p', code, h⟩ := fieldsCode_nil found
    exact ⟨found, p', code, h⟩
  | cons f ps ih =>
    obtain ⟨k, q⟩ := f
    cases q with
    | var j y =>
      obtain ⟨p₁, hp1, hw1, hm1, hk⟩ := useKey_wrote k p
      obtain ⟨p2, hp2, hw2, hm2⟩ := bind_wrote (.field (.name x) k) p₁
      obtain ⟨p3, hp3, hw3, hm3⟩ := emit_wrote (.jumpIf (.absent (tempName p₁.made)) target) p2
      have hkeys : p3.program.keys = p₁.program.keys := (emit_keys hp3).trans (bind_keys hp2)
      obtain ⟨scope, p', code, hp', hcode⟩ :=
        ih hps (found.set y (.name (tempName p.made))) (hx.mono (show p.made ≤ p3.made by omega))
      refine ⟨scope, p', lookCode x target p.made k ++ code, ?_, fieldsCode_name hx ?_ (by omega) (hkeys ▸ hk)
        (hkeys ▸ (useKey_grows hp1).keys) hcode⟩
      · rw [matchFields_cons_eq (fun i name h => by cases h), bind_ok hp1, bind_ok hp2,
          bind_ok hp3, hm1]
        exact hp'
      · rw [lookCode, ← hm1]
        exact hw1.trans (hw2.trans hw3)
    | spread j name =>
      cases name with
      | none =>
        obtain rfl : ps = [] := List.isEmpty_iff.mp hps
        exact ⟨found, p, [], by rw [matchFields]; rfl, fieldsCode_spread found k j⟩
      | some y => cases hps
    | _ => cases hps

theorem areFieldPatterns_of_areNames (hps : Term.areNames ps = true) : Term.areFieldPatterns ps = true := by
  induction ps with
  | nil => rfl
  | cons f ps ih =>
    obtain ⟨k, q⟩ := f
    cases q with
    | var j y => exact ih hps
    | spread j name =>
      cases name with
      | none => exact hps
      | some y => cases hps
    | _ => cases hps

/-- The code of a record pattern, for values in the variable `x`. It falls through exactly if the value does not match or a
field that the pattern names is zero, and otherwise it goes on with the names of the pattern. -/
def RecordCode (heap : Heap) (x : String) (target : Label) (i : Nat) (ps : Dict Term) (p p' : Progress) (scope : Scope)
    (code : List Statement) : Prop :=
  ∀ {m : Image} {call : Caller} {args : Dict Word} {frame : Frame} {s : State} {w : Word} {o : Term},
    p'.program.keys ⊆ m.program.keys → Holds frame s x w → Stands m s.store w o →
    s.stack.size + p'.made ≤ stackSize + p.made →
    (FallsThrough m call args target code ⟨frame, s, none⟩ ↔
      (Term.record i ps).matchPattern heap o = .ok none ∨ o.namesZero ps = true) ∧
    ∀ env, (Term.record i ps).matchPattern heap o = .ok (some env) → o.namesZero ps = false →
      ∃ b, b.skip = none ∧ Leads m call args code ⟨frame, s, none⟩ b ∧ Bound m p'.made scope env b

theorem recordPattern_code (σ : Setting) (heap : Heap) (target : Label) (i : Nat)
    (hps : Term.areNames ps = true) (hx : Settled p.made x) :
    ∃ scope p' code, outcome (tryMatch σ x target (.record i ps)) p = (.ok scope, p') ∧ Wrote p p' code ∧
      RecordCode heap x target i ps p p' scope code := by
  obtain ⟨p₁, hp1, hw1, hm1⟩ := emit_wrote (.jumpIf (.notRecord x) target) p
  obtain ⟨scope, p', code, hp', hcode⟩ := fieldsCode σ heap target ps.length hps [] (hm1.symm ▸ hx)
  refine ⟨scope, p', .jumpIf (.notRecord x) target :: code, ?_, hw1.trans hcode.wrote, ?_⟩
  · show outcome (emit (.jumpIf (.notRecord x) target) >>= _) p = _
    rw [bind_ok hp1]
    exact hp'
  intro m call args frame s w o hkeys hxw ho hroom
  have htest : outcome (fails m frame (.notRecord x)) s = (.ok (!o.isRecord), s) := by
    refine (bind_ok hxw.outcome).trans ?_
    rw [bind_ok (outcome_isRecord w s), ho.isRecord]
    rfl
  rw [← hm1] at hroom
  obtain ⟨r, hmatch, hend⟩ : ∃ r, (Term.record i ps).matchPattern heap o = .ok r ∧
      Ends m call args target (.jumpIf (.notRecord x) target :: code) p₁.made p'.made (Bound m p'.made scope)
        ⟨frame, s, none⟩ (if o.namesZero ps then none else r) := by
    rw [Term.matchPattern, ho.resolve]
    cases o with
    | record j fields =>
      obtain ⟨r, hr, -⟩ := Term.matchFields_finds (Term.inherited_true heap)
        (fun q _ t hq ht => Term.matchPattern_finds (Term.inherited_true heap) hq ht)
        (areFieldPatterns_of_areNames hps) (i := j) trivial ps.length [] []
      exact ⟨r, hr, .pass rfl htest hcode.noLabels (hcode.decides hkeys rfl hxw ho hroom (.nil m _ _) hr)⟩
    | _ => exact ⟨none, rfl, .refuse rfl htest hcode.noLabels⟩
  rw [hmatch]
  refine ⟨hend.fallsThrough_iff.trans ?_, fun env henv hzero => ?_⟩
  · split <;> simp [*]
  · cases henv
    rw [hzero] at hend
    obtain ⟨b, hb, hlead, -, -, hbound⟩ := hend
    exact ⟨b, hb, hlead, hbound⟩

/-! ### Building -/

def builderCode (σ : Setting) (made : Nat) (keys : List String) : List Statement :=
  .enter :: (keys.map .protect ++ (.bind (tempName made) (.newRecord keys.length) ::
    (keys.zipIdx.map (fun f => .setField (tempName made) f.2 f.1 f.1) ++
      ((if σ.debug then [.collect] else []) ++ [.return (.name (tempName made))]))))

def builder (σ : Setting) (made : Nat) (keys : List String) : Function where
  name := builderName keys
  params := keys
  body := (builderCode σ made keys).toArray

theorem setFields_wrote (r : String) (fs : List (String × Nat)) (p : Progress) :
    ∃ p', outcome (fs.forM fun f => do
        useKey f.1
        emit (.setField r f.2 f.1 f.1)) p = (.ok (), p') ∧ Wrote p p' (fs.map fun f => .setField r f.2 f.1 f.1) ∧
      p'.made = p.made ∧ fs.map Prod.fst ⊆ p'.program.keys ∧ p.program.keys ⊆ p'.program.keys := by
  induction fs generalizing p with
  | nil => exact ⟨p, rfl, .refl p, rfl, List.nil_subset _, List.Subset.refl _⟩
  | cons f fs ih =>
    obtain ⟨p₁, hp1, hw1, hm1, hk⟩ := useKey_wrote f.1 p
    obtain ⟨p2, hp2, hw2, hm2⟩ := emit_wrote (.setField r f.2 f.1 f.1) p₁
    obtain ⟨p', hp', hw', hm', hks, hsub⟩ := ih p2
    have hkeys1 := (useKey_grows hp1).keys
    rw [emit_keys hp2] at hsub
    refine ⟨p', ?_, hw1.trans (hw2.trans hw'), by omega, List.cons_subset.mpr ⟨hsub hk, hks⟩,
      List.Subset.trans hkeys1 hsub⟩
    have hfirst : outcome (useKey f.1 >>= fun _ => emit (.setField r f.2 f.1 f.1)) p = (.ok (), p2) := by
      rw [bind_ok hp1, hp2]
    exact (bind_ok hfirst).trans hp'

theorem modify_push (fs : Array Function) (f : Function) (g : Function → Function) :
    (fs.push f).modify fs.size g = fs.push (g f) := by
  refine Array.ext (by simp) fun i hi hi' => ?_
  rw [Array.getElem_modify, Array.getElem_push, Array.getElem_push]
  split
  · rename_i h
    subst h
    simp
  · rename_i h
    have hlt : i < fs.size := by
      simp at hi
      omega
    simp [hlt]

/-- A builder that is not there yet is written as a function of its own. -/
theorem recordBuilder_wrote (σ : Setting) {keys : List String} (hnew : List.lookup keys p.builders = none) :
    ∃ p', outcome (recordBuilder σ keys) p = (.ok (builderName keys), p') ∧
      p'.program.functions = p.program.functions.push (builder σ p.made keys) ∧ p'.current = p.current ∧
      keys ⊆ p'.program.keys := by
  obtain ⟨p2, hp2, hw2, hm2⟩ :=
    bind_wrote (.newRecord keys.length) (p.opened { name := builderName keys, params := keys })
  obtain ⟨p3, hp3, hw3, hm3, hkeys, -⟩ := setFields_wrote (tempName p.made) keys.zipIdx p2
  obtain ⟨p4, hp4, hw4, hm4⟩ := collect_wrote σ p3
  obtain ⟨p5, hp5, hw5, hm5⟩ := emit_wrote (.return (.name (tempName p.made))) p4
  have hall := hw2.trans (hw3.trans (hw4.trans hw5))
  refine ⟨{ p5 with current := p.current, builders := (keys, builderName keys) :: p5.builders }, ?_, ?_, rfl, ?_⟩
  · have hget : outcome (get : CompileM Progress) p = (.ok p, p) := rfl
    have hopen : outcome (openFunction { name := builderName keys, params := keys }) p =
        (.ok p.current, p.opened { name := builderName keys, params := keys }) := rfl
    unfold recordBuilder
    rw [bind_ok hget, hnew]
    refine (bind_ok hopen).trans ?_
    rw [bind_ok hp2]
    refine (bind_ok hp3).trans ?_
    rw [bind_ok hp4]
    exact bind_ok hp5
  · show p5.program.functions = _
    rw [hall.functions]
    refine (modify_push p.program.functions _ _).trans (congrArg _ ?_)
    simp [builder, builderCode, Progress.opened]
  · show keys ⊆ p5.program.keys
    rw [List.zipIdx_map_fst] at hkeys
    rw [emit_keys hp5, collect_keys hp4]
    exact hkeys

section Running
variable {call : Caller} {args : Dict Word} {frame : Frame} {s : State} {value : String → Word}
  {ks : List String}

theorem leads_protect (hks : ks.Nodup) (hargs : ∀ k ∈ ks, (args.get? k).getD 0 = value k) (frame : Frame) (s : State)
    (hroom : s.stack.size + ks.length ≤ stackSize) : ∃ frame', Leads m call args (ks.map .protect) ⟨frame, s, none⟩
        ⟨frame', { s with stack := s.stack ++ (ks.map value).toArray }, none⟩ ∧
      (∀ x, frame'.has x = true → x ∈ ks ∨ frame.has x = true) ∧
      (∀ k ∈ ks, Holds frame' { s with stack := s.stack ++ (ks.map value).toArray } k (value k)) ∧
      ∀ x w, x ∉ ks → Holds frame s x w → Holds frame' { s with stack := s.stack ++ (ks.map value).toArray } x w := by
  induction ks generalizing frame s with
  | nil =>
    refine ⟨frame, ?_, fun x h => .inr h, fun k hk => (by cases hk), fun x w _ h => ?_⟩
    · simpa using Leads.refl _
    · simpa using h
  | cons k ks ih =>
    rw [List.nodup_cons] at hks
    rw [List.length_cons] at hroom
    have hfirst : Leads m call args [.protect k] ⟨frame, s, none⟩
        ⟨frame.set k s.stack.size, { s with stack := s.stack.push (value k) }, none⟩ := by
      intro rest
      simp only [List.singleton_append, exec]
      rw [hargs k (.head _), bind_ok (outcome_setLocal frame k _ (by omega))]
    obtain ⟨frame', hlead, hhas, hheld, hother⟩ := ih hks.2 (fun l hl => hargs l (.tail _ hl))
      (frame.set k s.stack.size) { s with stack := s.stack.push (value k) } (by simp; omega)
    have hstack : s.stack.push (value k) ++ (ks.map value).toArray = s.stack ++ ((k :: ks).map value).toArray := by simp
    simp only [hstack] at hlead hheld hother
    refine ⟨frame', hfirst.trans hlead, fun x hx => ?_, fun l hl => ?_, fun x w hx hw => ?_⟩
    · rcases hhas x hx with h | h
      · exact .inl (.tail _ h)
      · rcases (Dict.has_set _ _ _ _).mp h with rfl | h
        · exact .inl (.head _)
        · exact .inr h
    · rcases List.mem_cons.mp hl with rfl | hl
      · exact hother _ _ hks.1 (holds_bound frame s _ _)
      · exact hheld l hl
    · rw [List.mem_cons, not_or] at hx
      obtain ⟨i, hi, hget⟩ := hw
      refine hother x w hx.2 ⟨i, by rw [Dict.get?_set, if_neg hx.1, hi], ?_⟩
      obtain ⟨hlt, -⟩ := Array.getElem?_eq_some_iff.mp hget
      show (s.stack.push _)[i]? = _
      rw [Array.getElem?_push, if_neg (by omega), hget]

theorem Leads.setField {r : String} {u : Word} {slots : List (Nat × Word)}
    (hr : Holds frame s r w) (hk : Holds frame s k u) (hw : s.store.get? w = some (.record slots)) :
    Leads m call args [.setField r i k k] ⟨frame, s, none⟩
      ⟨frame, { s with store := s.store.set w (.record (slots.set i (m.key k, u))) }, none⟩ := by
  intro rest
  simp only [List.singleton_append, exec]
  rw [bind_ok hr.outcome, bind_ok hk.outcome, bind_ok (outcome_recordFields hw)]
  rfl

theorem set_withObject (hroom : s.store.total < 2305843009213693952) (x y : Object)
    (used : Nat) : (s.withObject x used).store.set (Word.pointer s.store.total) y = (s.withObject y used).store := by
  have hset : (s.store.objects.push x).setIfInBounds s.store.objects.size y = s.store.objects.push y := by
    rw [← Array.toList_inj, Array.toList_setIfInBounds, Array.toList_push, Array.toList_push, ← Array.length_toList,
      List.set_append_right _ _ (Nat.le_refl _), Nat.sub_self]
    rfl
  rw [Store.set, Word.target_pointer hroom]
  simp only [State.withObject, Nat.add_sub_cancel_left, hset]

theorem Holds.withObject (h : Holds frame s y w) (x : Object) (used : Nat) : Holds frame (s.withObject x used) y w := by
  obtain ⟨i, hi, hget⟩ := h
  obtain ⟨hlt, -⟩ := Array.getElem?_eq_some_iff.mp hget
  refine ⟨i, hi, ?_⟩
  show (s.stack.push _)[i]? = _
  rw [Array.getElem?_push, if_neg (by omega), hget]

theorem holds_withObject (h : frame.get? y = some s.stack.size) (x : Object) (used : Nat) :
    Holds frame (s.withObject x used) y (Word.pointer s.store.total) :=
  ⟨_, h, by simp [State.withObject]⟩

theorem leads_setFields {r : String} (hroom : s.store.total < 2305843009213693952)
    (hr : frame.get? r = some s.stack.size) (hks : ∀ k ∈ ks, Holds frame s k (value k))
    (done : List String) (used : Nat) : Leads m call args ((ks.zipIdx done.length).map fun f => .setField r f.2 f.1 f.1)
      ⟨frame, s.withObject (.record (done.map (fun k => (m.key k, value k)) ++ List.replicate ks.length (0, 0))) used, none⟩
      ⟨frame, s.withObject (.record ((done ++ ks).map fun k => (m.key k, value k))) used, none⟩ := by
  induction ks generalizing done with
  | nil => simpa using Leads.refl _
  | cons k ks ih =>
    have hvalue (x : Object) : Holds frame (s.withObject x used) k (value k) :=
      (hks k (.head _)).withObject x used
    have hslots : (done.map (fun k => (m.key k, value k)) ++ List.replicate (k :: ks).length (0, 0)).set done.length
        (m.key k, value k) = (done ++ [k]).map (fun k => (m.key k, value k)) ++ List.replicate ks.length (0, 0) := by
      rw [List.set_append_right _ _ (by simp), List.length_map, Nat.sub_self, List.length_cons, List.replicate_succ,
        List.set_cons_zero, List.map_append, List.append_assoc]
      rfl
    have hfirst (slots : List (Nat × Word)) (i : Nat) : Leads m call args [.setField r i k k]
        ⟨frame, s.withObject (.record slots) used, none⟩
        ⟨frame, s.withObject (.record (slots.set i (m.key k, value k))) used, none⟩ := by
      have hset : Leads m call args [.setField r i k k] ⟨frame, s.withObject (.record slots) used, none⟩ _ :=
        .setField (holds_withObject hr _ _) (hvalue _) (get?_withObject hroom)
      rw [set_withObject hroom] at hset
      exact hset
    have hrest := ih (fun l hl => hks l (.tail _ hl)) (done ++ [k])
    rw [← hslots, List.length_append, List.length_singleton, List.append_assoc] at hrest
    exact (hfirst _ _).trans hrest

theorem leads_collect (hframe : hidesStore frame = false) (σ : Setting) (hs : s.store.Sound s.stack) :
    ∃ f s', Leads m call args (if σ.debug then [.collect] else []) ⟨frame, s, none⟩ ⟨frame, s', none⟩ ∧ Moved f s s' := by
  cases σ.debug with
  | false => exact ⟨id, s, .refl _, .refl hs⟩
  | true =>
    obtain ⟨f, s', hcollect, hmoved⟩ := moved_collect hs
    refine ⟨f, s', fun rest => ?_, hmoved⟩
    simp only [if_true, List.singleton_append, exec, hframe]
    exact bind_ok hcollect

theorem leads_newRecord (hframe : hidesStore frame = false) (hs : s.store.Sound s.stack)
    (hroom : s.stack.size < stackSize) (x : String) (n : Nat) :
    Stops m call args [.bind x (.newRecord n)] ⟨frame, s, none⟩ (.report "out of memory") ∨
      ∃ f s' used, Moved f s s' ∧ Leads m call args [.bind x (.newRecord n)] ⟨frame, s, none⟩
        ⟨frame.set x s'.stack.size, s'.withObject (.record (List.replicate n (0, 0))) used, none⟩ := by
  have hresult : result m call frame (.newRecord n) = allocate (.record (List.replicate n (0, 0))) := by
    show allocateIn frame _ = _
    rw [allocateIn, hframe]
    rfl
  rcases moved_allocate hs (.record (List.replicate n (0, 0))) with hnone | ⟨f, s', hmoved, hsome⟩
  · refine .inl (.bind ?_)
    rw [hresult]
    exact hnone
  · refine .inr ⟨f, s', _, hmoved, .bind (hresult ▸ hsome) ?_⟩
    show s'.stack.size < stackSize
    rw [hmoved.stack, Array.size_map]
    exact hroom

end Running

section Builders
variable {s : State} {keys : List String} {value : String → Word}

theorem record_withObject (hs : s.store.Sound s.stack) (hspace : s.store.total < 2305843009213693952) (i used : Nat)
    (hnodup : keys.Nodup) (hkeys : keys ⊆ m.program.keys) (hfields : fields.keys.Perm keys)
    (hstack : ∀ k ∈ keys, value k ∈ s.stack) (hvalue : ∀ k v, (k, v) ∈ fields → Stands m s.store (value k) v) :
    (s.withObject (.record (keys.map fun k => (m.key k, value k))) used).store.Sound
        (s.withObject (.record (keys.map fun k => (m.key k, value k))) used).stack ∧
      Stands m (s.withObject (.record (keys.map fun k => (m.key k, value k))) used).store
        (Word.pointer s.store.total) (.record i fields) := by
  refine ⟨sound_withObject hs hspace fun w hw hm => ?_, ?_⟩
  · rw [Object.words, List.map_map] at hw
    obtain ⟨k, hk, rfl⟩ := List.mem_map.mp hw
    exact hs.roots _ (hstack k hk) hm
  · refine .record i value (hfields.nodup_iff.mpr hnodup) (fun k hk => hkeys (hfields.subset hk)) (get?_withObject hspace)
      (hfields.symm.map _) fun k v hv => ?_
    have hk : k ∈ keys := hfields.subset (List.mem_map_of_mem hv)
    exact (hvalue k v hv).rename (f := id) (fun _ _ => rfl) (fun v hv =>
      (get?_withObject_of_reaches hs hv).trans ((Moved.refl hs).objects v hv)) (.root (hstack k hk))

theorem get?_zip_map (hnodup : keys.Nodup) (value : String → Word) (hk : k ∈ keys) :
    (Dict.get? (keys.zip (keys.map value)) k).getD 0 = value k := by
  have hmem : (k, value k) ∈ keys.zip (keys.map value) := by
    rw [← List.map_prod_left_eq_zip]
    exact List.mem_map_of_mem hk
  have hproper : Dict.Proper (keys.zip (keys.map value)) := by
    rw [Dict.Proper, Dict.keys, List.map_fst_zip (by simp)]
    exact hnodup
  rw [Dict.get?_of_mem hproper hmem]
  rfl

/-- The words for the fields of a record, with which a builder can be called that was written when `made` names had been
made. -/
structure BuilderCall (m : Image) (made : Nat) (keys : List String) (fields : Dict Term) (value : String → Word)
    (s : State) : Prop where
  nodup : keys.Nodup
  noHeap : "heap" ∉ keys
  noTemp : tempName made ∉ keys
  perm : fields.keys.Perm keys
  values : ∀ k v, (k, v) ∈ fields → Stands m s.store (value k) v
  sound : s.store.Sound (s.stack ++ (keys.map value).toArray)
  room : s.stack.size + keys.length < stackSize
  space : s.store.total < 2305843009213693952

def Gives (m : Image) (result : Except Stop Word × State) (o : Term) : Prop :=
  result.1 = .error (.report "out of memory") ∨ ∃ w s', result = (.ok w, s') ∧ Stands m s'.store w o

/-- A builder returns a record of the values it is given, wherever they have moved, unless there is no memory for it. -/
theorem builder_gives {made fuel : Nat} (i : Nat)
    (hbuilder : m.program.functions.find? (·.name = builderName keys) = some (builder σ made keys))
    (hkeys : keys ⊆ m.program.keys) (hcall : BuilderCall m made keys fields value s) :
    Gives m (outcome (callWithin m (fuel + 1) (builderName keys) (keys.map value)) s) (.record i fields) := by
  obtain ⟨hnodup, hheap, htemp, hfields, hvalue, hsound, hroom, hspace⟩ := hcall
  have henter : Leads m (callWithin m fuel) (keys.zip (keys.map value)) [.enter] ⟨[], s, none⟩ ⟨[], s, none⟩ :=
    fun rest => rfl
  obtain ⟨frame, hprotect, hhas, hheld, -⟩ :=
    leads_protect (m := m) hnodup (fun k hk => get?_zip_map hnodup value hk) [] s (by omega)
  have hhides : frame.has "heap" = false := by
    by_contra h
    rcases hhas "heap" (by simpa using h) with h | h
    · exact hheap h
    · cases h
  have hbegin := henter.trans hprotect
  have hbody : (builder σ made keys).body.toList = [.enter] ++ keys.map .protect ++
      [.bind (tempName made) (.newRecord keys.length)] ++
        (keys.zipIdx.map (fun f => .setField (tempName made) f.2 f.1 f.1) ++
          ((if σ.debug then [.collect] else []) ++ [.return (.name (tempName made))])) := by
    simp [builder, builderCode]
  rcases leads_newRecord (s := { s with stack := s.stack ++ (keys.map value).toArray }) hhides hsound
    (by simpa using hroom) (tempName made) keys.length with hstop | ⟨f, s2, used, hmoved, hnew⟩
  · refine .inl (outcome_call_error hbuilder ?_)
    rw [hbody]
    exact hbegin.stops hstop _
  have hspace2 : s2.store.total < 2305843009213693952 := by
    have hsize := hmoved.size
    rw [Store.total, hmoved.constants]
    exact Nat.lt_of_le_of_lt (Nat.add_le_add_left hsize _) hspace
  have hstack (k : String) (hk : k ∈ keys) : value k ∈ s.stack ++ (keys.map value).toArray := by
    simpa using .inr ⟨k, hk, rfl⟩
  have hstack2 (k : String) (hk : k ∈ keys) : f (value k) ∈ s2.stack := by
    rw [hmoved.stack]
    exact Array.mem_map_of_mem (hstack k hk)
  have hvalue2 (k : String) (v : Term) (hv : (k, v) ∈ fields) : Stands m s2.store (f (value k)) v :=
    hmoved.stands (.root (hstack k (hfields.subset (List.mem_map_of_mem hv)))) (hvalue k v hv)
  obtain ⟨hsound3, hstands3⟩ := record_withObject hmoved.sound hspace2 i used hnodup hkeys hfields hstack2 hvalue2
  have hname : (frame.set (tempName made) s2.stack.size).get? (tempName made) = some s2.stack.size := by
    rw [Dict.get?_set, if_pos rfl]
  have hheld2 (k : String) (hk : k ∈ keys) : Holds (frame.set (tempName made) s2.stack.size) s2 k (f (value k)) := by
    obtain ⟨n, hn, hget⟩ := hmoved.holds (hheld k hk)
    have hne : k ≠ tempName made := fun h => htemp (h ▸ hk)
    exact ⟨n, by rw [Dict.get?_set, if_neg hne, hn], hget⟩
  have hhides2 : hidesStore (frame.set (tempName made) s2.stack.size) = false := by
    rw [hidesStore, Bool.eq_false_iff]
    intro h
    rcases (Dict.has_set _ _ _ _).mp h with h | h
    · exact tempName_ne_heap made h
    · rw [hhides] at h
      cases h
  obtain ⟨g, s4, hcollect, hmoved4⟩ := leads_collect hhides2 σ hsound3
  have hresult := hmoved4.holds (holds_withObject hname _ _)
  refine .inr ⟨_, _, outcome_call hbuilder ?_, hmoved4.stands (.root (by simp [State.withObject])) hstands3⟩
  rw [hbody]
  exact ((hbegin.trans hnew) _).trans
    ((leads_setFields hspace2 hname hheld2 [] used _).trans ((hcollect _).trans hresult.outcome))

end Builders

/-! ### Agreement with evaluation -/

theorem outcome_access {rules : Eval.Rules} {run : Eval.Run} {env : Env} {g g' : Session} {l : Nat} {o : Term}
    {fields : Dict Term} (ho : outcome (run env object) g = (.ok o, g')) (hr : g'.heap.resolve o = .record i fields) :
    (outcome (Eval.step rules run env (.access j object (.var l k))) g).1 =
      (fields.get? k).elim (.error (.noField k)) .ok := by
  have hheap (s : Session) : outcome Session.heapNow s = (.ok s.heap, s) := rfl
  show (outcome (run env object >>= _) g).1 = _
  rw [bind_ok ho]
  refine (congrArg Prod.fst (bind_ok (hheap g'))).trans ?_
  cases hk : fields.get? k <;> simp only [hr, hk] <;> rfl

/-- Compiled code finds what evaluation finds in a record, unless that is the integer zero. The words of constant records
and of records that a builder returns stand for the records, an access to such a word stops the run for want of the key
if evaluation fails or the field is zero, and goes on with a word for the value of evaluation otherwise; a pattern of names
falls through if matching fails or a field that it names is zero, and binds the names as matching does otherwise. Texts
are below 128 throughout. -/
theorem record_agrees_iff (σ : Setting) :
    (∀ {scope : Scope} {name : Option String} {t : Term} {i : Nat} {fields : Dict Term} {p p' q : Progress}
        {o : Operand} {store : Store}, IsConstant (.record i fields) →
      ReflTransGen (Step t) (({} : Progress).opened { name := "scrap_main", params := [] }) p →
      outcome (compile σ scope name (.record i fields)) p = (.ok o, p') → ReflTransGen (Step t) p' q →
      q.program.constants.size < 2305843009213693952 → store.constants = (Image.ofProgram q.program).objects →
      Stands (.ofProgram q.program) store ((Image.ofProgram q.program).word o) (.record i fields)) ∧
    (∀ {m : Image} {p p' : Progress} {f : String} {fuel : Nat} {keys : List String} {fields : Dict Term}
        {value : String → Word} {s : State} (i : Nat), List.lookup keys p.builders = none →
      outcome (recordBuilder σ keys) p = (.ok f, p') →
      m.program.functions.find? (·.name = f) = p'.program.functions.back? → p'.program.keys ⊆ m.program.keys →
      BuilderCall m p.made keys fields value s →
      Gives m (outcome (callWithin m (fuel + 1) f (keys.map value)) s) (.record i fields)) ∧
    (∀ {scope : Scope} {name : Option String} {j l : Nat} {object : Term} {k : String} {p p' : Progress}
        {o : Operand}, outcome (compile σ scope name (.access j object (.var l k))) p = (.ok o, p') →
      ∃ r p₁ code, outcome (compile σ scope none object) p = (.ok r, p₁) ∧ Wrote p₁ p' code ∧
        ∀ {m : Image} {call : Caller} {args : Dict Word} {a : Point} {w : Word} {i : Nat} {fields : Dict Term}
            {run : Eval.Run} {env : Env} {g g' : Session} {x : Term}, p'.program.keys ⊆ m.program.keys → a.skip = none →
          a.state.stack.size < stackSize → Provides m p₁.made a r w → Stands m a.state.store w (.record i fields) →
          outcome (run env object) g = (.ok x, g') → g'.heap.resolve x = .record i fields →
          (Stops m call args code a (.report ("missing key " ++ k)) ↔
            (outcome (Eval.step .standard run env (.access j object (.var l k))) g).1 = .error (.noField k) ∨
              Term.holdsZero fields k = true) ∧
          ∀ v, (outcome (Eval.step .standard run env (.access j object (.var l k))) g).1 = .ok v →
            Term.holdsZero fields k = false →
            ∃ b u, Leads m call args code a b ∧ b.skip = none ∧ Kept p₁.made a b ∧ Provides m p'.made b o u ∧
              Stands m b.state.store u v) ∧
    ∀ (heap : Heap) {x : String} (target : Label) (i : Nat) {ps : Dict Term} {p : Progress},
      Term.areNames ps = true → Settled p.made x →
      ∃ scope p' code, outcome (tryMatch σ x target (.record i ps)) p = (.ok scope, p') ∧ Wrote p p' code ∧
        RecordCode heap x target i ps p p' scope code := by
  refine ⟨fun {scope name t i fields p p' q o store} hfields hp ho hq hsize hstore => ?_,
    fun {m p p' f fuel keys} _ _ _ i hnew hp hbuilder hkeys hcall => ?_, fun {scope name j l object k p p' o} h => ?_,
    fun heap x target i ps p hps hx => recordPattern_code σ heap target i hps hx⟩
  · have hstart : Numbered (({} : Progress).opened { name := "scrap_main", params := [] }) :=
      ⟨fun x hx => (by cases hx), .nil⟩
    have ho : outcome (compile σ scope none (.record i fields)) p = (.ok o, p') := ho
    have hsteps := ((stepsOf (P := {}) (.record i fields) .self).unnamed scope).steps ho
    have hnumbered : Numbered q := ((hstart.steps hp).steps hsteps).steps hq
    exact (settles hfields ho).stands ⟨steps_grow hq, hnumbered.nodup, hsize, hstore⟩
  · obtain ⟨p'', hp'', hfunctions, -, hused⟩ := recordBuilder_wrote σ hnew
    cases hp.symm.trans hp''
    rw [hfunctions, Array.back?_push] at hbuilder
    exact builder_gives i hbuilder (List.Subset.trans hused hkeys) hcall
  obtain ⟨r, p₁, hobject, rfl, hwrote, hk, hmade⟩ := access_wrote h
  refine ⟨r, p₁, _, hobject, hwrote, fun {m call args a w i fields} _ _ _ _ _ hkeys ha hroom hr hw hrun hresolve => ?_⟩
  rw [outcome_access hrun hresolve]
  obtain ⟨hstops, hleads⟩ := access_runs (hkeys hk) ha hr hw hroom hmade
  refine ⟨hstops.trans (or_congr_left ?_), fun v hv => hleads v ?_⟩
  · cases Dict.get? fields k <;> simp
  · cases hget : Dict.get? fields k <;> rw [hget] at hv <;> cases hv
    rfl

/-- The record `{a = 7}`. -/
def sevenField : Dict Term := [("a", .int 0 7)]

def oneKey : Image := { program := { keyNumbers := [("a", 0)] } }

def withSevenField : State where
  store := { objects := #[.record [(0, Word.int 7)]] }
  stack := #[Word.pointer 0]

theorem sevenField_stands : Stands oneKey withSevenField.store (Word.pointer 0) (.record 0 sevenField) := by
  have hget : withSevenField.store.get? (Word.pointer 0) = some (.record [(0, Word.int 7)]) :=
    Store.get?_pointer (by decide) _
  refine .record 0 (fun _ => Word.int 7) (List.nodup_singleton _) (by decide) hget (by decide) fun k v hv => ?_
  cases List.mem_singleton.mp hv
  exact .immediate (.int 0 (by decide))

/-- The program for `x@a` goes on with a word for 7, where `x` is the record. -/
theorem sevenField_found :
    ∃ p' code, outcome (compile {} [("x", .name (tempName 0))] none (.access 0 (.var 0 "x") (.var 0 "a"))) { made := 1 } =
        (.ok (.name (tempName 1)), p') ∧ Wrote { made := 1 } p' code ∧
      ∃ b u, Leads oneKey (callWithin oneKey 1) [] code ⟨[(tempName 0, 0)], withSevenField, none⟩ b ∧
        Provides oneKey p'.made b (.name (tempName 1)) u ∧ Stands oneKey b.state.store u (.int 0 7) := by
  obtain ⟨-, -, haccess, -⟩ := record_agrees_iff {}
  obtain ⟨p', hp⟩ : ∃ p', outcome (compile {} [("x", .name (tempName 0))] none (.access 0 (.var 0 "x") (.var 0 "a")))
    { made := 1 } = (.ok (.name (tempName 1)), p') := ⟨_, rfl⟩
  have hp' : p' = (outcome (compile {} [("x", .name (tempName 0))] none (.access 0 (.var 0 "x") (.var 0 "a")))
    { made := 1 }).2 := by rw [hp]
  have hkeys : p'.program.keys ⊆ oneKey.program.keys := by
    rw [hp']
    decide
  obtain ⟨r, p₁, code, hobject, hwrote, h⟩ := haccess hp
  cases hobject
  have heval : outcome (eval 1 [("x", .record 0 sevenField)] (.var 0 "x")) {} = (.ok (.record 0 sevenField), _) := rfl
  obtain ⟨b, u, hlead, -, -, hu, hseven⟩ := (h (a := ⟨[(tempName 0, 0)], withSevenField, none⟩) hkeys rfl (by decide)
    (.named (settled_tempName (by decide)) ⟨0, rfl, rfl⟩) sevenField_stands heval rfl).2 (.int 0 7) rfl (by decide)
  exact ⟨p', code, hp, hwrote, b, u, hlead, hu, hseven⟩

/-- A record with a field that is zero: `r@a . r = {a = 0}`. -/
def zeroField : Term :=
  .scope 0 (.access 0 (.var 0 "r") (.var 0 "a")) (.assign 0 "r" (.record 0 [("a", .int 0 0)]))

/-- Evaluation finds the field, and the compiled program reports that the key is missing. -/
theorem zeroField_differs :
    (outcome (eval 9 [] zeroField) {}).1.toOption.map Term.int? = some (some 0) ∧
      (zeroField.compiled {}).toOption.map (fun p => (run p 65536).stop) = some (some (.report "missing key a")) := by
  constructor
  · decide +kernel
  · decide +kernel

end Machine

end Scrap
