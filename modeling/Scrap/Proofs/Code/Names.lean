import Scrap.Proofs.Code.Steps

/-! # The names in compiled programs

Names made in the same way never meet. Names made in different ways meet only where the source has a name that looks
like a made one, or two records whose joined keys are the same. -/

namespace Scrap

open List

namespace Code

/-! ### The run-time library -/

/-- What compiled functions refer to in the run-time library. -/
def runtimeNames : List String :=
  ["uword", "handles", "handles_end", "pop_handles", "heap", "collect", "stderr", "fprintf", "abort", "closure_get",
    "closure_set", "closure_call", "mkclosure", "record_get", "record_set", "record_num_fields", "mkrecord",
    "variant_value", "variant_tag", "variant_set", "mkvariant", "list_first", "list_rest", "list_cons", "string_concat",
    "string_equal_cstr_len", "mksmallstring", "num_add", "num_sub", "num_mul", "is_num", "is_num_equal_word", "is_hole",
    "is_variant", "is_string", "is_list", "is_empty_list", "is_record"]

/-- What a call refers to in the run-time library. The functions of the program are not part of it. -/
def Call.runtime : Call → List String
  | .newRecord _ => ["mkrecord", "heap"]
  | .newClosure _ _ => ["mkclosure", "heap"]
  | .newVariant _ => ["mkvariant", "heap"]
  | .build _ _ => []
  | c => c.uses

/-- What a statement refers to in the run-time library, the variables included. -/
def Statement.runtime : Statement → List String
  | .protect _ => ["handles", "handles_end"]
  | .bind _ c => ["handles", "handles_end"] ++ c.runtime ++ c.operands.flatMap Operand.uses
  | .collect => ["collect", "heap"]
  | .require r => "stderr" :: (Statement.require r).uses
  | .noMatch => ["fprintf", "stderr", "abort"]
  | s => s.uses

theorem operands_subset (xs : List Operand) : xs.flatMap Operand.uses ⊆ runtimeNames := by
  intro x hx
  obtain ⟨v, _, hx⟩ := mem_flatMap.mp hx
  cases v with
  | name => cases hx
  | _ =>
    cases mem_singleton.mp hx
    decide

theorem Call.runtime_subset (c : Call) : c.runtime ⊆ runtimeNames := by
  cases c with
  | arithmetic op _ _ => cases op <;> simp [runtime, uses, Operation.text, runtimeNames]
  | _ => simp [runtime, uses, runtimeNames]

theorem Test.uses_subset (c : Test) : c.uses ⊆ runtimeNames := by
  cases c <;> simp [uses, runtimeNames]

theorem Requirement.uses_subset (r : Requirement) : r.uses ⊆ runtimeNames := by
  cases r <;> simp [uses, runtimeNames]

theorem Statement.runtime_subset (s : Statement) : s.runtime ⊆ runtimeNames := by
  have hoperands := operands_subset s.operands
  cases s with
  | bind x c => exact append_subset.mpr ⟨append_subset.mpr ⟨by decide, c.runtime_subset⟩, hoperands⟩
  | require r => exact cons_subset.mpr ⟨by decide, append_subset.mpr ⟨r.uses_subset, hoperands⟩⟩
  | jumpIf c _ => exact append_subset.mpr ⟨c.uses_subset, hoperands⟩
  | protect | collect | noMatch => simp [runtime, runtimeNames]
  | _ => exact append_subset.mpr ⟨by simp [runtimeNames], hoperands⟩

end Code

namespace Compile

open Code Relation

/-! ### Made names -/

section Made
variable {stem : String} {n k : Nat}

theorem toList_madeName (stem : String) (n : Nat) :
    (madeName stem n).toList = stem.toList ++ '_' :: Nat.toDigits 10 n := by
  simp [madeName]

theorem eq_of_append_underscore {as bs us vs : List Char} (hu : '_' ∉ us) (hv : '_' ∉ vs)
    (h : as ++ '_' :: us = bs ++ '_' :: vs) : us = vs := by
  rcases append_eq_append_iff.mp h with ⟨cs, _, hcs⟩ | ⟨cs, _, hcs⟩
  · rcases cs with _ | ⟨c, cs⟩
    · exact tail_eq_of_cons_eq hcs
    · rw [tail_eq_of_cons_eq hcs] at hu
      simp at hu
  · rcases cs with _ | ⟨c, cs⟩
    · exact (tail_eq_of_cons_eq hcs).symm
    · rw [tail_eq_of_cons_eq hcs] at hv
      simp at hv

theorem madeName_number {stem' : String} (h : madeName stem n = madeName stem' k) : n = k := by
  have hlists := congrArg String.toList h
  rw [toList_madeName, toList_madeName] at hlists
  have hdigits := eq_of_append_underscore Nat.underscore_not_in_toDigits Nat.underscore_not_in_toDigits hlists
  rw [← Nat.ofDigitChars_ten_toDigits (n := n), hdigits, Nat.ofDigitChars_ten_toDigits]

theorem madeName_ne_main : madeName stem n ≠ "scrap_main" := by
  intro h
  have hlists : stem.toList ++ '_' :: Nat.toDigits 10 n = "scrap".toList ++ '_' :: "main".toList := by
    rw [← toList_madeName, h]
    rfl
  have hdigits := eq_of_append_underscore Nat.underscore_not_in_toDigits (by decide) hlists
  have hm : 'm' ∈ Nat.toDigits 10 n := by simp [hdigits]
  exact absurd (Nat.isDigit_of_mem_toDigits (by decide) (by decide) hm) (by decide)

def StartsPlain (s : String) : Prop := ∃ c cs, s.toList = c :: cs ∧ c.isDigit = false

theorem startsPlain_of_isIdentifier {s : String} (h : isIdentifier s = true) : StartsPlain s := by
  unfold isIdentifier at h
  split at h
  · cases h
  · rename_i c cs hs
    rw [Bool.and_eq_true, Bool.not_eq_true'] at h
    exact ⟨c, cs, hs, h.1⟩

theorem madeName_ne_append {word s : String} (hstem : ¬word.toList <+: stem.toList) (hs : StartsPlain s) :
    madeName stem n ≠ word ++ s := by
  intro h
  obtain ⟨c, cs, hs, hc⟩ := hs
  have hlists := congrArg String.toList h
  rw [toList_madeName, String.toList_append, hs] at hlists
  rcases append_eq_append_iff.mp hlists with ⟨as, hword, hrest⟩ | ⟨bs, hstart, _⟩
  · rcases as with _ | ⟨a, as⟩
    · exact hstem (by simp [hword])
    · -- the first character of the text is one of the number
      have hmem : c ∈ Nat.toDigits 10 n := by
        rw [tail_eq_of_cons_eq hrest]
        simp
      rw [Nat.isDigit_of_mem_toDigits (by decide) (by decide) hmem] at hc
      cases hc
  · exact hstem (hstart ▸ prefix_append _ _)

theorem keyText_injective : Function.Injective keyText := fun _ _ h => (String.append_right_inj _).mp h

theorem ne_of_head {a b : String} (h : a.toList.head? ≠ b.toList.head?) : a ≠ b := fun hab => h (hab ▸ rfl)

theorem keyText_ne_tagText (a b : String) : keyText a ≠ tagText b := ne_of_head (by simp [keyText, tagText])

theorem main_ne_keyText (k : String) : "scrap_main" ≠ keyText k := ne_of_head (by simp [keyText])

theorem builderName_eq (keys : List String) : builderName keys = keyText ("builder_" ++ "_".intercalate keys) :=
  have hword : "Record_builder_" = "Record_" ++ "builder_" := by decide +kernel
  (congrArg (· ++ "_".intercalate keys) hword).trans String.append_assoc

theorem tempName_notMem (n : Nat) : tempName n ∉ "this" :: runtimeNames := by
  have hwords : ∀ x ∈ "this" :: runtimeNames, x.toList.take 3 ≠ "tmp".toList := by decide +kernel
  intro h
  exact hwords _ h (by simp [tempName])

end Made

end Compile

/-- No name of the term looks like one that compilation makes. -/
structure Term.NamesApart (t : Term) : Prop where
  functions : ∀ x ∈ t.functionNames, ¬"Record_".toList <+: x.toList ∧ ¬"Tag_".toList <+: x.toList
  keys : ∀ k ∈ t.keyNames, Code.isIdentifier k = true
  tags : ∀ k ∈ t.tagNames, Code.isIdentifier k = true
  /-- Records are told apart by their joined keys. -/
  records : ∀ ks ∈ t.recordKeys, ∀ ks' ∈ t.recordKeys, "_".intercalate ks = "_".intercalate ks' → ks = ks'
  builders : ∀ k ∈ t.keyNames, ∀ ks ∈ t.recordKeys, k ≠ "builder_" ++ "_".intercalate ks
  params : ∀ x ∈ t.functionParams, x ∉ "this" :: Code.runtimeNames ∧ ∀ n, x ≠ Compile.tempName n
  fields : ∀ ks ∈ t.recordKeys, ∀ k ∈ ks, k ∉ Code.runtimeNames ∧ ∀ n, k ≠ Compile.tempName n

namespace Compile

open Code Relation

variable {p p' : Progress} {t : Term}

/-! ### Names outside of functions -/

def stems (t : Term) : List String := "fn" :: t.functionNames ++ constantStems

def Progress.defined (p : Progress) : List String :=
  p.program.functions.toList.map Function.name ++ p.program.constants.toList.map Prod.fst

/-- Where the name of a function or a constant comes from. -/
inductive Origin (t : Term) (p : Progress) : String → Prop
  | main : Origin t p "scrap_main"
  | made : stem ∈ stems t → n < p.made → Origin t p (madeName stem n)
  | builder {keys : List String} : keys ∈ t.recordKeys → (lookup keys p.builders).isSome = true → Origin t p (builderName keys)

structure DefinedApart (t : Term) (p : Progress) : Prop where
  nodup : p.defined.Nodup
  origin : ∀ x ∈ p.defined, Origin t p x

section Defined
variable {stem x : String} {n : Nat} {keys : List String}

theorem stem_apart (ht : t.NamesApart) (hstem : stem ∈ stems t) :
    ¬"Record_".toList <+: stem.toList ∧ ¬"Tag_".toList <+: stem.toList := by
  have hfixed : ∀ x ∈ "fn" :: constantStems, ¬"Record_".toList <+: x.toList ∧ ¬"Tag_".toList <+: x.toList := by
    decide +kernel
  rcases mem_append.mp hstem with hname | hconstant
  · rcases mem_cons.mp hname with rfl | hname
    · exact hfixed _ (.head _)
    · exact ht.functions stem hname
  · exact hfixed stem (.tail _ hconstant)

theorem madeName_ne_keyText (ht : t.NamesApart) (hstem : stem ∈ stems t) {k : String} (hk : StartsPlain k) :
    madeName stem n ≠ keyText k :=
  madeName_ne_append (stem_apart ht hstem).1 hk

theorem madeName_ne_builderName (ht : t.NamesApart) (hstem : stem ∈ stems t) : madeName stem n ≠ builderName keys :=
  builderName_eq keys ▸ madeName_ne_keyText ht hstem ⟨'b', _, by rw [String.toList_append]; rfl, by decide⟩

theorem Origin.ne_madeName (ht : t.NamesApart) (hx : Origin t p x) (hstem : stem ∈ stems t) :
    x ≠ madeName stem p.made := by
  cases hx with
  | main => exact madeName_ne_main.symm
  | made _ hn => exact fun h => Nat.ne_of_lt hn (madeName_number h)
  | builder => exact (madeName_ne_builderName ht hstem).symm

theorem Origin.ne_builderName (ht : t.NamesApart) (hx : Origin t p x) (hkeys : keys ∈ t.recordKeys)
    (hnone : List.lookup keys p.builders = none) : x ≠ builderName keys := by
  cases hx with
  | main => exact builderName_eq keys ▸ main_ne_keyText _
  | made hstem _ => exact madeName_ne_builderName ht hstem
  | @builder keys' hkeys' hsome =>
    intro h
    have hjoined : "_".intercalate keys' = "_".intercalate keys := (String.append_right_inj _).mp h
    rw [ht.records keys' hkeys' keys hkeys hjoined, hnone] at hsome
    cases hsome

/-- What is made later has a larger number, and builders stay. -/
structure Later (p p' : Progress) : Prop where
  made : p.made ≤ p'.made
  builders : ∀ keys, (List.lookup keys p.builders).isSome = true → (List.lookup keys p'.builders).isSome = true

theorem Step.later (h : Step t p p') : Later p p' := by
  cases h with
  | bind | temp | constant | function => exact ⟨Nat.le_succ _, fun _ h => h⟩
  | builder =>
    refine ⟨Nat.le_refl _, fun keys hsome => ?_⟩
    simp only [Progress.opened, lookup_cons]
    split
    · rfl
    · exact hsome
  | emit | key | tag | close => exact ⟨Nat.le_refl _, fun _ h => h⟩

theorem Origin.later (hx : Origin t p x) (h : Later p p') : Origin t p' x := by
  cases hx with
  | main => exact .main
  | made hstem hn => exact .made hstem (Nat.lt_of_lt_of_le hn h.made)
  | builder hkeys hsome => exact .builder hkeys (h.builders _ hsome)

theorem DefinedApart.same (hp : DefinedApart t p) (h : Later p p') (hdefined : p'.defined = p.defined) :
    DefinedApart t p' :=
  ⟨hdefined ▸ hp.nodup, fun x hx => (hp.origin x (hdefined ▸ hx)).later h⟩

theorem DefinedApart.add (hp : DefinedApart t p) (h : Later p p') (hdefined : p'.defined.Perm (x :: p.defined))
    (hx : Origin t p' x) (hnew : ∀ y, Origin t p y → y ≠ x) : DefinedApart t p' := by
  refine ⟨hdefined.nodup_iff.mpr (nodup_cons.mpr ⟨fun hmem => hnew x (hp.origin x hmem) rfl, hp.nodup⟩), ?_⟩
  intro y hy
  rcases mem_cons.mp (hdefined.mem_iff.mp hy) with rfl | hy
  · exact hx
  · exact (hp.origin y hy).later h

theorem map_name_modify (fs : List Function) (i : Nat) (s : Statement) :
    (fs.modify i fun f => { f with body := f.body.push s }).map Function.name = fs.map Function.name := by
  induction fs generalizing i with
  | nil => cases i <;> rfl
  | cons f fs ih =>
    cases i with
    | zero => rfl
    | succ i => simp [modify_succ_cons, ih]

theorem defined_opened (p : Progress) (f : Function) : (p.opened f).defined.Perm (f.name :: p.defined) := by
  simp [Progress.defined, Progress.opened]

theorem DefinedApart.step (ht : t.NamesApart) (hp : DefinedApart t p) (h : Step t p p') : DefinedApart t p' := by
  have hlater := h.later
  cases h with
  | emit | bind => exact hp.same hlater (by simp [Progress.defined, Progress.emitted, map_name_modify])
  | temp | key | tag | close => exact hp.same hlater rfl
  | constant hstem =>
    have hstem := mem_append_right ("fn" :: t.functionNames) hstem
    refine hp.add hlater ?_ (.made hstem (Nat.lt_succ_self _)) fun y hy => hy.ne_madeName ht hstem
    simp only [Progress.defined, Array.toList_push, map_append, ← append_assoc]
    exact perm_append_singleton _ _
  | function hstem _ =>
    have hstem := mem_append_left constantStems hstem
    exact hp.add hlater (defined_opened _ _) (.made hstem (Nat.lt_succ_self _)) fun y hy => hy.ne_madeName ht hstem
  | builder hkeys hnone =>
    exact hp.add hlater (defined_opened _ _) (.builder hkeys (by simp [Progress.opened])) fun y hy =>
      hy.ne_builderName ht hkeys hnone

end Defined

/-! ### Keys and tags -/

structure Enumerated (t : Term) (p : Progress) : Prop where
  keys : p.program.keys.Nodup ∧ p.program.keys ⊆ t.keyNames
  tags : p.program.tags.Nodup ∧ p.program.tags ⊆ t.tagNames

theorem nodup_subset_numbered {names : List String} {numbers : List (String × Nat)} {x : String}
    (h : (numbers.map Prod.fst).Nodup ∧ numbers.map Prod.fst ⊆ names) (hx : x ∈ names) (hnew : x ∉ numbers.map Prod.fst) :
    ((numbered numbers x).map Prod.fst).Nodup ∧ (numbered numbers x).map Prod.fst ⊆ names := by
  rw [map_fst_numbered]
  exact ⟨concat_eq_append ▸ h.1.concat hnew, append_subset.mpr ⟨h.2, cons_subset.mpr ⟨hx, nil_subset _⟩⟩⟩

theorem Enumerated.step (hp : Enumerated t p) (h : Step t p p') : Enumerated t p' := by
  cases h with
  | key hk hnew => exact ⟨nodup_subset_numbered hp.keys hk hnew, hp.tags⟩
  | tag htag hnew => exact ⟨hp.keys, nodup_subset_numbered hp.tags htag hnew⟩
  | _ => exact ⟨hp.keys, hp.tags⟩

/-! ### Names inside of functions -/

/-- The local variables of a function are different, none has a name of the run-time library, and none a name that is
still to be made. -/
structure LocalsApart (n : Nat) (f : Function) : Prop where
  nodup : f.locals.Nodup
  settled : ∀ x ∈ f.locals, Settled n x
  runtime : ∀ x ∈ f.locals, x ∉ runtimeNames

section Locals
variable {f : Function} {n : Nat}

theorem locals_eq (f : Function) : f.locals = f.params ++ f.body.toList.filterMap madeBy := rfl

theorem locals_push (f : Function) (s : Statement) :
    ({ f with body := f.body.push s } : Function).locals = f.locals ++ (madeBy s).toList := by
  have hlast : [s].filterMap madeBy = (madeBy s).toList := by cases hs : madeBy s <;> simp [hs]
  simp only [locals_eq, Array.toList_push, filterMap_append, hlast, append_assoc]

theorem LocalsApart.later (hf : LocalsApart n f) {k : Nat} (h : n ≤ k) : LocalsApart k f :=
  ⟨hf.nodup, fun x hx => (hf.settled x hx).mono h, hf.runtime⟩

theorem LocalsApart.emit (hf : LocalsApart n f) {s : Statement} (hs : madeBy s = none) :
    LocalsApart n { f with body := f.body.push s } := by
  have hlocals := locals_push f s
  rw [hs, Option.toList_none, append_nil] at hlocals
  exact ⟨hlocals ▸ hf.nodup, hlocals ▸ hf.settled, hlocals ▸ hf.runtime⟩

theorem LocalsApart.bind (hf : LocalsApart n f) (c : Call) :
    LocalsApart (n + 1) { f with body := f.body.push (.bind (tempName n) c) } := by
  have hlocals := locals_push f (.bind (tempName n) c)
  refine ⟨?_, ?_, ?_⟩ <;> rw [hlocals]
  · have hnew : tempName n ∉ f.locals := fun hmem => hf.settled _ hmem n (Nat.le_refl n) rfl
    exact concat_eq_append ▸ hf.nodup.concat hnew
  · intro x hx
    rcases mem_append.mp hx with hx | hx
    · exact (hf.settled x hx).mono (Nat.le_succ n)
    · exact mem_singleton.mp hx ▸ settled_tempName (Nat.lt_succ_self n)
  · intro x hx
    rcases mem_append.mp hx with hx | hx
    · exact hf.runtime x hx
    · exact mem_singleton.mp hx ▸ fun h => tempName_notMem n (.tail _ h)

theorem nodup_of_mem_recordKeys {keys : List String} (h : keys ∈ t.recordKeys) : keys.Nodup := by
  obtain ⟨u, _, hkeys⟩ := mem_filterMap.mp h
  cases u with
  | record i fields =>
    cases hkeys
    exact Term.nodup_sortedNames _
  | _ => cases hkeys

theorem locals_opened (f : Function) :
    ({ f with body := #[Statement.enter] ++ (f.params.map Statement.protect).toArray } : Function).locals = f.params := by
  simp [locals_eq, madeBy]

def AllLocalsApart (p : Progress) : Prop := ∀ f ∈ p.program.functions.toList, LocalsApart p.made f

theorem AllLocalsApart.emitted (hp : AllLocalsApart p) (hlater : p.made ≤ n) {s : Statement}
    (hs : ∀ f, LocalsApart p.made f → LocalsApart n { f with body := f.body.push s }) :
    AllLocalsApart ({ p with made := n }.emitted s) := by
  intro f hf
  rw [Progress.emitted, Array.toList_modify] at hf
  rcases mem_modify hf with hf | ⟨f0, hf0, rfl⟩
  · exact (hp f hf).later hlater
  · exact hs f0 (hp f0 hf0)

theorem AllLocalsApart.opened (hp : AllLocalsApart p) (hlater : p.made ≤ n) (hnodup : f.params.Nodup)
    (hparams : ∀ x ∈ f.params, x ∉ runtimeNames ∧ Settled n x) {builders : List (List String × String)} :
    AllLocalsApart ({ p with made := n, builders }.opened f) := by
  intro f' hf'
  rw [Progress.opened, Array.toList_push] at hf'
  rcases mem_append.mp hf' with hf' | hf'
  · exact (hp f' hf').later hlater
  · cases mem_singleton.mp hf'
    refine ⟨?_, ?_, ?_⟩ <;> rw [locals_opened]
    · exact hnodup
    · exact fun x hx => (hparams x hx).2
    · exact fun x hx => (hparams x hx).1

theorem AllLocalsApart.step (ht : t.NamesApart) (hp : AllLocalsApart p) (h : Step t p p') : AllLocalsApart p' := by
  cases h with
  | emit hs => exact hp.emitted (Nat.le_refl _) fun f hf => hf.emit hs
  | bind => exact hp.emitted (Nat.le_succ _) fun f hf => hf.bind _
  | temp | constant => exact fun f hf => (hp f hf).later (Nat.le_succ _)
  | key | tag | close => exact hp
  | @function stem x captures hstem hx =>
    have hparam : x ∉ "this" :: runtimeNames ∧ Settled (p.made + 1) x := by
      rcases hx with hx | ⟨n, hn, rfl⟩
      · exact ⟨(ht.params x hx).1, fun k _ => (ht.params x hx).2 k⟩
      · exact ⟨tempName_notMem n, settled_tempName (Nat.lt_succ_of_lt hn)⟩
    have hthis : "this" ∉ runtimeNames ∧ Settled (p.made + 1) "this" :=
      ⟨by decide +kernel, fun k _ h => tempName_notMem k (h ▸ (.head _))⟩
    refine hp.opened (Nat.le_succ _) ?_ ?_
    · exact nodup_cons.mpr ⟨fun h => hparam.1 (mem_singleton.mp h ▸ (.head _)), nodup_singleton x⟩
    · rintro y (_ | ⟨_, _ | ⟨_, hy⟩⟩)
      · exact hthis
      · exact ⟨fun h => hparam.1 (.tail _ h), hparam.2⟩
      · cases hy
  | @builder keys hkeys hnone =>
    refine hp.opened (Nat.le_refl _) (nodup_of_mem_recordKeys hkeys) fun k hk => ?_
    exact ⟨(ht.fields keys hkeys k hk).1, fun n _ => (ht.fields keys hkeys k hk).2 n⟩

end Locals

/-! ### Programs -/

structure Apart (t : Term) (p : Progress) : Prop where
  defined : DefinedApart t p
  enumerated : Enumerated t p
  locals : AllLocalsApart p

theorem Apart.start (t : Term) : Apart t (({} : Progress).opened { name := "scrap_main", params := [] }) := by
  refine ⟨⟨nodup_singleton _, ?_⟩, ⟨⟨nodup_nil, nil_subset _⟩, ⟨nodup_nil, nil_subset _⟩⟩, ?_⟩
  · intro x hx
    cases mem_singleton.mp hx
    exact .main
  · have hnone : AllLocalsApart {} := fun f hf => by cases hf
    exact hnone.opened (Nat.le_refl _) nodup_nil fun x hx => by cases hx

theorem Apart.step (ht : t.NamesApart) (hp : Apart t p) (h : Step t p p') : Apart t p' :=
  ⟨hp.defined.step ht h, hp.enumerated.step h, hp.locals.step ht h⟩

theorem Apart.steps (ht : t.NamesApart) (hp : Apart t p) (h : ReflTransGen (Step t) p p') : Apart t p' := by
  induction h with
  | refl => exact hp
  | tail _ hstep ih => exact ih.step ht hstep

theorem Origin.ne_keyText (ht : t.NamesApart) {x k : String} (hx : Origin t p x) (hk : k ∈ t.keyNames) :
    x ≠ keyText k := by
  cases hx with
  | main => exact main_ne_keyText k
  | made hstem _ => exact madeName_ne_keyText ht hstem (startsPlain_of_isIdentifier (ht.keys k hk))
  | builder hkeys _ =>
    intro h
    rw [builderName_eq] at h
    exact ht.builders k hk _ hkeys (keyText_injective h).symm

theorem Origin.ne_tagText (ht : t.NamesApart) {x tag : String} (hx : Origin t p x) (htag : tag ∈ t.tagNames) :
    x ≠ tagText tag := by
  cases hx with
  | main => exact ne_of_head (by simp [tagText])
  | made hstem _ => exact madeName_ne_append (stem_apart ht hstem).2 (startsPlain_of_isIdentifier (ht.tags tag htag))
  | builder => exact builderName_eq _ ▸ keyText_ne_tagText _ _

theorem Apart.names_nodup (ht : t.NamesApart) (hp : Apart t p) : p.program.names.Nodup := by
  obtain ⟨hdefined, ⟨⟨hkeys, hkeysIn⟩, htags, htagsIn⟩, _⟩ := hp
  refine nodup_append.mpr ⟨nodup_append.mpr ⟨hdefined.nodup, hkeys.map keyText_injective, ?_⟩,
    htags.map fun _ _ h => (String.append_right_inj _).mp h, ?_⟩
  · rintro x hx _ hkey
    obtain ⟨k, hk, rfl⟩ := mem_map.mp hkey
    exact (hdefined.origin x hx).ne_keyText ht (hkeysIn hk)
  · rintro x hx _ htext
    obtain ⟨tag, htag, rfl⟩ := mem_map.mp htext
    rcases mem_append.mp hx with hx | hx
    · exact (hdefined.origin x hx).ne_tagText ht (htagsIn htag)
    · obtain ⟨k, _, rfl⟩ := mem_map.mp hx
      exact keyText_ne_tagText k tag

/-- A program whose names do not look like made ones is compiled to a program with different names for all that is
outside of functions, and different local variables in each function, none of which hides what the function uses of the
run-time library. -/
theorem compiled_names_distinct {σ : Setting} {t : Term} {p : Program} (ht : t.NamesApart) (h : t.compiled σ = .ok p) :
    p.names.Nodup ∧ ∀ f ∈ p.functions.toList,
      f.locals.Nodup ∧ ∀ s ∈ f.body.toList, ∀ x ∈ s.runtime, x ∉ f.locals := by
  obtain ⟨q, hsteps, rfl⟩ := compiled_steps h
  have hq : Apart t q := (Apart.start t).steps ht hsteps
  refine ⟨hq.names_nodup ht, fun f hf => ⟨(hq.locals f hf).nodup, fun s _ x hx hlocal => ?_⟩⟩
  exact (hq.locals f hf).runtime x hlocal (s.runtime_subset hx)

theorem ne_tempName {x : String} (h : x.toList.take 3 ≠ "tmp".toList) (n : Nat) : x ≠ tempName n := by
  rintro rfl
  exact h (by simp [tempName])

/-- The program `move {x = next 1} . move = | {x = #some a} -> {y = a + 1} . next = n -> #some (n + 1)`. -/
def moveNext : Term :=
  .scope 0
    (.scope 0 (.apply 0 (.var 0 "move") (.record 0 [("x", .apply 0 (.var 0 "next") (.int 0 1))]))
      (.assign 0 "move" (.matchFunction 0
        [(.record 0 [("x", .variant 0 "some" (.var 0 "a"))],
          .record 0 [("y", .binop 0 .add (.var 0 "a") (.int 0 1))])])))
    (.assign 0 "next" (.function 0 (.var 0 "n") (.variant 0 "some" (.binop 0 .add (.var 0 "n") (.int 0 1)))))

theorem moveNext_namesApart : moveNext.NamesApart where
  functions := by decide +kernel
  keys := by decide +kernel
  tags := by decide +kernel
  records := by decide +kernel
  builders := by decide +kernel
  params x hx := by
    have hall : ∀ x ∈ moveNext.functionParams, x ∉ "this" :: runtimeNames ∧ x.toList.take 3 ≠ "tmp".toList := by
      decide +kernel
    exact ⟨(hall x hx).1, ne_tempName (hall x hx).2⟩
  fields ks hks k hk := by
    have hall : ∀ ks ∈ moveNext.recordKeys, ∀ k ∈ ks, k ∉ runtimeNames ∧ k.toList.take 3 ≠ "tmp".toList := by
      decide +kernel
    exact ⟨(hall ks hks k hk).1, ne_tempName (hall ks hks k hk).2⟩

theorem exists_compiled {P : Program → Prop} [DecidablePred P]
    (h : (t.compiled {}).toOption.any (fun p => decide (P p)) = true) : ∃ p, t.compiled {} = .ok p ∧ P p := by
  cases hp : t.compiled {} with
  | error e =>
    rw [hp] at h
    cases h
  | ok p =>
    rw [hp] at h
    exact ⟨p, rfl, of_decide_eq_true h⟩

theorem moveNext_names_distinct :
    moveNext.NamesApart ∧ ∃ p, moveNext.compiled {} = .ok p ∧ p.functions.size = 5 ∧ p.names.Nodup ∧
      ∀ f ∈ p.functions.toList, f.locals.Nodup ∧ ∀ s ∈ f.body.toList, ∀ x ∈ s.runtime, x ∉ f.locals := by
  obtain ⟨p, hp, hsize⟩ := exists_compiled (t := moveNext) (P := fun p => p.functions.size = 5) (by decide +kernel)
  exact ⟨moveNext_namesApart, p, hp, hsize, compiled_names_distinct moveNext_namesApart hp⟩

/-- The program `(this -> this) 1`. -/
def thisParameter : Term := .apply 0 (.function 0 (.var 0 "this") (.var 0 "this")) (.int 0 1)

/-- The program `(num_add -> num_add + 1) 1`. -/
def libraryParameter : Term :=
  .apply 0 (.function 0 (.var 0 "num_add") (.binop 0 .add (.var 0 "num_add") (.int 0 1))) (.int 0 1)

/-- The program `[{a = 1 + 1}, {builder_a = 1}]`. -/
def builderKey : Term :=
  .list 0 [.record 0 [("a", .binop 0 .add (.int 0 1) (.int 0 1))], .record 0 [("builder_a", .int 0 1)]]

/-- Programs of plain identifiers have two local variables of one name, two outer names that are the same, or a local
variable that hides a function of the run-time library. -/
theorem compiled_names_collide :
    (∀ x ∈ ["this", "num_add", "a", "builder_a"], isIdentifier x = true ∧ x ∉ reserved) ∧
      (∃ p, thisParameter.compiled {} = .ok p ∧ ∃ f ∈ p.functions.toList, ¬f.locals.Nodup) ∧
      (∃ p, builderKey.compiled {} = .ok p ∧ ¬p.names.Nodup) ∧
      (∃ p, libraryParameter.compiled {} = .ok p ∧
        ∃ f ∈ p.functions.toList, ∃ s ∈ f.body.toList, ∃ x ∈ s.runtime, x ∈ f.locals) :=
  ⟨by decide +kernel, exists_compiled (by decide +kernel), exists_compiled (by decide +kernel),
    exists_compiled (by decide +kernel)⟩

end Compile

end Scrap
