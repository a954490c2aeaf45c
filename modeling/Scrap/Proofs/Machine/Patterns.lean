import Scrap.Proofs.Machine.Running

/-! # Compiled matching

Compiled code takes the words of a value apart as matching takes the value apart, except that for a variant of the hole
it looks for the immediate word alone. So it falls through if the value does not match, and also if such a variant
comes as an object. -/

namespace Scrap

variable {qs : List Term} {i k : Nat} {store : Store} {o q : Term} {t : Test}

/-! ### Patterns -/

mutual

/-- Patterns of integers that fit, holes, strings, names, variants, and lists that may end in a spread. -/
def Term.isWordPattern : Term → Bool
  | .int _ n => Machine.Word.fits n
  | .hole _ | .string _ _ | .var _ _ => true
  | .variant _ _ p => p.isWordPattern
  | .list _ ps => areWordPatterns ps
  | _ => false

def Term.areWordPatterns : List Term → Bool
  | [] => true
  | .spread _ name :: ps => name ≠ some "" && ps.isEmpty
  | p :: ps => p.isWordPattern && areWordPatterns ps

end

namespace Machine

open Code Compile

variable {c : Call} {target : Label} {code : List Statement} {scope scope' : Scope} {x : String}

mutual

/-- Whether a variant of the hole in a pattern meets a variant that is an object. -/
def meetsBox (store : Store) : Term → Word → Bool
  | .variant _ _ p, w =>
    match store.get? w with
    | some (.variant _ v) =>
      match p with
      | .hole _ => true
      | p => meetsBox store p v
    | _ => false
  | .list _ ps, w => itemsMeetBox store ps w
  | _, _ => false

def itemsMeetBox (store : Store) : List Term → Word → Bool
  | [], _ => false
  | .spread _ _ :: _, _ => false
  | p :: ps, w =>
    match store.get? w with
    | some (.list a b) => meetsBox store p a || itemsMeetBox store ps b
    | _ => false

end

theorem meetsBox_of_get?_eq_none {w : Word} (h : store.get? w = none) (q : Term) : meetsBox store q w = false := by
  cases q with
  | variant i t q => simp only [meetsBox, h]
  | list i qs =>
    rw [meetsBox]
    cases qs with
    | nil => rfl
    | cons q qs => cases q <;> simp only [itemsMeetBox, h]
  | _ => rfl

theorem meetsBox_variant {w v : Word} (hq : ∀ j, q ≠ .hole j) (h : store.content? w = some (k, v))
    (i : Nat) (t : String) : meetsBox store (.variant i t q) w = meetsBox store q v := by
  unfold Store.content? at h
  split at h
  · rename_i hw
    cases h
    have hlow := Word.isVariant_iff.mp hw
    have hhole : Word.hole.toNat % 8 ≠ 1 := by decide
    rw [meetsBox, Store.get?_eq_none (by omega), meetsBox_of_get?_eq_none (Store.get?_eq_none hhole store)]
  · split at h <;> cases h
    rename_i hw
    rw [meetsBox, hw]
    cases q with
    | hole j => exact absurd rfl (hq j)
    | _ => rfl

theorem itemsMeetBox_cons {w a b : Word} (hq : ∀ i name, q ≠ .spread i name) (h : store.get? w = some (.list a b)) :
    itemsMeetBox store (q :: qs) w = (meetsBox store q a || itemsMeetBox store qs b) := by
  rw [itemsMeetBox, h]
  exact hq

/-! ### What code comes to -/

/-- Names have the words of values: what an environment gives a name, the variable that the scope gives it holds. -/
structure Binds (m : Image) (made : Nat) (scope : Scope) (env : Env) (a : Point) : Prop where
  scopeProper : Dict.Proper scope
  envProper : Dict.Proper env
  agree : ∀ y, match env.get? y with
    | none => scope.get? y = none
    | some t => ∃ z w, scope.get? y = some (.name z) ∧ Settled made z ∧ Holds a.frame a.state z w ∧
      Shows m a.state.store w t

namespace Binds
variable {m : Image} {made made' : Nat} {env env' : Env} {a b : Point}

theorem nil (m : Image) (made : Nat) (a : Point) : Binds m made [] [] a :=
  ⟨.nil, .nil, fun _ => rfl⟩

theorem set (h : Binds m made scope env a) {z : String} {w : Word} {t : Term} (y : String) (hz : Settled made z)
    (hw : Holds a.frame a.state z w) (ht : Shows m a.state.store w t) :
    Binds m made (scope.set y (.name z)) (env.set y t) a where
  scopeProper := h.scopeProper.set y _
  envProper := h.envProper.set y _
  agree y' := by
    rw [Dict.get?_set, Dict.get?_set]
    by_cases hy : y' = y
    · simp only [if_pos hy]
      exact ⟨z, w, rfl, hz, hw, ht⟩
    · simp only [if_neg hy]
      exact h.agree y'

theorem kept (h : Binds m made scope env a) (hk : Kept made a b) (hm : made ≤ made') : Binds m made' scope env b where
  scopeProper := h.scopeProper
  envProper := h.envProper
  agree y := by
    have hy := h.agree y
    split at hy
    · exact hy
    · obtain ⟨z, w, hz, hset, hw, ht⟩ := hy
      exact ⟨z, w, hz, hset.mono hm, hk.holds hset hw, hk.store ▸ ht⟩

theorem merge (h : Binds m made scope env a) (h' : Binds m made scope' env' a) :
    Binds m made (scope.merge scope') (env.merge env') a where
  scopeProper := h.scopeProper.merge _
  envProper := h.envProper.merge _
  agree y := by
    have hy := h'.agree y
    rw [Dict.get?_merge h'.scopeProper, Dict.get?_merge h'.envProper]
    split at hy
    · rename_i hnone
      rw [hnone, hy]
      exact h.agree y
    · rename_i t hsome
      obtain ⟨z, w, hz, hrest⟩ := hy
      rw [hsome, hz]
      exact ⟨z, w, rfl, hrest⟩

end Binds

/-- Code sends a run off to a label. -/
def FallsThrough (m : Image) (call : Caller) (args : Dict Word) (target : Label) (code : List Statement) (a : Point) :
    Prop :=
  ∃ b, b.skip = some target ∧ Leads m call args code a b

/-- What the code of a pattern comes to, by what the pattern matches: it falls through, or goes on to a point where `B`
holds of what was found. `n` and `n'` names had been made before and after the code, which puts no more words on the
stack than it has made names. -/
def Ends (m : Image) (call : Caller) (args : Dict Word) (target : Label) (code : List Statement) (n n' : Nat)
    (B : Env → Point → Prop) (a : Point) : Option Env → Prop
  | none => FallsThrough m call args target code a
  | some env => ∃ b, b.skip = none ∧ Leads m call args code a b ∧ Kept n a b ∧
    b.state.stack.size + n ≤ a.state.stack.size + n' ∧ B env b

section
variable {m : Image} {call : Caller} {args : Dict Word} {code' : List Statement} {n n1 n' : Nat} {env : Env}
  {a b : Point} {v : Option Env} {B B' : Env → Point → Prop}

theorem FallsThrough.append (h : FallsThrough m call args target code a) (hl : NoLabels code') :
    FallsThrough m call args target (code ++ code') a := by
  obtain ⟨⟨frame, s, skip⟩, rfl, hlead⟩ := h
  exact ⟨_, rfl, hlead.trans (.skip hl frame s target)⟩

namespace Ends

theorem done (ha : a.skip = none) (h : B env a) : Ends m call args target [] n n B a (some env) :=
  ⟨a, ha, .refl a, .refl n a, Nat.le_refl _, h⟩

theorem after (hlead : Leads m call args code a b) (hkept : Kept n a b) (hn : n ≤ n1)
    (hsize : b.state.stack.size + n ≤ a.state.stack.size + n1)
    (h : Ends m call args target code' n1 n' B b v) : Ends m call args target (code ++ code') n n' B a v := by
  cases v with
  | none =>
    obtain ⟨c, hc, hlead'⟩ := h
    exact ⟨c, hc, hlead.trans hlead'⟩
  | some env =>
    obtain ⟨c, hc, hlead', hkept', hsize', hbinds⟩ := h
    exact ⟨c, hc, hlead.trans hlead', hkept.trans hkept' hn, by omega, hbinds⟩

theorem append {r : Option Env} {f : Env → Option Env} (h : Ends m call args target code n n1 B a r)
    (hl : NoLabels code') (hn : n ≤ n1)
    (h' : ∀ env b, r = some env → b.skip = none → Kept n a b → b.state.stack.size + n ≤ a.state.stack.size + n1 →
      B env b → Ends m call args target code' n1 n' B' b (f env)) :
    Ends m call args target (code ++ code') n n' B' a (r.bind f) := by
  cases r with
  | none => exact FallsThrough.append h hl
  | some env =>
    obtain ⟨b, hb, hlead, hkept, hsize, hbinds⟩ := h
    exact after hlead hkept hn hsize (h' env b rfl hb hkept hsize hbinds)

theorem test {fail : Bool} (ha : a.skip = none) (ht : outcome (fails m a.frame t) a.state = (.ok fail, a.state))
    (hl : NoLabels code) (h : fail = false → Ends m call args target code n n' B a v) :
    Ends m call args target (.jumpIf t target :: code) n n' B a (if fail then none else v) := by
  obtain ⟨frame, s, skip⟩ := a
  cases ha
  have hlead : Leads m call args [.jumpIf t target] _ _ := .jumpIf ht
  cases fail with
  | true => exact FallsThrough.append ⟨_, rfl, hlead⟩ hl
  | false => exact after hlead (.refl n _) (Nat.le_refl n) (Nat.le_refl _) (h rfl)

theorem refuse (ha : a.skip = none) (ht : outcome (fails m a.frame t) a.state = (.ok true, a.state))
    (hl : NoLabels code) : Ends m call args target (.jumpIf t target :: code) n n' B a none :=
  test (v := none) ha ht hl nofun

theorem pass (ha : a.skip = none) (ht : outcome (fails m a.frame t) a.state = (.ok false, a.state))
    (hl : NoLabels code) (h : Ends m call args target code n n' B a v) :
    Ends m call args target (.jumpIf t target :: code) n n' B a v :=
  test ha ht hl fun _ => h

theorem bind {w : Word} (ha : a.skip = none) (hn : n < n1)
    (hw : outcome (result m call a.frame c) a.state = (.ok w, a.state)) (hroom : a.state.stack.size < stackSize)
    (h : ∀ b, b.skip = none → Kept n a b → Holds b.frame b.state (tempName n) w →
      b.state.stack.size = a.state.stack.size + 1 → Ends m call args target code n1 n' B b v) :
    Ends m call args target (.bind (tempName n) c :: code) n n' B a v := by
  obtain ⟨frame, s, skip⟩ := a
  cases ha
  have hlead : Leads m call args [.bind (tempName n) c] _ _ := .bind hw hroom
  have hkept := Kept.bind frame s n w none none
  exact after hlead hkept hn.le (by simp; omega) (h _ rfl hkept (holds_bound frame s _ w) (by simp))

end Ends

end

/-! ### Tests -/

section
variable {m : Image} {frame : Frame} {s : State} {w : Word}

theorem fails_notInt (h : Holds frame s x w) {n : Int} (hn : Word.fits n = true) :
    outcome (fails m frame (.notInt x (.int n))) s = (.ok (decide (w ≠ Word.int n)), s) := by
  rw [fails, bind_ok h.outcome, Word.toInt_ofInt hn, hn]
  rfl

theorem fails_notVariant (h : Holds frame s x w) :
    outcome (fails m frame (.notVariant x)) s = (.ok (!(s.store.content? w).isSome), s) := by
  refine (bind_ok h.outcome).trans ?_
  rw [bind_ok (outcome_isVariant w s)]
  rfl

theorem fails_otherTag (h : Holds frame s x w) {v : Word} (hw : s.store.content? w = some (k, v)) (t : String) :
    outcome (fails m frame (.otherTag x t)) s = (.ok (decide (k ≠ m.tag t)), s) := by
  refine (bind_ok h.outcome).trans ?_
  rw [bind_ok (outcome_variantParts hw)]
  rfl

theorem fails_notList (h : Holds frame s x w) :
    outcome (fails m frame (.notList x)) s = (.ok (!s.store.isList w), s) := by
  refine (bind_ok h.outcome).trans ?_
  rw [bind_ok (outcome_isList w s)]
  rfl

theorem fails_empty (h : Holds frame s x w) :
    outcome (fails m frame (.empty x)) s = (.ok (decide (w = Word.emptyList)), s) :=
  bind_ok h.outcome

end

/-! ### The code of a pattern -/

/-- The code of a pattern decides what matching decides, unless a variant of the hole meets an object. -/
structure PatternCode (heap : Heap) (x : String) (target : Label) (q : Term) (p p' : Progress)
    (code : List Statement) (scope : Scope) : Prop where
  wrote : Wrote p p' code
  noLabels : NoLabels code
  decides : ∀ {m : Image} {call : Caller} {args : Dict Word} {a : Point} {w : Word} {o : Term} {r : Option Env},
    p'.program.tags ⊆ m.program.tags → m.TagsFit → a.skip = none → Holds a.frame a.state x w →
    Shows m a.state.store w o → a.state.stack.size + p'.made ≤ stackSize + p.made → q.matchPattern heap o = .ok r →
    Ends m call args target code p.made p'.made (Binds m p'.made scope) a (if meetsBox a.state.store q w then none else r)

/-- The code of the items of a list pattern, of which `found` are the names so far. -/
structure ItemsCode (heap : Heap) (x : String) (target : Label) (qs : List Term) (found : Scope) (p p' : Progress)
    (code : List Statement) (scope : Scope) : Prop where
  wrote : Wrote p p' code
  noLabels : NoLabels code
  decides : ∀ {m : Image} {call : Caller} {args : Dict Word} {a : Point} {w : Word} {i : Nat} {items : List Term}
    {env : Env} {r : Option Env}, p'.program.tags ⊆ m.program.tags → m.TagsFit → a.skip = none →
    Holds a.frame a.state x w → Shows m a.state.store w (.list i items) →
    a.state.stack.size + p'.made ≤ stackSize + p.made → Binds m p.made found env a →
    Term.matchItems heap qs items env = .ok r →
    Ends m call args target code p.made p'.made (Binds m p'.made scope) a (if itemsMeetBox a.state.store qs w then none else r)

theorem noLabels_jumpIf {l : Label} (h : NoLabels code) : NoLabels (.jumpIf t l :: code) := by
  intro s hs l'
  cases hs with
  | head => exact nofun
  | tail _ hs => exact h s hs l'

theorem noLabels_bind (h : NoLabels code) : NoLabels (.bind x c :: code) := by
  intro s hs l'
  cases hs with
  | head => exact nofun
  | tail _ hs => exact h s hs l'

theorem noLabels_nil : NoLabels [] := fun _ hs => by cases hs

section
variable {σ : Setting} {heap : Heap} {p : Progress}

theorem patternCode_test {p' : Progress} (hw : Wrote p p' [.jumpIf t target]) (hmade : p'.made = p.made)
    (h : ∀ {m : Image} {frame : Frame} {s : State} {w : Word} {o : Term}, p'.program.tags ⊆ m.program.tags →
      m.TagsFit → Holds frame s x w → Shows m s.store w o → ∃ b r, outcome (fails m frame t) s = (.ok b, s) ∧
        q.matchPattern heap o = .ok r ∧ (if meetsBox s.store q w then none else r) = if b then none else some []) :
    PatternCode heap x target q p p' [.jumpIf t target] [] where
  wrote := hw
  noLabels := noLabels_jumpIf noLabels_nil
  decides {m call args a w o r} htags hm ha hx ho _ hr := by
    obtain ⟨b, r', hb, hr', hv⟩ := h htags hm hx ho
    cases hr.symm.trans hr'
    rw [hv, hmade]
    exact Ends.test ha hb noLabels_nil fun _ => .done ha (.nil m _ a)

def HasCode (σ : Setting) (heap : Heap) (x : String) (target : Label) (q : Term) (p : Progress) : Prop :=
  ∃ scope p' code, outcome (tryMatch σ x target q) p = (.ok scope, p') ∧ PatternCode heap x target q p p' code scope

theorem matchPattern_int {m : Image} {w : Word} (h : Shows m store w o) {n : Int} (hn : Word.fits n = true) (i : Nat) :
    (Term.int i n).matchPattern heap o = .ok (if w = Word.int n then some [] else none) := by
  rw [Term.matchPattern, h.resolve]
  simp only [h.eq_int_iff hn]

theorem matchPattern_hole {m : Image} {w : Word} (h : Shows m store w o) (i : Nat) :
    (Term.hole i).matchPattern heap o = .ok (if w = Word.hole then some [] else none) := by
  rw [Term.matchPattern, h.resolve]
  by_cases hw : w = Word.hole
  · obtain ⟨j, rfl⟩ := h.eq_hole_iff.mp hw
    simp only [if_pos hw]
  · rw [if_neg hw]
    split
    · exact absurd (h.eq_hole_iff.mpr ⟨_, rfl⟩) hw
    · rfl

theorem matchPattern_string {m : Image} {w : Word} (h : Shows m store w o) (i : Nat) (t : String) {c : Prop}
    [Decidable c] (hc : c ↔ ∃ j, o = .string j t) :
    (Term.string i t).matchPattern heap o = .ok (if c then some [] else none) := by
  rw [Term.matchPattern, h.resolve]
  by_cases hw : c
  · obtain ⟨j, rfl⟩ := hc.mp hw
    simp only [if_pos hw, if_true]
  · rw [if_neg hw]
    split
    · rename_i s
      rw [if_neg fun (heq : t = s) => hw (hc.mpr ⟨_, by rw [heq]⟩)]
    · rfl

/-- A variant of the hole is matched as its immediate word, unless it is an object. -/
theorem matchPattern_variant_hole {m : Image} {w : Word} (h : Shows m store w o) (hm : m.TagsFit) {t : String}
    (ht : t ∈ m.program.tags) (i j : Nat) :
    ∃ r, (Term.variant i t (.hole j)).matchPattern heap o = .ok r ∧
      (if meetsBox store (.variant i t (.hole j)) w then none else r) =
        if w = Word.variant (m.tag t) then some [] else none := by
  rw [Term.matchPattern, h.resolve]
  by_cases hw : w = Word.variant (m.tag t)
  · obtain ⟨⟨i', j', rfl⟩, hnone⟩ := (h.eq_variant_iff hm ht).mp hw
    refine ⟨some [], by simp [Term.matchPattern, Heap.resolve], ?_⟩
    simp only [meetsBox, hnone, if_pos hw, Bool.false_eq_true, if_false]
  · rw [if_neg hw]
    cases h with
    | @tag i' j' u hu =>
      have hne : t ≠ u := fun heq => hw (by rw [heq])
      exact ⟨none, by simp [hne], by simp⟩
    | @boxed i' w v u o hu hbox hv =>
      have hmeets : meetsBox store (.variant i t (.hole j)) w = true := by simp only [meetsBox, hbox]
      have hmatch : ∃ r, (if t = u then (Term.hole j).matchPattern heap o else .ok none) = .ok r := by
        split
        · exact ⟨_, matchPattern_hole hv j⟩
        · exact ⟨_, rfl⟩
      obtain ⟨r, hr⟩ := hmatch
      exact ⟨r, hr, by rw [if_pos hmeets]⟩
    | _ => exact ⟨none, rfl, by simp⟩

theorem intText?_of_fits {n : Int} (hn : Word.fits n = true) : (Text.intText? n).isSome = true := by
  have hlt : ∀ k, 19 ≤ k → n.natAbs < Nat.pow 10 k := fun k hk => by
    have hle : 10 ^ 19 ≤ 10 ^ k := Nat.pow_le_pow_right (by omega) hk
    rw [Word.fits_iff] at hn
    exact Nat.lt_of_lt_of_le (by omega) hle
  rw [Text.intText?, if_neg (Nat.not_le.mpr (hlt _ (by decide)))]
  rfl

theorem tryMatch_int {n : Int} (hn : Word.fits n = true) : HasCode σ heap x target (.int i n) p := by
  obtain ⟨p', hp, hw, hmade⟩ := emit_wrote (.jumpIf (.notInt x (.int n)) target) p
  have hlit : outcome (Compile.literal n) p = (.ok (.int n), p) := by
    rw [Compile.literal, if_pos (intText?_of_fits hn)]
    rfl
  refine ⟨[], p', _, ?_, patternCode_test hw hmade fun _ _ hx ho =>
    ⟨_, _, fails_notInt hx hn, matchPattern_int ho hn i, by simp [meetsBox]⟩⟩
  refine (bind_ok hlit).trans ?_
  rw [bind_ok hp]
  rfl

theorem tryMatch_hole (i : Nat) : HasCode σ heap x target (.hole i) p := by
  obtain ⟨p', hp, hw, hmade⟩ := emit_wrote (.jumpIf (.notHole x) target) p
  refine ⟨[], p', _, ?_, patternCode_test hw hmade fun _ _ hx ho =>
    ⟨_, _, bind_ok hx.outcome, matchPattern_hole ho i, by simp [meetsBox]⟩⟩
  refine (bind_ok hp).trans ?_
  rfl

theorem tryMatch_string (i : Nat) (t : String) : HasCode σ heap x target (.string i t) p := by
  by_cases ht : t.length < 8
  · obtain ⟨p', hp, hw, hmade⟩ := emit_wrote (.jumpIf (.notShortString x t) target) p
    refine ⟨[], p', _, ?_, patternCode_test hw hmade fun _ _ hx ho =>
      ⟨_, _, bind_ok hx.outcome, matchPattern_string ho i t (ho.eq_shortPattern_iff ht), by simp [meetsBox]⟩⟩
    rw [tryMatch, if_pos ht, bind_ok hp]
    rfl
  · obtain ⟨p1, hp1, hw1, hmade1⟩ := emit_wrote (.jumpIf (.notString x) target) p
    obtain ⟨p', hp', hw', hmade'⟩ := emit_wrote (.jumpIf (.otherString x t) target) p1
    refine ⟨[], p', _, ?_, hw1.trans hw', noLabels_jumpIf (noLabels_jumpIf noLabels_nil), ?_⟩
    · rw [tryMatch, if_neg ht]
      simp only
      rw [bind_ok hp1, bind_ok hp']
      rfl
    · intro m call args a w o r _ hm ha hx ho _ hr
      have hbytes := ho.bytes?
      have hc : a.state.store.bytes? w = some (Image.stringBytes t) ↔ ∃ j, o = .string j t := by
        rw [hbytes]
        cases ho with
        | short i hs hlen => simp [Term.text?, Image.utf8_eq_stringBytes_iff hs]
        | long i hs hlen hw => simp [Term.text?, Image.utf8_eq_stringBytes_iff hs]
        | _ => simp [Term.text?]
      cases hr.symm.trans (matchPattern_string ho i t hc)
      rw [hmade', hmade1]
      have htests : (if meetsBox a.state.store (.string i t) w then none else
          if a.state.store.bytes? w = some (Image.stringBytes t) then some ([] : Env) else none) =
          if !(a.state.store.bytes? w).isSome then none else
            if decide ((a.state.store.bytes? w).getD [] ≠ Image.stringBytes t) then none else some [] := by
        cases a.state.store.bytes? w <;> simp [meetsBox]
      rw [htests]
      refine Ends.test ha ((bind_ok hx.outcome).trans (bind_ok (outcome_isString w _))) (noLabels_jumpIf noLabels_nil) fun hsome => ?_
      obtain ⟨bs, hbs⟩ := Option.isSome_iff_exists.mp (by simpa using hsome)
      rw [hbs]
      exact Ends.test ha ((bind_ok hx.outcome).trans (bind_ok (outcome_stringBytes hbs))) noLabels_nil fun _ => .done ha (.nil m _ a)

theorem tryMatch_var (i : Nat) (y : String) (hx : Settled p.made x) : HasCode σ heap x target (.var i y) p := by
  refine ⟨[(y, .name x)], p, [], by rw [tryMatch]; rfl, .refl p, noLabels_nil, ?_⟩
  intro m call args a w o r _ _ ha hw ho _ hr
  rw [Term.matchPattern] at hr
  cases hr
  exact .done ha ((Binds.nil m p.made a).set y hx hw ho)

theorem tryMatch_variant_hole (i j : Nat) (t : String) : HasCode σ heap x target (.variant i t (.hole j)) p := by
  obtain ⟨p1, hp1, hw1, hmade1, ht⟩ := useTag_wrote t p
  obtain ⟨p', hp', hw', hmade'⟩ := emit_wrote (.jumpIf (.notTag x t) target) p1
  refine ⟨[], p', _, ?_, patternCode_test (hw1.trans hw') (hmade'.trans hmade1) fun htags hm hx ho => ?_⟩
  · refine (bind_ok hp1).trans ?_
    rw [bind_ok hp']
    rfl
  · obtain ⟨r, hr, hv⟩ := matchPattern_variant_hole ho hm (htags (hw'.tags ht)) i j
    exact ⟨_, r, bind_ok hx.outcome, hr, by simp [hv]⟩

/-- The code of a variant pattern takes the content into a new variable and goes on with that. -/
theorem tryMatch_variant {t : String} (hq : ∀ j, q ≠ .hole j)
    (ih : ∀ y p, Settled p.made y → HasCode σ heap y target q p) : HasCode σ heap x target (.variant i t q) p := by
  obtain ⟨p1, hp1, hw1, hmade1, ht⟩ := useTag_wrote t p
  obtain ⟨p2, hp2, hw2, hmade2⟩ := emit_wrote (.jumpIf (.notVariant x) target) p1
  obtain ⟨p3, hp3, hw3, hmade3⟩ := emit_wrote (.jumpIf (.otherTag x t) target) p2
  obtain ⟨p4, hp4, hw4, hmade4⟩ := bind_wrote (.payload x) p3
  obtain ⟨scope, p', code, hp', hcode⟩ := ih (tempName p3.made) p4 (settled_tempName hmade4)
  have hmade : p3.made = p.made := by rw [hmade3, hmade2, hmade1]
  have hmade5 := hcode.wrote.made
  refine ⟨scope, p', _, ?_, hw1.trans (hw2.trans (hw3.trans (hw4.trans hcode.wrote))),
    noLabels_jumpIf (noLabels_jumpIf (noLabels_bind hcode.noLabels)), ?_⟩
  · rw [tryMatch, bind_ok hp1, bind_ok hp2, bind_ok hp3, bind_ok hp4, hp']
    exact hq
  · intro m call args a w o r htags hm ha hx ho hroom hr
    have ht' := htags (hcode.wrote.tags (hw4.tags (hw3.tags (hw2.tags ht))))
    have hfirst := fails_notVariant (m := m) hx
    rw [Term.matchPattern, ho.resolve] at hr
    rw [← hmade]
    by_cases hvar : ∃ i' u v, o = .variant i' u v
    · obtain ⟨i', u, v, rfl⟩ := hvar
      obtain ⟨w', hw', hv⟩ := ho.content?_variant hm
      have hsecond := fails_otherTag (m := m) hx hw' t
      rw [hw'] at hfirst
      have hpassed : (if meetsBox a.state.store (.variant i t q) w then none else r) =
          if decide (m.tag u ≠ m.tag t) then none else if meetsBox a.state.store q w' then none else r := by
        by_cases htu : m.tag u = m.tag t
        · simp only [htu, ne_eq, not_true, decide_false, Bool.false_eq_true, if_false, meetsBox_variant hq hw']
        · have hne : t ≠ u := fun heq => htu (by rw [heq])
          simp only [if_neg hne, Except.ok.injEq] at hr
          rw [← hr, ite_self, ite_self, ite_self]
      rw [hpassed]
      refine Ends.pass ha hfirst (noLabels_jumpIf (noLabels_bind hcode.noLabels)) ?_
      refine Ends.test ha hsecond (noLabels_bind hcode.noLabels) fun hsame => ?_
      refine Ends.bind ha hmade4 ((bind_ok hx.outcome).trans (bind_ok (outcome_variantParts hw'))) (by omega)
        fun b hb hkept hy hsize => ?_
      have htu : t = u := ((Image.tag_inj ho.mem_tags ht').mp (by simpa using hsame)).symm
      rw [← hkept.store]
      exact hcode.decides htags hm hb hy (hkept.store ▸ hv) (by omega) (by simpa [htu] using hr)
    · have hnone := ho.content?_eq_none fun i' u v heq => hvar ⟨i', u, v, heq⟩
      rw [hnone] at hfirst
      have hr : r = none := by
        split at hr
        · exact absurd ⟨_, _, _, rfl⟩ hvar
        · exact (Except.ok.inj hr).symm
      rw [hr, ite_self]
      exact Ends.refuse ha hfirst (noLabels_jumpIf (noLabels_bind hcode.noLabels))

/-! ### Lists -/

def HasItemsCode (σ : Setting) (heap : Heap) (x : String) (target : Label) (qs : List Term) (found : Scope)
    (p : Progress) : Prop :=
  ∃ scope p' code, outcome (Compile.matchItems σ x target found qs) p = (.ok scope, p') ∧
    ItemsCode heap x target qs found p p' code scope

theorem matchItems_nil (found : Scope) : HasItemsCode σ heap x target [] found p := by
  obtain ⟨p', hp, hw, hmade⟩ := emit_wrote (.jumpIf (.notEmpty x) target) p
  refine ⟨found, p', _, ?_, hw, noLabels_jumpIf noLabels_nil, ?_⟩
  · rw [Compile.matchItems, bind_ok hp]
    rfl
  · intro m call args a w i items env r _ hm ha hx ho _ hfound hr
    rw [Term.matchItems] at hr
    cases hr
    have hempty : items.isEmpty = true ↔ w = Word.emptyList := by
      rw [ho.eq_emptyList_iff, List.isEmpty_iff]
      simp
    have hv : (if itemsMeetBox a.state.store [] w then none else if items.isEmpty then some env else none) =
        if decide (w ≠ Word.emptyList) then none else some env := by
      simp [itemsMeetBox, hempty]
    rw [hv, hmade]
    exact Ends.test ha (bind_ok hx.outcome) noLabels_nil fun _ => .done ha hfound

theorem matchItems_spread {name : Option String} (hname : name ≠ some "") (qs : List Term) (found : Scope)
    (hx : Settled p.made x) : HasItemsCode σ heap x target (.spread i name :: qs) found p := by
  cases name with
  | none =>
    refine ⟨found, p, [], by rw [Compile.matchItems]; rfl, .refl p, noLabels_nil, ?_⟩
    intro m call args a w i items env r _ hm ha hw ho _ hfound hr
    rw [Term.matchItems] at hr
    cases hr
    exact .done ha hfound
  | some y =>
    have hy : y ≠ "" := fun h => hname (by rw [h])
    refine ⟨found.set y (.name x), p, [], ?_, .refl p, noLabels_nil, ?_⟩
    · rw [Compile.matchItems]
      · rfl
      · exact hy
    · intro m call args a w i items env r _ hm ha hw ho _ hfound hr
      rw [Term.matchItems] at hr
      cases hr
      exact .done ha (hfound.set y hx hw (ho.list_id 0))

/-- The code of an item takes the first item into a new variable, and the rest of the list into another. -/
theorem matchItems_cons (hq : ∀ i name, q ≠ .spread i name) (found : Scope) (hx : Settled p.made x)
    (ih : ∀ y p, Settled p.made y → HasCode σ heap y target q p)
    (ihs : ∀ y p found, Settled p.made y → HasItemsCode σ heap y target qs found p) :
    HasItemsCode σ heap x target (q :: qs) found p := by
  obtain ⟨p1, hp1, hw1, hmade1⟩ := emit_wrote (.jumpIf (.empty x) target) p
  obtain ⟨p2, hp2, hw2, hmade2⟩ := bind_wrote (.first x) p1
  obtain ⟨names, p3, code, hp3, hcode⟩ := ih (tempName p1.made) p2 (settled_tempName hmade2)
  obtain ⟨p4, hp4, hw4, hmade4⟩ := bind_wrote (.rest x) p3
  obtain ⟨scope, p', code', hp', hcode'⟩ := ihs (tempName p3.made) p4 (found.merge names) (settled_tempName hmade4)
  have hmade3 := hcode.wrote.made
  have hmade5 := hcode'.wrote.made
  refine ⟨scope, p', _, ?_, hw1.trans (hw2.trans (hcode.wrote.trans (hw4.trans hcode'.wrote))),
    noLabels_jumpIf (noLabels_bind (hcode.noLabels.append (noLabels_bind hcode'.noLabels))), ?_⟩
  · rw [Compile.matchItems, bind_ok hp1, bind_ok hp2, bind_ok hp3, bind_ok hp4, hp']
    exact hq
  · intro m call args a w i items env r htags hm ha hw ho hroom hfound hr
    have hempty := fails_empty (m := m) hw
    rw [← hmade1]
    cases items with
    | nil =>
      have hnil : w = Word.emptyList := ho.eq_emptyList_iff.mpr ⟨_, rfl⟩
      rw [Term.matchItems] at hr
      · cases hr
        rw [ite_self]
        rw [decide_eq_true hnil] at hempty
        exact Ends.refuse ha hempty
          (noLabels_bind (hcode.noLabels.append (noLabels_bind hcode'.noLabels)))
      · exact hq
    | cons t ts =>
      have hcons : w ≠ Word.emptyList := fun heq => by simpa using ho.eq_emptyList_iff.mp heq
      obtain ⟨wa, wb, hparts, ht, hts⟩ := ho.parts
      rw [decide_eq_false hcons] at hempty
      rw [Term.matchItems] at hr
      · refine Ends.pass ha hempty (noLabels_bind (hcode.noLabels.append (noLabels_bind hcode'.noLabels))) ?_
        refine Ends.bind ha hmade2 ((bind_ok hw.outcome).trans (bind_ok (outcome_listParts hparts))) (by omega)
          fun b hb hkept hy hsize => ?_
        obtain ⟨part, hpart⟩ : ∃ part, q.matchPattern heap t = .ok part := by
          cases hq : q.matchPattern heap t with
          | ok part => exact ⟨part, rfl⟩
          | error e =>
            rw [hq] at hr
            cases hr
        have hsplit : (if itemsMeetBox a.state.store (q :: qs) w then none else r) =
            (if meetsBox b.state.store q wa then none else part).bind fun _ =>
              if itemsMeetBox b.state.store qs wb then none else r := by
          rw [itemsMeetBox_cons hq hparts, hkept.store]
          rw [hpart] at hr
          cases hm : meetsBox a.state.store q wa with
          | true => rfl
          | false =>
            cases part with
            | some part => rfl
            | none => cases hr; exact ite_self _
        rw [hsplit]
        have hend : Ends m call args target code p2.made p3.made (Binds m p3.made names) b _ :=
          hcode.decides (fun t ht => htags (hcode'.wrote.tags (hw4.tags ht))) hm hb hy (hkept.store ▸ ht) (by omega) hpart
        refine hend.append (noLabels_bind hcode'.noLabels) hmade3 fun env' c hv hc hkept' hsize' hbinds => ?_
        have hkept2 := hkept.trans hkept' hmade2.le
        have hwc := hkept2.holds (hmade1 ▸ hx) hw
        have hpartsc : c.state.store.get? w = some (.list wa wb) := by rw [hkept2.store]; exact hparts
        refine Ends.bind hc hmade4 ((bind_ok hwc.outcome).trans (bind_ok (outcome_listParts hpartsc))) (by omega)
          fun d hd hkept3 hz hsize3 => ?_
        have hkept4 := hkept2.trans hkept3 (hmade2.le.trans hmade3)
        rw [← hkept'.store, ← hkept3.store]
        refine hcode'.decides htags hm hd hz (hkept4.store ▸ hts) (by omega)
          ((hfound.kept (hmade1 ▸ hkept4) ?_).merge (hbinds.kept hkept3 hmade4.le)) ?_
        · omega
        · have hpart' : part = some env' := by
            split at hv
            · cases hv
            · exact hv
          rw [hpart, hpart'] at hr
          exact hr
      · exact hq

theorem tryMatch_list (ih : ∀ y p found, Settled p.made y → HasItemsCode σ heap y target qs found p)
    (hx : Settled p.made x) : HasCode σ heap x target (.list i qs) p := by
  obtain ⟨p1, hp1, hw1, hmade1⟩ := emit_wrote (.jumpIf (.notList x) target) p
  obtain ⟨scope, p', code, hp', hcode⟩ := ih x p1 [] (hmade1 ▸ hx)
  refine ⟨scope, p', _, ?_, hw1.trans hcode.wrote, noLabels_jumpIf hcode.noLabels, ?_⟩
  · refine (bind_ok hp1).trans ?_
    rw [hp']
  · intro m call args a w o r htags hm ha hw ho hroom hr
    rw [Term.matchPattern, ho.resolve] at hr
    have htest := fails_notList (m := m) hw
    rw [ho.isList] at htest
    rw [← hmade1]
    by_cases hlist : ∃ i' items, o = .list i' items
    · obtain ⟨i', items, rfl⟩ := hlist
      refine Ends.pass ha htest hcode.noLabels ?_
      exact hcode.decides htags hm ha hw ho (by omega) (.nil m _ a) hr
    · have hno : o.isList = false := by
        cases o with
        | list i' items => exact absurd ⟨_, _, rfl⟩ hlist
        | _ => rfl
      have hr : r = none := by
        split at hr
        · exact absurd ⟨_, _, rfl⟩ hlist
        · exact (Except.ok.inj hr).symm
      rw [hno] at htest
      rw [hr, ite_self]
      exact Ends.refuse ha htest hcode.noLabels

mutual

theorem tryMatch_hasCode (q : Term) (x : String) (p : Progress) (hq : q.isWordPattern = true)
    (hx : Settled p.made x) : HasCode σ heap x target q p := by
  cases q with
  | int i n => exact tryMatch_int hq
  | hole i => exact tryMatch_hole i
  | string i t => exact tryMatch_string i t
  | var i y => exact tryMatch_var i y hx
  | variant i t q =>
    by_cases hhole : ∃ j, q = .hole j
    · obtain ⟨j, rfl⟩ := hhole
      exact tryMatch_variant_hole i j t
    · exact tryMatch_variant (fun j h => hhole ⟨j, h⟩) fun y p hy => tryMatch_hasCode q y p hq hy
  | list i qs => exact tryMatch_list (fun y p found hy => matchItems_hasCode qs y p found hq hy) hx
  | _ => cases hq

theorem matchItems_hasCode (qs : List Term) (x : String) (p : Progress) (found : Scope)
    (hqs : Term.areWordPatterns qs = true) (hx : Settled p.made x) : HasItemsCode σ heap x target qs found p := by
  cases qs with
  | nil => exact matchItems_nil found
  | cons q qs =>
    by_cases hspread : ∃ i name, q = .spread i name
    · obtain ⟨i, name, rfl⟩ := hspread
      simp only [Term.areWordPatterns, Bool.and_eq_true, decide_eq_true_eq] at hqs
      exact matchItems_spread hqs.1 qs found hx
    · have hq : ∀ i name, q ≠ .spread i name := fun i name h => hspread ⟨i, name, h⟩
      rw [Term.areWordPatterns, Bool.and_eq_true] at hqs
      · exact matchItems_cons hq found hx (fun y p hy => tryMatch_hasCode q y p hqs.1 hy)
          fun y p found hy => matchItems_hasCode qs y p found hqs.2 hy
      · exact hq

end

end

end Machine

end Scrap
