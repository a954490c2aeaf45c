import Scrap.Proofs.Code.Steps
import Scrap.Proofs.Eval.Abstraction
import Scrap.Proofs.Term.Nesting

/-! # Generated names

The parameter of a composition is numbered by a counter that only grows. Unless the text has that name itself, it
occurs in its own function only, once bound and once used; so a call of the function calls one operand after the
other, with the values that the names of the operands have outside of it. -/

namespace Scrap

open List

namespace Term

def ownNames : Term → List String
  | .var _ x | .assign _ x _ => [x]
  | .spread _ x => x.toList
  | _ => []

def occurrences (x : String) (t : Term) : Nat := (t.inside.map fun u => u.ownNames.count x).sum

def occurrencesIn (x : String) (ts : List Term) : Nat := (ts.map (occurrences x)).sum

section Occurrences
variable {x : String} {t u v : Term} {ts : List Term}

theorem occurrences_eq : t.occurrences x = t.ownNames.count x + occurrencesIn x t.parts := by
  rw [occurrences, inside_eq, map_cons, sum_cons, map_flatMap, flatMap_def, sum_flatten,
    map_map]
  rfl

theorem occurrencesIn_cons : occurrencesIn x (t :: ts) = t.occurrences x + occurrencesIn x ts := rfl

theorem occurrencesIn_append {us : List Term} :
    occurrencesIn x (ts ++ us) = occurrencesIn x ts + occurrencesIn x us := by
  rw [occurrencesIn, map_append, sum_append]
  rfl

theorem occurrences_parts (hown : t.ownNames = []) : t.occurrences x = occurrencesIn x t.parts := by
  rw [occurrences_eq, hown]
  exact Nat.zero_add _

theorem occurrencesIn_case {i : Nat} {cs : List (Term × Term)} :
    occurrencesIn x (((u, v) :: cs).flatMap fun c => [c.1, c.2]) =
      (Term.function i u v).occurrences x + occurrencesIn x (cs.flatMap fun c => [c.1, c.2]) := by
  rw [flatMap_cons, occurrencesIn_append, occurrences_parts rfl]
  rfl

theorem occurrences_le_of_inside (h : u.Inside t) : u.occurrences x ≤ t.occurrences x := by
  induction h with
  | self => exact Nat.le_refl _
  | @part t v hv _ ih =>
    obtain ⟨as, bs, hparts⟩ := append_of_mem hv
    rw [occurrences_eq (t := t), hparts, occurrencesIn_append, occurrencesIn_cons]
    omega

theorem occurrencesIn_set (d : Dict Term) (y : String) (v : Term) :
    occurrencesIn x ((d.set y v).map Prod.snd) ≤ occurrencesIn x (d.map Prod.snd) + v.occurrences x := by
  induction d with
  | nil => exact Nat.le_of_eq (Nat.add_comm ..)
  | cons e d ih =>
    rw [Dict.set]
    split <;> simp only [map_cons, occurrencesIn_cons] <;> omega

theorem occurrencesIn_merge (d es : Dict Term) : occurrencesIn x ((d.merge es).map Prod.snd) ≤
    occurrencesIn x (d.map Prod.snd) + occurrencesIn x (es.map Prod.snd) := by
  induction es generalizing d with
  | nil => exact Nat.le_refl _
  | cons e es ih =>
    have hset := occurrencesIn_set (x := x) d e.1 e.2
    have hrest := ih (d.set e.1 e.2)
    rw [Dict.merge_cons, map_cons, occurrencesIn_cons]
    omega

end Occurrences

/-! ### Free variables -/

/-- The name is not among the names. -/
def Avoids (x : String) (names : Except FreeVarsError (List String)) : Prop := ∀ ns, names = .ok ns → x ∉ ns

section FreeVars
variable {x : String} {r r' : Except FreeVarsError (List String)} {t : Term}

theorem Avoids.pure {ns : List String} (h : x ∉ ns) : Avoids x (Pure.pure ns) := fun _ hns => by
  cases hns
  exact h

theorem Avoids.bind {f : List String → Except FreeVarsError (List String)} (h : Avoids x r)
    (hf : ∀ a, x ∉ a → Avoids x (f a)) : Avoids x (r >>= f) := fun ns hns => by
  obtain ⟨a, ha, hns⟩ := bind_eq_ok.mp hns
  exact hf a (h a ha) ns hns

theorem Avoids.append (h : Avoids x r) (h' : Avoids x r') : Avoids x (do return (← r) ++ (← r')) :=
  h.bind fun _ ha => h'.bind fun _ hb => .pure fun hx => (mem_append.mp hx).elim ha hb

/-- The name is no free variable of the term, however the term is numbered. -/
def Unmentioned (x : String) (t : Term) : Prop := ∀ n, Avoids x (t.placeFrom n).1.freeVars

theorem avoids_all {ts : List Term} (h : ∀ t ∈ ts, Unmentioned x t) (n : Nat) :
    Avoids x (freeVarsAll (placeAll n ts).1) := by
  induction ts generalizing n with
  | nil => exact .pure not_mem_nil
  | cons t ts ih => exact (h t (.head _) n).append (ih (fun u hu => h u (.tail _ hu)) _)

theorem avoids_fields {fs : Dict Term} (h : ∀ t ∈ fs.map Prod.snd, Unmentioned x t) (n : Nat) :
    Avoids x (freeVarsFields (placeFields n fs).1) := by
  induction fs generalizing n with
  | nil => exact .pure not_mem_nil
  | cons f fs ih => exact (h f.2 (.head _) n).append (ih (fun u hu => h u (.tail _ hu)) _)

theorem avoids_cases {cs : List (Term × Term)} (h : ∀ t ∈ cs.flatMap fun c => [c.1, c.2], Unmentioned x t) (n : Nat) :
    Avoids x (freeVarsCases (placeCases n cs).1) := by
  induction cs generalizing n with
  | nil => exact .pure not_mem_nil
  | cons c cs ih =>
    refine (h c.2 (.tail _ (.head _)) _).bind fun body hbody => (h c.1 (.head _) _).bind fun _ _ => ?_
    refine (ih (fun t ht => h t (.tail _ (.tail _ ht))) _).bind fun rest hrest => .pure fun hx => ?_
    exact (mem_append.mp hx).elim (fun hx => hbody (mem_filter.mp hx).1) hrest

/-- A free variable of a term occurs in it. -/
theorem unmentioned (h : t.occurrences x = 0) : Unmentioned x t := by
  induction t using parts_induction with
  | step t ih =>
    have ih : ∀ u ∈ t.parts, Unmentioned x u := fun u hu =>
      ih u hu (Nat.le_zero.mp (h ▸ occurrences_le_of_inside (.part hu .self)))
    intro n
    cases t with
    | int | truth | float | complex | string | bytes | hole | native => exact .pure not_mem_nil
    | assert | environment | relocation | link => exact fun _ hns => by cases hns
    | var i y | spread i y =>
      rw [occurrences_eq] at h
      exact .pure (count_eq_zero.mp (Nat.eq_zero_of_add_eq_zero_right h))
    | binop i op l r | apply i l r | access i l r => exact (ih l (.head _) _).append (ih r (.tail _ (.head _)) _)
    | variant i y v | assign i y v | closure e v => exact ih v (.head _) _
    | list i ts => exact avoids_all ih _
    | record i fs => exact avoids_fields ih _
    | matchFunction i cs => exact avoids_cases ih _
    | matchCase i p b =>
      exact (ih b (.tail _ (.head _)) _).bind fun _ hbody => (ih p (.head _) _).bind fun _ _ =>
        .pure fun hx => hbody (mem_filter.mp hx).1
    | function i p b =>
      rw [placeFrom, freeVars]
      split
      · exact (ih b (.tail _ (.head _)) _).bind fun _ hbody => .pure fun hx => hbody (mem_filter.mp hx).1
      · exact fun _ hns => by cases hns
    | scope i b d =>
      rw [placeFrom, freeVars]
      split
      · exact (ih b (.head _) _).bind fun _ hbody => (ih d (.tail _ (.head _)) _).bind fun _ hvalue =>
          .pure fun hx => (mem_append.mp hx).elim (fun hx => hbody (mem_filter.mp hx).1) hvalue
      · exact fun _ hns => by cases hns

theorem not_mentions_placed (h : t.occurrences x = 0) (n : Nat) : ¬ (t.placeFrom n).1.Mentions x := by
  rintro ⟨ns, hns, hx⟩
  exact unmentioned h n ns hns hx

theorem paramName?_placeFrom (t : Term) (n : Nat) : (t.placeFrom n).1.paramName? = t.paramName? := by cases t <;> rfl

end FreeVars

end Term

open Term

namespace Parser

theorem parameter_inj {k n : Nat} (h : parameter k = parameter n) : k = n := by
  have hlists := congrArg String.toList h
  have hdigits : Nat.toDigits 10 k = Nat.toDigits 10 n := by simpa [parameter] using hlists
  rw [← Nat.ofDigitChars_ten_toDigits (n := k), hdigits, Nat.ofDigitChars_ten_toDigits]

/-- How often the name of the number `k` occurs in what is made while the counter goes from `a` to `b`. -/
def share (k a b : Nat) : Nat := if a ≤ k ∧ k < b then 2 else 0

/-- The name of the number `k` occurs `n` times, at most as often as it is a token and is generated while the counter
goes from `a` to `b`. -/
def Held (k : Nat) (ls : List Lexeme) (a b n : Nat) : Prop :=
  a ≤ b ∧ n ≤ ls.count (.name (parameter k)) + share k a b

section Held
variable {k a b c m n : Nat} {l : Lexeme} {ls ls' : List Lexeme} {t u : Term}

theorem held_nothing : Held k ls a a 0 := ⟨Nat.le_refl a, Nat.zero_le _⟩

theorem Held.le (h : Held k ls a b n) (hm : m ≤ n) : Held k ls a b m := ⟨h.1, Nat.le_trans hm h.2⟩

theorem Held.sublist (h : Held k ls a b n) (hls : ls.Sublist ls') : Held k ls' a b n :=
  ⟨h.1, Nat.le_trans h.2 (Nat.add_le_add_right (hls.count_le _) _)⟩

theorem Held.cons (h : Held k ls a b n) : Held k (l :: ls) a b n := h.sublist (sublist_cons_self l ls)

theorem Held.append (h : Held k ls a b n) (h' : Held k ls' b c m) : Held k (ls ++ ls') a c (n + m) := by
  obtain ⟨hab, hn⟩ := h
  obtain ⟨hbc, hm⟩ := h'
  have hshare : share k a b + share k b c = share k a c := by grind [share]
  exact ⟨Nat.le_trans hab hbc, by rw [count_append]; omega⟩

theorem held_name {x : String} : Held k [.name x] a a ([x].count (parameter k)) := by
  refine ⟨Nat.le_refl a, Nat.le_add_right_of_le ?_⟩
  rw [count_singleton, count_singleton]
  by_cases hx : x = parameter k <;> simp [hx]

theorem occurrences_composed (n : Nat) (t u : Term) : (composed (parameter n) t u).occurrences (parameter k) =
    t.occurrences (parameter k) + u.occurrences (parameter k) + share k n (n + 1) := by
  have hx : 2 * (Term.var 0 (parameter n)).occurrences (parameter k) = share k n (n + 1) := by
    rw [occurrences_eq, share]
    by_cases hkn : k = n
    · subst hkn
      simp [ownNames, parts, occurrencesIn]
    · have hne : ¬ parameter n = parameter k := fun h => hkn (parameter_inj h).symm
      rw [if_neg (by omega)]
      simp [ownNames, parts, occurrencesIn, hne]
  have happly : ∀ f v : Term, (Term.apply 0 f v).occurrences (parameter k) =
      f.occurrences (parameter k) + v.occurrences (parameter k) := fun f v => occurrences_parts rfl
  have hcomposed : (composed (parameter n) t u).occurrences (parameter k) =
      (Term.var 0 (parameter n)).occurrences (parameter k) +
        (Term.apply 0 u (.apply 0 t (.var 0 (parameter n)))).occurrences (parameter k) := occurrences_parts rfl
  rw [hcomposed, happly, happly]
  omega

/-- The parameter of a composition is generated after both operands have been read. -/
theorem Held.composed (h : Held k ls a c (t.occurrences (parameter k) + u.occurrences (parameter k))) :
    Held k ls a (c + 1) ((composed (parameter c) t u).occurrences (parameter k)) := by
  obtain ⟨hac, hn⟩ := h
  have hshare : share k a c + share k c (c + 1) = share k a (c + 1) := by grind [share]
  exact ⟨Nat.le_succ_of_le hac, by rw [occurrences_composed]; omega⟩

theorem occurrences_negated {x : String} (h : negated t = pure u) : u.occurrences x ≤ t.occurrences x := by
  rcases negated_eq_pure h with ⟨i, n, rfl, rfl⟩ | ⟨i, y, rfl, rfl⟩ | rfl
  · exact Nat.le_refl _
  · exact Nat.le_refl _
  · exact Nat.le_of_eq ((occurrences_parts rfl).trans (Nat.zero_add _))

theorem occurrences_combined {x s : String} {v : Term} (h : Combined s t u v) (hthen : s ≠ ">>") (hafter : s ≠ "<<") :
    v.occurrences x ≤ t.occurrences x + u.occurrences x := by
  cases h with
  | assign => exact Nat.le_of_eq occurrences_eq
  | pipe => exact Nat.le_of_eq ((occurrences_parts rfl).trans (Nat.add_comm ..))
  | andThen => exact absurd rfl hthen
  | after => exact absurd rfl hafter
  | _ => exact Nat.le_of_eq (occurrences_parts rfl)

theorem occurrences_entryOf {x : String} {e : String × Term} (h : entryOf t = pure e) :
    e.2.occurrences x ≤ t.occurrences x := by
  rcases entryOf_eq_pure h with he | hparts
  · rw [he]
  · exact occurrences_le_of_inside (.part (hparts ▸ mem_singleton_self _) .self)

end Held

def names (k : Nat) : Readings where
  term ls a b t := Held k ls a b (t.occurrences (parameter k))
  cases ls a b cs := Held k ls a b (occurrencesIn (parameter k) (cs.flatMap fun c => [c.1, c.2]))
  items _ ls a b ts := Held k ls a b (occurrencesIn (parameter k) ts)
  fields _ ls a b es := Held k ls a b (occurrencesIn (parameter k) (es.map Prod.snd))
  int := held_nothing
  float := held_nothing
  name := held_name
  string := held_nothing
  bytes _ := held_nothing
  variant h := h.cons.cons.le (Nat.le_of_eq (occurrences_parts rfl))
  spread := held_nothing
  namedSpread := held_name.cons
  matchFunction h hcs := (h.append hcs).cons.le
    (Nat.le_of_eq ((occurrences_parts rfl).trans occurrencesIn_case))
  hole := held_nothing
  paren h _ := (h.sublist (sublist_append_left _ _)).cons
  emptyList := held_nothing
  list h hts := (h.append (hts.sublist (sublist_append_left _ _))).cons.le
    (Nat.le_of_eq (occurrences_parts rfl))
  emptyRecord := held_nothing
  record h he hes := ((h.le (occurrences_entryOf he)).append (hes.sublist (sublist_append_left _ _))).cons.le
    (Nat.le_trans (Nat.le_of_eq (occurrences_parts rfl))
      (Nat.le_trans (occurrencesIn_merge [] _) (Nat.le_of_eq (Nat.zero_add _))))
  negative h hu := h.cons.le (occurrences_negated hu)
  apply hf hx _ := (hf.append hx).le (Nat.le_of_eq (occurrences_parts rfl))
  operator hl hr hthen hafter h := (hl.append hr.cons).le (occurrences_combined h hthen hafter)
  andThen hl hr := (hl.append hr.cons).composed
  after hl hr := ((hl.append hr.cons).le (Nat.le_of_eq (Nat.add_comm ..))).composed
  noCases := held_nothing
  moreCases h hcs := (h.append hcs).cons.le (Nat.le_of_eq occurrencesIn_case)
  noItems := held_nothing
  moreItems _ _ h hts := (h.append hts).cons
  noFields := held_nothing
  moreFields _ _ h he hes := ((h.le (occurrences_entryOf he)).append hes).cons

end Parser

open Scrap.Parser Scrap.Eval

/-- The parameter of a composition, if it is no name of the text, is generated while the text is read, is not in the
operands, and occurs twice in the whole program. The composition, wherever it is numbered and made, and called with the
value of `y`, comes to what `s (f y)` comes to. -/
theorem Reader.parse_hygienic {r r' : Reader} {t : Term} (h : r.parse = (.ok t, r')) {k : Nat}
    (hk : .name (parameter k) ∉ r.lexemes) {f s : Term}
    (hin : (composed (parameter k) f s).Inside t) :
    r.generated ≤ k ∧ k < r'.generated ∧ f.occurrences (parameter k) = 0 ∧
      s.occurrences (parameter k) = 0 ∧ t.occurrences (parameter k) = 2 ∧
      ∀ {i e n : Nat} {session : Session} {env : Env} {y : String} {v : Term}, session.log = none →
        Made session env e ((composed (parameter k) f s).placeFrom i).1 → env.get? y = some v →
        Ready session env ((nested 0 0 0 f s y).placeFrom (i + 2)).1 →
        f.paramName? ≠ some "$$quote" ∧ s.paramName? ≠ some "$$quote" →
        Quiet (n + 3) env ((nested 0 0 0 f s y).placeFrom (i + 2)).1 session →
        EndAlike (outcome (eval (n + 3) env ((nested 0 0 0 f s y).placeFrom (i + 2)).1) session)
          (outcome (applied .standard (eval (n + 3)) (.closure e ((composed (parameter k) f s).placeFrom i).1) v)
            session) := by
  obtain ⟨ls, hls, ⟨-, hw⟩, -⟩ := (reads (names k) _).expression.returns h
  have hnone : ls.count (.name (parameter k)) = 0 :=
    count_eq_zero.mpr fun hmem => hk (hls ▸ mem_append_left _ hmem)
  have hle := occurrences_le_of_inside (x := parameter k) hin
  have hown : share k k (k + 1) = 2 := if_pos ⟨Nat.le_refl k, Nat.lt_succ_self k⟩
  rw [occurrences_composed, hown] at hle
  rw [hnone, share] at hw
  have hfresh : r.generated ≤ k ∧ k < r'.generated ∧ f.occurrences (parameter k) = 0 ∧
      s.occurrences (parameter k) = 0 ∧ t.occurrences (parameter k) = 2 := by
    split at hw <;> omega
  refine ⟨hfresh.1, hfresh.2.1, hfresh.2.2.1, hfresh.2.2.2.1, hfresh.2.2.2.2, ?_⟩
  intro i e n session env y v hlog hmade hy hready hquote hquiet
  exact composition_alike hlog hready ⟨paramName?_placeFrom f _ ▸ hquote.1, paramName?_placeFrom s _ ▸ hquote.2⟩
    ⟨not_mentions_placed hfresh.2.2.1 _, not_mentions_placed hfresh.2.2.2.1 _⟩ hmade hy hquiet

/-- The tokens of `(n -> n + 1) >> (n -> n * 2) >> (n -> n - 3)`. -/
def twoCompositions : List Lexeme :=
  calculation "+" 1 ++ .operator ">>" :: calculation "*" 2 ++ .operator ">>" :: calculation "-" 3
where
  calculation (op : String) (k : Int) : List Lexeme :=
    [.leftParen, .name "n", .operator "->", .name "n", .operator op, .int k, .rightParen]

def calculated (op : BinaryOp) (k : Int) : Term := .function 0 (.var 0 "n") (.binop 0 op (.var 0 "n") (.int 0 k))

theorem twoCompositions_hygienic :
    ∃ t f s, ((tokensOf twoCompositions).parse.1 = .ok t ∧ (composed (parameter 1) f s).Inside t) ∧
      f.occurrences (parameter 1) = 0 ∧ s.occurrences (parameter 1) = 0 ∧ t.occurrences (parameter 1) = 2 ∧
      ∃ session c, outcome (eval 1 [("y", .int 0 5)] (t.placeFrom 0).1) {} = (.ok c, session) ∧
        (outcome (applied .standard (eval 6) c (.int 0 5)) session).1.toOption.bind int? = some 9 ∧
        EndAlike (outcome (eval 6 [("y", .int 0 5)] ((nested 0 0 0 f s "y").placeFrom 2).1) session)
          (outcome (applied .standard (eval 6) c (.int 0 5)) session) := by
  have hparse : (tokensOf twoCompositions).parse = (.ok (composed (parameter 1) (calculated .add 1)
    (composed (parameter 0) (calculated .mul 2) (calculated .sub 3))), ⟨[], 2⟩) := rfl
  obtain ⟨-, -, hf, hs, ht, hcall⟩ := Reader.parse_hygienic hparse (by decide +kernel) .self
  have hquiet : Quiet 6 [("y", .int 0 5)] ((nested 0 0 0 (calculated .add 1)
      (composed (parameter 0) (calculated .mul 2) (calculated .sub 3)) "y").placeFrom 2).1 (({} : Session).push []) :=
    quiet_of_isOk (by decide +kernel)
  exact ⟨_, _, _, ⟨by rw [hparse], .self⟩, hf, hs, ht, ({} : Session).push [], _, rfl, by decide +kernel,
    hcall rfl ⟨[], rfl, rfl⟩ rfl (ready_of_isPart (by decide +kernel) rfl (show ["y"].Nodup by decide) fun _ _ => rfl)
      (by decide) hquiet⟩

/-- In `$v0 >> y` the parameter is the name of an operand. -/
theorem parameter_captures_operand :
    (tokensOf [.name (parameter 0), .operator ">>", .name "y"]).parse =
      (.ok (composed (parameter 0) (.var 0 (parameter 0)) (.var 0 "y")), ⟨[], 1⟩) ∧
      (Term.var 0 (parameter 0)).occurrences (parameter 0) = 1 :=
  ⟨rfl, by decide +kernel⟩

end Scrap
