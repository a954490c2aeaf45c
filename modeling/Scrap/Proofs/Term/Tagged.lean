import Scrap.Proofs.Term.ReadBack

/-! # Reading printed variants and assertions

The tag of a variant binds tighter than any operator when it is read, and looser than most when it is printed. So it is
read as the tag of the leftmost operand without parentheses (`tagged`). An assertion is printed as the operation `!`,
which is what is read. -/

namespace Scrap

open List

variable {tag : String} {e : Term}

namespace Term

/-- Terms that the printer puts in parentheses at a place, or that need none anywhere. -/
def isOperandAt (place : Strength) (t : Term) : Bool := (Parser.binding? t).all (·.left ≤ place)

def valuePlace : Strength := (Operator.binding "#").right

/-- What a tag before a term at the given place is read as: the tag goes to the leftmost operand. -/
def tagged (tag : String) : Term → Strength → Term
  | .binop i op l r, place =>
    if isOperandAt place (.binop i op l r) then .variant 0 tag (bare (.binop i op l r))
    else .binop 0 op (tagged tag l (Operator.binding op.symbol).left) r.bare
  | .apply i f a, place =>
    if isOperandAt place (.apply i f a) then .variant 0 tag (bare (.apply i f a))
    else .apply 0 (tagged tag f Operator.juxtaposition.left) a.bare
  | .access i o f, place =>
    if isOperandAt place (.access i o f) then .variant 0 tag (bare (.access i o f))
    else .access 0 (tagged tag o (Operator.binding "@").left) f.bare
  | t, _ => .variant 0 tag t.bare

theorem tagged_of_isOperandAt {t : Term} {place : Strength} (h : t.isOperandAt place = true) :
    tagged tag t place = .variant 0 tag t.bare := by
  cases t <;> simp only [tagged, h, if_true]

/-- Every operation other than these three is printed in parentheses behind a tag. -/
theorem isOperandAt_of_tag (t : Term) {place : Strength} (hplace : valuePlace ≤ place) : t.isOperandAt place =
    true ∨ (∃ i op l r, t = .binop i op l r) ∨ (∃ i f a, t = .apply i f a) ∨ ∃ i o f, t = .access i o f := by
  have hloose : ∀ b : Binding, b.left ≤ valuePlace → decide (b.left ≤ place) = true := fun b hb =>
    decide_eq_true (Int.le_trans hb hplace)
  cases t with
  | binop i op l r => exact .inr (.inl ⟨i, op, l, r, rfl⟩)
  | apply i f a => exact .inr (.inr (.inl ⟨i, f, a, rfl⟩))
  | access i o f => exact .inr (.inr (.inr ⟨i, o, f, rfl⟩))
  | assign i x v | function i p b | matchFunction i cases | scope i b d => exact .inl (hloose _ (by decide))
  | _ => exact .inl rfl

end Term

open Term

namespace Parser

section Rules
variable {ls : List Lexeme} {t : Term} {q m : Strength}

theorem ReadAs.variant (tag : String) (hm : m < variantStrength) (h : ReadAs ls t variantStrength m) :
    ReadAs (.hash :: .name tag :: ls) (.variant 0 tag t) q m := by
  refine .of_operand (cons_ne_nil _ _) fun ts us g fuel hts hus hfuel => ?_
  obtain ⟨hash, ts, rfl, hhash, hts⟩ := map_eq_cons_iff.mp hts
  obtain ⟨name, ts, rfl, hname, hts⟩ := map_eq_cons_iff.mp hts
  rw [length_cons, length_cons] at hfuel
  have hvalue := h.returns hm hts hus (show 6 * ls.length ≤ fuel by omega) g
  rw [operand, cons_append, cons_append, bind_ok outcome_next]
  simp only [hhash]
  rw [bind_ok outcome_next]
  simp only [hname]
  rw [bind_ok hvalue]
  rfl

theorem parse_of_readAs (h : ReadAs ls t 0 (-1)) {tokens : List Token} (htokens : tokens.map Token.lexeme = ls)
    (g : Nat) : Reader.parse { tokens := tokens, generated := g } = (.ok t, { tokens := [], generated := g }) := by
  have hlen := congrArg List.length htokens
  rw [length_map] at hlen
  have hparse := h.returns (by decide) htokens .nil (show 6 * _ ≤ 6 * tokens.length + 6 by omega) g
  rwa [append_nil] at hparse

end Rules

theorem symbol_left_lt {op : BinaryOp} (h : op.isWritten = true) :
    (Operator.binding op.symbol).left < variantStrength := by
  cases op <;> first | (cases h; done) | decide

theorem lexemes_of_not_isOperandAt {b : Binding} {place : Strength} (h : ¬ b.left ≤ place) (ls : List Lexeme) :
    parenthesized b place ls = ls := if_neg h

/-- Behind a tag, the tokens of a term are read as the term with the tag at its leftmost operand. -/
theorem readAs_tagged (tag : String) (t : Term) (ht : t.isWritable = true) {place : Strength}
    (hplace : valuePlace ≤ place) (q m : Strength) (hfits : Fits t place q m) (hm : m < variantStrength) :
    ReadAs (.hash :: .name tag :: lexemes t place) (tagged tag t place) q m := by
  by_cases hop : t.isOperandAt place = true
  · rw [tagged_of_isOperandAt hop]
    refine ReadAs.variant tag hm (readAs_lexemes t ht place variantStrength m fun b hb hlt => ?_)
    rw [isOperandAt, hb, Option.all_some, decide_eq_true_eq] at hop
    exact absurd hlt (Int.not_lt.mpr hop)
  rcases isOperandAt_of_tag t hplace with h | ⟨i, op, l, r, rfl⟩ | ⟨i, f, a, rfl⟩ | ⟨i, o, f, rfl⟩
  · exact absurd h hop
  · have hleft : ¬ (Operator.binding op.symbol).left ≤ place := fun hle => hop (decide_eq_true hle)
    obtain ⟨hq, hright⟩ := hfits _ rfl (Int.not_le.mp hleft)
    simp only [isWritable, Bool.and_eq_true] at ht
    rw [tagged, if_neg hop, lexemes, lexemes_of_not_isOperandAt hleft]
    exact .operator (binding?_symbol ht.1.1) hq hright (fun fuel p => operation_symbol fuel p ht.1.1 _)
      (readAs_tagged tag l ht.1.2 (Int.le_trans hplace (Int.le_of_not_le hleft)) _ _
        (fits_left ht.1.2 (regular_symbol ht.1.1) hq) (symbol_left_lt ht.1.1))
      (readAs_lexemes r ht.2 _ _ _ (fits_right ht.2 hright))
  · have hleft : ¬ Operator.juxtaposition.left ≤ place := fun hle => hop (decide_eq_true hle)
    obtain ⟨hq, hright⟩ := hfits _ rfl (Int.not_le.mp hleft)
    rw [isWritable, Bool.and_eq_true] at ht
    rw [tagged, if_neg hop, lexemes, lexemes_of_not_isOperandAt hleft]
    exact .apply hq hright ((opens_lexemes a ht.2 _).mono (by decide))
      (readAs_tagged tag f ht.1 (Int.le_trans hplace (Int.le_of_not_le hleft)) _ _
        (fits_left ht.1 (by decide) hq) (by decide))
      (readAs_lexemes a ht.2 _ _ _ (fits_right ht.2 hright))
  · have hleft : ¬ (Operator.binding "@").left ≤ place := fun hle => hop (decide_eq_true hle)
    obtain ⟨hq, hright⟩ := hfits _ rfl (Int.not_le.mp hleft)
    rw [isWritable, Bool.and_eq_true] at ht
    rw [tagged, if_neg hop, lexemes, lexemes_of_not_isOperandAt hleft]
    exact .operator rfl hq hright (fun _ _ => by rw [operation, map_eq_pure_bind])
      (readAs_tagged tag o ht.1 (Int.le_trans hplace (Int.le_of_not_le hleft)) _ _
        (fits_left ht.1 (by decide) hq) (by decide))
      (readAs_lexemes f ht.2 _ _ _ (fits_right ht.2 hright))
termination_by sizeOf t

end Parser

namespace Term

section Printing
variable {t u c : Term} {h : Heap} {far : Term → Strength → Printer String}

/-- Parts of a term that can be written are printed as they are written, inside of any other term. -/
theorem outcome_printWith_part (ht : t.Coherent) (hroot : t.isLeaf = false) (hparts : ∀ v ∈ t.parts, v.isWritable = true)
    (hu : u ∈ t.parts) (place : Strength) :
    outcome (Printer.printWith h far u place) [t] = (.ok (written u place), [t]) := by
  have hpart : ∀ v ∈ t.parts, v.isPart = true := fun v hv => by rw [isPart, hparts v hv, Bool.true_or]
  have hleaf : ∀ v : Term, v.Inside t → v.isLeaf = false := by
    intro v hv
    cases hv with
    | self => exact hroot
    | part hw hv => exact isLeaf_of_isPart (hv.isPart (hpart _ hw))
  have habove : Printer.Above t u ([] ++ [t]) := .part ⟨.self, fun _ hv => by cases hv⟩ hu
  exact Printer.outcome_printWith ht hleaf u place [t] (hpart u hu) habove

theorem pretty_of_inside {body : Printer String} {s : String}
    (hprint : Printer.printWith h (Printer.printWithin h h.knots.length) t 0 = Printer.inside h t body)
    (hbody : outcome body [t] = (.ok s, [t])) : t.pretty h = .ok s := by
  have hroot : outcome (Printer.printWith h (Printer.printWithin h h.knots.length) t 0) [] =
      (.ok s, Printer.forget h t [t]) := by
    rw [hprint, Printer.outcome_inside]
    simp only [any_nil, Bool.false_eq_true, if_false, nil_append, hbody]
  exact congrArg Prod.fst hroot

theorem pretty_variant {i : Nat} (he : e.isWritable = true) (ht : (variant i tag e).Coherent) :
    (variant i tag e).pretty h = .ok ("#" ++ tag ++ " " ++ written e valuePlace) := by
  refine pretty_of_inside rfl ?_
  rw [bind_ok (outcome_printWith_part ht rfl (fun v hv => mem_singleton.mp hv ▸ he) (.head _) _)]
  rfl

theorem pretty_assert {i : Nat} (he : e.isWritable = true) (hc : c.isWritable = true) (ht : (assert i e c).Coherent) :
    (assert i e c).pretty h = .ok (written (.binop 0 .rightEval e c) 0) := by
  have hparts : ∀ v ∈ (assert i e c).parts, v.isWritable = true := by simp [parts, he, hc]
  refine pretty_of_inside rfl ?_
  rw [bind_ok (outcome_printWith_part ht rfl hparts (.head _) _),
    bind_ok (outcome_printWith_part ht rfl hparts (.tail _ (.head _)) _), written]
  have hmid : ∀ l r : String, l ++ " ! " ++ r = l ++ " " ++ BinaryOp.symbol .rightEval ++ " " ++ r := fun l r => by
    simp only [String.append_assoc]
    rfl
  rw [← hmid]
  rfl

end Printing

theorem scans_tagged (htag : Text.isName tag = true) (he : e.isWritable = true) :
    Scanner.Scans ("#" ++ tag ++ " " ++ written e valuePlace).toList (.hash :: .name tag :: lexemes e valuePlace) := by
  intro rest hrest
  have hvalue := (Scanner.scans_name htag).space (Scanner.scans_written e he valuePlace) (opens_lexemes e he _).ne_nil
  simp only [String.toList_append, append_assoc]
  exact .cons (Scanner.reads_hash _) nofun (Nat.lt_succ_self _) (by simpa using hvalue rest hrest)

/-- The tag stays in front of the whole value exactly if that is an operand. -/
theorem tagged_equal_iff (h : Heap) (i : Nat) (tag : String) (he : e.isWritable = true) :
    (tagged tag e valuePlace).equal h (.variant i tag e) = true ↔ e.isOperandAt valuePlace = true := by
  obtain ⟨envs, far, heq⟩ := equal_eq_equalWith h
  rw [heq]
  constructor
  · intro htrue
    by_contra hop
    rcases isOperandAt_of_tag e (Int.le_refl _) with h | ⟨i, op, l, r, rfl⟩ | ⟨i, f, a, rfl⟩ | ⟨i, o, f, rfl⟩
    · exact hop h
    all_goals simp [tagged, hop, equalWith, same, Term.id] at htrue
  · intro hop
    rw [tagged_of_isOperandAt hop]
    simp only [equalWith, decide_true, Bool.true_and, Bool.or_eq_true]
    exact .inr (equalWith_of_bare_eq h envs far _ _ (isPart_of_isWritable (isWritable_bare e he)) (bare_bare e))

/-- What is read from the printed forms of a variant and an assertion. -/
theorem variant_assert_read (h : Heap) {e c : Term} (he : e.isWritable = true) (hc : c.isWritable = true)
    {tag : String} (htag : Text.isName tag = true) {i j : Nat} (hv : (variant i tag e).Coherent)
    (ha : (assert j e c).Coherent) (g : Nat) :
    (∃ text tokens t, (variant i tag e).pretty h = .ok text ∧ tokenize text = .ok tokens ∧
      Reader.parse { tokens := tokens, generated := g } = (.ok t, { tokens := [], generated := g }) ∧
      t = tagged tag e valuePlace ∧ (t.equal h (.variant i tag e) = true ↔ e.isOperandAt valuePlace = true)) ∧
    ∃ text tokens t, (assert j e c).pretty h = .ok text ∧ tokenize text = .ok tokens ∧
      Reader.parse { tokens := tokens, generated := g } = (.ok t, { tokens := [], generated := g }) ∧
      t = .binop 0 .rightEval e.bare c.bare ∧ t.equal h (.assert j e c) = false := by
  constructor
  · obtain ⟨tokens, htokens, hmap⟩ := tokenize_of_scans (scans_tagged htag he)
    have hread := Parser.readAs_tagged tag e he (Int.le_refl _) 0 (-1)
      (fun b hb hlt => Parser.fits_whole he b hb (Int.lt_trans (by decide) hlt)) (by decide)
    exact ⟨_, tokens, _, pretty_variant he hv, htokens, Parser.parse_of_readAs hread hmap g, rfl,
      tagged_equal_iff h i tag he⟩
  · have hw : (binop 0 .rightEval e c).isWritable = true := by
      simp only [isWritable, he, hc, Bool.and_true]
      rfl
    obtain ⟨tokens, htokens, hmap⟩ := tokenize_of_scans (Scanner.scans_written _ hw 0)
    have hread := Parser.readAs_lexemes _ hw 0 0 (-1) (Parser.fits_whole hw)
    refine ⟨_, tokens, _, pretty_assert he hc ha, htokens, Parser.parse_of_readAs hread hmap g, rfl, ?_⟩
    obtain ⟨envs, far, heq⟩ := equal_eq_equalWith h
    rw [heq]
    simp [bare, equalWith, same, Term.id]

/-- The function `x -> x + 1`. -/
def increment : Term := .function 0 (.var 0 "x") (.binop 0 .add (.var 0 "x") (.int 0 1))

theorem coherent_of_bare_parts {t : Term} (ht : t.isClosure = false ∧ t.id = 0)
    (hparts : ∀ u ∈ t.parts, u.isWritable = true ∧ u.bare = u) : t.Coherent := by
  refine coherent_of_unplaced fun u hu => ?_
  cases hu with
  | self => exact ht
  | @part _ v hv hu =>
    obtain ⟨hw, hbare⟩ := hparts v hv
    exact Inside.unplaced (hbare.symm ▸ hu) (by rw [isPart, hw, Bool.true_or])

theorem increment_variant_read :
    (∃ text tokens t, (variant 0 "some" increment).pretty {} = .ok text ∧ tokenize text = .ok tokens ∧
      Reader.parse { tokens := tokens, generated := 0 } = (.ok t, { tokens := [], generated := 0 }) ∧
      t = tagged "some" increment valuePlace ∧
      (t.equal {} (.variant 0 "some" increment) = true ↔ increment.isOperandAt valuePlace = true)) ∧
    ∃ text tokens t, (assert 0 increment (.var 0 "y")).pretty {} = .ok text ∧ tokenize text = .ok tokens ∧
      Reader.parse { tokens := tokens, generated := 0 } = (.ok t, { tokens := [], generated := 0 }) ∧
      t = .binop 0 .rightEval increment.bare (.var 0 "y") ∧ t.equal {} (.assert 0 increment (.var 0 "y")) = false := by
  have hi : increment.isWritable = true ∧ increment.bare = increment := ⟨by decide +kernel, rfl⟩
  have hy : (var 0 "y").isWritable = true ∧ (var 0 "y").bare = .var 0 "y" := ⟨by decide +kernel, rfl⟩
  exact variant_assert_read {} hi.1 hy.1 (by decide +kernel)
    (coherent_of_bare_parts ⟨rfl, rfl⟩ (forall_mem_singleton.mpr hi))
    (coherent_of_bare_parts ⟨rfl, rfl⟩ (forall_mem_cons.mpr ⟨hi, forall_mem_singleton.mpr hy⟩)) 0

/-- A sum behind a tag is read as the sum of a variant and a number. -/
theorem tagged_sum_not_read_back :
    (variant 0 "t" (.binop 0 .add (.int 0 1) (.int 0 2))).pretty {} = .ok "#t 1 + 2" ∧
    ∃ tokens t, tokenize "#t 1 + 2" = .ok tokens ∧
      Reader.parse { tokens := tokens, generated := 0 } = (.ok t, { tokens := [], generated := 0 }) ∧
      t = .binop 0 .add (.variant 0 "t" (.int 0 1)) (.int 0 2) ∧
      t.equal {} (.variant 0 "t" (.binop 0 .add (.int 0 1) (.int 0 2))) = false := by
  have he : (binop 0 .add (.int 0 1) (.int 0 2)).isWritable = true := by decide +kernel
  have htext : "#" ++ "t" ++ " " ++ written (.binop 0 .add (.int 0 1) (.int 0 2)) valuePlace = "#t 1 + 2" := by
    decide +kernel
  obtain ⟨tokens, htokens, hmap⟩ := tokenize_of_scans (scans_tagged (show Text.isName "t" = true by decide +kernel) he)
  have hread := Parser.readAs_tagged "t" _ he (Int.le_refl _) 0 (-1)
    (fun b hb hlt => Parser.fits_whole he b hb (Int.lt_trans (by decide) hlt)) (by decide)
  rw [htext] at htokens
  refine ⟨htext ▸ pretty_variant he (coherent_of_bare_parts ⟨rfl, rfl⟩ (forall_mem_singleton.mpr ⟨he, rfl⟩)), tokens, _, htokens,
    Parser.parse_of_readAs hread hmap 0, rfl, ?_⟩
  exact Bool.eq_false_iff.mpr fun hequal => absurd ((tagged_equal_iff {} 0 "t" he).mp hequal) (by decide)

end Term

end Scrap
