import Scrap.Proofs.Term.Comparing
import Scrap.Proofs.Token.Scanning
import Scrap.Term.Parser
import Scrap.Term.Printer

/-! # Written terms

Terms that can be written and read back, and their written form as a function of the term and its place. -/

namespace Scrap

open List Dict

def BinaryOp.isWritten : BinaryOp → Bool
  | .floorDiv | .pipe | .reversePipe => false
  | _ => true

def BinaryOp.symbol (op : BinaryOp) : String := op.symbol?.getD ""

theorem BinaryOp.symbol?_of_isWritten {op : BinaryOp} (h : op.isWritten = true) : op.symbol? = some op.symbol := by
  cases op <;> first | rfl | cases h

theorem BinaryOp.ofSymbol?_symbol {op : BinaryOp} (h : op.isWritten = true) : ofSymbol? op.symbol = some op := by
  cases op <;> first | rfl | cases h

namespace Term

/-- Numbers that are written with digits only, and not too many. -/
def isNumeral (n : Int) : Bool := 0 ≤ n && (Text.intText? n).isSome

theorem intText?_of_isNumeral {n : Int} (h : isNumeral n = true) : Text.intText? n = some (Decimal.intText n) := by
  rw [isNumeral, Bool.and_eq_true, Text.intText?] at h
  rw [Text.intText?]
  split at h
  · cases h.2
  · rename_i hlt
    rw [if_neg hlt]

/-- Texts that stand between quotes as they are. -/
def isPlainText (s : String) : Bool := s.toList.all fun c => 32 ≤ c.toNat && c.toNat ≤ 126 && c ≠ '"' && c ≠ '\\'

/-- Terms that are written as one token or between brackets. -/
def isClosed : Term → Bool
  | .int _ _ | .hole _ | .string _ _ | .var _ _ | .list _ _ | .record _ _ => true
  | _ => false

/-- Terms that bind no tighter than the definition of a field. -/
def isLoose : Term → Bool
  | .scope _ _ _ | .assign _ _ _ | .binop _ .rightEval _ _ => true
  | _ => false

mutual

/-- Terms that can be written and read back. -/
def isWritable : Term → Bool
  | .int _ n => isNumeral n
  | .hole _ => true
  | .string _ s => isPlainText s
  | .var _ x => Text.isName x
  | .list _ items => areItems items
  | .record _ fields => decide (Dict.keys fields).Nodup && areFields fields
  | .function _ (.var _ x) b => Text.isName x && b.isWritable
  | .apply _ f a => f.isWritable && a.isWritable
  | .access _ o f => o.isWritable && f.isWritable
  | .assign _ x v => Text.isName x && v.isWritable
  | .scope _ b d => b.isWritable && d.isWritable
  | .binop _ op l r => op.isWritten && l.isWritable && r.isWritable
  | .matchFunction _ cases => !cases.isEmpty && areCases cases
  | _ => false

def areItems : List Term → Bool
  | [] => true
  | .spread _ name :: ts => name.all Text.isName && ts.isEmpty
  | t :: ts => t.isWritable && areItems ts

def areFields : List (String × Term) → Bool
  | [] => true
  | (k, t) :: fs => Text.isName k && t.isWritable && !t.isLoose && areFields fs

def areCases : List (Term × Term) → Bool
  | [] => true
  | (p, b) :: cs => p.isWritable && p.isClosed && b.isWritable && areCases cs

end

mutual

/-- The written form of a term at a place of the given strength. -/
def written : Term → Strength → String
  | .int _ n, _ => Decimal.intText n
  | .string _ s, _ => Text.escaped s
  | .var _ x, _ => x
  | .hole _, _ => "()"
  | .spread _ x, _ => "..." ++ x.getD ""
  | .list _ items, _ => "[" ++ String.intercalate ", " (writtenItems items) ++ "]"
  | .record _ fields, _ => "\x7b" ++ String.intercalate ", " (writtenFields fields) ++ "\x7d"
  | .assign _ x v, p =>
    Printer.enclosed (Operator.binding "=") p (x ++ " = " ++ written v (Operator.binding "=").right)
  | .binop _ op l r, p =>
    let b := Operator.binding op.symbol
    Printer.enclosed b p (written l b.left ++ " " ++ op.symbol ++ " " ++ written r b.right)
  | .function _ (.var _ x) body, p =>
    Printer.enclosed (Operator.binding "->") p (x ++ " -> " ++ written body (Operator.binding "->").right)
  | .matchFunction _ cases, p =>
    Printer.enclosed (Operator.binding "|") p (String.intercalate "\n" (writtenCases cases))
  | .scope _ body d, p =>
    let b := Operator.binding "."
    Printer.enclosed b p (written body b.left ++ " . " ++ written d b.right)
  | .apply _ f a, p =>
    let b := Operator.juxtaposition
    Printer.enclosed b p (written f b.left ++ " " ++ written a b.right)
  | .access _ o f, p =>
    let b := Operator.binding "@"
    Printer.enclosed b p (written o b.left ++ " @ " ++ written f b.right)
  | _, _ => ""

def writtenItems : List Term → List String
  | [] => []
  | t :: ts => written t 0 :: writtenItems ts

def writtenFields : List (String × Term) → List String
  | [] => []
  | (k, t) :: fs => (k ++ " = " ++ written t 0) :: writtenFields fs

def writtenCases : List (Term × Term) → List String
  | [] => []
  | (p, b) :: cs =>
    let binding := Operator.binding "|"
    ("| " ++ written p binding.left ++ " -> " ++ written b binding.right) :: writtenCases cs

end

/-! ### Identities left aside -/

mutual

/-- A term that can be written, without the identities of its parts. -/
def bare : Term → Term
  | .int _ n => .int 0 n
  | .hole _ => .hole 0
  | .string _ s => .string 0 s
  | .var _ x => .var 0 x
  | .spread _ x => .spread 0 x
  | .list _ items => .list 0 (bareAll items)
  | .record _ fields => .record 0 (bareFields fields)
  | .function _ p b => .function 0 (bare p) (bare b)
  | .apply _ f a => .apply 0 (bare f) (bare a)
  | .access _ o f => .access 0 (bare o) (bare f)
  | .assign _ x v => .assign 0 x (bare v)
  | .scope _ b d => .scope 0 (bare b) (bare d)
  | .binop _ op l r => .binop 0 op (bare l) (bare r)
  | .matchFunction _ cases => .matchFunction 0 (bareCases cases)
  | t => t

def bareAll : List Term → List Term
  | [] => []
  | t :: ts => bare t :: bareAll ts

def bareFields : List (String × Term) → List (String × Term)
  | [] => []
  | (k, t) :: fs => (k, bare t) :: bareFields fs

def bareCases : List (Term × Term) → List (Term × Term)
  | [] => []
  | (p, b) :: cs => (bare p, bare b) :: bareCases cs

end

theorem writtenItems_eq (ts : List Term) : writtenItems ts = ts.map (written · 0) :=
  eq_map rfl fun _ _ => rfl

theorem writtenFields_eq (fs : Dict Term) : writtenFields fs = fs.map fun f => f.1 ++ " = " ++ written f.2 0 :=
  eq_map rfl fun _ _ => rfl

theorem writtenCases_eq (cs : List (Term × Term)) : writtenCases cs = cs.map fun c =>
    "| " ++ written c.1 (Operator.binding "|").left ++ " -> " ++ written c.2 (Operator.binding "|").right :=
  eq_map rfl fun _ _ => rfl

theorem bareAll_eq_map (ts : List Term) : bareAll ts = ts.map bare :=
  eq_map rfl fun _ _ => rfl

theorem bareFields_eq_mapValues (fs : Dict Term) : bareFields fs = fs.mapValues bare :=
  eq_map rfl fun _ _ => rfl

theorem bareCases_eq_map (cs : List (Term × Term)) : bareCases cs = cs.map fun c => (c.1.bare, c.2.bare) :=
  eq_map rfl fun _ _ => rfl

theorem bare_bare (t : Term) : t.bare.bare = t.bare := by
  induction t using parts_induction with
  | step t ih =>
    cases t with
    | list i items =>
      simp only [bare, bareAll_eq_map, map_map]
      exact congrArg _ (map_congr_left ih)
    | record i fields =>
      simp only [bare, bareFields_eq_mapValues, Dict.mapValues, map_map]
      exact congrArg _ (map_congr_left fun p hp => Prod.ext rfl (ih p.2 (mem_parts_fields hp)))
    | matchFunction i cases =>
      simp only [bare, bareCases_eq_map, map_map]
      exact congrArg _ <| map_congr_left fun c hc =>
        Prod.ext (ih c.1 (mem_parts_cases hc).1) (ih c.2 (mem_parts_cases hc).2)
    | function i l r | apply i l r | access i l r | scope i l r | binop i op l r =>
      rw [bare, bare, ih l (.head _), ih r (.tail _ (.head _))]
    | assign i x v => rw [bare, bare, ih v (.head _)]
    | _ => rfl

theorem isClosed_bare (t : Term) : t.bare.isClosed = t.isClosed := by cases t <;> rfl

theorem isLoose_bare (t : Term) : t.bare.isLoose = t.isLoose := by
  cases t with
  | binop i op l r => cases op <;> rfl
  | _ => rfl

/-! ### The parts of what can be written -/

/-- Terms that can stand inside of one that can be written. -/
def isPart (t : Term) : Bool := t.isWritable || Parser.isSpread t

section Parts
variable {t u : Term}

theorem isPart_of_isWritable (ht : t.isWritable = true) : t.isPart = true := by rw [isPart, ht, Bool.true_or]

theorem areFields_iff {fs : List (String × Term)} : areFields fs = true ↔
    ∀ f ∈ fs, Text.isName f.1 = true ∧ f.2.isWritable = true ∧ f.2.isLoose = false := by
  induction fs with
  | nil => simp [areFields]
  | cons f fs ih =>
    obtain ⟨k, t⟩ := f
    simp [areFields, ih, and_assoc]

theorem areCases_iff {cs : List (Term × Term)} : areCases cs = true ↔
    ∀ c ∈ cs, c.1.isWritable = true ∧ c.1.isClosed = true ∧ c.2.isWritable = true := by
  induction cs with
  | nil => simp [areCases]
  | cons c cs ih =>
    obtain ⟨p, b⟩ := c
    simp [areCases, ih, and_assoc]

theorem isPart_of_item {items : List Term} (h : areItems items = true) : ∀ u ∈ items, u.isPart = true := by
  induction items with
  | nil => exact fun _ hu => by cases hu
  | cons t ts ih =>
    by_cases hspread : ∃ i x, t = .spread i x
    · obtain ⟨i, x, rfl⟩ := hspread
      rw [areItems, Bool.and_eq_true, List.isEmpty_iff] at h
      rw [h.2]
      intro u hu
      cases mem_singleton.mp hu
      rfl
    · rw [areItems, Bool.and_eq_true] at h
      · exact forall_mem_cons.mpr ⟨isPart_of_isWritable h.1, ih h.2⟩
      · exact fun i x heq => hspread ⟨i, x, heq⟩

theorem isPart_of_mem_parts (ht : t.isPart = true) (hu : u ∈ t.parts) : u.isPart = true := by
  cases t with
  | list i items =>
    simp only [isPart, isWritable, Parser.isSpread, Bool.or_false] at ht
    exact isPart_of_item ht u hu
  | record i fields =>
    simp only [isPart, isWritable, Parser.isSpread, Bool.or_false, Bool.and_eq_true] at ht
    obtain ⟨f, hf, rfl⟩ := mem_map.mp hu
    exact isPart_of_isWritable (areFields_iff.mp ht.2 f hf).2.1
  | matchFunction i cases =>
    simp only [isPart, isWritable, Parser.isSpread, Bool.or_false, Bool.and_eq_true] at ht
    obtain ⟨c, hc, hu⟩ := mem_flatMap.mp hu
    obtain ⟨hp, -, hb⟩ := areCases_iff.mp ht.2 c hc
    rcases mem_pair.mp hu with rfl | rfl
    · exact isPart_of_isWritable hp
    · exact isPart_of_isWritable hb
  | function i p b =>
    cases p <;> simp only [isPart, isWritable, Parser.isSpread, Bool.or_false, Bool.and_eq_true, Bool.false_eq_true] at ht
    rcases mem_pair.mp hu with rfl | rfl
    · exact isPart_of_isWritable ht.1
    · exact isPart_of_isWritable ht.2
  | binop i op l r | apply i l r | access i l r | assign i l r | scope i l r =>
    simp only [isPart, isWritable, Parser.isSpread, Bool.or_false, Bool.and_eq_true] at ht
    simp only [parts, mem_cons, not_mem_nil, or_false] at hu
    rcases hu with rfl | rfl <;> simp [isPart, ht]
  | _ => first | (cases hu; done) | cases ht

theorem areItems_bareAll {ts : List Term} (ih : ∀ t ∈ ts, t.isWritable = true → t.bare.isWritable = true)
    (ht : areItems ts = true) : areItems (bareAll ts) = true := by
  induction ts with
  | nil => exact ht
  | cons t ts iht =>
    by_cases hspread : ∃ i x, t = .spread i x
    · obtain ⟨i, x, rfl⟩ := hspread
      rw [areItems, Bool.and_eq_true, List.isEmpty_iff] at ht
      rw [bareAll, bare, areItems, ht.1, ht.2]
      rfl
    · rw [areItems, Bool.and_eq_true] at ht
      · have hbare := ih t (.head _) ht.1
        rw [bareAll, areItems, hbare, iht (fun u hu => ih u (.tail _ hu)) ht.2, Bool.and_self]
        intro i x heq
        rw [heq] at hbare
        cases hbare
      · exact fun i x heq => hspread ⟨i, x, heq⟩

theorem isWritable_bare (t : Term) (ht : t.isWritable = true) : t.bare.isWritable = true := by
  induction t using parts_induction with
  | step t ih =>
    cases t with
    | list i items => exact areItems_bareAll ih ht
    | record i fields =>
      rw [isWritable, Bool.and_eq_true, areFields_iff] at ht
      rw [bare, isWritable, bareFields_eq_mapValues, mapValues_keys, ht.1, Bool.true_and, areFields_iff]
      refine forall_mem_map.mpr fun f hf => ?_
      obtain ⟨hk, hw, hl⟩ := ht.2 f hf
      exact ⟨hk, ih f.2 (mem_parts_fields hf) hw, (isLoose_bare _).trans hl⟩
    | matchFunction i cases =>
      rw [isWritable, Bool.and_eq_true, areCases_iff] at ht
      rw [bare, isWritable, bareCases_eq_map, isEmpty_map, ht.1, Bool.true_and, areCases_iff]
      refine forall_mem_map.mpr fun c hc => ?_
      obtain ⟨hp, hclosed, hb⟩ := ht.2 c hc
      exact ⟨ih c.1 (mem_parts_cases hc).1 hp, (isClosed_bare _).trans hclosed, ih c.2 (mem_parts_cases hc).2 hb⟩
    | function i p b =>
      cases p <;> simp only [isWritable, Bool.and_eq_true, Bool.false_eq_true] at ht
      rw [bare, bare, isWritable, ht.1, ih b (.tail _ (.head _)) ht.2, Bool.and_self]
    | apply i l r | access i l r | scope i l r | binop i op l r =>
      simp only [isWritable, Bool.and_eq_true] at ht
      simp only [bare, isWritable, ih l (.head _), ih r (.tail _ (.head _)), ht, Bool.and_self]
    | assign i x v =>
      rw [isWritable, Bool.and_eq_true] at ht
      rw [bare, isWritable, ht.1, ih v (.head _) ht.2, Bool.and_self]
    | int i n | hole i | string i s | var i x => exact ht
    | _ => cases ht

end Parts

section Equality
variable (h : Heap) (envs : Nat → Nat → Bool) (far : Term → Term → Bool)

/-- Terms that differ only in identities are equal. -/
theorem equalWith_of_bare_eq (a b : Term) (ha : a.isPart = true) (hb : a.bare = b.bare) :
    a.equalWith h envs far b = true := by
  induction a using parts_induction generalizing b with
  | step a ih =>
    have part : ∀ u ∈ a.parts, ∀ v : Term, u.bare = v.bare → u.equalWith h envs far v = true :=
      fun u hu v => ih u hu v (isPart_of_mem_parts ha hu)
    cases a with
    | int i n => cases b <;> simp_all [bare, equalWith, int?]
    | hole i | string i s | var i x | spread i x => cases b <;> simp_all [bare, equalWith]
    | list i items =>
      cases b <;> simp only [bare, reduceCtorEq, list.injEq, true_and] at hb
      rw [bareAll_eq_map, bareAll_eq_map, ← forall₂_eq_eq_eq, forall₂_map_left_iff, forall₂_map_right_iff] at hb
      rw [equalWith, equalAll_iff.mpr (forall₂_imp_mem hb fun u hu v _ => part u hu v), Bool.or_true]
    | record i fields =>
      cases b <;> simp only [bare, reduceCtorEq, record.injEq, true_and] at hb
      rename_i j gs
      rw [isPart, Bool.or_eq_true, isWritable, Bool.and_eq_true, decide_eq_true_eq] at ha
      have hnodup := (ha.resolve_right Bool.false_ne_true).1
      rw [bareFields_eq_mapValues, bareFields_eq_mapValues] at hb
      have hlen : fields.length = gs.length := by
        have := congrArg List.length hb
        rwa [length_mapValues, length_mapValues] at this
      have hall : equalFields h envs far fields gs = true := by
        refine equalFields_iff.mpr fun p hp => ?_
        have hk := congrArg (Dict.get? · p.1) hb
        simp only [get?_mapValues, get?_of_mem hnodup hp, Option.map_some] at hk
        obtain ⟨w, hw, hvw⟩ := Option.map_eq_some_iff.mp hk.symm
        exact ⟨w, hw, part p.2 (mem_parts_fields hp) w hvw.symm⟩
      simp only [equalWith, hlen, decide_true, Bool.true_and, hall, Bool.or_true]
    | matchFunction i cases =>
      cases b <;> simp only [bare, reduceCtorEq, matchFunction.injEq, true_and] at hb
      rw [bareCases_eq_map, bareCases_eq_map, ← forall₂_eq_eq_eq, forall₂_map_left_iff,
        forall₂_map_right_iff] at hb
      have hall := equalCases_iff.mpr <| forall₂_imp_mem hb fun c hc d _ heq =>
        ⟨part c.1 (mem_parts_cases hc).1 d.1 (congrArg Prod.fst heq),
          part c.2 (mem_parts_cases hc).2 d.2 (congrArg Prod.snd heq)⟩
      rw [equalWith, hall, Bool.or_true]
    | function i l r | apply i l r | access i l r | scope i l r | binop i op l r =>
      cases b <;> simp only [bare, reduceCtorEq, function.injEq, apply.injEq, access.injEq, scope.injEq, binop.injEq,
        true_and] at hb
      simp only [equalWith, hb, part l (.head _), part r (.tail _ (.head _)), decide_true, Bool.and_self, Bool.or_true]
    | assign i x v =>
      cases b <;> simp only [bare, reduceCtorEq, assign.injEq, true_and] at hb
      simp only [equalWith, hb.1, decide_true, part v (.head _) _ hb.2, Bool.and_self, Bool.or_true]
    | _ => cases ha

end Equality

end Term

end Scrap
