import Scrap.Proofs.Term.ReadBack

/-! # How chains of operators are grouped

Every operator stands above what binds more tightly beside it: on the left spine of its right operand all operators
bind their left side at least as tightly as it binds its right, and on the right spine of its left operand they bind
their right side more tightly than it binds its left. Every chain has one such grouping. -/

namespace Scrap

open List

variable {ls : List Lexeme}

/-- The symbols of operations on two values. -/
def Operator.operations : List String :=
  ["+", "-", "*", "/", "//", "^", "%", "==", "/=", "<", ">", "<=", ">=", "&&", "||", "++", ">+", "+<", "!", ":"]

def Lexeme.isSimple : Lexeme → Bool
  | .name _ | .int _ | .string _ => true
  | _ => false

/-- Operands and operators in turn, with an operand at both ends. -/
inductive Alternating : List Lexeme → Prop
  | operand {l : Lexeme} (hl : l.isSimple = true) : Alternating [l]
  | operator {l : Lexeme} {s : String} {ls : List Lexeme} (hl : l.isSimple = true) (hs : s ∈ Operator.operations)
    (h : Alternating ls) : Alternating (l :: .operator s :: ls)

def BinaryOp.sign (op : BinaryOp) : String := op.symbol?.getD "//"

def BinaryOp.strengths (op : BinaryOp) : Binding := Operator.binding op.sign

namespace Term

/-- The operands and operators of a tree of operations, from left to right. -/
def inorder? : Term → Option (List Lexeme)
  | .var _ x => some [.name x]
  | .int _ n => some [.int n]
  | .string _ s => some [.string s]
  | .binop _ op l r =>
    match l.inorder?, r.inorder? with
    | some ls, some rs => some (ls ++ .operator op.sign :: rs)
    | _, _ => none
  | _ => none

/-- The operators on the way from the root to the first operand. -/
def leftSpine : Term → List BinaryOp
  | .binop _ op l _ => op :: l.leftSpine
  | _ => []

/-- The operators on the way from the root to the last operand. -/
def rightSpine : Term → List BinaryOp
  | .binop _ op _ r => op :: r.rightSpine
  | _ => []

/-- At every operator, what stands beside it on the inner spines of its operands binds more tightly. -/
def Grouped : Term → Prop
  | .binop _ op l r =>
    (∀ o ∈ r.leftSpine, op.strengths.right ≤ o.strengths.left) ∧
      (∀ o ∈ l.rightSpine, op.strengths.left < o.strengths.right) ∧ l.Grouped ∧ r.Grouped
  | _ => True

end Term

/-! ### Operations and their symbols -/

namespace BinaryOp

theorem regular_strengths (op : BinaryOp) : Parser.Regular op.strengths := by
  cases op <;> decide

theorem ofSymbol?_sign (op : BinaryOp) : ofSymbol? op.sign = some op := by
  cases op <;> rfl

theorem exists_sign_eq {s : String} (h : s ∈ Operator.operations) : ∃ op : BinaryOp, op.sign = s := by
  have hall : Operator.operations.all fun s => all.any fun op => op.sign = s := by decide
  obtain ⟨op, -, hop⟩ := any_eq_true.mp (all_eq_true.mp hall s h)
  exact ⟨op, of_decide_eq_true hop⟩

end BinaryOp

theorem Parser.operation_sign {op : BinaryOp} (h : op.sign ∈ Operator.operations) (fuel : Nat) (p : Strength)
    (t : Term) : operation (fuel + 1) op.sign p t = Term.binop 0 op t <$> expression fuel p := by
  have hne : ∀ s ∈ ["=", "->", "|>", "<|", ">>", "<<", ".", "?", "@"], op.sign ≠ s := by
    cases op <;> first | decide | exact absurd h (by decide)
  rw [operation, BinaryOp.ofSymbol?_sign, map_eq_pure_bind]
  all_goals exact hne _ (by decide)

def Operating (ls : List Lexeme) : Prop := ∀ s, .operator s ∈ ls → s ∈ Operator.operations

theorem Alternating.operating (h : Alternating ls) : Operating ls := by
  induction h with
  | operand hl =>
    intro s hs
    rw [← mem_singleton.mp hs] at hl
    cases hl
  | operator hl hs _ ih =>
    intro s' hs'
    rcases mem_cons.mp hs' with rfl | hs'
    · cases hl
    · rcases mem_cons.mp hs' with heq | hs'
      · cases heq
        exact hs
      · exact ih s' hs'

namespace Term

/-! ### Reading a grouped tree -/

theorem inorder?_binop {i : Nat} {op : BinaryOp} {l r : Term} : (Term.binop i op l r).inorder? =
    some ls ↔ ∃ ls1 ls2, l.inorder? = some ls1 ∧ r.inorder? = some ls2 ∧ ls = ls1 ++ .operator op.sign :: ls2 := by
  rw [inorder?]
  cases l.inorder? <;> cases r.inorder? <;> simp [eq_comm]

/-- The operands and operators of a grouped tree are read as the tree, where its left spine is tight enough for what is
asked and its right spine for what follows. -/
theorem readAs_grouped (t : Term) {ls : List Lexeme} {q m : Strength} (hls : t.inorder? = some ls)
    (hops : Operating ls) (ht : t.Grouped) (hleft : ∀ o ∈ t.leftSpine, q ≤ o.strengths.left)
    (hright : ∀ o ∈ t.rightSpine, m < o.strengths.right) : Parser.ReadAs ls t.bare q m := by
  cases t with
  | var i x =>
    cases hls
    exact Parser.readAs_name x
  | int i n =>
    cases hls
    exact Parser.readAs_int n
  | string i s =>
    cases hls
    exact Parser.readAs_string s
  | binop i op l r =>
    obtain ⟨ls1, ls2, hl, hr, rfl⟩ := inorder?_binop.mp hls
    obtain ⟨hinner, houter, htl, htr⟩ := ht
    have hop : op.sign ∈ Operator.operations := hops _ (by simp)
    have hopsl : Operating ls1 := fun s hs => hops s (mem_append_left _ hs)
    have hopsr : Operating ls2 := fun s hs => hops s (mem_append_right _ (.tail _ hs))
    have readl : Parser.ReadAs ls1 l.bare q op.strengths.left :=
      readAs_grouped l hl hopsl htl (fun o ho => hleft o (.tail _ ho)) houter
    have readr : Parser.ReadAs ls2 r.bare op.strengths.right m :=
      readAs_grouped r hr hopsr htr hinner fun o ho => hright o (.tail _ ho)
    rw [bare]
    exact .operator (by cases op <;> rfl) (hleft op (.head _)) (hright op (.head _))
      (fun fuel p => Parser.operation_sign hop fuel p l.bare) readl readr
  | _ => cases hls
termination_by structural t

/-! ### Every chain has a grouped tree -/

/-- Puts an operand and an operator before the first operand of a tree, below the operators of its left spine that bind
less tightly. -/
def prepended (a : Term) (op : BinaryOp) : Term → Term
  | .binop i o l r =>
    if o.strengths.left < op.strengths.right then .binop i o (prepended a op l) r else .binop 0 op a (.binop i o l r)
  | t => .binop 0 op a t

section Prepended
variable {a : Term} {op : BinaryOp}

theorem inorder?_prepended {rs : List Lexeme} (ha : a.inorder? = some ls) (t : Term) (ht : t.inorder? = some rs) :
    (prepended a op t).inorder? = some (ls ++ .operator op.sign :: rs) := by
  have hroot : (Term.binop 0 op a t).inorder? = some (ls ++ .operator op.sign :: rs) :=
    inorder?_binop.mpr ⟨ls, rs, ha, ht, rfl⟩
  cases t with
  | binop i o l r =>
    obtain ⟨ls1, ls2, hl, hr, rfl⟩ := inorder?_binop.mp ht
    rw [prepended]
    split
    · exact inorder?_binop.mpr ⟨_, ls2, inorder?_prepended ha l hl, hr, by simp⟩
    · exact hroot
  | _ => exact hroot
termination_by structural t

theorem bare_prepended (ha : a.bare = a) (t : Term) (ht : t.bare = t) : (prepended a op t).bare = prepended a op t := by
  cases t with
  | binop i o l r =>
    rw [bare] at ht
    injection ht with hi _ hl hr
    rw [prepended]
    split
    · rw [bare, bare_prepended ha l hl, hi, hr]
    · rw [bare, bare, ha, hi, hl, hr]
  | _ =>
    rw [prepended, bare, ha, ht]
    simp
termination_by structural t

theorem mem_rightSpine_prepended {t : Term} {o : BinaryOp} (ho : o ∈ (prepended a op t).rightSpine) :
    o = op ∨ o ∈ t.rightSpine := by
  cases t with
  | binop i p l r =>
    rw [prepended] at ho
    split at ho
    · exact .inr ho
    · exact mem_cons.mp ho
  | _ => exact mem_cons.mp ho

theorem Grouped.left_le {i : Nat} {o : BinaryOp} (l : Term) {r : Term} (h : (Term.binop i o l r).Grouped) :
    ∀ o' ∈ l.leftSpine, o.strengths.left ≤ o'.strengths.left := by
  cases l with
  | binop j p l' r' =>
    obtain ⟨-, houter, hl, -⟩ := h
    have hp : o.strengths.left ≤ p.strengths.left :=
      Int.le_of_lt_add_one (Int.lt_of_lt_of_le (houter p (.head _)) (by cases p <;> decide))
    intro o' ho'
    rcases mem_cons.mp ho' with rfl | ho'
    · exact hp
    · exact Int.le_trans hp (Grouped.left_le l' hl o' ho')
  | _ => exact fun _ ho' => by cases ho'
termination_by structural l

theorem grouped_prepended (ha : a.rightSpine = []) (hga : a.Grouped) (t : Term) (ht : t.Grouped) :
    (prepended a op t).Grouped := by
  have hroot (hle : ∀ o ∈ t.leftSpine, op.strengths.right ≤ o.strengths.left) : (Term.binop 0 op a t).Grouped :=
    ⟨hle, by simp [ha], hga, ht⟩
  cases t with
  | binop i o l r =>
    rw [prepended]
    split
    · rename_i hlt
      obtain ⟨hinner, houter, hl, hr⟩ := ht
      refine ⟨hinner, fun p hp => ?_, grouped_prepended ha hga l hl, hr⟩
      rcases mem_rightSpine_prepended hp with rfl | hp
      · exact hlt
      · exact houter p hp
    · rename_i hge
      refine hroot fun p hp => ?_
      rcases mem_cons.mp hp with rfl | hp
      · exact Int.not_lt.mp hge
      · exact Int.le_trans (Int.not_lt.mp hge) (ht.left_le l p hp)
  | _ => exact hroot fun _ hp => by cases hp
termination_by structural t

end Prepended

theorem exists_operand {l : Lexeme} (hl : l.isSimple = true) :
    ∃ a : Term, a.bare = a ∧ a.inorder? = some [l] ∧ a.rightSpine = [] ∧ a.Grouped := by
  cases l with
  | name x => exact ⟨.var 0 x, rfl, rfl, rfl, trivial⟩
  | int n => exact ⟨.int 0 n, rfl, rfl, rfl, trivial⟩
  | string s => exact ⟨.string 0 s, rfl, rfl, rfl, trivial⟩
  | _ => cases hl

theorem exists_grouped (h : Alternating ls) : ∃ t : Term, t.bare = t ∧ t.inorder? = some ls ∧ t.Grouped := by
  induction h with
  | operand hl =>
    obtain ⟨a, hbare, hla, -, hga⟩ := exists_operand hl
    exact ⟨a, hbare, hla, hga⟩
  | operator hl hs _ ih =>
    obtain ⟨a, hbarea, hla, hspine, hga⟩ := exists_operand hl
    obtain ⟨t, hbare, hls, ht⟩ := ih
    obtain ⟨op, rfl⟩ := BinaryOp.exists_sign_eq hs
    exact ⟨prepended a op t, bare_prepended hbarea t hbare, inorder?_prepended hla t hls,
      grouped_prepended hspine hga t ht⟩

end Term

/-- Operands with operators between them are read as a tree that has them in this order and is grouped, and there is no
other such tree. -/
theorem Reader.parse_grouped {tokens : List Token} (h : Alternating (tokens.map Token.lexeme)) (g : Nat) :
    ∃ t : Term, Reader.parse { tokens := tokens, generated := g } = (.ok t, { tokens := [], generated := g }) ∧
      t.inorder? = some (tokens.map Token.lexeme) ∧ t.Grouped ∧
      ∀ u : Term, u.inorder? = some (tokens.map Token.lexeme) → u.Grouped → u.bare = t := by
  have hparse {u : Term} (hls : u.inorder? = some (tokens.map Token.lexeme)) (hu : u.Grouped) :
      Reader.parse { tokens := tokens, generated := g } = (.ok u.bare, { tokens := [], generated := g }) := by
    have hread : Parser.ReadAs (tokens.map Token.lexeme) u.bare 0 (-1) :=
      Term.readAs_grouped u hls h.operating hu (fun o _ => o.regular_strengths.nonneg.1) fun o _ =>
        Int.lt_of_lt_of_le (by decide) o.regular_strengths.nonneg.2
    have hout := hread.returns (by decide) rfl .nil (show 6 * _ ≤ 6 * tokens.length + 6 by simp) g
    rwa [append_nil] at hout
  obtain ⟨t, hbare, hls, ht⟩ := Term.exists_grouped h
  refine ⟨t, hbare ▸ hparse hls ht, hls, ht, fun u hu hgu => ?_⟩
  have heq := (hparse hu hgu).symm.trans (hparse hls ht)
  rw [hbare] at heq
  exact Except.ok.inj (congrArg Prod.fst heq)

/-- The tokens of `x - 1 * y // 2 - z == "s" ++ w`. -/
def mixedChain : List Token :=
  [⟨.name "x", {}⟩, ⟨.operator "-", {}⟩, ⟨.int 1, {}⟩, ⟨.operator "*", {}⟩, ⟨.name "y", {}⟩, ⟨.operator "//", {}⟩,
    ⟨.int 2, {}⟩, ⟨.operator "-", {}⟩, ⟨.name "z", {}⟩, ⟨.operator "==", {}⟩, ⟨.string "s", {}⟩, ⟨.operator "++", {}⟩,
    ⟨.name "w", {}⟩]

/-- The term `(x - (((1 * y) // 2) - z)) == ("s" ++ w)`. -/
def mixedTree : Term :=
  .binop 0 .equal
    (.binop 0 .sub (.var 0 "x")
      (.binop 0 .sub (.binop 0 .floorDiv (.binop 0 .mul (.int 0 1) (.var 0 "y")) (.int 0 2)) (.var 0 "z")))
    (.binop 0 .stringConcat (.string 0 "s") (.var 0 "w"))

theorem Reader.parse_mixedChain :
    Alternating (mixedChain.map Token.lexeme) ∧ mixedTree.Grouped ∧
      Reader.parse { tokens := mixedChain, generated := 0 } = (.ok mixedTree, { tokens := [], generated := 0 }) := by
  have hchain : Alternating (mixedChain.map Token.lexeme) :=
    .operator rfl (by decide) (.operator rfl (by decide) (.operator rfl (by decide) (.operator rfl (by decide)
      (.operator rfl (by decide) (.operator rfl (by decide) (.operand rfl))))))
  have hgrouped : mixedTree.Grouped := by
    simp only [mixedTree, Term.Grouped, Term.leftSpine, Term.rightSpine]
    decide
  obtain ⟨t, hparse, -, -, honly⟩ := parse_grouped hchain 0
  have ht : mixedTree.bare = t := honly mixedTree (by decide) hgrouped
  exact ⟨hchain, hgrouped, hparse.trans (by rw [← ht]; rfl)⟩

end Scrap
