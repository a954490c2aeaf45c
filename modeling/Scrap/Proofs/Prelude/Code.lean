import Scrap.Eval.Prelude
import Scrap.Proofs.Eval.Comes
import Scrap.Proofs.Eval.Guarding

/-! # The code of the prelude

The text of the prelude is read as the terms below. Booting leaves two closures for each function: one that knows
itself by name, and the copy that the name stands for. -/

namespace Scrap

namespace Term

mutual

/-- Whether two terms of source code are the same, numbers included. -/
def agrees : Term → Term → Bool
  | .int i n, .int j m => i == j && n == m
  | .var i x, .var j y => i == j && x == y
  | .hole i, .hole j => i == j
  | .spread i x, .spread j y => i == j && x == y
  | .variant i x v, .variant j y w => i == j && x == y && agrees v w
  | .assign i x v, .assign j y w => i == j && x == y && agrees v w
  | .binop i op l r, .binop j op' l' r' => i == j && op == op' && agrees l l' && agrees r r'
  | .function i l r, .function j l' r' => i == j && agrees l l' && agrees r r'
  | .apply i l r, .apply j l' r' => i == j && agrees l l' && agrees r r'
  | .scope i l r, .scope j l' r' => i == j && agrees l l' && agrees r r'
  | .list i xs, .list j ys => i == j && agreesAll xs ys
  | .matchFunction i cs, .matchFunction j ds => i == j && agreesCases cs ds
  | _, _ => false

def agreesAll : List Term → List Term → Bool
  | [], [] => true
  | x :: xs, y :: ys => agrees x y && agreesAll xs ys
  | _, _ => false

def agreesCases : List (Term × Term) → List (Term × Term) → Bool
  | [], [] => true
  | (p, b) :: cs, (q, d) :: ds => agrees p q && agrees b d && agreesCases cs ds
  | _, _ => false

end

theorem eq_of_agrees : ∀ t u : Term, agrees t u = true → t = u := by
  apply agrees.induct (fun t u => agrees t u = true → t = u) (fun cs ds => agreesCases cs ds = true → cs = ds)
    fun xs ys => agreesAll xs ys = true → xs = ys
  all_goals
    intros
    simp_all [agrees, agreesAll, agreesCases]

/-- There are no closures or links in source code, wherever it is placed. -/
theorem leaves_of_agrees {Q : Term → Prop} : ∀ t u : Term, agrees t u = true →
    t.Leaves Q ∧ ∀ k, (t.placeFrom k).1.Leaves Q := by
  apply agrees.induct (fun t u => agrees t u = true → t.Leaves Q ∧ ∀ k, (t.placeFrom k).1.Leaves Q)
    (fun cs ds => agreesCases cs ds = true → (∀ c ∈ cs, c.1.Leaves Q ∧ c.2.Leaves Q) ∧
      ∀ k, ∀ c ∈ (placeCases k cs).1, c.1.Leaves Q ∧ c.2.Leaves Q)
    fun xs ys => agreesAll xs ys = true → (∀ x ∈ xs, x.Leaves Q) ∧ ∀ k, ∀ x ∈ (placeAll k xs).1, x.Leaves Q
  all_goals
    intros
    first | refine ⟨leaves_of_parts rfl ?_, fun k => leaves_of_parts rfl ?_⟩ | skip
    all_goals simp_all [agrees, agreesAll, agreesCases, parts, placeFrom, placeAll, placeCases]
    all_goals try grind

end Term

namespace Prelude

open Term Eval

variable {e : Nat} {f : String × Nat × Term}

/-! ### Terms -/

def name (x : String) : Term := .var 0 x

def call (f a : Term) : Term := .apply 0 f a

def fn (x : String) (b : Term) : Term := .function 0 (.var 0 x) b

/-- Whether all (`b`) or any (not `b`) of the items are as wanted. -/
def quantifierRest (x : String) (b : Bool) : Term := .matchFunction 0 (onList
  (.variant 0 (if b then "true" else "false") (.hole 0)) "x" "xs" (.binop 0 (if b then .boolAnd else .boolOr)
    (call (name "f") (name "x")) (call (call (name x) (name "f")) (name "xs"))))

def quantifierCode (x : String) (b : Bool) : Term := fn "f" (quantifierRest x b)

def lessOne (x : String) : Term := .binop 0 .sub (name x) (.int 0 1)

def takeRest : Term := .matchFunction 0 (onList (.list 0 []) "x" "xs"
  (.binop 0 .listCons (name "x") (call (call (name "take") (lessOne "n")) (name "xs"))))

def takeCode : Term := .matchFunction 0 [(.int 0 0, fn "xs" (.list 0 [])), (name "n", takeRest)]

def foldrRest : Term := .matchFunction 0 (onList (name "a") "x" "xs"
  (call (call (name "f") (name "x")) (call (call (call (name "foldr") (name "f")) (name "a")) (name "xs"))))

def foldrCode : Term := fn "f" (fn "a" foldrRest)

def rangeCode : Term := .matchFunction 0 [(.int 0 0, .list 0 []), (name "i",
  .binop 0 .listAppend (call (name "range") (lessOne "i")) (lessOne "i"))]

def mapCode : Term := fn "f" (.matchFunction 0 (onList (.list 0 []) "x" "xs"
  (.binop 0 .listCons (call (name "f") (name "x")) (call (call (name "map") (name "f")) (name "xs")))))

def concatRest : Term := .matchFunction 0 (onList (name "xs") "y" "ys"
  (call (call (name "concat") (.binop 0 .listAppend (name "xs") (name "y"))) (name "ys")))

def concatCode : Term := fn "xs" concatRest

def filterRest : Term := call (call (name "filter") (name "f")) (name "xs")

def filterCode : Term := fn "f" (.matchFunction 0 (onList (.list 0 []) "x" "xs" (call (.matchFunction 0
  [(.variant 0 "true" (.hole 0), .binop 0 .listCons (name "x") filterRest), (.variant 0 "false" (.hole 0), filterRest)])
  (call (name "f") (name "x")))))

def partitionCode (op : BinaryOp) : Term :=
  fn "xs" (fn "p" (call (call (name "filter") (fn "x" (.binop 0 op (name "x") (name "p")))) (name "xs")))

def sortedPart (part : String) : Term := call (name "quicksort") (call (call (name part) (name "xs")) (name "p"))

def quicksortCode : Term := .matchFunction 0 (onList (.list 0 []) "p" "xs" (.scope 0 (.scope 0
  (call (call (name "concat") (.binop 0 .listAppend (sortedPart "ltp") (name "p"))) (sortedPart "gtp"))
  (.assign 0 "gtp" (partitionCode .greaterEqual))) (.assign 0 "ltp" (partitionCode .less))))

/-- The functions on lists in the order in which they are defined, with the number that their code gets. -/
def functions : List (String × Nat × Term) :=
  [("any", 228, quantifierCode "any" false), ("all", 209, quantifierCode "all" true), ("take", 187, takeCode), ("foldr", 165, foldrCode),
    ("range", 151, rangeCode), ("map", 133, mapCode), ("concat", 117, concatCode), ("filter", 87, filterCode),
    ("quicksort", 31, quicksortCode)]

def source : Term :=
  functions.foldr (fun f t => .scope 0 t (.assign 0 f.1 f.2.2)) (.assign 0 "id" (fn "x" (name "x")))

set_option maxRecDepth 100000 in
theorem reads_source : ∃ cs, Boot.preludeText = String.ofList cs ∧
    ((({ rest := cs } : Scanner).readAllWithin (cs.length + 1)).toOption.bind fun ts =>
      (Reader.parse { tokens := ts }).1.toOption.map (agrees · source)) = some true :=
  ⟨_, rfl, by decide +kernel⟩

theorem read_ofList {cs : List Char} {u : Term}
    (h : ((({ rest := cs } : Scanner).readAllWithin (cs.length + 1)).toOption.bind fun ts =>
      (Reader.parse { tokens := ts }).1.toOption.map (agrees · u)) = some true) : Boot.read (String.ofList cs) = u := by
  simp only [Option.bind_eq_some_iff, Option.map_eq_some_iff] at h
  obtain ⟨ts, h1, t, h2, h3⟩ := h
  have htok : tokenize (String.ofList cs) = .ok ts := by
    rw [tokenize, Scanner.ofText, String.toList_ofList]
    revert h1
    cases Scanner.readAllWithin (cs.length + 1) { rest := cs } <;> simp [Except.toOption]
  rw [Boot.read, htok]
  dsimp only
  rw [h2]
  exact eq_of_agrees _ _ h3

theorem prelude_eq : Boot.prelude = source := by
  obtain ⟨cs, hcs, hts⟩ := reads_source
  rw [Boot.prelude, hcs]
  exact read_ofList hts

/-! ### Closures -/

/-- The function that a closure is of; there are two closures for each. -/
def role (e : Nat) : Option (String × Nat × Term) := if e = 0 then none else functions[(e - 1) / 2]?

def codeOf (f : String × Nat × Term) : Term := (f.2.2.placeFrom f.2.1).1

def codes (e : Nat) : Option Term := (role e).map codeOf

theorem lt_of_role (h : role e = some f) : 0 < e ∧ e < 19 := by
  rw [role, Option.ite_none_left_eq_some] at h
  obtain ⟨hlt, -⟩ := List.getElem?_eq_some_iff.mp h.2
  simp [functions] at hlt
  omega

theorem codes_eq_none (he : 19 ≤ e) : codes e = none := by
  cases h : role e with
  | none => rw [codes, h]; rfl
  | some f => exact absurd (lt_of_role h).2 (Nat.not_lt.mpr he)

/-- The closure that knows itself, of the two for one function. -/
def first (e : Nat) : Nat := e - (e + 1) % 2

theorem role_pair {e' : Nat} (h : role e = some f) (he : e' ≠ 0)
    (hh : (e' - 1) / 2 = (e - 1) / 2) : role e' = some f := by
  rw [role, Option.ite_none_left_eq_some] at h
  rw [role, if_neg he, hh, h.2]

theorem role_quicksort (h : role e = some ("quicksort", 31, quicksortCode)) : e = 17 ∨ e = 18 := by
  have hnames : ∀ i < 9, functions[i]?.map Prod.fst = some "quicksort" → i = 8 := by decide
  have hlt := lt_of_role h
  rw [role, Option.ite_none_left_eq_some] at h
  have := hnames ((e - 1) / 2) (by omega) (by rw [h.2]; rfl)
  omega

def isClosureOf (e : Nat) (c : Term) : Term → Bool
  | .closure j d => j == e && agrees d c
  | _ => false

/-- Whether a closure of the prelude stands in the environment under the name of its function. -/
def knows (d : Env) (e : Nat) : Bool := (role e).any fun f => (d.get? f.1).any (isClosureOf e (codeOf f))

theorem get?_of_knows {d : Env} (h : knows d e = true) (hf : role e = some f) :
    d.get? f.1 = some (.closure e (codeOf f)) := by
  rw [knows, hf, Option.any_some, Option.any_eq_true] at h
  obtain ⟨t, ht, h⟩ := h
  rw [ht]
  cases t with
  | closure j c =>
    simp only [isClosureOf, Bool.and_eq_true, beq_iff_eq] at h
    rw [h.1, eq_of_agrees c _ h.2]
  | _ => cases h

/-- Whether a value is a closure of source code, and of its function's if it is one of the prelude. -/
def isOwn (n : Nat) : Term → Bool
  | .closure e c => decide (e < n) && agrees c ((codes e).getD c)
  | _ => false

def checks (env : Env) (h : Heap) : Bool :=
  h.knots.isEmpty && decide (19 ≤ h.envs.size) && (h.envs.all fun d => d.all fun p => isOwn h.envs.size p.2) &&
  ((List.range 19).all fun e => e == 0 || (knows (h.envOf e) (first e) && knows env (first e + 1))) &&
  [17, 18].all fun e => knows (h.envOf e) 14 && knows (h.envOf e) 16 && decide (h.envOf e).keys.Nodup

set_option maxRecDepth 100000 in
theorem boot_checks : (let r := outcome (Boot.env Boot.builtins.1) { heap := Boot.builtins.2 }
    r.1.toOption.any fun env => checks env r.2.heap) = true := by
  rw [Boot.env, prelude_eq]
  decide +kernel

/-- A closure of a heap of `n` environments is the `e`-th of them with its code; those of the prelude have theirs. -/
def Genuine (n : Nat) : Term → Prop
  | .closure e c => e < n ∧ ∀ c', codes e = some c' → c = c'
  | _ => True

theorem admits_genuine : Admits Genuine 19 where
  mono {n k u} hn hu := by
    cases u with
    | closure e c => exact ⟨Nat.lt_of_lt_of_le hu.1 hn, hu.2⟩
    | _ => trivial
  made he hn := ⟨hn, fun c' hc' => by rw [codes_eq_none he] at hc'; cases hc'⟩
  link := trivial

/-- A closure of the function. -/
def Own (f : String × Nat × Term) (c : Term) : Prop := ∃ e, role e = some f ∧ c = .closure e (codeOf f)

/-- The name of the function stands for a closure of it. -/
def Serves (env : Env) (f : String × Nat × Term) : Prop := ∃ c, Own f c ∧ env.get? f.1 = some c

/-- Each closure of the prelude finds its function. -/
structure Intact (h : Heap) : Prop where
  size : 19 ≤ h.envs.size
  names : ∀ e f, role e = some f → Serves (h.envOf e) f

/-- What booting leaves: the names of the functions in the environment, and their closures in the heap. -/
structure Booted (env : Env) (h : Heap) : Prop where
  names : ∀ f ∈ functions, Serves env f
  intact : Intact h
  sort : ∀ e, role e = some ("quicksort", 31, quicksortCode) → (h.envOf e).Proper ∧
    Serves (h.envOf e) ("concat", 117, concatCode) ∧ Serves (h.envOf e) ("filter", 87, filterCode)
  genuine : Sealed Genuine 19 h

theorem leaves_of_isOwn {t : Term} {n : Nat} (h : isOwn n t = true) : t.Leaves (Genuine n) := by
  cases t with
  | closure e c =>
    rw [isOwn, Bool.and_eq_true, decide_eq_true_eq] at h
    refine leaves_closure.mpr ⟨⟨h.1, fun c' hc' => ?_⟩, (leaves_of_agrees _ _ h.2).1⟩
    rw [hc'] at h
    exact eq_of_agrees _ _ h.2
  | _ => cases h

theorem boots : ∃ env s, outcome (Boot.env Boot.builtins.1) { heap := Boot.builtins.2 } = (.ok env, s) ∧
    Booted env s.heap := by
  have h := boot_checks
  rcases ho : outcome (Boot.env Boot.builtins.1) { heap := Boot.builtins.2 } with ⟨x | env, s⟩ <;> rw [ho] at h
  · cases h
  refine ⟨env, s, rfl, ?_⟩
  simp only [Except.toOption, Option.any_some, checks, Bool.and_eq_true, decide_eq_true_eq, List.all_eq_true,
    Array.all_eq_true, List.mem_range, Bool.or_eq_true, beq_iff_eq] at h
  obtain ⟨⟨⟨⟨hknots, hsize⟩, hown⟩, hknows⟩, hsort⟩ := h
  have hpair : ∀ {e f}, role e = some f → (role (first e) = some f ∧ role (first e + 1) = some f) ∧
      knows (s.heap.envOf e) (first e) = true ∧ knows env (first e + 1) = true := fun {e f} hf => by
    have := lt_of_role hf
    refine ⟨⟨role_pair hf ?_ ?_, role_pair hf ?_ ?_⟩, (hknows e this.2).resolve_left (by omega)⟩ <;>
      unfold first <;> omega
  have hlink : ∀ t : Term, s.heap.resolve t = t := fun t => by
    cases t with
    | link i => rw [Heap.resolve, List.isEmpty_iff.mp hknots]; rfl
    | _ => rfl
  refine ⟨fun f hf => ?_, ⟨hsize, fun e f hf =>
    ⟨_, ⟨first e, (hpair hf).1.1, rfl⟩, get?_of_knows (hpair hf).2.1 (hpair hf).1.1⟩⟩, fun e he => ?_,
    ⟨⟨fun e p hp => ?_, fun t ht => (hlink t).symm ▸ ht⟩, hsize, fun i _ => hlink _⟩⟩
  · obtain ⟨i, hi⟩ := List.mem_iff_getElem?.mp hf
    have hrole : role (2 * i + 1) = some f := by simpa [role] using hi
    exact ⟨_, ⟨_, (hpair hrole).1.2, rfl⟩, get?_of_knows (hpair hrole).2.2 (hpair hrole).1.2⟩
  · have he := hsort e (by simpa using role_quicksort he)
    exact ⟨he.2, ⟨_, ⟨14, rfl, rfl⟩, get?_of_knows he.1.1 rfl⟩, ⟨_, ⟨16, rfl, rfl⟩, get?_of_knows he.1.2 rfl⟩⟩
  by_cases he : e < s.heap.envs.size
  · rw [Heap.envOf, Array.getD_eq_getD_getElem?, Array.getElem?_eq_getElem he] at hp
    exact leaves_of_isOwn (hown e he p hp)
  · rw [Heap.envOf_of_le (Nat.not_lt.mp he)] at hp
    cases hp

end Prelude

end Scrap
