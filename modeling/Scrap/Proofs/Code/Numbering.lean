import Scrap.Proofs.Code.Names

/-! # Numbers of keys and tags

A key or a tag is written as an enumerator, and the name of it is in an array at that number. -/

namespace Scrap

open List

namespace Code

def Operand.tag? : Operand → Option String
  | .tag t => some t
  | _ => none

def Program.usedKeys (p : Program) : List String :=
  (p.functions.toList.flatMap fun f => f.body.toList.flatMap Statement.keys) ++
    p.constants.toList.flatMap fun c => c.2.keys

def Program.usedTags (p : Program) : List String :=
  ((p.functions.toList.flatMap fun f => f.body.toList.flatMap Statement.marks) ++
    p.constants.toList.flatMap fun c => c.2.marks).filterMap Operand.tag?

/-- Each name in use has one number, and the numbers count from 0 without gaps. An enumerator is printed for each name,
with its number, and the printed array has the name at that number. -/
structure Numbers (array : String) (enumerator : String → String) (numbers : List (String × Nat))
    (used lines : List String) : Prop where
  once : ∀ x ∈ used, ∃! n, (x, n) ∈ numbers
  range : numbers.map Prod.snd = List.range numbers.length
  enumerators : numbers ≠ [] →
    ("enum \x7b" :: numbers.map (fun x => enumerator x.1 ++ " = " ++ toString x.2 ++ ",") ++ ["\x7d;"]) <:+: lines
  array : numbers ≠ [] → ∃ entries,
    (("const char* " ++ array ++ "[] = \x7b") :: entries ++ ["\x7d;"]) <:+: lines ∧ entries.length = numbers.length ∧
      ∀ x n, (x, n) ∈ numbers → entries[n]? = some ("\"" ++ x ++ "\",")

variable {numbers : List (String × Nat)} {x : String} {n : Nat}

theorem range_numbered (h : numbers.map Prod.snd = List.range numbers.length) (x : String) :
    (numbered numbers x).map Prod.snd = List.range (numbered numbers x).length := by
  rw [numbered, map_append, h, length_append, length_singleton, range_succ]
  rfl

/-- A number is the place of its name. -/
theorem getElem?_of_range (h : numbers.map Prod.snd = List.range numbers.length) (hx : (x, n) ∈ numbers) :
    numbers[n]? = some (x, n) := by
  obtain ⟨i, hi, hget⟩ := mem_iff_getElem.mp hx
  have hn : (numbers.map Prod.snd)[i]? = (List.range numbers.length)[i]? := by rw [h]
  rw [getElem?_map, getElem?_eq_getElem hi, hget, getElem?_range hi] at hn
  obtain rfl : n = i := Option.some.inj hn
  rw [getElem?_eq_getElem hi, hget]

theorem Numbers.of_range {array : String} {enumerator : String → String} {used lines : List String}
    (hprinted : nameLines array enumerator numbers <:+: lines) (hnodup : (numbers.map Prod.fst).Nodup)
    (hrange : numbers.map Prod.snd = List.range numbers.length) (hused : used ⊆ numbers.map Prod.fst) :
    Numbers array enumerator numbers used lines where
  once x hx := by
    obtain ⟨⟨_, n⟩, hn, rfl⟩ := mem_map.mp (hused hx)
    refine ⟨n, hn, fun k hk => ?_⟩
    exact congrArg Prod.snd (inj_on_of_nodup_map hnodup hk hn rfl)
  range := hrange
  enumerators hne := by
    refine IsInfix.trans ?_ hprinted
    rw [nameLines, if_neg (by simpa using hne)]
    exact ⟨("const char* " ++ array ++ "[] = \x7b") :: numbers.map (fun x => "\"" ++ x.1 ++ "\",") ++ ["\x7d;"], [], by simp⟩
  array hne := by
    refine ⟨numbers.map fun x => "\"" ++ x.1 ++ "\",", IsInfix.trans ?_ hprinted, length_map _, fun x n hx => ?_⟩
    · rw [nameLines, if_neg (by simpa using hne)]
      exact ⟨[], "enum \x7b" :: numbers.map (fun x => enumerator x.1 ++ " = " ++ toString x.2 ++ ",") ++ ["\x7d;"], by simp⟩
    · rw [getElem?_map, getElem?_of_range hrange hx]
      rfl

end Code

namespace Compile

open Code Relation

variable {σ : Setting} {t : Term} {p : Program}

theorem Listed.usedKeys (h : Listed p p) : p.usedKeys ⊆ p.keys := by
  refine append_subset.mpr ⟨fun k hk => ?_, fun k hk => ?_⟩
  · obtain ⟨f, hf, hk⟩ := mem_flatMap.mp hk
    obtain ⟨s, hs, hk⟩ := mem_flatMap.mp hk
    exact (h.statements f hf s hs).keys hk
  · obtain ⟨c, hc, hk⟩ := mem_flatMap.mp hk
    exact (h.constants c hc).keys hk

theorem Known.tag {o : Operand} {x : String} (h : Known p o) (ho : o.tag? = some x) : x ∈ p.tags := by
  cases o with
  | tag y =>
    cases ho
    exact h
  | _ => cases ho

theorem Listed.usedTags (h : Listed p p) : p.usedTags ⊆ p.tags := by
  intro x hx
  obtain ⟨o, ho, hx⟩ := mem_filterMap.mp hx
  rcases mem_append.mp ho with ho | ho
  · obtain ⟨f, hf, ho⟩ := mem_flatMap.mp ho
    obtain ⟨s, hs, ho⟩ := mem_flatMap.mp ho
    exact ((h.statements f hf s hs).marks o ho).tag hx
  · obtain ⟨c, hc, ho⟩ := mem_flatMap.mp ho
    exact ((h.constants c hc).marks o ho).tag hx

theorem compiled_nodup (h : t.compiled σ = .ok p) : p.keys.Nodup ∧ p.tags.Nodup := by
  obtain ⟨q, hsteps, rfl⟩ := compiled_steps h
  suffices hq : Enumerated t q from ⟨hq.keys.1, hq.tags.1⟩
  clear h
  induction hsteps with
  | refl => exact ⟨⟨.nil, nil_subset _⟩, ⟨.nil, nil_subset _⟩⟩
  | tail _ hstep ih => exact ih.step hstep

theorem compiled_range (h : t.compiled σ = .ok p) : p.keyNumbers.map Prod.snd = List.range p.keyNumbers.length ∧
    p.tagNumbers.map Prod.snd = List.range p.tagNumbers.length := by
  obtain ⟨q, hsteps, rfl⟩ := compiled_steps h
  clear h
  induction hsteps with
  | refl => exact ⟨rfl, rfl⟩
  | tail _ hstep ih =>
    cases hstep with
    | key => exact ⟨range_numbered ih.1 _, ih.2⟩
    | tag => exact ⟨ih.1, range_numbered ih.2 _⟩
    | _ => exact ih

/-- In whatever order the parts of a term are compiled, all keys and tags in the code have one number each, and the
number that is printed for a name is its place in the printed array. -/
theorem compiled_numbers (h : t.compiled σ = .ok p) :
    Numbers "record_keys" keyText p.keyNumbers p.usedKeys p.lines ∧
      Numbers "variant_names" tagText p.tagNumbers p.usedTags p.lines := by
  obtain ⟨hkeys, htags⟩ := compiled_nodup h
  obtain ⟨hkeys', htags'⟩ := compiled_range h
  have hlisted : Listed p p := compiled_listed h
  refine ⟨.of_range ?_ hkeys hkeys' hlisted.usedKeys, .of_range ?_ htags htags' hlisted.usedTags⟩ <;>
    simp only [Program.lines, append_assoc]
  · exact (infix_append' _ _ _)
  · exact (infix_append' _ _ _).trans (suffix_append _ _).isInfix

theorem moveNext_numbers : ∃ p, moveNext.compiled {} = .ok p ∧
    ("x" ∈ p.usedKeys ∧ "some" ∈ p.usedTags) ∧
      Numbers "record_keys" keyText p.keyNumbers p.usedKeys p.lines ∧
        Numbers "variant_names" tagText p.tagNumbers p.usedTags p.lines := by
  obtain ⟨p, hp, hused⟩ := exists_compiled (t := moveNext)
    (P := fun p => "x" ∈ p.usedKeys ∧ "some" ∈ p.usedTags) (by decide +kernel)
  exact ⟨p, hp, hused, compiled_numbers hp⟩

end Compile

end Scrap
