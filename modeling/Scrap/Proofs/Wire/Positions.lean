import Scrap.Proofs.Runs

/-! # Positions of a decoder

Behind the tag come pieces whose forms the tag tells, and each moves the position by what it says. A walk over the
pieces that refuses negative lengths always moves on, so it has no more levels than there are bytes. -/

namespace Scrap.Wire

open Decoder

variable {data : Array UInt8} {β : Type} {d : Decoder} {e : DecodeError} {n : Nat}

/-- The computation needs more levels than it has. -/
def Exhausts {α : Type} (m : DecodeM α) (d : Decoder) : Prop := (outcome m d).1 = .error .outOfFuel

instance {α : Type} (m : DecodeM α) (d : Decoder) : Decidable (Exhausts m d) :=
  match h : (outcome m d).1 with
  | .ok _ => isFalse fun he => nomatch h.symm.trans he
  | .error e => decidable_of_iff (e = .outOfFuel) ⟨fun he => h.trans (congrArg _ he), fun he =>
      Except.error.inj (h.symm.trans he)⟩

section Positional
variable {α : Type}

theorem Exhausts.bind {m : DecodeM α} {f : α → DecodeM β} (h : Exhausts m d) : Exhausts (m >>= f) d :=
  bind_error h

theorem exhausts_bind {m : DecodeM α} {f : α → DecodeM β} (h : Exhausts (m >>= f) d) :
    Exhausts m d ∨ ∃ a d', outcome m d = (.ok a, d') ∧ Exhausts (f a) d' := by
  unfold Exhausts at h ⊢
  rw [outcome_bind] at h
  rcases hm : outcome m d with ⟨e | a, d'⟩ <;> rw [hm] at h
  · cases h
    exact .inl rfl
  · exact .inr ⟨a, d', rfl, h⟩

/-- What the computation gives and how it moves depends on the bytes and the position only, and nothing else changes. -/
def Positional (m : DecodeM α) : Prop :=
  ∀ data index, ∃ r i, r ≠ .error .outOfFuel ∧ ∀ known heap,
    outcome m ⟨data, index, known, heap⟩ = (r, ⟨data, i, known, heap⟩)

theorem Positional.shallow {m : DecodeM α} (hm : Positional m) (d : Decoder) : ¬Exhausts m d := by
  obtain ⟨r, i, hr, hm⟩ := hm d.data d.index
  rw [Exhausts, show d = ⟨d.data, d.index, d.known, d.heap⟩ from rfl, hm]
  exact hr

theorem Positional.pure (a : α) : Positional (Pure.pure a) := fun _ i => ⟨.ok a, i, nofun, fun _ _ => rfl⟩

theorem Positional.throw (he : e ≠ .outOfFuel) : Positional (throw e : DecodeM α) := fun _ i =>
  ⟨.error e, i, fun h => he (Except.error.inj h), fun _ _ => rfl⟩

theorem Positional.bind {m : DecodeM α} {f : α → DecodeM β} (hm : Positional m) (hf : ∀ a, Positional (f a)) :
    Positional (m >>= f) := by
  intro data index
  obtain ⟨r, i, hr, hm⟩ := hm data index
  cases r with
  | error e =>
    refine ⟨.error e, i, fun h => hr (by cases h; rfl), fun known heap => ?_⟩
    rw [outcome_bind, hm]
  | ok a =>
    obtain ⟨r, j, hr, hf⟩ := hf a data i
    exact ⟨r, j, hr, fun known heap => by rw [bind_ok (hm known heap), hf]⟩

theorem positional_read (size : Int) : Positional (read size) := fun data i =>
  ⟨.ok (slice data i (i + size)), i + size, nofun, fun _ _ => rfl⟩

theorem positional_readByte : Positional readByte := by
  refine (positional_read 1).bind fun bs => ?_
  cases bs with
  | nil => exact .throw nofun
  | cons b _ => exact .pure b

theorem positional_readVarint (n : Nat) : Positional (readVarint n) := by
  induction n with
  | zero => exact .throw nofun
  | succ n ih =>
    refine positional_readByte.bind fun b => ?_
    dsimp only
    split
    · exact .pure _
    · exact ih.bind fun _ => .pure _

theorem positional_readShort : Positional readShort := fun data i =>
  (positional_readVarint (data.size + i.natAbs + 1)).bind (fun n => .pure (unzigzag n)) data i

theorem positional_readDigits (n : Nat) : Positional (readDigits n) := by
  induction n with
  | zero => exact .pure []
  | succ n ih => exact (positional_read 8).bind fun _ => ih.bind fun _ => .pure _

theorem positional_readLong : Positional readLong :=
  positional_readShort.bind fun _ => (positional_readDigits _).bind fun _ => .pure _

theorem positional_readString : Positional readString := by
  refine positional_readShort.bind fun n => (positional_read n).bind fun bs => ?_
  split
  · exact .pure _
  · exact .throw nofun

end Positional

/-! ### Moving on -/

section Moving
variable {d d' : Decoder}

theorem readByte_returns {b : UInt8} (h : outcome readByte d = (.ok b, d')) :
    d' = { d with index := d.index + 1 } ∧ -(d.data.size : Int) ≤ d.index ∧ d.index < d.data.size := by
  obtain ⟨bs, d1, hbs, h⟩ := bind_returns h
  cases hbs
  cases hs : slice d.data d.index (d.index + 1) with
  | nil =>
    rw [hs] at h
    cases h
  | cons c cs =>
    rw [hs] at h
    cases h
    have hlen : 0 < (slice d.data d.index (d.index + 1)).length := by simp [hs]
    rw [slice, Array.length_toList, Array.size_extract] at hlen
    refine ⟨rfl, ?_⟩
    simp only [clamp] at hlen
    grind

theorem readVarint_advances {v : Nat} (h : outcome (readVarint n) d = (.ok v, d')) : d.index < d'.index := by
  induction n generalizing d v with
  | zero => cases h
  | succ n ih =>
    obtain ⟨b, d1, hb, h⟩ := bind_returns h
    obtain ⟨rfl, -, -⟩ := readByte_returns hb
    have hlt : d.index < d.index + 1 := Int.lt_succ d.index
    dsimp only at h
    split at h
    · cases h
      exact hlt
    · obtain ⟨w, d2, hw, h⟩ := bind_returns h
      cases h
      exact Int.lt_trans hlt (ih hw)

theorem readShort_advances {n : Int} (h : outcome readShort d = (.ok n, d')) : d.index < d'.index := by
  obtain ⟨v, d1, hv, h⟩ := bind_returns (show outcome (readVarint (d.data.size + d.index.natAbs + 1) >>=
    fun v => Pure.pure (unzigzag v)) d = _ from h)
  cases h
  exact readVarint_advances hv

theorem readString_returns {s : String} (h : outcome readString d = (.ok s, d')) :
    ∃ n d1, outcome readShort d = (.ok n, d1) ∧ d'.index = d1.index + n := by
  obtain ⟨n, d1, hn, h⟩ := bind_returns h
  obtain ⟨bs, d2, hbs, h⟩ := bind_returns h
  cases hbs
  refine ⟨n, d1, hn, ?_⟩
  split at h <;> cases h
  rfl

end Moving

/-! ### The walk over the pieces of a term -/

/-- What stands behind a tag: numbers, texts, the eight bytes of a float, terms, and counted terms, named terms and
pairs of terms. -/
inductive Piece where
  | short
  | long
  | text
  | eight
  | term
  | terms
  | fields
  | branches
deriving DecidableEq, Repr

def layout : Tag → List Piece
  | .spread | .hole => []
  | .reference | .short => [.short]
  | .long => [.long]
  | .namedSpread | .string | .var | .bytes => [.text]
  | .float => [.eight]
  | .list => [.terms]
  | .record => [.fields]
  | .matchFunction => [.branches]
  | .variant => [.text, .term]
  | .binop => [.text, .term, .term]
  | .closure => [.term, .fields]
  | .function | .assign | .apply | .scope | .access => [.term, .term]

inductive Halt where
  /-- The length of a text is negative. -/
  | backward
  | broken
  /-- There are more levels than were allowed. -/
  | deep
deriving DecidableEq, Repr

/-- A walk keeps the position only. -/
abbrev Walk := StateT Int (Except Halt)

namespace Walk
variable {α : Type} {i : Int}

def along (data : Array UInt8) (m : DecodeM α) : Walk α := fun i =>
  match outcome m { data, index := i } with
  | (.ok a, d) => .ok (a, d.index)
  | (.error _, _) => .error .broken

def text (data : Array UInt8) : Walk Unit := do
  let n ← along data readShort
  if n < 0 then throw .backward else modify (· + n)

def times (w : Walk Unit) : Nat → Walk Unit
  | 0 => return ()
  | n + 1 => do
    w
    times w n

def piece (data : Array UInt8) (one : Walk Unit) : Piece → Walk Unit
  | .short => do
    let _ ← along data readShort
    return ()
  | .long => do
    let _ ← along data readLong
    return ()
  | .text => text data
  | .eight => modify (· + 8)
  | .term => one
  | .terms => do times one (← along data readShort).toNat
  | .fields => do times (text data *> one) (← along data readShort).toNat
  | .branches => do times (one *> one) (← along data readShort).toNat

def term (data : Array UInt8) : Nat → Walk Unit
  | 0 => throw .deep
  | n + 1 => do
    match Tag.ofByte? ((← along data readByte) &&& 0x7f) with
    | none => throw .broken
    | some tag => (layout tag).forM (piece data (term data n))

theorem bind_eq (w : Walk α) (f : α → Walk β) (i : Int) :
    (w >>= f) i = match w i with
      | .ok (a, j) => f a j
      | .error e => .error e := by
  show (w i >>= fun p => f p.1 p.2) = _
  rcases w i with e | ⟨a, j⟩ <;> rfl

theorem bind_ok {w : Walk α} {f : α → Walk β} {l : Int} {b : β} (h : (w >>= f) i = .ok (b, l)) :
    ∃ a j, w i = .ok (a, j) ∧ f a j = .ok (b, l) := by
  rw [bind_eq] at h
  rcases hw : w i with e | ⟨a, j⟩ <;> rw [hw] at h
  · cases h
  · exact ⟨a, j, rfl, h⟩

theorem bind_error {w : Walk α} {f : α → Walk β} {e : Halt} (h : (w >>= f) i = .error e) :
    w i = .error e ∨ ∃ a j, w i = .ok (a, j) ∧ f a j = .error e := by
  rw [bind_eq] at h
  rcases hw : w i with e' | ⟨a, j⟩ <;> rw [hw] at h
  · cases h
    exact .inl rfl
  · exact .inr ⟨a, j, rfl, h⟩

theorem along_ok {m : DecodeM α} {j : Int} {a : α} (h : along data m i = .ok (a, j)) :
    ∃ d, outcome m { data, index := i } = (.ok a, d) ∧ d.index = j := by
  unfold along at h
  rcases ho : outcome m { data, index := i } with ⟨e | b, d⟩ <;> rw [ho] at h <;> cases h
  exact ⟨d, rfl, rfl⟩

theorem along_shallow {m : DecodeM α} : along data m i ≠ .error .deep := by
  unfold along
  split <;> nofun

end Walk

/-! ### A walk moves on -/

/-- From `k` on the walk never moves back, and it stops for other reasons than its depth. -/
structure Climbs {α : Type} (k : Int) (w : Walk α) : Prop where
  onward : ∀ {i a j}, k ≤ i → w i = .ok (a, j) → i ≤ j
  shallow : ∀ {i}, k ≤ i → w i ≠ .error .deep

section Climbs
variable {α : Type} {k : Int} {one : Walk Unit}

theorem Climbs.pure (a : α) : Climbs k (Pure.pure a : Walk α) where
  onward _ h := by
    cases h
    exact Int.le_refl _
  shallow _ := nofun

theorem Climbs.throw {e : Halt} (he : e ≠ .deep) : Climbs k (throw e : Walk α) where
  onward _ h := nomatch h
  shallow _ h := he (Except.error.inj h)

theorem Climbs.modify {n : Int} (hn : 0 ≤ n) : Climbs k (modify (· + n) : Walk Unit) where
  onward _ h := by
    cases h
    exact Int.le_add_of_nonneg_right hn
  shallow _ := nofun

theorem Climbs.bind {w : Walk α} {f : α → Walk β} (hw : Climbs k w) (hf : ∀ a, Climbs k (f a)) :
    Climbs k (w >>= f) where
  onward {i b l} hi h := by
    obtain ⟨a, j, ha, h⟩ := Walk.bind_ok h
    have hj := hw.onward hi ha
    exact Int.le_trans hj ((hf a).onward (Int.le_trans hi hj) h)
  shallow {i} hi h := by
    rcases Walk.bind_error h with h | ⟨a, j, ha, h⟩
    · exact hw.shallow hi h
    · exact (hf a).shallow (Int.le_trans hi (hw.onward hi ha)) h

theorem climbs_along {m : DecodeM α} (hm : ∀ {d a d'}, outcome m d = (.ok a, d') → d.index ≤ d'.index) :
    Climbs k (Walk.along data m) where
  onward _ h := by
    obtain ⟨d, ho, rfl⟩ := Walk.along_ok h
    exact hm ho
  shallow _ := Walk.along_shallow

theorem readDigits_advances {ns : List Nat} {d' : Decoder} (h : outcome (readDigits n) d = (.ok ns, d')) :
    d.index ≤ d'.index := by
  induction n generalizing d ns with
  | zero =>
    cases h
    exact Int.le_refl _
  | succ n ih =>
    obtain ⟨bs, d1, hbs, h⟩ := bind_returns h
    cases hbs
    obtain ⟨ms, d2, hms, h⟩ := bind_returns h
    cases h
    have := ih hms
    dsimp only at this
    omega

theorem climbs_short : Climbs k (Walk.along data readShort) :=
  climbs_along fun h => Int.le_of_lt (readShort_advances h)

theorem climbs_long : Climbs k (Walk.along data readLong) := by
  refine climbs_along fun {d n d'} h => ?_
  obtain ⟨c, d1, hc, h⟩ := bind_returns h
  obtain ⟨ns, d2, hns, h⟩ := bind_returns h
  cases h
  exact Int.le_trans (Int.le_of_lt (readShort_advances hc)) (readDigits_advances hns)

theorem climbs_text : Climbs k (Walk.text data) := by
  refine climbs_short.bind fun n => ?_
  split
  · exact .throw nofun
  · exact .modify (by omega)

theorem climbs_times {w : Walk Unit} (hw : Climbs k w) (n : Nat) : Climbs k (w.times n) := by
  induction n with
  | zero => exact .pure ()
  | succ n ih => exact hw.bind fun _ => ih

theorem climbs_piece (h : Climbs k one) (p : Piece) : Climbs k (Walk.piece data one p) := by
  cases p with
  | short => exact climbs_short.bind fun _ => .pure ()
  | long => exact climbs_long.bind fun _ => .pure ()
  | text => exact climbs_text
  | eight => exact .modify (by omega)
  | term => exact h
  | terms => exact climbs_short.bind fun n => climbs_times h _
  | fields => exact climbs_short.bind fun n => climbs_times (climbs_text.bind fun _ => h) _
  | branches => exact climbs_short.bind fun n => climbs_times (h.bind fun _ => h) _

theorem climbs_pieces (h : Climbs k one) (ps : List Piece) : Climbs k (ps.forM (Walk.piece data one)) := by
  induction ps with
  | nil => exact .pure ()
  | cons p ps ih => exact (climbs_piece h p).bind fun _ => ih

/-- A term moves on past its tag, and what is behind the tag is no deeper than the bytes that are left. -/
theorem climbs_term (hn : 0 < n) (h : (data.size : Int) < n + max k (-data.size)) :
    Climbs k (Walk.term data n) ∧ ∀ {i j}, k ≤ i → Walk.term data n i = .ok ((), j) → i < j := by
  induction n generalizing k with
  | zero => omega
  | succ n ih =>
    -- behind a tag the parts climb from the next position on
    have hparts : ∀ {i b j}, k ≤ i → Walk.along data readByte i = .ok (b, j) → j = i + 1 ∧ ∀ tag,
        Climbs j ((layout tag).forM (Walk.piece data (Walk.term data n))) := by
      intro i b j hi hb
      obtain ⟨d, hd, rfl⟩ := Walk.along_ok hb
      obtain ⟨rfl, hlow, hhigh⟩ := readByte_returns hd
      dsimp only at hlow hhigh
      exact ⟨rfl, fun tag => climbs_pieces (ih (by omega) (by dsimp only; omega)).1 _⟩
    have honward : ∀ {i j}, k ≤ i → Walk.term data (n + 1) i = .ok ((), j) → i < j := by
      intro i j hi h
      obtain ⟨b, l, hb, h⟩ := Walk.bind_ok h
      obtain ⟨rfl, hclimbs⟩ := hparts hi hb
      rcases ht : Tag.ofByte? (b &&& 0x7f) with _ | tag <;> rw [ht] at h
      · cases h
      · exact (hclimbs tag).onward (Int.le_refl _) h
    refine ⟨⟨fun hi h => Int.le_of_lt (honward hi h), fun hi h => ?_⟩, honward⟩
    rcases Walk.bind_error h with h | ⟨b, l, hb, h⟩
    · exact Walk.along_shallow h
    · obtain ⟨rfl, hclimbs⟩ := hparts hi hb
      rcases ht : Tag.ofByte? (b &&& 0x7f) with _ | tag <;> rw [ht] at h
      · cases h
      · exact (hclimbs tag).shallow (Int.le_refl _) h

end Climbs

/-! ### A walk keeps up with the decoder -/

/-- Where the computation returns, the walk is at the same position, and where the computation is too deep, so is the
walk, unless it has met a negative length. -/
structure Skims {α β : Type} (data : Array UInt8) (post : α → β → Prop) (m : DecodeM α) (w : Walk β) : Prop where
  returns : ∀ {d a d'}, d.data = data → outcome m d = (.ok a, d') →
    w d.index = .error .backward ∨ d'.data = data ∧ ∃ b, w d.index = .ok (b, d'.index) ∧ post a b
  exhausted : ∀ {d}, d.data = data → Exhausts m d → w d.index = .error .backward ∨ w d.index = .error .deep

abbrev KeepsUp {α β : Type} (data : Array UInt8) (m : DecodeM α) (w : Walk β) : Prop :=
  Skims data (fun _ _ => True) m w

/-- The computation stays where it is, whatever else it changes. -/
structure Still {α : Type} (m : DecodeM α) : Prop where
  returns : ∀ {d a d'}, outcome m d = (.ok a, d') → d'.data = d.data ∧ d'.index = d.index
  shallow : ∀ d, ¬Exhausts m d

section Skims
variable {α γ δ : Type}

theorem Still.pure (a : α) : Still (Pure.pure a : DecodeM α) where
  returns h := by
    cases h
    exact ⟨rfl, rfl⟩
  shallow _ := nofun

theorem Still.throw (he : e ≠ .outOfFuel) : Still (throw e : DecodeM α) where
  returns h := nomatch h
  shallow _ h := he (Except.error.inj h)

theorem Still.bind {m : DecodeM α} {f : α → DecodeM β} (hm : Still m) (hf : ∀ a, Still (f a)) : Still (m >>= f) where
  returns h := by
    obtain ⟨a, d1, ha, h⟩ := bind_returns h
    obtain ⟨hdata, hindex⟩ := hm.returns ha
    obtain ⟨hdata', hindex'⟩ := (hf a).returns h
    exact ⟨hdata'.trans hdata, hindex'.trans hindex⟩
  shallow d h := by
    rcases exhausts_bind h with h | ⟨a, d', -, h⟩
    · exact hm.shallow d h
    · exact (hf a).shallow d' h

theorem still_modify {f : Decoder → Decoder} (hf : ∀ d, (f d).data = d.data ∧ (f d).index = d.index) :
    Still (modify f : DecodeM Unit) where
  returns {d _ _} h := by
    cases h
    exact hf d
  shallow _ := nofun

theorem still_fresh : Still fresh where
  returns h := by
    cases h
    exact ⟨rfl, rfl⟩
  shallow _ := nofun

theorem still_register (t : Term) : Still (register t) where
  returns h := by
    cases h
    exact ⟨rfl, rfl⟩
  shallow _ := nofun

theorem still_flag (found wanted : Bool) : Still (flag found wanted) := by
  unfold flag
  split
  · exact .pure ()
  · exact .throw nofun

/-- A number leads to a term, from the front or from the back, or nowhere. -/
theorem reference_eq (d : Decoder) (i : Int) :
    (∃ t ∈ d.known, outcome (reference i) d = (.ok t, d)) ∧ -(d.known.size : Int) ≤ i ∧ i < d.known.size ∨
      outcome (reference i) d = (.error (.noReference i), d) ∧ (i < -d.known.size ∨ d.known.size ≤ i) := by
  unfold reference
  rw [bind_ok (show outcome get d = (.ok d, d) from rfl)]
  dsimp only
  generalize hj : (if i < 0 then i + (d.known.size : Int) else i) = j
  by_cases hneg : j < 0
  · rw [if_pos hneg]
    exact .inr ⟨rfl, by grind⟩
  rw [if_neg hneg]
  by_cases hlt : j.toNat < d.known.size
  · rw [Array.getElem?_eq_getElem hlt]
    exact .inl ⟨⟨_, Array.getElem_mem hlt, rfl⟩, by grind⟩
  · rw [Array.getElem?_eq_none (by omega)]
    exact .inr ⟨rfl, by grind⟩

theorem still_reference (i : Int) : Still (reference i) where
  returns {d _ _} h := by
    rcases reference_eq d i with ⟨⟨t, -, ho⟩, -⟩ | ⟨ho, -⟩ <;> rw [ho] at h <;> cases h
    exact ⟨rfl, rfl⟩
  shallow d h := by
    rcases reference_eq d i with ⟨⟨t, -, ho⟩, -⟩ | ⟨ho, -⟩ <;> rw [Exhausts, ho] at h <;> cases h

namespace Skims
variable {post : α → β → Prop} {m : DecodeM α} {w : Walk β} {f : α → DecodeM γ}

theorem bind {post' : γ → δ → Prop} {g : β → Walk δ} (hm : Skims data post m w)
    (hf : ∀ a b, post a b → Skims data post' (f a) (g b)) : Skims data post' (m >>= f) (w >>= g) where
  returns hd h := by
    obtain ⟨a, d1, ha, h⟩ := bind_returns h
    rw [Walk.bind_eq]
    rcases hm.returns hd ha with hw | ⟨hd1, b, hw, hp⟩ <;> rw [hw]
    · exact .inl rfl
    · exact (hf a b hp).returns hd1 h
  exhausted hd h := by
    rw [Walk.bind_eq]
    rcases exhausts_bind h with h | ⟨a, d1, ha, h⟩
    · rcases hm.exhausted hd h with hw | hw <;> rw [hw]
      · exact .inl rfl
      · exact .inr rfl
    · rcases hm.returns hd ha with hw | ⟨hd1, b, hw, hp⟩ <;> rw [hw]
      · exact .inl rfl
      · exact (hf a b hp).exhausted hd1 h

theorem of_still {b : β} (hm : Still m) : KeepsUp data m (Pure.pure b) where
  returns {d a d'} hd h := by
    obtain ⟨hdata, hindex⟩ := hm.returns h
    refine .inr ⟨hdata.trans hd, b, ?_, trivial⟩
    rw [hindex]
    rfl
  exhausted {d} _ h := absurd h (hm.shallow d)

theorem throw (he : e ≠ .outOfFuel) : Skims data post (throw e) w where
  returns _ h := nomatch h
  exhausted _ h := absurd (Except.error.inj h) he

theorem last (hm : Skims data post m w) : KeepsUp data m (w >>= fun _ => Pure.pure ()) where
  returns hd h := by
    rw [Walk.bind_eq]
    rcases hm.returns hd h with hw | ⟨hd', b, hw, -⟩ <;> rw [hw]
    · exact .inl rfl
    · exact .inr ⟨hd', (), rfl, trivial⟩
  exhausted hd h := by
    rw [Walk.bind_eq]
    rcases hm.exhausted hd h with hw | hw <;> rw [hw]
    · exact .inl rfl
    · exact .inr rfl

theorem still_bind {l : DecodeM γ} {f : γ → DecodeM α} (hl : Still l) (hf : ∀ c, Skims data post (f c) w) :
    Skims data post (l >>= f) w where
  returns hd h := by
    obtain ⟨c, d1, hc, h⟩ := bind_returns h
    obtain ⟨hdata, hindex⟩ := hl.returns hc
    rw [← hindex]
    exact (hf c).returns (hdata.trans hd) h
  exhausted {d} hd h := by
    obtain ⟨c, d1, hc, h⟩ := (exhausts_bind h).resolve_left (hl.shallow d)
    obtain ⟨hdata, hindex⟩ := hl.returns hc
    rw [← hindex]
    exact (hf c).exhausted (hdata.trans hd) h

theorem bind_still (hm : Skims data post m w) (hf : ∀ a, Still (f a)) : KeepsUp data (m >>= f) w where
  returns hd h := by
    obtain ⟨a, d1, ha, h⟩ := bind_returns h
    obtain ⟨hdata, hindex⟩ := (hf a).returns h
    rcases hm.returns hd ha with hw | ⟨hd1, b, hw, -⟩
    · exact .inl hw
    · exact .inr ⟨hdata.trans hd1, b, by rw [hindex, hw], trivial⟩
  exhausted hd h := by
    rcases exhausts_bind h with h | ⟨a, d1, -, h⟩
    · exact hm.exhausted hd h
    · exact absurd h ((hf a).shallow d1)

theorem along (hm : Positional m) : Skims data Eq m (Walk.along data m) where
  returns {d a d'} hd h := by
    obtain ⟨r, i, -, hm⟩ := hm data d.index
    subst hd
    have hd := hm d.known d.heap
    have hstart := hm #[] {}
    rw [show (⟨d.data, d.index, d.known, d.heap⟩ : Decoder) = d from rfl, h] at hd
    obtain ⟨rfl, rfl⟩ := Prod.mk.inj hd
    refine .inr ⟨rfl, a, ?_, rfl⟩
    unfold Walk.along
    rw [hstart]
  exhausted {d} _ h := absurd h (hm.shallow d)

end Skims

section Pieces
variable {one : DecodeM Term} {w : Walk Unit} {f : Int → DecodeM α}

theorem skims_read (n : Int) :
    KeepsUp data (read n) (if n < 0 then throw .backward else modify (· + n) : Walk Unit) := by
  split
  · exact ⟨fun _ _ => .inl rfl, fun _ h => nomatch h⟩
  · refine ⟨fun {d a d'} hd h => ?_, fun _ h => nomatch h⟩
    cases h
    exact .inr ⟨hd, (), rfl, trivial⟩

theorem skims_text (hf : ∀ n, KeepsUp data (f n) (if n < 0 then throw .backward else modify (· + n) : Walk Unit)) :
    KeepsUp data (readShort >>= f) (Walk.text data) :=
  (Skims.along positional_readShort).bind fun n _ hn => hn ▸ hf n

theorem skims_readString : KeepsUp data readString (Walk.text data) := by
  refine skims_text fun n => (skims_read n).bind_still fun bs => ?_
  split
  · exact .pure _
  · exact .throw nofun

theorem skims_times {m : DecodeM α} (hm : KeepsUp data m w) (n : Nat) : KeepsUp data (repeated m n) (w.times n) := by
  induction n with
  | zero => exact .of_still (.pure _)
  | succ n ih => exact hm.bind fun _ _ _ => ih.bind_still fun _ => .pure _

theorem skims_field (h : KeepsUp data one w) : KeepsUp data (field one) (Walk.text data *> w) :=
  skims_readString.bind fun _ _ _ => h.bind_still fun _ => .pure _

theorem skims_counted (hf : ∀ n, KeepsUp data (f n) (w.times n.toNat)) :
    KeepsUp data (readShort >>= f) (Walk.along data readShort >>= fun n => w.times n.toNat) :=
  (Skims.along positional_readShort).bind fun n _ hn => hn ▸ hf n

/-- Makes a closure, whose environment is still to be read, and gives it its number. -/
def opened (code : Term) : DecodeM Term := do
  let d ← get
  set { d with heap := (d.heap.newClosure [] code).2 }
  let _ ← register (.closure d.heap.envs.size code)
  return .closure d.heap.envs.size code

theorem captured_eq (one : DecodeM Term) (flagged : Bool) (code : Term) :
    captured one flagged code = readShort >>= fun count => if !isCode code then throw .notCode else
      flag flagged true >>= fun _ => opened code >>= fun c => repeated (field one) count.toNat >>= fun env =>
        (modify fun d => { d with heap := d.heap.setEnv c.id (Dict.ofEntries env) }) >>= fun _ => Pure.pure c :=
  rfl

theorem still_opened (code : Term) : Still (opened code) where
  returns h := by
    cases h
    exact ⟨rfl, rfl⟩
  shallow _ := nofun

theorem skims_captured (h : KeepsUp data one w) (flagged : Bool) (code : Term) :
    KeepsUp data (captured one flagged code) (Walk.piece data w .fields) := by
  rw [captured_eq]
  refine skims_counted fun n => ?_
  split
  · exact .throw nofun
  refine .still_bind (still_flag _ _) fun _ => .still_bind (still_opened _) fun _ =>
    (skims_times (skims_field h) _).bind_still fun _ => Still.bind ?_ fun _ => .pure _
  exact still_modify fun _ => ⟨rfl, rfl⟩

theorem skims_leaf {m : DecodeM α} (hm : KeepsUp data m w) (flagged : Bool) (f : Nat → α → Term) :
    KeepsUp data (flag flagged false >>= fun _ => fresh >>= fun i => m >>= fun a => Pure.pure (f i a)) w :=
  .still_bind (still_flag _ _) fun _ => .still_bind still_fresh fun _ => hm.bind_still fun _ => .pure _

theorem skims_node (h : KeepsUp data one w) (flagged : Bool) (tag : Tag) :
    KeepsUp data (node one flagged tag) ((layout tag).forM (Walk.piece data w)) := by
  cases tag with
  | reference => exact (Skims.along positional_readShort).last.bind fun i _ _ => .of_still (still_reference i)
  | list =>
    refine .last (skims_counted fun n => .still_bind (still_flag _ _) fun _ => .still_bind still_fresh fun _ =>
      .still_bind (still_register _) fun _ => (skims_times h _).bind_still fun _ => Still.bind ?_ fun _ => .pure _)
    exact still_modify fun _ => ⟨rfl, rfl⟩
  | closure => exact h.bind fun _ _ _ => .last (skims_captured h _ _)
  | spread => exact .of_still (still_fresh.bind fun _ => .pure _)
  | namedSpread => exact .still_bind still_fresh fun _ => skims_readString.bind fun _ _ _ => .of_still (.pure _)
  | short => exact .last (skims_leaf (.last (.along positional_readShort)) flagged Term.int)
  | long => exact .last (skims_leaf (.last (.along positional_readLong)) flagged Term.int)
  | string | var => exact .last (skims_leaf skims_readString flagged _)
  | record =>
    exact .still_bind (still_flag _ _) fun _ => .last (skims_counted fun n =>
      (skims_times (skims_field h) _).bind_still fun _ => still_fresh.bind fun _ => .pure _)
  | variant =>
    exact .still_bind (still_flag _ _) fun _ => skims_readString.bind fun _ _ _ => .still_bind still_fresh fun _ =>
      h.bind fun _ _ _ => .of_still (.pure _)
  | function | apply | scope | access =>
    exact .still_bind (still_flag _ _) fun _ => h.bind fun _ _ _ => .still_bind still_fresh fun _ => h.bind fun _ _ _ =>
      .of_still (.pure _)
  | matchFunction =>
    exact .still_bind (still_flag _ _) fun _ => .last (skims_counted fun n =>
      (skims_times (h.bind fun _ _ _ => h.bind_still fun _ => .pure _) _).bind_still fun _ =>
        still_fresh.bind fun _ => .pure _)
  | bytes =>
    exact .still_bind (still_flag _ _) fun _ => .last (skims_text fun n => .still_bind still_fresh fun _ =>
      (skims_read n).bind_still fun _ => .pure _)
  | float =>
    refine .still_bind (still_flag _ _) fun _ => (skims_read 8).bind fun bs _ _ => .of_still ?_
    split
    · exact still_fresh.bind fun _ => .pure _
    · exact .throw (by simp)
  | hole => exact .still_bind (still_flag _ _) fun _ => .of_still (still_fresh.bind fun _ => .pure _)
  | assign =>
    refine .still_bind (still_flag _ _) fun _ => h.bind fun name _ _ => h.bind fun value _ _ => .of_still ?_
    split
    · exact still_fresh.bind fun _ => .pure _
    · exact .throw (by simp)
  | binop =>
    refine .still_bind (still_flag _ _) fun _ => skims_readString.bind fun s _ _ => ?_
    split
    · exact .throw (by simp)
    · exact h.bind fun _ _ _ => .still_bind still_fresh fun _ => h.bind fun _ _ _ => .of_still (.pure _)

theorem skims_decode (n : Nat) : KeepsUp data (decode n) (Walk.term data n) := by
  induction n with
  | zero =>
    refine ⟨fun _ h => ?_, fun _ _ => .inr rfl⟩
    cases h
  | succ n ih =>
    refine (Skims.along positional_readByte).bind fun b _ hb => hb ▸ ?_
    cases Tag.ofByte? (b &&& 0x7f) with
    | none => exact .throw (by simp)
    | some tag => exact skims_node ih _ tag

end Pieces

end Skims

end Scrap.Wire
