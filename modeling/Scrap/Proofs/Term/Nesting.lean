import Scrap.Proofs.Term.Readings

/-! # What the parser accepts

The parser takes the next token for the one that closes a parenthesis or separates two entries, whatever it is, so it
takes lax phrases. They are strict, with nothing left, exactly if the brackets are balanced and no dots stand behind an
operand. -/

namespace Scrap

def Readings.phrases : Readings where
  term ls _ _ t := Phrase .lax ls t
  cases ls _ _ cs := CasePhrases .lax ls cs
  items _ ls _ _ ts := ItemPhrases .lax ls ts
  fields _ ls _ _ es := FieldPhrases .lax ls es
  int := .int
  float := .float
  name := .name
  string := .string
  bytes := .bytes
  variant := .variant
  spread := .spread
  namedSpread := .namedSpread
  matchFunction := .matchFunction
  hole := .hole
  paren := .paren
  emptyList := .emptyList
  list := .list
  emptyRecord := .emptyRecord
  record := .record
  negative := .negative
  apply {a b c ls ls' f x} hf hx h := by
    obtain ⟨l, us, rfl⟩ := List.exists_cons_of_ne_nil hx.ne_nil
    exact .apply hf hx (h l rfl)
  operator hl hr _ _ h := .operator hl hr h
  andThen hl hr := .operator hl hr .andThen
  after hl hr := .operator hl hr .after
  noCases := .nil
  moreCases := .cons
  noItems := .nil
  moreItems _ := .cons
  noFields := .nil
  moreFields _ := .cons

theorem Parser.sound (n : Nat) : Parser.Reads .phrases n := reads .phrases n

/-- If tokens are read as a term, those that were taken make up a lax phrase, and a closing bracket follows if anything
is left. All have been taken, the brackets are balanced and entries are separated by single commas exactly if the
tokens are punctuated. -/
theorem Reader.parse_punctuated_iff {r r' : Reader} {t : Term} (h : r.parse = (.ok t, r')) :
    (∃ ls, r.lexemes = ls ++ r'.lexemes ∧ Phrase .lax ls t ∧
      ∀ l, r'.lexemes.head? = some l → l.isCloser = true) ∧
    ((r'.tokens = [] ∧ balanced [] r.lexemes = true ∧ Phrase .strict r.lexemes t) ↔
      punctuated [] .before r.lexemes = true) := by
  obtain ⟨ls, hls, hphrase, hstop⟩ := (Parser.sound _).expression.returns h
  have hcloser : ∀ l, r'.lexemes.head? = some l → l.isCloser = true := fun l hl => hstop.closer hl
  refine ⟨⟨ls, hls, hphrase, hcloser⟩, ?_⟩
  rw [hls, ← hphrase.strict_iff hcloser, Reader.lexemes, List.map_eq_nil_iff]

/-! ### A record, and brackets that do not match -/

def tokensOf (ls : List Lexeme) : Reader := { tokens := ls.map fun l => { lexeme := l } }

/-- The tokens of `{a = [1, (x)], ...r}`. -/
def recordTokens : List Lexeme :=
  [.leftBrace, .name "a", .operator "=", .leftBracket, .int 1, .operator ",", .leftParen, .name "x", .rightParen,
    .rightBracket, .operator ",", .operator "...", .name "r", .rightBrace]

theorem recordTokens_punctuated :
    ∃ t r', (tokensOf recordTokens).parse = (.ok t, r') ∧ r'.tokens = [] ∧ balanced [] recordTokens = true ∧
      Phrase .strict recordTokens t := by
  have hparse : (tokensOf recordTokens).parse = (.ok (.record 0 [("a", .list 0 [.int 0 1, .var 0 "x"]),
    ("...", .spread 0 (some "r"))]), { tokens := [] }) := rfl
  exact ⟨_, _, hparse, (Reader.parse_punctuated_iff hparse).2.mpr (by decide)⟩

/-- The tokens of `(1]` are read as 1, those of `1)` up to the parenthesis, and those of `[1 ... 2]` and `[1) 2]` as the
list of 1 and 2. -/
theorem unpunctuated_parsed :
    (tokensOf [.leftParen, .int 1, .rightBracket]).parse = (.ok (.int 0 1), tokensOf []) ∧
      balanced [] [.leftParen, .int 1, .rightBracket] = false ∧
      (tokensOf [.int 1, .rightParen]).parse = (.ok (.int 0 1), tokensOf [.rightParen]) ∧
      (tokensOf [.leftBracket, .int 1, .rightParen, .int 2, .rightBracket]).parse =
        (.ok (.list 0 [.int 0 1, .int 0 2]), tokensOf []) ∧
      balanced [] [.leftBracket, .int 1, .rightParen, .int 2, .rightBracket] = false ∧
      (tokensOf [.leftBracket, .int 1, .operator "...", .int 2, .rightBracket]).parse =
        (.ok (.list 0 [.int 0 1, .int 0 2]), tokensOf []) ∧
      ∀ t, ¬ Phrase .strict [.leftBracket, .int 1, .operator "...", .int 2, .rightBracket] t :=
  ⟨rfl, rfl, rfl, rfl, rfl, rfl, fun _ ht => absurd (ht.punctuated_eq [] []) (by decide)⟩

end Scrap
