import Scrap.Term.Description
import Scrap.Text.Armor
import Scrap.Token.Scanner

/-! # Reading terms

Operator precedence: an operand, then as many operators with their right operands as bind at least as tightly as the
context asks. Two operands side by side are an application. Compositions make a function of a generated name; the
counter of these is part of the state, also after a failure. -/

namespace Scrap

inductive ParseError where
  | unexpected (token : Token)
  | endOfInput
  | unknownBase (base : Int) (token : Token)
  | badBytes (cause : Text.ArmorError)
  | notAFunction (description : String)
  | spreadBeforeEnd (what : String)
  | notAnAssignment
  | notAVariable (description : String)
  | negativeLiteral
  | unknownOperator (symbol : String)
  | outOfFuel
deriving DecidableEq, Repr

def ParseError.message : ParseError → String
  | .unexpected t => t.description
  | .endOfInput => "unexpected end of input"
  | .unknownBase base t => "unexpected base " ++ Decimal.intText base ++ " in " ++ t.description
  | .badBytes e => e.message
  | .notAFunction s => "expected function in match expression " ++ s
  | .spreadBeforeEnd what => "spread must come at end of " ++ what ++ " match"
  | .notAnAssignment => "failed to parse variable assignment in record constructor"
  | .notAVariable s => "expected variable in assignment " ++ s
  | .negativeLiteral => "Tokens should never have negative values"
  | .unknownOperator s => Text.literal s
  | .outOfFuel => "out of fuel"

/-- The tokens that are left, and how many names have been generated. -/
structure Reader where
  tokens : List Token
  generated : Nat := 0
deriving Repr, Inhabited

abbrev Parser := ExceptT ParseError (StateM Reader)

namespace Parser

def next : Parser Token := do
  match (← get).tokens with
  | [] => throw .endOfInput
  | t :: ts =>
    modify fun r => { r with tokens := ts }
    return t

def peek? : Parser (Option Token) := return (← get).tokens.head?

def peek : Parser Token := do
  match ← peek? with
  | some t => return t
  | none => throw .endOfInput

def freshName : Parser String := do
  let n := (← get).generated
  modify fun r => { r with generated := n + 1 }
  return "$v" ++ toString n

def caseOf (t : Term) : Parser (Term × Term) :=
  match t with
  | .function _ p b => return (p, b)
  | t => throw (.notAFunction (t.description {}))

def bytesOf (token : Token) (text : String) (base : Int) : Parser Term :=
  match Text.unarmor? base text with
  | some (.ok bs) => return .bytes 0 bs
  | some (.error e) => throw (.badBytes e)
  | none => throw (.unknownBase base token)

/-- A record entry: a definition, or a spread under a key of its own. -/
def entryOf (t : Term) : Parser (String × Term) :=
  match t with
  | .spread i x => return ("...", .spread i x)
  | .assign _ x v => return (x, v)
  | _ => throw .notAnAssignment

def isSpread : Term → Bool
  | .spread _ _ => true
  | _ => false

/-- The negation of an operand: a literal changes its sign, anything else is taken from zero. -/
def negated (t : Term) : Parser Term :=
  match t with
  | .int _ n => if 0 ≤ n then return .int 0 (-n) else throw .negativeLiteral
  | .float _ x =>
    if !x.isNaN && (!x.negative || x.isZero) then return .float 0 x.neg else throw .negativeLiteral
  | t => return .binop 0 .sub (.int 0 0) t

def entryStrength : Strength := 20

def variantStrength : Strength := Operator.juxtaposition.right + 10

def caseStrength : Strength := (Operator.binding "|").right

def composed (name : String) (first second : Term) : Term :=
  .function 0 (.var 0 name) (.apply 0 second (.apply 0 first (.var 0 name)))

mutual

def operand : Nat → Parser Term
  | 0 => throw .outOfFuel
  | fuel + 1 => do
    let token ← next
    match token.lexeme with
    | .int n => return .int 0 n
    | .float x => return .float 0 x
    | .name x => return .var 0 x
    | .hash =>
      let tag ← next
      match tag.lexeme with
      | .name x => return .variant 0 x (← expression fuel variantStrength)
      | _ => throw (.unexpected tag)
    | .bytes text base => bytesOf token text base
    | .string s => return .string 0 s
    | .operator "..." =>
      match (← peek?).map Token.lexeme with
      | some (.name x) =>
        let _ ← next
        return .spread 0 (some x)
      | _ => return .spread 0 none
    | .operator "|" =>
      let first ← caseOf (← expression fuel caseStrength)
      return .matchFunction 0 (first :: (← moreCases fuel))
    | .leftParen =>
      let t ← if (← peek).lexeme = .rightParen then pure (.hole 0) else expression fuel 0
      let _ ← next
      return t
    | .leftBracket =>
      if (← peek).lexeme = .rightBracket then
        let _ ← next
        return .list 0 []
      else
        let first ← expression fuel entryStrength
        return .list 0 (first :: (← moreItems fuel first))
    | .leftBrace =>
      if (← peek).lexeme = .rightBrace then
        let _ ← next
        return .record 0 []
      else
        let first ← entryOf (← expression fuel entryStrength)
        return .record 0 (Dict.ofEntries (first :: (← moreFields fuel first.2)))
    | .operator "-" => negated (← expression fuel (Operator.highest + 10))
    | _ => throw (.unexpected token)

def moreCases : Nat → Parser (List (Term × Term))
  | 0 => throw .outOfFuel
  | fuel + 1 => do
    match (← peek?).map Token.lexeme with
    | some (.operator "|") =>
      let _ ← next
      let c ← caseOf (← expression fuel caseStrength)
      return c :: (← moreCases fuel)
    | _ => return []

/-- Reads the items after one, up to the closing bracket; one token stands between two items. -/
def moreItems : Nat → Term → Parser (List Term)
  | 0, _ => throw .outOfFuel
  | fuel + 1, last => do
    if (← next).lexeme = .rightBracket then return []
    if isSpread last then throw (.spreadBeforeEnd "list")
    let t ← expression fuel entryStrength
    return t :: (← moreItems fuel t)

def moreFields : Nat → Term → Parser (List (String × Term))
  | 0, _ => throw .outOfFuel
  | fuel + 1, last => do
    if (← next).lexeme = .rightBrace then return []
    if isSpread last then throw (.spreadBeforeEnd "record")
    let e ← entryOf (← expression fuel entryStrength)
    return e :: (← moreFields fuel e.2)

/-- Reads a term whose operators all bind at least as tightly as `p`. -/
def expression : Nat → Strength → Parser Term
  | 0, _ => throw .outOfFuel
  | fuel + 1, p => do
    let t ← operand fuel
    extended fuel p t

def extended : Nat → Strength → Term → Parser Term
  | 0, _, _ => throw .outOfFuel
  | fuel + 1, p, left => do
    match (← peek?).map Token.lexeme with
    | none => return left
    | some (.operator symbol) =>
      match Operator.binding? symbol with
      | none => throw (.unknownOperator symbol)
      | some b =>
        if b.left < p then return left
        else
          let _ ← next
          let t ← operation fuel symbol b.right left
          extended fuel p t
    | some l =>
      if l.isCloser || Operator.juxtaposition.left < p then return left
      else
        let arg ← expression fuel Operator.juxtaposition.right
        extended fuel p (.apply 0 left arg)

/-- The term of an operator, whose right operand is still to be read. -/
def operation : Nat → String → Strength → Term → Parser Term
  | 0, _, _, _ => throw .outOfFuel
  | fuel + 1, symbol, p, left =>
    match symbol with
    | "=" =>
      match left with
      | .var _ x => return .assign 0 x (← expression fuel p)
      | t => throw (.notAVariable (t.description {}))
    | "->" => return .function 0 left (← expression fuel p)
    | "|>" => return .apply 0 (← expression fuel p) left
    | "<|" => return .apply 0 left (← expression fuel p)
    | ">>" => do
      let right ← expression fuel p
      return composed (← freshName) left right
    | "<<" => do
      let right ← expression fuel p
      return composed (← freshName) right left
    | "." => return .scope 0 left (← expression fuel p)
    | "?" => return .assert 0 left (← expression fuel p)
    | "@" => return .access 0 left (← expression fuel p)
    | symbol =>
      match BinaryOp.ofSymbol? symbol with
      | none => throw (.unknownOperator symbol)
      | some op => return .binop 0 op left (← expression fuel p)

end

end Parser

/-- Reads a term from the tokens; what follows it is left in the reader. No call can use up the fuel, since every
round of calls takes a token. -/
def Reader.parse (r : Reader) : Except ParseError Term × Reader :=
  (Parser.expression (6 * r.tokens.length + 6) 0).run.run r

end Scrap
