import Scrap.Code.Text

/-! # Valid C

Names and strings of a program go into its C text as they are. A name can be no identifier, a keyword or taken, and a
string can hold characters that C has no escape for; then the program cannot be built. -/

namespace Scrap.Code

/-! ### String literals -/

/-- Whether the escaped form of a character is a C escape. Characters that take a numbered escape must not be control
characters or lie outside the basic plane. -/
def escapesToC (c : Char) : Bool :=
  (Text.letterEscape? c).isSome || (32 ≤ c.toNat && c.toNat ≤ 126) || (0xa0 ≤ c.toNat && c.toNat < 0x10000)

private def hexDigit? (c : Char) : Option Nat :=
  if '0' ≤ c && c ≤ '9' then some (c.toNat - 48)
  else if 'a' ≤ c && c ≤ 'f' then some (c.toNat - 87)
  else if 'A' ≤ c && c ≤ 'F' then some (c.toNat - 55)
  else none

private def hexNumber (cs : List Char) : Nat := cs.foldl (fun n c => 16 * n + (hexDigit? c).getD 0) 0

private def numberedEscape? (digits : List Char) (width : Nat) : Option (List UInt8) :=
  let n := hexNumber digits
  if digits.length = width && 0xa0 ≤ n && (n < 0xd800 || 0xe000 ≤ n) && n < 0x110000 then
    some (Text.utf8 (Char.ofNat n).toString)
  else none

/-- Reads the inside of a C string literal. A literal may end and another one follow, which continues it; `inside`
tells whether a literal is open. At most `fuel` characters are read. -/
def readLiteral : Nat → Bool → List Char → Option (List UInt8)
  | 0, _, _ => none
  | _ + 1, true, [] => some []
  | _ + 1, false, [] => none
  | fuel + 1, false, c :: cs =>
    if c = '"' then readLiteral fuel true cs else if c = ' ' || c = '\t' then readLiteral fuel false cs else none
  | fuel + 1, true, '"' :: cs => readLiteral fuel false cs
  | fuel + 1, true, '\\' :: c :: cs => do
    let one (b : UInt8) : Option (List UInt8) := do return b :: (← readLiteral fuel true cs)
    match c with
    | 'n' => one 10
    | 't' => one 9
    | 'r' => one 13
    | '\\' => one 92
    | '\'' => one 39
    | '"' => one 34
    | 'x' =>
      let digits := cs.takeWhile fun d => (hexDigit? d).isSome
      if digits.isEmpty then none
      else return UInt8.ofNat (hexNumber digits) :: (← readLiteral fuel true (cs.drop digits.length))
    | 'u' => return (← numberedEscape? (cs.take 4) 4) ++ (← readLiteral fuel true (cs.drop 4))
    | 'U' => return (← numberedEscape? (cs.take 8) 8) ++ (← readLiteral fuel true (cs.drop 8))
    | _ => none
  | _ + 1, true, ['\\'] => none
  -- the literal is a format, in which a percent sign is doubled
  | fuel + 1, true, '%' :: '%' :: cs => do return 37 :: (← readLiteral fuel true cs)
  | fuel + 1, true, c :: cs => do return Text.utf8 c.toString ++ (← readLiteral fuel true cs)

def messageBytes? (s : String) : Option (List UInt8) := readLiteral (s.length + 1) true s.toList

/-! ### What a statement mentions -/

def Call.operands : Call → List Operand
  | .field r _ => [r]
  | .arithmetic _ a b | .cons a b | .concat a b | .apply a b => [a, b]
  | .build _ args => args
  | _ => []

def Requirement.operand : Requirement → Operand
  | .number x | .string x | .record x => x
  | .present x _ => .name x

def Statement.operands : Statement → List Operand
  | .bind _ c => c.operands
  | .setCaptured _ _ _ v | .setPayload _ v | .return v => [v]
  | .require r => [r.operand]
  | _ => []

def Constant.operands : Constant → List Operand
  | .list a b => [a, b]
  | .variant _ v => [v]
  | .record fields => fields.map Prod.snd
  | _ => []

def Operand.uses : Operand → List String
  | .name _ => []
  | _ => ["uword"]

def Call.uses : Call → List String
  | .captured _ _ => ["closure_get"]
  | .payload _ => ["variant_value"]
  | .first _ => ["list_first"]
  | .rest _ => ["list_rest"]
  | .field _ _ => ["record_get"]
  | .newRecord _ => ["mkrecord"]
  | .newClosure f _ => ["mkclosure", f]
  | .newVariant _ => ["mkvariant"]
  | .emptyList => ["uword"]
  | .arithmetic op _ _ => [op.text]
  | .cons _ _ => ["list_cons"]
  | .concat _ _ => ["string_concat"]
  | .apply _ _ => ["closure_call"]
  | .build b _ => [b]

def Test.uses : Test → List String
  | .notInt _ _ => ["is_num_equal_word"]
  | .notHole _ => ["is_hole"]
  | .notTag _ _ => ["uword"]
  | .notVariant _ => ["is_variant"]
  | .otherTag _ _ => ["variant_tag"]
  | .notShortString _ _ => ["mksmallstring"]
  | .notString _ => ["is_string"]
  | .otherString _ _ => ["string_equal_cstr_len"]
  | .notList _ => ["is_list"]
  | .empty _ | .notEmpty _ => ["is_empty_list"]
  | .notRecord _ => ["is_record"]
  | .absent _ => []
  | .otherSize _ _ => ["record_num_fields"]

def Requirement.uses : Requirement → List String
  | .number _ => ["is_num", "fprintf", "abort"]
  | .string _ => ["is_string", "fprintf", "abort"]
  | .record _ => ["is_record", "fprintf", "abort"]
  | .present _ _ => ["fprintf", "abort"]

def Statement.uses (s : Statement) : List String :=
  let own := match s with
    | .enter => ["pop_handles", "handles"]
    | .protect _ => ["handles"]
    | .bind _ c => "handles" :: c.uses
    | .setField _ _ _ _ => ["record_set"]
    | .setCaptured _ _ _ _ => ["closure_set"]
    | .setPayload _ _ => ["variant_set"]
    | .collect => ["collect"]
    | .require r => r.uses
    | .jumpIf t _ => t.uses
    | .return _ | .label _ => []
    | .noMatch => ["fprintf", "abort"]
  own ++ s.operands.flatMap Operand.uses

/-! ### Names -/

/-- Words that cannot be names of variables: keywords, and names that stand for something else everywhere. -/
def reserved : List String :=
  ["auto", "break", "case", "char", "const", "continue", "default", "do", "double", "else", "enum", "extern", "float",
    "for", "goto", "if", "inline", "int", "long", "register", "restrict", "return", "short", "signed", "sizeof",
    "static", "struct", "switch", "typedef", "union", "unsigned", "void", "volatile", "while", "asm", "typeof",
    "_Bool", "_Complex", "_Generic", "_Atomic", "_Alignas", "_Alignof", "_Imaginary", "_Noreturn", "_Static_assert",
    "_Thread_local", "bool", "true", "false", "NULL", "EOF", "BUFSIZ", "linux", "unix", "local_handles", "kKiB",
    "kMiB", "kGiB", "kPageSize", "kSmallIntTagBits", "kPrimaryTagBits", "kObjectAlignmentLog2", "kObjectAlignment",
    "kImmediateTagBits", "kSmallIntTagMask", "kPrimaryTagMask", "kImmediateTagMask", "kWordSize",
    "kMaxSmallStringLength", "kBitsPerByte", "kSmallIntTag", "kHeapObjectTag", "kEmptyListTag", "kHoleTag",
    "kSmallStringTag", "kVariantTag", "kBitsPerPointer", "kSmallIntBits", "kSmallIntMinValue", "kSmallIntMaxValue",
    "MAX_HANDLES", "MEMORY_SIZE", "ALLOCATOR", "HEAP_ALIGNED", "ALWAYS_INLINE", "NEVER_INLINE", "CONST_HEAP",
    "RAND_MAX", "EXIT_SUCCESS", "EXIT_FAILURE", "SEEK_SET", "SEEK_CUR", "SEEK_END"]

def isIdentifier (s : String) : Bool :=
  match s.toList with
  | [] => false
  | c :: cs =>
    !('0' ≤ c && c ≤ '9') && (c :: cs).all fun c => c.isAlphanum || c = '_' || c = '$' || 128 ≤ c.toNat

def Function.locals (f : Function) : List String :=
  f.params ++ f.body.toList.filterMap fun
    | .bind x _ => some x
    | _ => none

/-! ### Programs -/

private def closesComment : List Char → Bool
  | '*' :: '/' :: _ => true
  | _ :: cs => closesComment cs
  | [] => false

def Operand.isValid : Operand → Bool
  | .int (.truth _) => false
  | .shortString s => !closesComment (Text.literal s).toList
  | _ => true

def Statement.isValid (s : Statement) : Bool :=
  s.operands.all Operand.isValid && match s with
    | .require r => (messageBytes? r.message).isSome
    | .jumpIf (.notInt _ (.truth _)) _ => false
    | .jumpIf (.notShortString _ s) _ => s.toList.all escapesToC
    | .jumpIf (.otherString _ s) _ => s.toList.all escapesToC
    | _ => true

def Constant.isValid (c : Constant) : Bool :=
  c.operands.all Operand.isValid && match c with
    | .string s => s.toList.all escapesToC
    | _ => true

def Function.isValid (f : Function) : Bool :=
  f.locals.all (fun x => isIdentifier x && !reserved.contains x) && decide f.locals.Nodup &&
    f.body.all fun s => s.isValid && s.uses.all fun x => !f.locals.contains x

def Program.names (p : Program) : List String :=
  p.functions.toList.map Function.name ++ p.constants.toList.map Prod.fst ++ p.keys.map keyText ++ p.tags.map tagText

def Program.isValid (p : Program) : Bool :=
  p.names.all isIdentifier && decide p.names.Nodup && p.functions.all Function.isValid &&
    p.constants.all fun (_, c) => c.isValid

end Scrap.Code
