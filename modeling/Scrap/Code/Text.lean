import Scrap.Code.Basic
import Scrap.Number.Decimal
import Scrap.Text.Utf8

/-! # The C text of code

A line for each statement, constant objects as initialized structures, keys and tags as enumerators with the arrays of
their names. -/

namespace Scrap.Code

def Literal.text : Literal → String
  | .int n => Decimal.intText n
  | .truth true => "True"
  | .truth false => "False"

def keyText (key : String) : String := "Record_" ++ key

def tagText (tag : String) : String := "Tag_" ++ tag

def packed : List UInt8 → Nat
  | [] => 0
  | b :: bs => b.toNat + 256 * packed bs

def shortStringText (s : String) : String :=
  let bytes := Text.utf8 s
  "(struct object*)((0x" ++ Text.hexText 1 (packed bytes) ++ "ULL << kBitsPerByte) | (" ++ toString bytes.length ++
    "ULL << kImmediateTagBits) | (uword)kSmallStringTag /* " ++ Text.literal s ++ " */)"

def Operand.text : Operand → String
  | .name x => x
  | .hole => "hole()"
  | .int v => "_mksmallint(" ++ v.text ++ ")"
  | .emptyList => "empty_list()"
  | .shortString s => shortStringText s
  | .tag t => "mk_immediate_variant(" ++ tagText t ++ ")"
  | .constant c => "ptrto(" ++ c ++ ")"

def Operation.text : Operation → String
  | .add => "num_add"
  | .sub => "num_sub"
  | .mul => "num_mul"

def callText (f : String) (args : List String) : String := f ++ "(" ++ ", ".intercalate args ++ ")"

def positionText (name : String) (position : Nat) : String := "/*" ++ name ++ "=*/" ++ toString position

def Call.text : Call → String
  | .captured x i => callText "closure_get" ["this", positionText x i]
  | .payload x => callText "variant_value" [x]
  | .first x => callText "list_first" [x]
  | .rest x => callText "list_rest" [x]
  | .field r k => callText "record_get" [r.text, keyText k]
  | .newRecord n => callText "mkrecord" ["heap", toString n]
  | .newClosure f n => callText "mkclosure" ["heap", f, toString n]
  | .newVariant t => callText "mkvariant" ["heap", tagText t]
  | .emptyList => "empty_list()"
  | .arithmetic op a b => callText op.text [a.text, b.text]
  | .cons a b => callText "list_cons" [a.text, b.text]
  | .concat a b => callText "string_concat" [a.text, b.text]
  | .apply f a => callText "closure_call" [f.text, a.text]
  | .build b args => callText b (args.map Operand.text)

def Test.text : Test → String
  | .notInt x v => "!is_num_equal_word(" ++ x ++ ", " ++ v.text ++ ")"
  | .notHole x => "!is_hole(" ++ x ++ ")"
  | .notTag x t => x ++ " != mk_immediate_variant(" ++ tagText t ++ ")"
  | .notVariant x => "!is_variant(" ++ x ++ ")"
  | .otherTag x t => "variant_tag(" ++ x ++ ") != " ++ tagText t
  | .notShortString x s => x ++ " != mksmallstring(" ++ Text.escaped s ++ ", " ++ toString s.length ++ ")"
  | .notString x => "!is_string(" ++ x ++ ")"
  | .otherString x s =>
    "!string_equal_cstr_len(" ++ x ++ ", " ++ Text.escaped s ++ ", " ++ toString s.length ++ ")"
  | .notList x => "!is_list(" ++ x ++ ")"
  | .empty x => "is_empty_list(" ++ x ++ ")"
  | .notEmpty x => "!is_empty_list(" ++ x ++ ")"
  | .notRecord x => "!is_record(" ++ x ++ ")"
  | .absent x => x ++ " == NULL"
  | .otherSize x n => "record_num_fields(" ++ x ++ ") != " ++ toString n

def Requirement.condition : Requirement → String
  | .number x => "is_num(" ++ x.text ++ ")"
  | .string x => "is_string(" ++ x.text ++ ")"
  | .record x => "is_record(" ++ x.text ++ ")"
  | .present x _ => x ++ " != NULL"

/-- What is written when a requirement is not met, as a C string. -/
def Requirement.message (r : Requirement) : String :=
  match r with
  | .number _ | .string _ => "assertion " ++ r.condition ++ " failed"
  | .record _ => "not a record"
  | .present _ k => "missing key " ++ k

def Label.text : Label → String
  | .case n => "case_" ++ toString n
  | .noMatch => "no_match"

def Statement.lines : Statement → List String
  | .enter => ["HANDLES();"]
  | .protect x => ["GC_PROTECT(" ++ x ++ ");"]
  | .bind x c => ["OBJECT_HANDLE(" ++ x ++ ", " ++ c.text ++ ");"]
  | .setField r i k v =>
    ["record_set(" ++ r ++ ", /*index=*/" ++ toString i ++ ", (struct record_field)\x7b.key=" ++ keyText k ++
      ", .value=" ++ v ++ "\x7d);"]
  | .setCaptured c x i v => [callText "closure_set" [c, positionText x i, v.text] ++ ";"]
  | .setPayload x v => [callText "variant_set" [x, v.text] ++ ";"]
  | .collect => ["#ifndef NDEBUG", "collect(heap);", "#endif"]
  | .require r =>
    ["if (!(" ++ r.condition ++ ")) \x7b", "fprintf(stderr, \"" ++ r.message ++ "\\n\");", "abort();", "\x7d"]
  | .jumpIf t l => ["if (" ++ t.text ++ ") \x7b goto " ++ l.text ++ "; \x7d"]
  | .return v => ["return " ++ v.text ++ ";"]
  | .label l => [l.text ++ ":;"]
  | .noMatch => ["fprintf(stderr, \"no matching cases\\n\");", "abort();", "return NULL;"]

def Function.declaration (f : Function) : String :=
  "struct object* " ++ callText f.name (f.params.map ("struct object* " ++ ·))

def Function.lines (f : Function) : List String :=
  (f.declaration ++ " \x7b") :: f.body.toList.flatMap Statement.lines ++ ["\x7d"]

def Constant.parts : Constant → String × String × String
  | .list a b => ("list", "TAG_LIST", ".first=" ++ a.text ++ ", .rest=" ++ b.text)
  | .string s => ("heap_string", "TAG_STRING", ".size=" ++ toString s.length ++ ", .data=" ++ Text.escaped s)
  | .variant t v => ("variant", "TAG_VARIANT", ".tag=" ++ tagText t ++ ", .value=" ++ v.text)
  | .record fields =>
    let texts := fields.map fun (k, v) => "\x7b.key=" ++ keyText k ++ ", .value=" ++ v.text ++ " \x7d"
    ("record", "TAG_RECORD",
      ".size=" ++ toString fields.length ++ ", .fields=\x7b " ++ ",\n".intercalate texts ++ " \x7d")
  | .closure f => ("closure", "TAG_CLOSURE", ".fn=" ++ f ++ ", .size=0")

def Constant.line (name : String) (c : Constant) : String :=
  let (kind, tag, content) := c.parts
  "CONST_HEAP struct " ++ kind ++ " " ++ name ++ " = \x7b.HEAD.tag=" ++ tag ++ ", " ++ content ++ " \x7d;"

def nameLines (array : String) (enumerator : String → String) (numbers : List (String × Nat)) : List String :=
  if numbers.isEmpty then ["const char* " ++ array ++ "[] = \x7b NULL \x7d;"]
  else
    ("const char* " ++ array ++ "[] = \x7b") :: numbers.map (fun (k, _) => "\"" ++ k ++ "\",") ++
      ["\x7d;", "enum \x7b"] ++ numbers.map (fun (k, n) => enumerator k ++ " = " ++ toString n ++ ",") ++ ["\x7d;"]

def Program.lines (p : Program) : List String :=
  ["#define OBJECT_HANDLE(name, exp) GC_HANDLE(struct object*, name, exp)"] ++
    nameLines "record_keys" keyText p.keyNumbers ++ nameLines "variant_names" tagText p.tagNumbers ++
    p.functions.toList.map (fun f => f.declaration ++ ";") ++
    ["#define ptrto(obj) ((struct object*)((uword)&(obj) + 1))"] ++
    p.constants.toList.map (fun (name, c) => c.line name) ++ p.functions.toList.flatMap Function.lines

def Program.text (p : Program) : String := String.join (p.lines.map (· ++ "\n"))

end Scrap.Code
