import Scrap.Dict

/-! # The C text around a program

A program stands between the preamble, which has the layout of words and the installed support of all programs, and the
platform, which starts it. -/

namespace Scrap.Code

/-- The numbers that the layout of words depends on, with their C types. -/
def layout : List (String × String × String) := [
  ("kKiB", "uword", "1024"),
  ("kMiB", "uword", "kKiB * kKiB"),
  ("kGiB", "uword", "kKiB * kKiB * kKiB"),
  ("kPageSize", "uword", "4 * kKiB"),
  ("kSmallIntTagBits", "uword", "1"),
  ("kPrimaryTagBits", "uword", "3"),
  ("kObjectAlignmentLog2", "uword", "3"),
  ("kObjectAlignment", "uword", "1ULL << kObjectAlignmentLog2"),
  ("kImmediateTagBits", "uword", "5"),
  ("kSmallIntTagMask", "uword", "(1ULL << kSmallIntTagBits) - 1"),
  ("kPrimaryTagMask", "uword", "(1ULL << kPrimaryTagBits) - 1"),
  ("kImmediateTagMask", "uword", "(1ULL << kImmediateTagBits) - 1"),
  ("kWordSize", "uword", "sizeof(word)"),
  ("kMaxSmallStringLength", "uword", "kWordSize - 1"),
  ("kBitsPerByte", "uword", "8"),
  ("kSmallIntTag", "uword", "0"),
  ("kHeapObjectTag", "uword", "1"),
  ("kEmptyListTag", "uword", "5"),
  ("kHoleTag", "uword", "7"),
  ("kSmallStringTag", "uword", "13"),
  ("kVariantTag", "uword", "15"),
  ("kBitsPerPointer", "uword", "kBitsPerByte * kWordSize"),
  ("kSmallIntBits", "word", "kBitsPerPointer - kSmallIntTagBits"),
  ("kSmallIntMinValue", "word", "-(((word)1) << (kSmallIntBits - 1))"),
  ("kSmallIntMaxValue", "word", "(((word)1) << (kSmallIntBits - 1)) - 1")]

def preamble (support : String) : String :=
  String.join (layout.map fun (name, type, value) => "#define " ++ name ++ " (" ++ type ++ ")(" ++ value ++ ")\n") ++
    support ++ "\n"

def terminalPlatform : List String := [
  "int main() \x7b",
  "#ifdef STATIC_HEAP",
  "  char memory[MEMORY_SIZE] = \x7b0\x7d;",
  "  struct space space = make_space(memory, MEMORY_SIZE);",
  "#else",
  "  struct space space = make_space(MEMORY_SIZE);",
  "#endif",
  "  init_heap(heap, space);",
  "  HANDLES();",
  "  GC_HANDLE(struct object*, result, scrap_main());",
  "  println(result);",
  "  destroy_space(space);",
  "  return 0;",
  "\x7d"]

def platform : String := String.join (terminalPlatform.map (· ++ "\n"))

end Scrap.Code
