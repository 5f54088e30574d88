import PlatformKnife.Lib.CString

namespace Adb

open CString

def shouldEscape (c : UInt8) : Bool :=
  c = 32 || c = 39 || c = 34 || c = 92 || c = 40 || c = 41

-- The first loop of `escape_arg`, with the length so far.
def allocLen : Nat → List UInt8 → Nat
  | n, [] => n
  | n, c :: l => if shouldEscape c then allocLen (n + 2) l else allocLen (n + 1) l

-- The second one: what is written to `dest` for the rest of the string.
def escapeLoop : List UInt8 → List UInt8
  | [] => []
  | c :: l => if shouldEscape c then 92 :: c :: escapeLoop l else c :: escapeLoop l

def escapeArg (s : List UInt8) : List UInt8 :=
  if allocLen 0 s = 0 then [34, 34] else escapeLoop s

-- The arguments as they are sent, with spaces in between.
def escapeArgs (args : List Str) : List UInt8 :=
  List.intercalate [32] (args.map fun s => escapeArg s.bytes)

end Adb
