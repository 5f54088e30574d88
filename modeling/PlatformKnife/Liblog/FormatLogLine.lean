import PlatformKnife.Lib.Printf
import PlatformKnife.Liblog.ProcessLogBuffer

namespace Liblog

open CInt CString Printf Slice

inductive PrintFormat
  | off | brief | process | tag | thread | raw | time | threadtime | long
  deriving DecidableEq

def filterPriToChar (pri : UInt8) : UInt8 :=
  match pri.toNat with
  | 2 => 86
  | 3 => 68
  | 4 => 73
  | 5 => 87
  | 6 => 69
  | 7 => 70
  | 8 => 83
  | _ => 63

-- An entry for printing: the bytes of the strings without terminators. The buffer of
-- `android_log_processBinaryLogBuffer` for a message has a length of type `int`.
structure TextEntry extends AndroidLogEntry (List UInt8) where
  tag_text : 0 ∉ tag
  messageLen_eq : messageLen = message.length
  messageLen_lt : messageLen < 2 ^ 31

-- What `strftime` writes to `timeBuf`.
structure TimeText where
  text    : List UInt8
  no_zero : 0 ∉ text

-- What `malloc` returns for a size: a block with any bytes, or nothing.
structure Malloc where
  block  : Nat → Option (List UInt8)
  length : block n = some b → b.length = n

def sizeofBuf : Nat :=
  128

def millis (entry : TextEntry) (time : TimeText) : List UInt8 :=
  time.text ++ ofString "." ++ printZeros 3 (entry.tvNsec.tdiv 1000000)

def padTag (entry : TextEntry) : List UInt8 :=
  padRight 8 32 entry.tag

def width5 (n : Int) : List UInt8 :=
  padLeft 5 32 (printInt n)

-- The strings that are printed to `prefixBuf` and `suffixBuf`, at full length.
def affixes (format : PrintFormat) (entry : TextEntry) (time : TimeText) :
    List UInt8 × List UInt8 :=
  let priChar := filterPriToChar entry.priority
  match format with
  | .tag => ([priChar] ++ ofString "/" ++ padTag entry ++ ofString ": ", ofString "\n")
  | .process =>
    ([priChar] ++ ofString "(" ++ width5 entry.pid ++ ofString ") ",
      ofString "  (" ++ entry.tag ++ ofString ")\n")
  | .thread =>
    ([priChar] ++ ofString "(" ++ width5 entry.pid ++ ofString ":" ++ width5 entry.tid ++ ofString ") ",
      ofString "\n")
  | .raw => ([], ofString "\n")
  | .time =>
    (millis entry time ++ ofString " " ++ [priChar] ++ ofString "/" ++ padTag entry ++ ofString "(" ++
      width5 entry.pid ++ ofString "): ", ofString "\n")
  | .threadtime =>
    (millis entry time ++ ofString " " ++ width5 entry.pid ++ ofString " " ++ width5 entry.tid ++
      ofString " " ++ [priChar] ++ ofString " " ++ padTag entry ++ ofString ": ", ofString "\n")
  | .long =>
    (ofString "[ " ++ millis entry time ++ ofString " " ++ width5 entry.pid ++ ofString ":" ++
      width5 entry.tid ++ ofString " " ++ [priChar] ++ ofString "/" ++ padTag entry ++ ofString " ]\n",
      ofString "\n\n")
  | .brief | .off =>
    ([priChar] ++ ofString "/" ++ padTag entry ++ ofString "(" ++ width5 entry.pid ++ ofString "): ",
      ofString "\n")

-- `snprintf` cuts what it writes; what it returns is cut behind the switch.
def clipLen (l : List UInt8) : Nat :=
  if l.length ≥ sizeofBuf then sizeofBuf - 1 else l.length

def clip (l : List UInt8) : List UInt8 :=
  l.take (sizeofBuf - 1)

-- The first loop over the message.
def countLines (message : List UInt8) : Nat :=
  let numLines := message.foldl (fun numLines c => if c = 10 then numLines + 1 else numLines) 0
  if message ≠ [] ∧ message.getLast? ≠ some 10 then numLines + 1 else numLines

-- The three calls that append a line of `lineLen` bytes at `lineStart`.
def appendLine (first last : List UInt8) (buf : List UInt8) (p : Nat) (lineStart : List UInt8)
    (lineLen : Nat) : Option (List UInt8 × Nat) := do
  let buf ← strcat buf p (ofBuffer (clip first))
  let p   := p + clipLen first
  let buf ← strncat buf p lineStart lineLen
  let p   := p + lineLen
  let buf ← strcat buf p (ofBuffer (clip last))
  pure (buf, p + clipLen last)

-- The second loop, with the message from `pm` on. A line ends at a newline, which is skipped, or at the
-- end.
def appendLines (first last : List UInt8) (buf : List UInt8) (p : Nat) :
    List UInt8 → Option (List UInt8 × Nat)
  | [] => some (buf, p)
  | c :: pm =>
    let lineLen := ((c :: pm).takeWhile (· ≠ 10)).length
    match appendLine first last buf p (c :: pm) lineLen with
    | none => none
    | some (buf, p) => appendLines first last buf p ((c :: pm).drop lineLen |>.drop 1)
termination_by pm => pm.length
decreasing_by simp

variable (format : PrintFormat)

def bufferSize (entry : TextEntry) (time : TimeText) : Nat :=
  let (first, last) := affixes format entry time
  let numLines := if format = .long then 1 else countLines entry.message
  u64 (numLines * (clipLen first + clipLen last) + entry.messageLen + 1)

def appendMessage (entry : TextEntry) (time : TimeText) (ret : List UInt8) :
    Option (List UInt8 × Nat) :=
  let (first, last) := affixes format entry time
  if format = .long then
    appendLine first last ret 0 entry.message entry.messageLen
  else
    appendLines first last ret 0 entry.message

-- The bytes of the returned block and `*p_outLength`, or `some none` for `NULL`. `none` is an access
-- outside of the block.
def formatLogLine (defaultBuffer : List UInt8) (malloc : Malloc)
    (entry : TextEntry) (time : TimeText) : Option (Option (List UInt8 × Nat)) :=
  let bufferSize := bufferSize format entry time
  let ret :=
    if defaultBuffer.length ≥ bufferSize then some defaultBuffer else malloc.block bufferSize
  match ret with
  | none => some none
  | some ret =>
    if ret.length = 0 then
      none
    else
      (appendMessage format entry time (overwrite ret 0 [0])).map some

end Liblog
