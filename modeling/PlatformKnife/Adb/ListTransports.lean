import PlatformKnife.Lib.Printf

namespace Adb

open CString Printf Slice

-- `struct atransport`, as far as it is listed.
structure Atransport where
  serial : Option Str
  product : Option Str
  model : Option Str
  device : Option Str
  devpath : Option Str
  connectionState : Int

namespace ListTransports

-- The string that a pointer stands for, if it is neither `NULL` nor empty.
def present (s : Option Str) : Option (List UInt8) :=
  match s with
  | none => none
  | some s => if s.bytes = [] then none else some s.bytes

def statename (t : Atransport) : List UInt8 :=
  match t.connectionState with
  | 0 => ofString "offline"
  | 1 => ofString "bootloader"
  | 2 => ofString "device"
  | 3 => ofString "host"
  | 4 => ofString "recovery"
  | 6 => ofString "sideload"
  | 5 => ofString "no permissions"
  | 7 => ofString "unauthorized"
  | _ => ofString "unknown"

def qualCharIsInvalid (ch : UInt8) : Bool :=
  if 65 ≤ ch && ch ≤ 90 then false
  else if 97 ≤ ch && ch ≤ 122 then false
  else if 48 ≤ ch && ch ≤ 57 then false
  else true

-- The body of the loop in `add_qual`.
def sanitize (ch : UInt8) : UInt8 :=
  if qualCharIsInvalid ch then 95 else ch

-- A difference of type `size_t`.
def sizeSub (a b : Nat) : Nat :=
  (a + (2 ^ 64 - b % 2 ^ 64)) % 2 ^ 64

-- The buffer, where the next piece goes, and the space said to be left.
structure Cursor where
  buffer : List UInt8
  buf    : Nat
  size   : Nat

def Cursor.print (c : Cursor) (text : List UInt8) : Option Cursor :=
  match snprintf c.buffer c.buf c.size text with
  | none => none
  | some (buffer, len) => some ⟨buffer, c.buf + len, sizeSub c.size len⟩

-- The loop over the characters from `i` to `j`; `none` is an access behind the buffer.
def sanitizeRange (buffer : List UInt8) (i j : Nat) : Option (List UInt8) :=
  if j ≤ buffer.length then some (overwrite buffer i ((slice buffer i j).map sanitize)) else none

-- The arguments of `add_qual`.
structure Qual where
  start : List UInt8
  qual : Option Str
  sanitizeQual : Bool

def addQual (c : Cursor) (q : Qual) : Option Cursor :=
  match present q.qual with
  | none => some c
  | some qual =>
    if c.size = 0 then
      some c
    else
      match snprintf c.buffer c.buf c.size (q.start ++ qual) with
      | none => none
      | some (buffer, len) =>
        if q.sanitizeQual then
          match sanitizeRange buffer (c.buf + q.start.length) (c.buf + len) with
          | none => none
          | some buffer => some ⟨buffer, c.buf + len, sizeSub c.size len⟩
        else
          some ⟨buffer, c.buf + len, sizeSub c.size len⟩

section

variable (t : Atransport)

def serialOf : List UInt8 :=
  (present t.serial).getD (ofString "????????????")

-- `snprintf(buf, bufsize, "%s\t%s\n", …)`
def shortLine : List UInt8 :=
  serialOf t ++ [9] ++ statename t ++ [10]

-- What `"%-22s %s"` stands for.
def longHead : List UInt8 :=
  padRight 22 32 (serialOf t) ++ [32] ++ statename t

def formatTransport (buffer : List UInt8) (buf bufsize : Nat) (long : Bool) :
    Option (List UInt8 × Nat) :=
  if long then do
    let c ← Cursor.print ⟨buffer, buf, bufsize⟩ (longHead t)
    let c ← addQual c ⟨ofString " ", t.devpath, false⟩
    let c ← addQual c ⟨ofString " product:", t.product, false⟩
    let c ← addQual c ⟨ofString " model:", t.model, true⟩
    let c ← addQual c ⟨ofString " device:", t.device, false⟩
    let c ← c.print [10]
    some (c.buffer, sizeSub bufsize c.size)
  else
    snprintf buffer buf bufsize (shortLine t)

end

-- The loop of `list_transports`. A length is stored as an `int`; `none` also stands for one that is none.
def listLoop (long : Bool) : List Atransport → List UInt8 → Nat → Option (List UInt8 × Nat)
  | [], buffer, p => some (buffer, p)
  | t :: ts, buffer, p =>
    match formatTransport t buffer p (buffer.length - p) long with
    | none => none
    | some (buffer, len) =>
      if intMax < len then none
      else if buffer.length ≤ p + len then some (buffer, p)
      else listLoop long ts buffer (p + len)

-- The buffer afterwards and the result. The difference of the pointers becomes an `int`.
def listTransports (ts : List Atransport) (buffer : List UInt8) (long : Bool) :
    Option (List UInt8 × Int) :=
  match listLoop long ts buffer 0 with
  | none => none
  | some (buffer, p) =>
    if p < buffer.length then some (overwrite buffer p [0], Int.bmod p (2 ^ 32)) else none

end ListTransports

end Adb
