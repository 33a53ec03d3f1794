import Pintos.L2Code.Stdio
import Pintos.L2Code.Strings

/-!
# `__vprintf` (lib/stdio.c)

The scan over the format with every conversion, `parse_conversion`,
`format_integer` with its buffer and `format_string`. A pointer into the format
is the list of bytes from there up to and with the terminator, so that a read
beyond the terminator stops with `format`. An `int` wraps as a machine word.
The arguments come with their types, and a `char *` argument is the string it
points to.
-/
namespace Pintos.Printf
open Pintos.Core Pintos.Stdio
open Pintos.Lib (isdigit)

/-- Why a call does not return. -/
inductive Fault where
  | format     -- a read beyond the terminator of the format
  | buffer     -- a write beyond `buf`
  | args       -- no argument of the type that is consumed
  | endless
deriving DecidableEq, Repr

/-- An argument: a word (`int`, `unsigned`, `long`, `ptrdiff_t`, `size_t` and
pointers to `void`), a `long long` or `intmax_t`, or a string. -/
inductive Arg where
  | word (v : BitVec 32)
  | wide (v : BitVec 64)
  | string (s : Option (List UInt8))
deriving DecidableEq, Repr

/-- The arguments that are left and the characters that were output. -/
structure St where
  args : List Arg
  out : List UInt8
deriving DecidableEq, Repr

abbrev P := Code St Fault

def emit (cs : List UInt8) : P Unit := Code.modify fun s => { s with out := s.out ++ cs }

def vaWord : P (BitVec 32) := fun s =>
  match s.args with
  | .word v :: rest => .ok (v, { s with args := rest })
  | _ => .error .args

def vaWide : P (BitVec 64) := fun s =>
  match s.args with
  | .wide v :: rest => .ok (v, { s with args := rest })
  | _ => .error .args

def vaString : P (Option (List UInt8)) := fun s =>
  match s.args with
  | .string v :: rest => .ok (v, { s with args := rest })
  | _ => .error .args

/-- The value of type `int` with the low 32 bits of `x`. -/
def int32 (x : Int) : Int := x.bmod (2 ^ 32)

/-! ## Conversions -/

/-- mirrors lib/stdio.c:96-105 -/
structure Flags where
  minus : Bool
  plus : Bool
  space : Bool
  pound : Bool
  zero : Bool
  group : Bool
deriving DecidableEq, Repr

def noFlags : Flags := ⟨false, false, false, false, false, false⟩

/-- mirrors lib/stdio.c:115-126 -/
inductive ArgType where
  | char
  | short
  | int
  | intmax
  | long
  | longlong
  | ptrdifft
  | sizet
deriving DecidableEq, Repr

/-- mirrors lib/stdio.c:94-127 -/
structure Conversion where
  flags : Flags
  width : Int
  precision : Int       -- -1 if there is none
  type : ArgType
deriving DecidableEq, Repr

/-- The flag for a character, if it is one.
mirrors lib/stdio.c:349-367 -/
def setFlag (c : UInt8) (f : Flags) : Option Flags :=
  if c = 0x2d then some { f with minus := true }           -- '-'
  else if c = 0x2b then some { f with plus := true }       -- '+'
  else if c = 0x20 then some { f with space := true }      -- ' '
  else if c = 0x23 then some { f with pound := true }      -- '#'
  else if c = 0x30 then some { f with zero := true }       -- '0'
  else if c = 0x27 then some { f with group := true }      -- apostrophe
  else none

/-- mirrors lib/stdio.c:344-372 -/
def parseFlags : Flags → List UInt8 → P (Flags × List UInt8)
  | _, [] => Code.fail .format
  | f, c :: rest =>
    match setFlag c f with
    | some f' => parseFlags f' rest
    | none => pure (f, c :: rest)

/-- mirrors lib/stdio.c:374-377 -/
def overrideFlags (f : Flags) : Flags :=
  let f := if f.minus then { f with zero := false } else f
  if f.plus then { f with space := false } else f

def parseDigits : Int → List UInt8 → P (Int × List UInt8)
  | _, [] => Code.fail .format
  | v, c :: rest =>
    if isdigit c then parseDigits (int32 (v * 10 + c.toNat - 0x30)) rest else pure (v, c :: rest)

/-- A width or a precision: `*` or digits.
mirrors lib/stdio.c:381-390, 401-411 -/
def parseNumber : List UInt8 → P (Int × List UInt8)
  | [] => Code.fail .format
  | c :: rest =>
    if c = 0x2a then do
      let v ← vaWord
      pure (v.toInt, rest)
    else parseDigits 0 (c :: rest)

/-- mirrors lib/stdio.c:398-414 -/
def parsePrecision : List UInt8 → P (Int × List UInt8)
  | [] => Code.fail .format
  | c :: rest =>
    if c = 0x2e then do
      let (precision, rest) ← parseNumber rest
      pure (if precision < 0 then -1 else precision, rest)
    else pure (-1, c :: rest)

/-- `h` or `l`, once or twice. -/
def parseTwice (c : UInt8) (twice once : ArgType) : List UInt8 → P (ArgType × List UInt8)
  | [] => Code.fail .format
  | d :: rest => if d = c then pure (twice, rest) else pure (once, d :: rest)

/-- mirrors lib/stdio.c:419-456 -/
def parseType : List UInt8 → P (ArgType × List UInt8)
  | [] => Code.fail .format
  | c :: rest =>
    if c = 0x68 then parseTwice 0x68 .char .short rest          -- 'h'
    else if c = 0x6a then pure (.intmax, rest)                  -- 'j'
    else if c = 0x6c then parseTwice 0x6c .longlong .long rest  -- 'l'
    else if c = 0x74 then pure (.ptrdifft, rest)                -- 't'
    else if c = 0x7a then pure (.sizet, rest)                   -- 'z'
    else pure (.int, c :: rest)

/-- A negative width stands for the flag `-` and its absolute value.
mirrors lib/stdio.c:391-395 -/
def setWidth (f : Flags) (width : Int) : Flags × Int :=
  if width < 0 then ({ f with minus := true }, int32 (-width)) else (f, width)

/-- mirrors lib/stdio.c:339-460 -/
def parseConversion (format : List UInt8) : P (Conversion × List UInt8) := do
  let (flags, format) ← parseFlags noFlags format
  let flags := overrideFlags flags
  let (width, format) ← parseNumber format
  let (flags, width) := setWidth flags width
  let (precision, format) ← parsePrecision format
  let flags := if precision ≥ 0 then { flags with zero := false } else flags
  let (type, format) ← parseType format
  pure (⟨flags, width, precision, type⟩, format)

/-! ## `format_integer` and `format_string` -/

def baseD : IntegerBase := ⟨10, ascii "0123456789", 0, 3⟩
def baseX : IntegerBase := ⟨16, ascii "0123456789abcdef", 0x78, 4⟩
def baseUpperX : IntegerBase := ⟨16, ascii "0123456789ABCDEF", 0x58, 4⟩

/-- `*cp++ = c` -/
def put (buf : List UInt8) (c : UInt8) : P (List UInt8) :=
  if buf.length < 64 then pure (buf ++ [c]) else Code.fail .buffer

/-- mirrors lib/stdio.c:508-509 -/
def putComma (b : IntegerBase) (group : Bool) (digitCnt : Nat) (buf : List UInt8) : P (List UInt8) :=
  if group = true ∧ digitCnt > 0 ∧ digitCnt % b.group = 0 then put buf 0x2c else pure buf

/-- Every step fills a place of `buf`, so that 64 steps are enough.
mirrors lib/stdio.c:504-513 -/
def digitLoop (b : IntegerBase) (group : Bool) : Nat → Nat → Nat → List UInt8 → P (List UInt8)
  | 0, _, _, _ => Code.fail .buffer
  | n + 1, digitCnt, value, buf =>
    if value > 0 then do
      let buf ← putComma b group digitCnt buf
      let buf ← put buf (b.digits.getD (value % b.base) 0)
      digitLoop b group n (digitCnt + 1) (value / b.base) buf
    else pure buf

/-- Every step fills a place of `buf`.
mirrors lib/stdio.c:521-522 -/
def precisionLoop (precision : Int) : Nat → List UInt8 → P (List UInt8)
  | 0, _ => Code.fail .buffer
  | n + 1, buf =>
    if buf.length < precision ∧ buf.length < 64 - 1 then do
      let buf ← put buf 0x30
      precisionLoop precision n buf
    else pure buf

/-- mirrors lib/stdio.c:523-524 -/
def putOctal (b : IntegerBase) (pound : Bool) (buf : List UInt8) : P (List UInt8) :=
  if pound = true ∧ b.base = 8 ∧ buf.getLast? ≠ some 0x30 then put buf 0x30 else pure buf

/-- mirrors lib/stdio.c:485-494 -/
def signChar (isSigned negative : Bool) (f : Flags) : List UInt8 :=
  if isSigned then
    if f.plus then [if negative then 0x2d else 0x2b]
    else if f.space then [if negative then 0x2d else 0x20]
    else if negative then [0x2d] else []
  else []

/-- What `buf` holds up to `cp`.
mirrors lib/stdio.c:501-524 -/
def fillBuffer (value : Nat) (b : IntegerBase) (c : Conversion) : P (List UInt8) := do
  let buf ← digitLoop b c.flags.group 65 0 value []
  let precision := if c.precision < 0 then 1 else c.precision
  let buf ← precisionLoop precision 64 buf
  putOctal b c.flags.pound buf

/-- mirrors lib/stdio.c:469-547 -/
def formatInteger (value : Nat) (isSigned negative : Bool) (b : IntegerBase) (c : Conversion) : P Unit := do
  let sign := signChar isSigned negative c.flags
  let x := if c.flags.pound ∧ value ≠ 0 ∧ b.x ≠ 0 then [0x30, b.x] else []
  let buf ← fillBuffer value b c
  let padCnt := int32 (c.width - buf.length - x.length - sign.length)
  emit (if c.flags.minus ∨ c.flags.zero then [] else List.replicate padCnt.toNat 0x20)
  emit sign
  emit x
  emit (if c.flags.zero then List.replicate padCnt.toNat 0x30 else [])
  emit buf.reverse
  emit (if c.flags.minus then List.replicate padCnt.toNat 0x20 else [])

/-- mirrors lib/stdio.c:560-572 -/
def formatString (string : List UInt8) (length : Int) (c : Conversion) : P Unit := do
  let padCnt := ((c.width - length) % 2 ^ 32).toNat
  emit (if c.width > length ∧ c.flags.minus = false then List.replicate padCnt 0x20 else [])
  emit (string.take length.toNat)
  emit (if c.width > length ∧ c.flags.minus = true then List.replicate padCnt 0x20 else [])

/-! ## The scan -/

/-- An argument of a signed conversion, as an `intmax_t`.
mirrors lib/stdio.c:191-221 -/
def signedArg : ArgType → P (BitVec 64)
  | .char => do let v ← vaWord; pure ((v.setWidth 8).signExtend 64)
  | .short => do let v ← vaWord; pure ((v.setWidth 16).signExtend 64)
  | .int => do let v ← vaWord; pure (v.signExtend 64)
  | .intmax => vaWide
  | .long => do let v ← vaWord; pure (v.signExtend 64)
  | .longlong => vaWide
  | .ptrdifft => do let v ← vaWord; pure (v.signExtend 64)
  | .sizet => do
    let v ← vaWord
    let value : BitVec 64 := v.setWidth 64
    pure (if value.toInt > 2 ^ 31 - 1 then value - 0xFFFFFFFF - 1 else value)

/-- An argument of an unsigned conversion, as a `uintmax_t`.
mirrors lib/stdio.c:237-268 -/
def unsignedArg : ArgType → P (BitVec 64)
  | .char => do let v ← vaWord; pure ((v.setWidth 8).setWidth 64)
  | .short => do let v ← vaWord; pure ((v.setWidth 16).setWidth 64)
  | .int => do let v ← vaWord; pure (v.setWidth 64)
  | .intmax => vaWide
  | .long => do let v ← vaWord; pure (v.setWidth 64)
  | .longlong => vaWide
  | .ptrdifft => do let v ← vaWord; pure (v.signExtend 64 &&& 0xFFFFFFFF)
  | .sizet => do let v ← vaWord; pure (v.setWidth 64)

/-- `-value` of the smallest `intmax_t` is the same bits, which are its
absolute value as a `uintmax_t`.
mirrors lib/stdio.c:189-224 -/
def formatSigned (c : Conversion) : P Unit := do
  let value ← signedArg c.type
  formatInteger (if value.toInt < 0 then -value else value).toNat true (value.toInt < 0) baseD c

/-- mirrors lib/stdio.c:234-279 -/
def formatUnsigned (b : IntegerBase) (c : Conversion) : P Unit := do
  let value ← unsignedArg c.type
  formatInteger value.toNat false false b c

/-- `strnlen (s, maxlen)`, with `maxlen` converted to `size_t`. -/
def strnlen (s : List UInt8) (maxlen : Int) : Nat := min s.length (maxlen % 2 ^ 32).toNat

/-- mirrors lib/stdio.c:294-301 -/
def formatStringArg (c : Conversion) : P Unit := do
  let s ← vaString
  let s := s.getD (ascii "(null)")
  formatString s (int32 (strnlen s c.precision)) c

/-- The conversion that `ch` stands for.
mirrors lib/stdio.c:183-331 -/
def convert (ch : UInt8) (c : Conversion) : P Unit :=
  if ch = 0x64 ∨ ch = 0x69 then formatSigned c                     -- 'd', 'i'
  else if ch = 0x6f then formatUnsigned baseO c                    -- 'o'
  else if ch = 0x75 then formatUnsigned baseD c                    -- 'u'
  else if ch = 0x78 then formatUnsigned baseX c                    -- 'x'
  else if ch = 0x58 then formatUnsigned baseUpperX c               -- 'X'
  else if ch = 0x63 then do                                        -- 'c'
    let v ← vaWord
    formatString [UInt8.ofNat (v.toNat % 2 ^ 8)] 1 c
  else if ch = 0x73 then formatStringArg c                         -- 's'
  else if ch = 0x70 then do                                        -- 'p'
    let v ← vaWord
    formatInteger v.toNat false false baseX { c with flags := { noFlags with pound := true } }
  else if ch ∈ ascii "feEgGn" then emit (ascii "<<no %" ++ ch :: ascii " in kernel>>")
  else emit (ascii "<<no %" ++ ch :: ascii " conversion>>")

/-- The loop over the format: `n` bounds the number of its steps.
mirrors lib/stdio.c:160-183 -/
def vprintfLoop : Nat → List UInt8 → P Unit
  | 0, _ => Code.fail .endless
  | _ + 1, [] => Code.fail .format
  | n + 1, ch :: format =>
    if ch = 0 then pure ()
    else if ch ≠ 0x25 then do
      emit [ch]
      vprintfLoop n format
    else
      match format with
      | [] => Code.fail .format
      | ch :: format =>
        if ch = 0x25 then do
          emit [0x25]
          vprintfLoop n format
        else do
          let (c, format) ← parseConversion (ch :: format)
          match format with
          | [] => Code.fail .format
          | ch :: format => do
            convert ch c
            vprintfLoop n format

/-- `__vprintf` on a format of the bytes `format` and the terminator.
mirrors lib/stdio.c:156-333 -/
def vprintf (format : List UInt8) : P Unit := vprintfLoop (format.length + 2) (format ++ [0])

/-- What `snprintf (buffer, bufSize, format, ...)` leaves in the buffer.
mirrors lib/stdio.c:25-74 -/
def snprintf (bufSize : Nat) (format : List UInt8) (args : List Arg) : List UInt8 :=
  match vprintf format ⟨args, []⟩ with
  | .ok (_, s) => if bufSize = 0 then [] else s.out.take (bufSize - 1) ++ [0]
  | .error _ => []

end Pintos.Printf
