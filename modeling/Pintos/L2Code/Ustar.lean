import Pintos.Core.Bytes
import Pintos.L2Code.Printf

/-!
# Archive headers of lib/ustar.c

A header is a block of 512 bytes; `struct ustar_header` is the table of the
offsets of its fields. Names are strings without null bytes.
-/
namespace Pintos.Ustar

open Pintos.Core Pintos.Stdio
open Pintos.Lib (Stop memcmp strcmp strchr)
open Pintos.Printf (snprintf)

/-- mirrors lib/ustar.h:14-19 -/
inductive UstarType
  | regular
  | directory
  | eof
  deriving DecidableEq

/-- The byte in the format. -/
def UstarType.code : UstarType → UInt8
  | .regular => 0x30
  | .directory => 0x35
  | .eof => 0xff

/-- `USTAR_HEADER_SIZE`. -/
def headerSize : Nat := 512

abbrev Header := Nat → UInt8

/-- A field: its offset and its size. -/
structure Field where
  ofs : Nat
  size : Nat

/-! mirrors lib/ustar.c:10-32 -/

def nameField : Field := ⟨0, 100⟩
def modeField : Field := ⟨100, 8⟩
def uidField : Field := ⟨108, 8⟩
def gidField : Field := ⟨116, 8⟩
def sizeField : Field := ⟨124, 12⟩
def mtimeField : Field := ⟨136, 12⟩
def chksumField : Field := ⟨148, 8⟩
def typeflagField : Field := ⟨156, 1⟩
def magicField : Field := ⟨257, 6⟩
def versionField : Field := ⟨263, 2⟩
def unameField : Field := ⟨265, 32⟩
def gnameField : Field := ⟨297, 32⟩
def prefixField : Field := ⟨345, 155⟩

def store (h : Header) (f : Field) (bs : List UInt8) : Header := patch h f.ofs bs.length fun i => bs.getD i 0

def load (h : Header) (f : Field) : List UInt8 := (List.range f.size).map fun i => h (f.ofs + i)

/-- What `strlcpy (dst, src, size)` stores.
mirrors lib/string.c:325-343 -/
def strlcpy (src : List UInt8) (size : Nat) : List UInt8 :=
  if size = 0 then [] else src.take (size - 1) ++ [0]

/-- mirrors lib/ustar.c:36-54 -/
def calculateChksum (h : Header) : Nat :=
  ((List.range headerSize).map fun i =>
    if chksumField.ofs ≤ i ∧ i < chksumField.ofs + chksumField.size then 0x20 else (h i).toNat).sum % 2 ^ 32

def slash : UInt8 := 0x2f

def dot : UInt8 := 0x2e

/-- The test of the loop. -/
def antisocial (s : List UInt8) : Bool :=
  s.take 1 == [slash] || s.take 2 == [dot, slash] || s.take 3 == [dot, dot, slash]

/-- The loop; each iteration drops a character at least, so the length of the
name is enough.
mirrors lib/ustar.c:68-71 -/
def stripLoop : Nat → List UInt8 → List UInt8
  | 0, s => s
  | fuel + 1, s => if antisocial s then stripLoop fuel (s.dropWhile (· ≠ slash)).tail else s

/-- mirrors lib/ustar.c:65-73 -/
def stripAntisocialPrefixes (fileName : List UInt8) : List UInt8 :=
  let s := stripLoop fileName.length fileName
  if s = [] ∨ s = [dot, dot] then [dot] else s

/-! The same function as it reads the name, which is the list of its bytes from a
pointer on, up to and with the terminator. -/

/-- The test of the loop, on the object from `fileName` on. -/
def antisocialAt (fileName : List UInt8) : Except Stop Bool :=
  match fileName with
  | [] => .error .beyond
  | c :: _ =>
    if c = slash then .ok true
    else do
      let cmp ← memcmp fileName (ascii "./" ++ [0]) 2
      if cmp = 0 then .ok true
      else do
        let cmp ← memcmp fileName (ascii "../" ++ [0]) 3
        .ok (cmp = 0)

/-- The loop as it reads the name; `NULL + 1` is beyond every object.
mirrors lib/ustar.c:68-71 -/
def stripAt (fileName : List UInt8) : Except Stop (List UInt8) :=
  match _h : antisocialAt fileName with
  | .error e => .error e
  | .ok false => .ok fileName
  | .ok true =>
    match strchr slash fileName 0 with
    | .error e => .error e
    | .ok none => .error .beyond
    | .ok (some p) => stripAt (fileName.drop (p + 1))
termination_by fileName.length
decreasing_by
  have hpos : fileName ≠ [] := by
    intro hnil
    rw [hnil] at _h
    cases _h
  have := List.length_pos_iff.mpr hpos
  simp only [List.length_drop]
  omega

/-- `strip_antisocial_prefixes` with its reads.
mirrors lib/ustar.c:65-73 -/
def stripAntisocialPrefixesAt (fileName : List UInt8) : Except Stop (List UInt8) := do
  let s ← stripAt fileName
  match s with
  | [] => .error .beyond
  | c :: _ =>
    if c = 0 then .ok [dot, 0]
    else do
      let cmp ← strcmp s [dot, dot, 0]
      .ok (if cmp = 0 then [dot, 0] else s)

/-- Why there is no header: an assertion fails, or the function returns false. -/
inductive MakeError
  | assertion
  | nameTooLong
  deriving DecidableEq

/-- The stores into the header, which is cleared before them, up to the checksum. -/
def headerStores (name : List UInt8) (type : UstarType) (size : Int) : List (Field × List UInt8) :=
  [(nameField, strlcpy name nameField.size),
   (modeField, snprintf modeField.size (ascii "%07o") [.word (if type = .regular then 0o644 else 0o755)]),
   (uidField, strlcpy (ascii "0000000") uidField.size),
   (gidField, strlcpy (ascii "0000000") gidField.size),
   (sizeField, snprintf sizeField.size (ascii "%011o") [.word (.ofInt 32 size)]),
   (mtimeField, snprintf sizeField.size (ascii "%011o") [.word 1136102400]),
   (typeflagField, [type.code]),
   (magicField, strlcpy (ascii "ustar") magicField.size),
   (versionField, [0x30, 0x30]),
   (gnameField, strlcpy (ascii "root") gnameField.size),
   (unameField, strlcpy (ascii "root") unameField.size)]

def storeAll (h : Header) (l : List (Field × List UInt8)) : Header := l.foldl (fun h x => store h x.1 x.2) h

def fillHeader (name : List UInt8) (type : UstarType) (size : Int) : Header :=
  storeAll (fun _ => 0) (headerStores name type size)

/-- `size` is an `int`.
mirrors lib/ustar.c:82-118 -/
def ustarMakeHeader (fileName : List UInt8) (type : UstarType) (size : Int) : Except MakeError Header :=
  if type = .eof then .error .assertion
  else
    let name := stripAntisocialPrefixes fileName
    if name.length > 99 then .error .nameTooLong
    else
      let h := fillHeader name type size
      .ok (store h chksumField (snprintf chksumField.size (ascii "%07o") [.word (.ofNat 32 (calculateChksum h))]))

/-- `ULONG_MAX`. -/
def ulongMax : Nat := 2 ^ 32 - 1

/-- `INT_MAX`. -/
def intMax : Nat := 2 ^ 31 - 1

/-- The bytes from `ofs` on; none if the function returns false.
mirrors lib/ustar.c:129-162 -/
def parseOctal : List UInt8 → Nat → Nat → Option Nat
  | [], _, _ => none
  | c :: s, ofs, value =>
    if 0x30 ≤ c ∧ c ≤ 0x37 then
      if value > ulongMax / 8 then none else parseOctal s (ofs + 1) (c.toNat - 0x30 + value * 8)
    else if c = 0x20 ∨ c = 0 then
      if ofs > 0 then some value else none
    else none

def parseOctalField (h : Header) (f : Field) : Option Nat := parseOctal (load h f) 0 0

structure Parsed where
  fileName : Option (List UInt8)
  type : UstarType
  size : Int
  deriving DecidableEq

def isAllZeros (h : Header) : Bool := (List.range headerSize).all fun i => h i == 0

/-- The result, or the error message.
mirrors lib/ustar.c:181-227 -/
def ustarParseHeader (h : Header) : Except String Parsed :=
  if isAllZeros h then .ok ⟨none, .eof, 0⟩
  else if load h magicField ≠ ascii "ustar" ++ [0] then .error "not a ustar archive"
  else if load h versionField ≠ [0x30, 0x30] then .error "invalid ustar version"
  else match parseOctalField h chksumField with
  | none => .error "corrupt chksum field"
  | some chksum =>
    if chksum ≠ calculateChksum h then .error "checksum mismatch"
    else if h (nameField.ofs + nameField.size - 1) ≠ 0 ∨ h prefixField.ofs ≠ 0 then .error "file name too long"
    else
      let name := stripAntisocialPrefixes ((load h nameField).takeWhile (· ≠ 0))
      if h typeflagField.ofs = UstarType.regular.code then
        match parseOctalField h sizeField with
        | none => .error "corrupt file size field"
        | some size => if size > intMax then .error "file too large" else .ok ⟨some name, .regular, size⟩
      else if h typeflagField.ofs = UstarType.directory.code then .ok ⟨some name, .directory, 0⟩
      else .error "unimplemented file type"

end Pintos.Ustar
