import Pintos.Core.Bytes

/-!
# The kernel command line

`make_kernel_command_line` of utils/Pintos.pm packs the arguments into the
loader, a count and 128 bytes. `read_command_line` of threads/init.c takes
them apart. Strings are bytes, and pointers into the area are offsets from
`LOADER_ARGS`. What the kernel stores in `argv` is kept as the list of the
stores with their indices, since nothing checks them.
-/
namespace Pintos.Boot

open Pintos.Core

/-- `LOADER_ARGS_LEN`. -/
def loaderArgsLen : Nat := 128

/-- `LOADER_ARG_CNT_LEN`. -/
def loaderArgCntLen : Nat := 4

/-- The number of elements of `argv`.
mirrors threads/init.c:201 -/
def argvLen : Nat := loaderArgsLen / 2 + 1

/-- None if the script dies.
mirrors utils/Pintos.pm:268-273 -/
def makeKernelCommandLine (args : List (List UInt8)) : Option (List UInt8) :=
  let joined := args.flatMap (· ++ [0])
  if joined.length > 128 then none
  else some ((List.range 4).map (byteAt args.length) ++ (joined ++ List.replicate (128 - joined.length) 0))

/-- The string at an offset, of at most `n` bytes. -/
def stringAt (bytes : List UInt8) (p n : Nat) : List UInt8 := ((bytes.drop p).take n).takeWhile (· ≠ 0)

/-- An element of `argv` and the pointer stored there; none is the null pointer. -/
abbrev Store := Int × Option Nat

/-- The loop, with `n` arguments to go; none if the kernel panics.
mirrors threads/init.c:209-216 -/
def readArgs (bytes : List UInt8) : Nat → Nat → Nat → Option (List Store)
  | 0, _, _ => some []
  | n + 1, i, p =>
    if p ≥ loaderArgsLen then none
    else (readArgs bytes n (i + 1) (p + (stringAt bytes p (loaderArgsLen - p)).length + 1)).map ((↑i, some p) :: ·)

/-- `argc`, an `int`. -/
def argCnt (area : List UInt8) : Int :=
  let w := wordAt (fun i => area.getD i 0) 0
  if w < 2 ^ 31 then w else (w : Int) - 2 ^ 32

def space : UInt8 := 0x20

def quote : UInt8 := 0x27

/-- mirrors threads/init.c:220-224 -/
def printArg (bytes : List UInt8) : Store → List UInt8
  | (_, none) => []
  | (_, some p) =>
    let s := stringAt bytes p (loaderArgsLen - p)
    if space ∈ s then [space, quote] ++ s ++ [quote] else space :: s

/-- What `read_command_line` does: its stores, and the arguments it prints. -/
structure CommandLine where
  stores : List Store
  printed : List UInt8
  deriving DecidableEq

/-- mirrors threads/init.c:198-229 -/
def readCommandLine (area : List UInt8) : Option CommandLine :=
  let bytes := area.drop loaderArgCntLen
  let argc := argCnt area
  (readArgs bytes argc.toNat 0 0).map fun stores => ⟨stores ++ [(argc, none)], stores.flatMap (printArg bytes)⟩

end Pintos.Boot
