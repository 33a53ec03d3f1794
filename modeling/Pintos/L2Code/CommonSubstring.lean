import Pintos.Core.Loop
import Pintos.Core.Machine

/-!
# The three programs of project4

`3way-pthread`, `3way-openmp` and `3way-mpi` read the lines of a file and find
the longest common substring of each line and the next. `open_file`, the body
of `thandle` and `lcs_dynamic` are the same in all three; the versions differ
in their constants and in who calls `thandle`. The workers of the first two
share `lcs_data`: a worker computes one line in each action of the machine. An
MPI rank has its own copy of everything.

Characters are bytes. A row of `data` is a function of the column; behind the
line that `fgets` has stored it is zero. Allocations succeed.
-/
namespace Pintos.Lcs

open Pintos.Core Function

/-- `LINE_LENGTH`. -/
def lineLength : Nat := 2003

/-- `NUM_LINES`, and the width of `actual_num_lines`. -/
structure Version where
  numLines : Nat
  width : Nat

/-- mirrors src/project4/3way-pthread/p4_pth.c:13,21 -/
def pthread : Version := ⟨10000, 32⟩

/-- mirrors src/project4/3way-openmp/p4_omp.c:13,21 -/
def openmp : Version := ⟨1000000, 64⟩

/-- mirrors src/project4/3way-mpi/p4_mpi.c:12,20 -/
def mpi : Version := ⟨1000000, 64⟩

/-- `NUM_THREADS` of the first two. -/
def numThreads : Nat := 16

/-! ## Reading -/

abbrev Data := Nat → Nat → UInt8

/-- The lines that `fgets` returns, as long as there is room.
mirrors src/project4/3way-pthread/p4_pth.c:29-52 -/
def openFile (v : Version) (lines : List (List UInt8)) : Nat × Data :=
  ((lines.take v.numLines).length, fun i j => ((lines.take v.numLines).getD i []).getD j 0)

/-- `open_file` as a whole; without a file `actual_num_lines` and `data` keep
their zeros.
mirrors src/project4/3way-pthread/p4_pth.c:29-52 -/
def readFile (v : Version) : Option (List (List UInt8)) → Nat × Data
  | none => (0, fun _ _ => 0)
  | some lines => openFile v lines

/-- The string in a row, from column `j` on. -/
def cString (row : Nat → UInt8) (j : Nat) : Nat → List UInt8
  | 0 => []
  | n + 1 => if row j = 0 then [] else row j :: cString row (j + 1) n

def strlen (row : Nat → UInt8) : Nat := (cString row 0 lineLength).length

/-! ## The longest common substring -/

structure Table where
  substringLengths : Nat → Nat → Nat
  aIdxMax : Nat
  bIdxMax : Nat
  maxLength : Nat

/-- mirrors src/project4/3way-pthread/p4_pth.c:124-150 -/
def compare (a b : Nat → UInt8) (s : Table) (aIdx bIdx : Nat) : Table :=
  if a aIdx = b bIdx then
    let len := if aIdx = 0 ∨ bIdx = 0 then 1 else s.substringLengths (aIdx - 1) (bIdx - 1) + 1
    let table := update s.substringLengths aIdx (update (s.substringLengths aIdx) bIdx len)
    if len > s.maxLength then ⟨table, aIdx, bIdx, len⟩ else { s with substringLengths := table }
  else
    { s with substringLengths :=
        update s.substringLengths aIdx (update (s.substringLengths aIdx) bIdx 0) }

/-- `substring_lengths` is allocated and not cleared; `junk` is what it holds.
The index `a_idx_max - max_length + i + 1` is computed without a sign.
mirrors src/project4/3way-pthread/p4_pth.c:100-168 -/
def lcsDynamic (junk : Nat → Nat → Nat) (a : Nat → UInt8) (aSize : Nat) (b : Nat → UInt8) (bSize : Nat) :
    Nat × List UInt8 :=
  let s := forLoop 0 aSize (fun s i => forLoop 0 bSize (fun s j => compare a b s i j) s) ⟨junk, 0, 0, 0⟩
  (s.maxLength, ((List.range s.maxLength).map fun i => a (s.aIdxMax + i + 1 - s.maxLength)) ++ [0])

/-! ## The table in memory

The same function with every access checked: a cell is read only after it has
been written and inside the blocks that have been allocated, and the strings are
read inside their bounds. The numbers have the widths of x86-64, where `uint16`
is `unsigned int` and `uint32` is `unsigned long`. -/

/-- The bytes that `malloc (size * count)` asks for. -/
def request (size count : Nat) : Nat := size * count % 2 ^ 64

/-- `substring_lengths` and the variables. A cell that has not been written is
`none`. -/
structure Cells where
  cell : Nat → Nat → Option Nat
  aIdxMax : Nat
  bIdxMax : Nat
  maxLength : Nat

/-- `substring_lengths[aIdx]` is a pointer in the first block, and its cell
`bIdx` lies in the block it points to. -/
def Allocated (aSize bSize aIdx bIdx : Nat) : Prop :=
  8 * (aIdx + 1) ≤ request 8 aSize ∧ 4 * (bIdx + 1) ≤ request 4 bSize

instance (aSize bSize aIdx bIdx : Nat) : Decidable (Allocated aSize bSize aIdx bIdx) :=
  inferInstanceAs (Decidable (_ ∧ _))

def Cells.read (aSize bSize : Nat) (s : Cells) (aIdx bIdx : Nat) : Option Nat :=
  if Allocated aSize bSize aIdx bIdx then s.cell aIdx bIdx else none

def Cells.write (aSize bSize : Nat) (s : Cells) (aIdx bIdx len : Nat) : Option Cells :=
  if Allocated aSize bSize aIdx bIdx then
    some { s with cell := update s.cell aIdx (update (s.cell aIdx) bIdx (some len)) }
  else none

/-- What is stored for two equal characters.
mirrors src/project4/3way-pthread/p4_pth.c:128-136 -/
def newLength (aSize bSize : Nat) (s : Cells) (aIdx bIdx : Nat) : Option Nat :=
  if aIdx = 0 ∨ bIdx = 0 then some 1
  else (s.read aSize bSize (aIdx - 1) (bIdx - 1)).map fun n => (n + 1) % 2 ^ 32

/-- mirrors src/project4/3way-pthread/p4_pth.c:124-150 and
src/project4/longest_common_substring.c:48-75 -/
def compareIn (a b : List UInt8) (s : Cells) (aIdx bIdx : Nat) : Option Cells := do
  if (← a[aIdx]?) = (← b[bIdx]?) then
    let len ← newLength a.length b.length s aIdx bIdx
    let s ← s.write a.length b.length aIdx bIdx len
    if len > s.maxLength then some { s with maxLength := len, aIdxMax := aIdx, bIdxMax := bIdx } else some s
  else s.write a.length b.length aIdx bIdx 0

/-- Both loops over the characters.
mirrors src/project4/3way-pthread/p4_pth.c:120-151 -/
def fillIn (a b : List UInt8) : Option Cells :=
  forLoop 0 a.length (fun s i => forLoop 0 b.length (fun s j => s.bind (compareIn a b · i j)) s)
    (some ⟨fun _ _ => none, 0, 0, 0⟩)

/-- The pointers that the first loop stores fit in their block. -/
def storeRows (aSize : Nat) : Option Unit :=
  forLoop 0 aSize (fun r i => if 8 * (i + 1) ≤ request 8 aSize then r else none) (some ())

/-- `a_idx_max - max_length + i + 1` in `unsigned long`. -/
def copyIndex (aIdxMax maxLength i : Nat) : Nat := ((aIdxMax + (2 ^ 64 - maxLength)) % 2 ^ 64 + i + 1) % 2 ^ 64

/-- The bytes of `ret`; those that have not been written are `none`.
mirrors src/project4/3way-pthread/p4_pth.c:154-158 -/
def copyOut (a : List UInt8) (s : Cells) : Option (Nat → Option UInt8) :=
  (forLoop 0 s.maxLength
    (fun r i => r.bind fun ret => (a[copyIndex s.aIdxMax s.maxLength i]?).map fun c => update ret i (some c))
    (some fun _ => none)).map fun ret => update ret s.maxLength (some 0)

/-- The result and what is written to `ret`, or `none` if an access is not allowed.
mirrors src/project4/3way-pthread/p4_pth.c:100-168 and
src/project4/longest_common_substring.c:24-93 -/
def lcsDynamicIn (a b : List UInt8) : Option (Nat × (Nat → Option UInt8)) := do
  storeRows a.length
  let s ← fillIn a b
  let ret ← copyOut a s
  some (s.maxLength, ret)

/-- The text for two lines that have nothing in common. -/
def noCommon : List UInt8 :=
  "No common substring.".toList.map fun c => c.toNat.toUInt8

/-- What is stored for a line and the next; none if it does not fit in `ret`.
mirrors src/project4/3way-pthread/p4_pth.c:77-87 -/
def lineResult (junk : Nat → Nat → Nat) (data : Data) (i : Nat) : Option (List UInt8) :=
  match lcsDynamic junk (data i) (strlen (data i)) (data (i + 1)) (strlen (data (i + 1))) with
  | (len, ret) => if ret.length ≤ lineLength then some (if len > 0 then ret.takeWhile (· ≠ 0) else noCommon) else none

/-! ## The blocks -/

/-- `actual_num_lines - 1`, without a sign. -/
def lastLine (v : Version) (n : Nat) : Nat := (n + (2 ^ v.width - 1)) % 2 ^ v.width

def blockStart (per tid : Nat) : Nat := tid * per

/-- mirrors src/project4/3way-pthread/p4_pth.c:66-73 -/
def blockEnd (per last tid : Nat) : Nat :=
  let stop := blockStart per tid + per
  if stop > last then last else stop

/-! ## Indexes -/

/-- What `thandle` uses `data` and `lcs_data` with. -/
structure Accesses where
  data : List Nat
  lcsData : List Nat
  deriving DecidableEq

/-- The indexes of the loop of `thandle`.
mirrors src/project4/3way-pthread/p4_pth.c:75-88 and
src/project4/3way-openmp/p4_omp.c:77-89 -/
def accesses (start stop : Nat) : Accesses :=
  forLoop start stop (fun r i => ⟨r.data ++ [i, i + 1], r.lcsData ++ [i]⟩) ⟨[], []⟩

/-- The indexes of the loop that prints. The counter is an `int`, which is
compared without a sign; its increment stops being defined behind 2^31 - 1.
mirrors src/project4/3way-pthread/p4_pth.c:206-209 and
src/project4/3way-openmp/p4_omp.c:190-193 -/
def printIndexes (v : Version) (n : Nat) : List Nat := List.range (min (lastLine v n) (2 ^ 31))

/-! ## Threads -/

/-- Where a worker is. -/
inductive Pc
  | new
  | loop (lineNumber : Nat)
  | done
  deriving DecidableEq

structure St where
  /-- strings, empty at first -/
  lcsData : Nat → List UInt8
  pc : Nat → Pc
  /-- ghost: which worker has stored which entry -/
  log : List (Nat × Nat)

inductive Act
  | start (tid : Nat)                             -- the worker begins `thandle (tid)`
  | run (tid : Nat) (junk : Nat → Nat → Nat)      -- its next line, or the end of the loop

def numLinesPerThread (v : Version) : Nat := v.numLines / numThreads

/-- The accesses of worker `tid` when `n` lines have been read.
mirrors src/project4/3way-pthread/p4_pth.c:55-93 and
src/project4/3way-openmp/p4_omp.c:55-92 -/
def workerAccesses (v : Version) (n tid : Nat) : Accesses :=
  accesses (blockStart (numLinesPerThread v) tid) (blockEnd (numLinesPerThread v) (lastLine v n) tid)

variable (v : Version) (lines : List (List UInt8))

def stop (tid : Nat) : Nat := blockEnd (numLinesPerThread v) (lastLine v (openFile v lines).1) tid

/-- mirrors src/project4/3way-pthread/p4_pth.c:55-93,186-204 and
src/project4/3way-openmp/p4_omp.c:55-92,182-187 -/
def step (s : St) : Act → Option St
  | .start tid =>
    if tid < numThreads ∧ s.pc tid = .new then
      some { s with pc := update s.pc tid (.loop (blockStart (numLinesPerThread v) tid)) }
    else none
  | .run tid junk => match s.pc tid with
    | .loop i =>
      if i < stop v lines tid then
        (lineResult junk (openFile v lines).2 i).map fun r =>
          { lcsData := update s.lcsData i r, pc := update s.pc tid (.loop (i + 1))
            log := s.log ++ [(tid, i)] }
      else some { s with pc := update s.pc tid .done }
    | .new | .done => none

def machine : Machine St Act where
  init s := s = ⟨fun _ => [], fun _ => .new, []⟩
  step := step v lines

def Finished (s : St) : Prop := ∀ tid < numThreads, s.pc tid = .done

instance (s : St) : Decidable (Finished s) := inferInstanceAs (Decidable (∀ tid < numThreads, s.pc tid = .done))

/-- The lines that are printed after the timing: two numbers and the entry.
mirrors src/project4/3way-pthread/p4_pth.c:206-209 -/
def printed (n : Nat) (lcsData : Nat → List UInt8) : List (Nat × Nat × List UInt8) :=
  (List.range (lastLine v n)).map fun i => (i, i + 1, lcsData i)

/-- The loop of `thandle` in one thread; `junk i` is what the table of line `i` holds at first. -/
def lineLoop (data : Data) (junk : Nat → Nat → Nat → Nat) (start stop : Nat) : Option (Nat → List UInt8) :=
  forLoop start stop (fun r i => r.bind fun d => (lineResult (junk i) data i).map (update d i))
    (some fun _ => [])

/-- The loop over all lines. -/
def sequential (junk : Nat → Nat → Nat → Nat) : Option (Nat → List UInt8) :=
  lineLoop (openFile v lines).2 junk 0 (lastLine v (openFile v lines).1)

/-! ## Ranks -/

/-- `MPI_Bcast` replaces the first bytes of `data` by those of rank 0. -/
def bcast (count : Nat) (root mine : Data) : Data := fun i j =>
  if i * lineLength + j < count then root i j else mine i j

/-- `lcs_data` of a rank after `thandle`; all ranks read the same file.
mirrors src/project4/3way-mpi/p4_mpi.c:55-94,174-189 -/
def rankResult (junk : Nat → Nat → Nat → Nat) (processNum rank : Nat) : Option (Nat → List UInt8) :=
  let (n, data) := openFile mpi lines
  let per := mpi.numLines / processNum
  lineLoop (bcast per data data) junk (blockStart per rank) (blockEnd per (lastLine mpi n) rank)

/-- mirrors src/project4/3way-mpi/p4_mpi.c:192-195 -/
def rankPrinted (junk : Nat → Nat → Nat → Nat) (processNum rank : Nat) : Option (List (Nat × Nat × List UInt8)) :=
  (rankResult lines junk processNum rank).map (printed mpi (openFile mpi lines).1)

end Pintos.Lcs
