import Pintos.Core.Bytes

/-!
# devices/partition.c: scanning a disk for partitions

`read_partition_table` follows the extended partition entries of a partition
table. Every call keeps a buffer for one sector from `malloc` until it
returns, so the recursion is as deep as there is memory: `mem` is the number
of buffers that `malloc` can still give, and `none` is the `PANIC` when there
is none left.

What the scan does is recorded in a `Log`: the calls of `found_partition` and
the messages printed. What `found_partition` does with a partition is not
modelled.
-/
namespace Pintos.Partition

open Pintos.Core

/-- A block device: the number of its sectors, a `block_sector_t`, and their
bytes. -/
structure Block where
  size : Nat
  data : Nat → Nat → UInt8
  size_lt : size < 2 ^ 32

/-- mirrors devices/partition.c:54-63, the members that are used -/
structure Entry where
  type : UInt8
  offset : Nat
  size : Nat

/-- The entry at byte `o` of a sector. -/
def Entry.decode (b : Nat → UInt8) (o : Nat) : Entry := ⟨b (o + 4), wordAt b (o + 8), wordAt b (o + 12)⟩

/-- mirrors devices/partition.c:66-72 -/
structure Table where
  partitions : List Entry
  signature : Nat

/-- `block_read (block, sector, pt)`. -/
def Block.read (d : Block) (sector : Nat) : Table where
  partitions := (List.range 4).map fun i => .decode (d.data sector) (446 + 16 * i)
  signature := (d.data sector 510).toNat + (d.data sector 511).toNat * 256

def Entry.empty (e : Entry) : Bool := e.size = 0 || e.type = 0

def Entry.extended (e : Entry) : Bool := e.type = 0x05 || e.type = 0x0f || e.type = 0x85 || e.type = 0xc5

/-! ## What the scan does -/

/-- The arguments of a call of `found_partition`. -/
structure Found where
  type : UInt8
  start : Nat
  size : Nat
  partNr : Nat
  deriving DecidableEq

inductive Msg where
  | pastEnd (sector : Nat)
  | invalidTable
  | invalidExtended (sector : Nat)
  | extendedIn (sector : Nat)
  | noPartitions

structure Log where
  partNr : Nat
  found : List Found
  printed : List Msg

def Log.empty : Log := ⟨0, [], []⟩

def Log.print (log : Log) (m : Msg) : Log := { log with printed := log.printed ++ [m] }

/-- `++*part_nr; found_partition (block, type, start, size, *part_nr);` -/
def Log.foundPartition (log : Log) (type : UInt8) (start size : Nat) : Log :=
  { log with partNr := log.partNr + 1, found := log.found ++ [⟨type, start, size, log.partNr + 1⟩] }

/-! ## The scan -/

/-- One entry of the table that is scanned as that of `sector`; `read` is the
recursive call.
mirrors devices/partition.c:107-142 -/
def scanEntry (read : Nat → Nat → Log → Option Log) (sector primary : Nat) (e : Entry) (log : Log) : Option Log :=
  if e.empty then some log
  else if e.extended then
    if sector = 0 then read e.offset e.offset (log.print (.extendedIn sector))
    else read ((e.offset + primary) % 2 ^ 32) primary (log.print (.extendedIn sector))
  else some (log.foundPartition e.type ((e.offset + sector) % 2 ^ 32) e.size)

/-- The loop over the entries. -/
def scanEntries (read : Nat → Nat → Log → Option Log) (sector primary : Nat) : List Entry → Log → Option Log
  | [], log => some log
  | e :: es, log => do
    let log ← scanEntry read sector primary e log
    scanEntries read sector primary es log

/-- The sector that is read is always sector 0 (line 91).
mirrors devices/partition.c:49-146 -/
def readPartitionTable (d : Block) : Nat → Nat → Nat → Log → Option Log
  | 0, sector, _, log => if d.size ≤ sector then some (log.print (.pastEnd sector)) else none
  | mem + 1, sector, primary, log =>
    if d.size ≤ sector then some (log.print (.pastEnd sector))
    else
      let pt := d.read 0
      if pt.signature ≠ 0xaa55 then
        some (log.print (if primary = 0 then .invalidTable else .invalidExtended sector))
      else scanEntries (readPartitionTable d mem) sector primary pt.partitions log

/-- mirrors devices/partition.c:27-34 -/
def partitionScan (d : Block) (mem : Nat) : Option Log := do
  let log ← readPartitionTable d mem 0 0 .empty
  if log.partNr = 0 then some (log.print .noPartitions) else some log

end Pintos.Partition
