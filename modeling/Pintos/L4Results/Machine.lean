import Pintos.L3Proof.SystemSpec

/-!
# Machines to start from

The machine right after boot as a function of its size and its disk, and how
a list of moves gives a run from it. `smallProgram` is an executable without
segments: a process that runs it has its initial stack page and nothing else.
-/
namespace Pintos.Vm

open Pintos.Core

/-- The machine after boot with `frameCnt` frames, `slots` swap slots, the
files `disk` and the directory `dir`. -/
def bootSt (frameCnt slots : Nat) (disk : InodeId → Inode) (dir : List Byte → Option InodeId) : St where
  frameCnt := frameCnt
  frames _ := none
  ram _ _ := 0
  hand := 0
  locks _ := none
  pages _ := none
  pagedirs _ := none
  tables _ := none
  procs _ := .init
  files _ := none
  inodes i := { disk i with openCnt := 0, denyWriteCnt := 0 }
  dir := dir
  swapSize := slots * pageSectors
  swapUsed _ := false
  swapDisk _ _ := 0
  kmem _ := 0
  kdirty _ := false

theorem bootSt_boot (frameCnt slots : Nat) (disk : InodeId → Inode) (dir : List Byte → Option InodeId) :
    Boot (bootSt frameCnt slots disk dir) := by
  constructor <;> intros <;> first | rfl | exact ⟨rfl, rfl⟩

/-- Process `t` starts request `r` and performs one action per element of `es`. -/
def script (t : Tid) (r : Req) (es : List (Option Nat)) : List (Move kernel) :=
  .start t r :: es.map (.run t)

/-- Allocations return `n`, `n + 1`, and so on. -/
def fresh (n k : Nat) : List (Option Nat) := (List.range k).map fun i => some (n + i)

/-- The moves `ms` give a run, and `chk` holds at its end. -/
theorem exists_run (ok : Tid → Lbl → Option Nat → St → Prop) [∀ t l e s, Decidable (ok t l e s)] (s : St)
    (ms : List (Move kernel)) (chk : Config kernel → Bool)
    (h : (kernel.exec ok (kernel.idle s .init) ms).any chk = true) : ∃ c, RunsOk ok s c ∧ chk c = true := by
  obtain ⟨c, hc, hchk⟩ := (Option.any_eq_true _ _).1 h
  exact ⟨c, System.reach_exec .init ms hc, hchk⟩

theorem exists_reachable (s : St) (ms : List (Move kernel)) (chk : Config kernel → Bool)
    (h : (kernel.exec (fun _ _ _ _ => True) (kernel.idle s .init) ms).any chk = true) :
    ∃ c, kernel.Reachable (kernel.idle s .init) c ∧ chk c = true :=
  exists_run _ s ms chk h

/-- The header of an executable without program headers. -/
def smallHeader : List Byte :=
  [0x7f, 0x45, 0x4c, 0x46, 1, 1, 1, 0, 0, 0, 0, 0, 0, 0, 0, 0, 2, 0, 3, 0, 1, 0, 0, 0,
   0, 0, 0, 0, 52, 0, 0, 0, 0, 0, 0, 0, 0, 0, 0, 0, 52, 0, 32, 0, 0, 0, 0, 0, 0, 0, 0, 0]

def smallProgram : Inode := ⟨52, fun o => smallHeader.getD o 0, 0, 0, by decide⟩

/-- A machine with one file, the program `"a"`. -/
def smallMachine (frameCnt slots : Nat) : St :=
  bootSt frameCnt slots (fun _ => smallProgram) fun name => if name = [0x61] then some 0 else none

theorem smallMachine_boot (frameCnt slots : Nat) : Boot (smallMachine frameCnt slots) := bootSt_boot ..

/-- Process `t` runs the program `"a"`. -/
def startSmall (t : Tid) : List (Move kernel) := script t (.exec [0x61]) (fresh 0 24)

end Pintos.Vm
