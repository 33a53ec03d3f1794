import Pintos.L2Code.Lock

/-!
# One ATA channel of devices/ide.c

Any number of threads call `ide_read` and `ide_write` on the disks of one
channel, and the interrupt of the channel arrives when it likes. The channel
lock is the machine of `Pintos.L2Code.Lock`. `ide_init` has set the channel
up; whether `expecting_interrupt` is true by then depends on whether it has
found a disk to identify.

A `PANIC` because `wait_while_busy` reports an error halts the machine.

Ghost: each command gets a number when it is written to the command register
and is `outstanding` until the next interrupt; `log` records what happened to
which command.
-/
namespace Pintos.Ide

open Pintos.Core Pintos.Synch

/-- Ghost: what happens on the channel. -/
inductive Ev
  | issued (n : Nat)
  | interrupt (n : Nat)      -- an interrupt while the command is outstanding
  | stray                    -- an interrupt while none is, taken for an expected one
  | unexpected               -- an interrupt reported as unexpected
  | returned (n : Nat)       -- the `sema_down` behind the command returns
  deriving DecidableEq

inductive Op
  | read
  | write
  deriving DecidableEq

/-- Where a thread is in `ide_read` or `ide_write`.
mirrors devices/ide.c:344-377 -/
inductive Pc
  | user
  | acquire (op : Op)        -- in `lock_acquire`
  | select (op : Op)         -- in `select_sector`
  | command (op : Op)        -- has set `expecting_interrupt`, before the `outb`
  | output                   -- in the `wait_while_busy` of `ide_write`
  | down (op : Op)           -- before `sema_down`
  | blocked (op : Op)        -- in `sema_down`, queued
  | woken (op : Op)          -- in `sema_down`, unblocked and not yet running
  | input                    -- in the `wait_while_busy` of `ide_read`
  | release                  -- in `lock_release`
  deriving DecidableEq

/-- mirrors devices/ide.c:64-77 -/
structure St (τ : Type) where
  lock : Lock.St τ
  expecting : Bool
  completion : Sema τ
  pc : τ → Pc
  halted : Bool
  /-- ghost: the commands so far, the outstanding one, and the last one of each thread -/
  issued : Nat
  outstanding : Option Nat
  cmd : τ → Nat
  log : List Ev

inductive Act (τ : Type)
  | call (t : τ) (op : Op)
  | run (t : τ) (drq : Bool)     -- the next step of the thread, and what `wait_while_busy` would return
  | interrupt

variable {τ : Type} [DecidableEq τ]

def St.setPc (s : St τ) (t : τ) (p : Pc) : St τ := { s with pc := Function.update s.pc t p }

def St.lockStep (s : St τ) (a : Lock.Act τ) : Option (St τ) := (Lock.step s.lock a).map fun l => { s with lock := l }

def St.record (s : St τ) (e : Ev) : St τ := { s with log := s.log ++ [e] }

/-- What follows the command: `ide_read` waits, `ide_write` sends the data first. -/
def Op.next : Op → Pc
  | .read => .down .read
  | .write => .output

/-- What follows the `sema_down`. -/
def Op.after : Op → Pc
  | .read => .input
  | .write => .release

/-- The `outb` to the command register.
mirrors devices/ide.c:413-414 -/
def St.issue (s : St τ) (t : τ) (op : Op) : St τ :=
  { s with issued := s.issued + 1, outstanding := some s.issued, cmd := Function.update s.cmd t s.issued,
           log := s.log ++ [Ev.issued s.issued] }.setPc t op.next

/-- One test of `sema_down (&c->completion_wait)`. -/
def St.test (s : St τ) (t : τ) (op : Op) : St τ :=
  match semaDown s.completion t with
  | (m, true) => ({ s with completion := m }.record (.returned (s.cmd t))).setPc t op.after
  | (m, false) => { s with completion := m }.setPc t (.blocked op)

/-- The thread that `sema_up` unblocks. -/
def St.wake (s : St τ) (t : τ) : St τ :=
  match s.pc t with
  | .blocked op => s.setPc t (.woken op)
  | _ => s

/-- `sema_up (&c->completion_wait)`. -/
def St.up (s : St τ) : St τ :=
  match semaUp s.completion with
  | (m, some w) => { s with completion := m }.wake w
  | (m, none) => { s with completion := m }

/-- Ghost: the device has answered the outstanding command. -/
def St.answer (s : St τ) : St τ :=
  match s.outstanding with
  | some n => { s with outstanding := none }.record (.interrupt n)
  | none => s.record .stray

/-- mirrors devices/ide.c:505-525 -/
def St.interruptHandler (s : St τ) : St τ :=
  if s.expecting then s.answer.up else s.record .unexpected

/-- mirrors devices/ide.c:344-377 and 404-415 -/
def St.run (s : St τ) (t : τ) (drq : Bool) : Option (St τ) :=
  match s.pc t with
  | .acquire op =>
    if s.lock.pc t = .held then some (s.setPc t (.select op))
    else s.lockStep (if s.lock.pc t = .out then .acquire t else .run t)
  | .select op => some ({ s with expecting := true }.setPc t (.command op))
  | .command op => some (s.issue t op)
  | .output => some (if drq then s.setPc t (.down .write) else { s with halted := true })
  | .down op | .woken op => some (s.test t op)
  | .input => some (if drq then s.setPc t .release else { s with halted := true })
  | .release =>
    if s.lock.pc t = .out then some (s.setPc t .user)
    else s.lockStep (if s.lock.pc t = .held then .release t else .run t)
  | .user | .blocked _ => none

def step (s : St τ) (a : Act τ) : Option (St τ) :=
  if s.halted then none else match a with
    | .call t op => if s.pc t = .user then some (s.setPc t (.acquire op)) else none
    | .run t drq => s.run t drq
    | .interrupt => some s.interruptHandler

/-- The channel as `ide_init` leaves it.
mirrors devices/ide.c:126-128 -/
def channel (τ : Type) (expecting : Bool) : St τ :=
  ⟨Lock.lockInit τ, expecting, semaInit 0, fun _ => .user, false, 0, none, fun _ => 0, []⟩

def machine (τ : Type) [DecidableEq τ] : Machine (St τ) (Act τ) where
  init s := ∃ e, s = channel τ e
  step := step

end Pintos.Ide
