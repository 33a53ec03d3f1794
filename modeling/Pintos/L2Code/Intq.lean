import Pintos.Core.Machine
import Pintos.L2Code.Synch

/-!
# The interrupt queue of devices/intq.c

Any number of kernel threads call `intq_getc` and `intq_putc`, and interrupt
handlers call them when the queue is not empty or not full. Interrupts are off
in these functions, so another thread or a handler runs only while the caller
sleeps: in `lock_acquire`, or in the `thread_block` of `wait`. Everything
between two such points is one step.

A failed assertion stops the machine: the state is then the assertion.
-/
namespace Pintos.Intq

open Pintos.Core Pintos.Synch Function

def intqBufsize : Nat := 64

/-- A call of `intq_getc` or `intq_putc`. -/
inductive Op
  | getc
  | putc (byte : UInt8)

/-- The member of `struct intq` that `wait` and `signal` are given. -/
inductive Waiter
  | notEmpty
  | notFull
  deriving DecidableEq

/-- Where a thread sleeps, if it does. -/
inductive Pc
  | active
  | acquire (op : Op)         -- queued in the `sema_down` of `lock_acquire`
  | acquireReady (op : Op)    -- unblocked there and not yet running
  | wait (op : Op)            -- blocked in `wait`, with the lock
  | waitReady (op : Op)       -- unblocked there and not yet running

/-- mirrors devices/intq.h:24-35 -/
structure St (τ : Type) where
  sema : Sema τ               -- of `lock`
  holder : Option τ           -- of `lock`
  waiter : Waiter → Option τ
  buf : Nat → UInt8
  head : Nat
  tail : Nat
  pc : τ → Pc
  /-- what the last `intq_getc` of a thread returned -/
  byte : τ → UInt8

/-- The assertions that can be reached. -/
inductive Assertion
  | wait           -- the condition in `wait`
  | signal         -- the condition in `signal`
  | unblock        -- `thread_unblock` of a thread that is not blocked
  | acquire        -- `lock_acquire` by the holder
  | release        -- `lock_release` by another thread

variable {τ : Type}

/-- mirrors devices/intq.c:79-83 -/
def next (pos : Nat) : Nat := (pos + 1) % intqBufsize

/-- mirrors devices/intq.c:19-24 -/
def intqEmpty (s : St τ) : Bool := s.head == s.tail

/-- mirrors devices/intq.c:27-32 -/
def intqFull (s : St τ) : Bool := next s.head == s.tail

/-- The condition for which a thread waits in this member. -/
def St.blocks (s : St τ) : Waiter → Bool
  | .notEmpty => intqEmpty s
  | .notFull => intqFull s

def Op.waiter : Op → Waiter
  | .getc => .notEmpty
  | .putc _ => .notFull

variable [DecidableEq τ]

def St.setPc (s : St τ) (t : τ) (p : Pc) : St τ := { s with pc := update s.pc t p }

def St.setWaiter (s : St τ) (w : Waiter) (x : Option τ) : St τ := { s with waiter := update s.waiter w x }

/-- mirrors threads/thread.c:241-254 -/
def threadUnblock (s : St τ) (t : τ) : Except Assertion (St τ) :=
  match s.pc t with
  | .acquire op => .ok (s.setPc t (.acquireReady op))
  | .wait op => .ok (s.setPc t (.waitReady op))
  | .active | .acquireReady _ | .waitReady _ => .error .unblock

/-- mirrors devices/intq.c:87-97 -/
def wait (s : St τ) (t : τ) (op : Op) : Except Assertion (St τ) :=
  if s.blocks op.waiter then .ok ((s.setWaiter op.waiter (some t)).setPc t (.wait op)) else .error .wait

/-- mirrors devices/intq.c:103-114 -/
def signal (s : St τ) (w : Waiter) : Except Assertion (St τ) :=
  if s.blocks w then .error .signal
  else match s.waiter w with
    | some t => (threadUnblock s t).map fun s => s.setWaiter w none
    | none => .ok s

/-- One test of the `sema_down` in `lock_acquire`, and `wait` behind it.
mirrors threads/synch.c:192-201 and devices/intq.c:46-48 -/
def lockDown (s : St τ) (t : τ) (op : Op) : Except Assertion (St τ) :=
  match semaDown s.sema t with
  | (m, true) => wait { s with sema := m, holder := some t } t op
  | (m, false) => .ok ({ s with sema := m }.setPc t (.acquire op))

def lockAcquire (s : St τ) (t : τ) (op : Op) : Except Assertion (St τ) :=
  if s.holder = some t then .error .acquire else lockDown s t op

/-- mirrors threads/synch.c:228-236 -/
def lockRelease (s : St τ) (t : τ) : Except Assertion (St τ) :=
  if s.holder = some t then
    match semaUp s.sema with
    | (m, some u) => threadUnblock { s with holder := none, sema := m } u
    | (m, none) => .ok { s with holder := none, sema := m }
  else .error .release

/-- The byte that `intq_getc` returns.
mirrors devices/intq.c:52 -/
def St.read (s : St τ) (t : τ) : Op → St τ
  | .getc => { s with byte := update s.byte t (s.buf s.tail) }
  | .putc _ => s

/-- What follows the loop.
mirrors devices/intq.c:53-54,72-74 -/
def transfer (s : St τ) : Op → Except Assertion (St τ)
  | .getc => signal { s with tail := next s.tail } .notFull
  | .putc byte => signal { s with buf := update s.buf s.head byte, head := next s.head } .notEmpty

/-- The loop of `intq_getc` and `intq_putc` from its test on.
mirrors devices/intq.c:38-75 -/
def loop (s : St τ) (t : τ) (op : Op) : Except Assertion (St τ) :=
  if s.blocks op.waiter then lockAcquire s t op
  else transfer (s.read t op) op

/-- The thread goes on where it slept.
mirrors devices/intq.c:46-50 -/
def resume (s : St τ) (t : τ) : Option (Except Assertion (St τ)) :=
  match s.pc t with
  | .acquireReady op => some (lockDown s t op)
  | .waitReady op => some ((lockRelease (s.setPc t .active) t).bind fun s => loop s t op)
  | .active | .acquire _ | .wait _ => none

inductive Act (τ : Type)
  | call (t : τ) (op : Op)
  | run (t : τ)
  | handler (op : Op)         -- an interrupt handler that has tested the queue

def step : Except Assertion (St τ) → Act τ → Option (Except Assertion (St τ))
  | .ok s, .call t op => match s.pc t with
    | .active => some (loop s t op)
    | _ => none
  | .ok s, .run t => resume s t
  | .ok s, .handler op => if s.blocks op.waiter then none else some (transfer s op)
  | .error _, _ => none

/-- mirrors devices/intq.c:10-16 -/
def intqInit (τ : Type) : St τ :=
  ⟨semaInit 1, none, fun _ => none, fun _ => 0, 0, 0, fun _ => .active, fun _ => 0⟩

def machine (τ : Type) [DecidableEq τ] : Machine (Except Assertion (St τ)) (Act τ) where
  init s := s = .ok (intqInit τ)
  step := step

end Pintos.Intq
