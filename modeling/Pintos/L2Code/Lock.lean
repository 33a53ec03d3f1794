import Pintos.Core.Machine
import Pintos.L2Code.Synch

/-!
# Locks of threads/synch.c

One lock and any number of threads that call `lock_acquire`,
`lock_try_acquire` and `lock_release`, with a switch between any two atomic
steps: the operations of the inner semaphore are atomic, the stores to
`holder` are steps of their own. `got` and `cleared` are the windows in which
the lock is taken and `holder` is null.
-/
namespace Pintos.Lock

open Pintos.Core Pintos.Synch

/-- Where a thread is with respect to the lock.
mirrors threads/synch.c:192-236 -/
inductive Pc
  | out
  | enter        -- in `lock_acquire`, before `sema_down`
  | tryEnter     -- in `lock_try_acquire`, before `sema_try_down`
  | blocked      -- in `sema_down`, queued
  | woken        -- in `sema_down`, unblocked and not yet running
  | got          -- has decremented the semaphore, `holder` not stored yet
  | held         -- the acquire has stored `holder` and returned
  | leave        -- in `lock_release`, before `holder` is cleared
  | cleared      -- in `lock_release`, before `sema_up`
  | failed       -- an assertion failed
  deriving DecidableEq

/-- mirrors threads/synch.h:21-25 -/
structure St (τ : Type) where
  sema : Sema τ
  holder : Option τ
  pc : τ → Pc

/-- The steps of the thread `t`. -/
inductive Act (τ : Type)
  | acquire (t : τ)
  | tryAcquire (t : τ)
  | release (t : τ)
  | run (t : τ)          -- the next step of the function it is in

/-- The thread that takes the step. -/
def Act.thread {τ : Type} : Act τ → τ
  | acquire t | tryAcquire t | release t | run t => t

variable {τ : Type} [DecidableEq τ]

def St.setPc (s : St τ) (t : τ) (p : Pc) : St τ := { s with pc := Function.update s.pc t p }

/-- mirrors threads/synch.c:241-247 -/
def lockHeldByCurrentThread (s : St τ) (t : τ) : Bool := decide (s.holder = some t)

/-- One test of `sema_down`. -/
def St.down (s : St τ) (t : τ) : St τ :=
  match semaDown s.sema t with
  | (sema, true) => { s with sema := sema }.setPc t .got
  | (sema, false) => { s with sema := sema }.setPc t .blocked

def St.tryDown (s : St τ) (t : τ) : St τ :=
  match semaTryDown s.sema with
  | (sema, true) => { s with sema := sema }.setPc t .got
  | (sema, false) => { s with sema := sema }.setPc t .out

def St.up (s : St τ) (t : τ) : St τ :=
  match semaUp s.sema with
  | (sema, some w) => ({ s with sema := sema }.setPc t .out).setPc w .woken
  | (sema, none) => { s with sema := sema }.setPc t .out

/-- The next step of a thread inside one of the functions.
mirrors threads/synch.c:192-236 -/
def St.run (s : St τ) (t : τ) : Option (St τ) :=
  match s.pc t with
  | .enter | .woken => some (s.down t)
  | .tryEnter => some (s.tryDown t)
  | .got => some ({ s with holder := some t }.setPc t .held)
  | .leave => some ({ s with holder := none }.setPc t .cleared)
  | .cleared => some (s.up t)
  | _ => none

/-- The calls start with the assertion on `lock_held_by_current_thread`. A
thread that has the lock does not call an acquire function, one that has not
does not release. -/
def step (s : St τ) : Act τ → Option (St τ)
  | .acquire t =>
    if s.pc t = .out then some (s.setPc t (if lockHeldByCurrentThread s t then .failed else .enter)) else none
  | .tryAcquire t =>
    if s.pc t = .out then some (s.setPc t (if lockHeldByCurrentThread s t then .failed else .tryEnter)) else none
  | .release t =>
    if s.pc t = .held then some (s.setPc t (if lockHeldByCurrentThread s t then .leave else .failed)) else none
  | .run t => s.run t

/-- mirrors threads/synch.c:175-182 -/
def lockInit (τ : Type) : St τ := ⟨semaInit 1, none, fun _ => .out⟩

def machine (τ : Type) [DecidableEq τ] : Machine (St τ) (Act τ) where
  init s := s = lockInit τ
  step := step

end Pintos.Lock
