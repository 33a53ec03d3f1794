import Pintos.Core.Machine
import Pintos.L2Code.Synch

/-!
# The scheduler of threads/thread.c

Threads are known by the page of their `struct thread`. The machine starts when
`thread_start` enables interrupts: the initial thread runs, and the thread for
`idle` is created and has not run. The running thread is `cpu`; the actions are
its calls, its way through a call that it is in, and what interrupt handlers
do in its time. What runs with interrupts off is one action, so the states of
the machine are those between two operations. While the running thread is
inside `sema_down` interrupts are off, and nothing else happens.

Ghost: `log` records what happens to the threads.
-/
namespace Pintos.Sched

open Pintos.Core Pintos.Synch Function

/-- mirrors threads/thread.h:11-17 -/
inductive Status
  | running
  | ready
  | blocked
  | dying
  deriving DecidableEq

/-- What a thread is doing. The last three are the steps of `idle`. -/
inductive Pc (τ ι : Type)
  | user
  | block              -- has called `thread_block` itself
  | down (m : ι)       -- is in `sema_down`
  | new                -- initialized, not yet unblocked by its creator
  | create (t : τ)     -- is in `thread_create`, before `thread_unblock (t)`
  | idleStart          -- before it sets `idle_thread`
  | idleUp             -- before `sema_up (idle_started)`
  | idleLoop
  deriving DecidableEq

inductive Ev (τ : Type)
  | ready (t : τ)
  | dispatch (t : τ)
  | exit (t : τ)
  | switch (prev next : τ)
  | free (prev cur : τ)      -- the page of `prev` is freed, on the stack of `cur`
  deriving DecidableEq

/-- The threads that `thread_init` and `thread_start` make. -/
structure Boot (τ ι : Type) where
  initial : τ
  idle : τ
  idleStarted : ι
  distinct : initial ≠ idle

structure St (τ ι : Type) where
  /-- none if there is no thread in the page -/
  status : τ → Option Status
  readyList : List τ
  idleThread : Option τ
  cpu : τ
  sema : ι → Sema τ
  pc : τ → Pc τ ι
  log : List (Ev τ)

inductive Act (τ ι : Type)
  | create (t : τ)     -- `thread_create` up to `init_thread`, in the page `t`
  | block
  | unblock (t : τ)    -- also by a handler
  | yield              -- also when an interrupt returns
  | exit
  | down (m : ι)
  | up (m : ι)         -- also by a handler
  | run                -- the next step of the call it is in

variable {τ ι : Type} [DecidableEq τ] [DecidableEq ι]

/-- Where the thread goes on when it is unblocked. -/
def Pc.returned : Pc τ ι → Pc τ ι
  | .block | .new => .user
  | p => p

/-- mirrors threads/thread.c:240-252 -/
def threadUnblock (s : St τ ι) (t : τ) : Option (St τ ι) :=
  if s.status t = some .blocked then
    some { s with readyList := s.readyList ++ [t], status := update s.status t (some .ready)
                  pc := update s.pc t (s.pc t).returned, log := s.log ++ [.ready t] }
  else none

/-- mirrors threads/thread.c:505-512 -/
def nextThreadToRun (s : St τ ι) : Option τ × List τ :=
  match s.readyList with
  | [] => (s.idleThread, [])
  | t :: rest => (some t, rest)

/-- `cpu` is already the new thread.
mirrors threads/thread.c:530-559 -/
def threadScheduleTail (b : Boot τ ι) (s : St τ ι) (prev : Option τ) : St τ ι :=
  let s := { s with status := update s.status s.cpu (some .running), log := s.log ++ [.dispatch s.cpu] }
  match prev with
  | some p =>
    if s.status p = some .dying ∧ p ≠ b.initial then
      { s with status := update s.status p none, log := s.log ++ [.free p s.cpu] }
    else s
  | none => s

/-- None if the assertion on `next` fails.
mirrors threads/thread.c:568-582 -/
def schedule (b : Boot τ ι) (s : St τ ι) : Option (St τ ι) :=
  match nextThreadToRun s with
  | (none, _) => none
  | (some next, rest) =>
    if s.status next = none then none
    else if next = s.cpu then some (threadScheduleTail b { s with readyList := rest } none)
    else some (threadScheduleTail b { s with readyList := rest, cpu := next, log := s.log ++ [.switch s.cpu next] }
      (some s.cpu))

/-- mirrors threads/thread.c:221-229 -/
def threadBlock (b : Boot τ ι) (s : St τ ι) : Option (St τ ι) :=
  schedule b { s with status := update s.status s.cpu (some .blocked) }

/-- mirrors threads/thread.c:311-325 -/
def threadYield (b : Boot τ ι) (s : St τ ι) : Option (St τ ι) :=
  schedule b { s with readyList := if s.idleThread = some s.cpu then s.readyList else s.readyList ++ [s.cpu]
                      status := update s.status s.cpu (some .ready), log := s.log ++ [.ready s.cpu] }

/-- From `intr_disable` on; the list of all threads is not kept here.
mirrors threads/thread.c:302-306 -/
def threadExit (b : Boot τ ι) (s : St τ ι) : Option (St τ ι) :=
  schedule b { s with status := update s.status s.cpu (some .dying), log := s.log ++ [.exit s.cpu] }

/-- One test of the loop in `sema_down`.
mirrors threads/synch.c:68-75 -/
def downTest (b : Boot τ ι) (s : St τ ι) (m : ι) : Option (St τ ι) :=
  match semaDown (s.sema m) s.cpu with
  | (x, true) => some { s with sema := update s.sema m x, pc := update s.pc s.cpu .user }
  | (x, false) =>
    threadBlock b { s with sema := update s.sema m x, pc := update s.pc s.cpu (.down m) }

/-- mirrors threads/synch.c:108-121 -/
def up (s : St τ ι) (m : ι) : Option (St τ ι) :=
  match semaUp (s.sema m) with
  | (x, some t) => threadUnblock { s with sema := update s.sema m x } t
  | (x, none) => some { s with sema := update s.sema m x }

/-- The running thread is not in the section of `sema_down` with interrupts off. -/
def St.open (s : St τ ι) : Bool :=
  match s.pc s.cpu with
  | .down _ => false
  | _ => true

/-- mirrors threads/thread.c:209-211,406-425 -/
def run (b : Boot τ ι) (s : St τ ι) : Option (St τ ι) :=
  match s.pc s.cpu with
  | .create t => threadUnblock { s with pc := update s.pc s.cpu .user } t
  | .down m => downTest b s m
  | .idleStart => some { s with idleThread := some s.cpu, pc := update s.pc s.cpu .idleUp }
  | .idleUp => up { s with pc := update s.pc s.cpu .idleLoop } b.idleStarted
  | .idleLoop => threadBlock b s
  | .user | .block | .new => none

/-- Calls are made by a running thread that is in none. -/
def step (b : Boot τ ι) (s : St τ ι) : Act τ ι → Option (St τ ι)
  | .create t =>
    if s.pc s.cpu = .user ∧ s.status t = none then
      some { s with status := update s.status t (some .blocked)
                    pc := update (update s.pc s.cpu (.create t)) t .new }
    else none
  | .block => if s.pc s.cpu = .user then threadBlock b { s with pc := update s.pc s.cpu .block } else none
  | .unblock t => if s.open then threadUnblock s t else none
  | .yield => if s.open then threadYield b s else none
  | .exit => if s.pc s.cpu = .user then threadExit b s else none
  | .down m => if s.pc s.cpu = .user then downTest b s m else none
  | .up m => if s.open then up s m else none
  | .run => run b s

/-- The state at `intr_enable` in `thread_start`.
mirrors threads/thread.c:90-120 -/
def boot (b : Boot τ ι) (value : ι → Nat) : St τ ι where
  status t := if t = b.initial then some .running else if t = b.idle then some .ready else none
  readyList := [b.idle]
  idleThread := none
  cpu := b.initial
  sema m := semaInit (value m)
  pc t := if t = b.idle then .idleStart else .user
  log := [.ready b.idle]

/-- The semaphores start with any values. -/
def machine (b : Boot τ ι) : Machine (St τ ι) (Act τ ι) where
  init s := ∃ value, s = boot b value
  step := step b

end Pintos.Sched
