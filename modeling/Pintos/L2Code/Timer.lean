import Pintos.Core.Machine
import Pintos.L2Code.Synch

/-!
# The alarm clock of devices/timer.c

Any number of threads call `timer_sleep`; timer interrupts come between any
two of their steps. What runs with interrupts off is one step: reading the
tick count, the insertion into `wait_list`, each test of `sema_down`, and the
whole interrupt handler. `thread_tick` of the handler only asks for a switch on
return and is left out.

Ghost: `count` is the number of interrupts so far, and `call t` has the count
and the argument of the last call by `t`.
-/
namespace Pintos.Timer

open Pintos.Core Pintos.Synch Function

/-- `int64_t` arithmetic, in two's complement. -/
def wrap64 (x : Int) : Int := (x + 2 ^ 63) % 2 ^ 64 - 2 ^ 63

def InInt64 (x : Int) : Prop := -2 ^ 63 ≤ x ∧ x < 2 ^ 63

instance (x : Int) : Decidable (InInt64 x) := inferInstanceAs (Decidable (_ ∧ _))

/-- Where a thread is in `timer_sleep`.
mirrors devices/timer.c:106-123 -/
inductive Pc
  | user
  | read (now : Int)    -- has read the tick count
  | stored              -- has stored `wakeup_time`
  | inserted            -- is past the insertion into `wait_list`
  | blocked             -- in `sema_down`, queued
  | woken               -- in `sema_down`, unblocked and not yet running
  deriving DecidableEq

/-- Ghost: a call of `timer_sleep (n)` when `count` interrupts had come. -/
structure Call where
  count : Nat
  n : Int

structure St (τ : Type) where
  ticks : Int
  waitList : List τ
  wakeupTime : τ → Int
  timerSema : τ → Sema τ
  pc : τ → Pc
  count : Nat
  call : τ → Call

inductive Act (τ : Type)
  | sleep (t : τ) (n : Int)    -- `t` calls `timer_sleep (n)` and reads the tick count
  | run (t : τ)
  | interrupt

variable {τ : Type} [DecidableEq τ]

/-- mirrors lib/kernel/list.c:445-459 -/
def listInsertOrdered (less : τ → τ → Bool) (elem : τ) (list : List τ) : List τ :=
  list.orderedInsert (fun a b => less a b) elem

/-- mirrors devices/timer.c:92-102 -/
def compareThreadsByWakeupTime (wakeupTime : τ → Int) (a b : τ) : Bool := wakeupTime a < wakeupTime b

/-- One test of `sema_down (&t->timer_sema)`.
mirrors devices/timer.c:122 -/
def St.test (s : St τ) (t : τ) : St τ :=
  match semaDown (s.timerSema t) t with
  | (m, true) => { s with timerSema := update s.timerSema t m, pc := update s.pc t .user }
  | (m, false) => { s with timerSema := update s.timerSema t m, pc := update s.pc t .blocked }

/-- mirrors devices/timer.c:106-123 -/
def St.run (s : St τ) (t : τ) : Option (St τ) :=
  match s.pc t with
  | .read now => some { s with wakeupTime := update s.wakeupTime t (wrap64 (now + (s.call t).n))
                               pc := update s.pc t .stored }
  | .stored => some { s with waitList := listInsertOrdered (compareThreadsByWakeupTime s.wakeupTime) t s.waitList
                             pc := update s.pc t .inserted }
  | .inserted | .woken => some (s.test t)
  | .user | .blocked => none

/-- `sema_up (&t->timer_sema)`. -/
def St.up (s : St τ) (t : τ) : St τ :=
  match semaUp (s.timerSema t) with
  | (m, some u) => { s with timerSema := update s.timerSema t m, pc := update s.pc u .woken }
  | (m, none) => { s with timerSema := update s.timerSema t m }

/-- The loop of the handler over what is left of `wait_list`.
mirrors devices/timer.c:202-210 -/
def wakeExpired (s : St τ) : List τ → St τ
  | [] => { s with waitList := [] }
  | t :: rest => if s.ticks < s.wakeupTime t then { s with waitList := t :: rest } else wakeExpired (s.up t) rest

/-- mirrors devices/timer.c:195-211 -/
def timerInterrupt (s : St τ) : St τ :=
  wakeExpired { s with ticks := wrap64 (s.ticks + 1), count := s.count + 1 } s.waitList

def step (s : St τ) : Act τ → Option (St τ)
  | .sleep t n => match s.pc t with
    | .user => some { s with pc := update s.pc t (.read s.ticks)
                             call := update s.call t ⟨s.count, n⟩ }
    | _ => none
  | .run t => s.run t
  | .interrupt => some (timerInterrupt s)

/-- The counters start at 0, the list is empty, and `init_thread` has set each
`timer_sema` to 0.
mirrors devices/timer.c:36-43 and threads/thread.c:477 -/
def timerInit (τ : Type) : St τ := ⟨0, [], fun _ => 0, fun _ => semaInit 0, fun _ => .user, 0, fun _ => ⟨0, 0⟩⟩

def machine (τ : Type) [DecidableEq τ] : Machine (St τ) (Act τ) where
  init s := s = timerInit τ
  step := step

/-- The wake-up time of a call fits in `int64_t`. -/
def Fits (s : St τ) : Act τ → Prop
  | .sleep _ n => InInt64 (s.ticks + n)
  | _ => True

instance (s : St τ) : (a : Act τ) → Decidable (Fits s a)
  | .sleep _ n => inferInstanceAs (Decidable (InInt64 (s.ticks + n)))
  | .run _ | .interrupt => inferInstanceAs (Decidable True)

end Pintos.Timer
