import Mathlib

/-!
# Semaphores of threads/synch.c

Each operation runs with interrupts off, so it is one atomic step on the
semaphore. `sema_down` is a loop: it tests the value, and on zero it queues
the thread and blocks; other threads run until `sema_up` unblocks it, and then
it tests again. `semaDown` is one such test.
-/
namespace Pintos.Synch

/-- `value` is an `unsigned int`.
mirrors threads/synch.h:8-13 -/
structure Sema (τ : Type) where
  value : Nat
  waiters : List τ

variable {τ : Type}

/-- mirrors threads/synch.c:44-51 -/
def semaInit (value : Nat) : Sema τ := ⟨value, []⟩

/-- One test by the thread `t`; false if it has to block.
mirrors threads/synch.c:69-74 -/
def semaDown (s : Sema τ) (t : τ) : Sema τ × Bool :=
  if s.value = 0 then ({ s with waiters := s.waiters ++ [t] }, false)
  else ({ s with value := s.value - 1 }, true)

/-- mirrors threads/synch.c:83-102 -/
def semaTryDown (s : Sema τ) : Sema τ × Bool :=
  if 0 < s.value then ({ s with value := s.value - 1 }, true) else (s, false)

/-- Returns the thread that is unblocked.
mirrors threads/synch.c:108-121 -/
def semaUp (s : Sema τ) : Sema τ × Option τ :=
  match s.waiters with
  | [] => ({ s with value := (s.value + 1) % 2 ^ 32 }, none)
  | t :: rest => (⟨(s.value + 1) % 2 ^ 32, rest⟩, some t)

end Pintos.Synch
