import Pintos.L3Proof.LockInv

/-!
# Locks exclude each other

* `lock_excludes`: in every run at most one thread has the lock, the inner
  semaphore is binary, `holder` and `lock_held_by_current_thread` are right,
  and no assertion of the lock functions fails.
-/
namespace Pintos.Lock

open Pintos.Core Pintos.Synch

/-- A thread has the lock (`held`) from the moment its acquire has stored
`holder`; `leave` is the start of its `lock_release`, before the store that
clears `holder`. At most one thread is in either; `holder` names exactly that
thread, and the semaphore is then 0. -/
theorem lock_excludes (τ : Type) [DecidableEq τ] (s : St τ) (hr : (machine τ).Reachable s) :
    (∀ t u, s.pc t = .held ∨ s.pc t = .leave → s.pc u = .held ∨ s.pc u = .leave → t = u) ∧
    (s.sema.value = 0 ∨ s.sema.value = 1) ∧
    (∀ t, s.holder = some t → (s.pc t = .held ∨ s.pc t = .leave) ∧ s.sema.value = 0) ∧
    (∀ t, lockHeldByCurrentThread s t = true ↔ s.pc t = .held ∨ s.pc t = .leave) ∧
    ∀ t, s.pc t ≠ .failed := by
  have h : Inv s := by
    refine hr.invariant ?_ fun s a s' h _ hs => h.step hs
    rintro s rfl
    exact .init
  have hstored : ∀ t, (s.pc t).Stored ↔ s.pc t = .held ∨ s.pc t = .leave := by
    intro t
    cases s.pc t <;> simp [Pc.Stored]
  refine ⟨fun t u ht hu => ?_, ?_, fun t ht => ?_, fun t => ?_, h.passed⟩
  · exact h.owner t u ((hstored t).mpr ht).owns ((hstored u).mpr hu).owns
  · exact h.value.imp And.left And.left
  · have hs := (h.holder t).mp ht
    refine ⟨(hstored t).mp hs, ?_⟩
    rcases h.value with h0 | ⟨-, hfree⟩
    · exact h0.1
    · exact absurd hs.owns (hfree t)
  · rw [lockHeldByCurrentThread, decide_eq_true_eq, h.holder, hstored]

/-- Thread 1 waits for thread 0, is woken, and loses the race to thread 2. -/
def race : List (Act Nat) :=
  [.acquire 0, .run 0, .run 0, .acquire 1, .run 1, .release 0, .run 0, .run 0, .tryAcquire 2, .run 2, .run 1]

theorem lock_excludes_race : ∃ s : St Nat, (machine Nat).exec (lockInit Nat) race = some s ∧
    s.pc 2 = .got ∧ s.pc 1 = .blocked ∧ (s.sema.value = 0 ∨ s.sema.value = 1) ∧ s.holder = none := by
  obtain ⟨s, hs, h2, h1, h0⟩ : ∃ s, (machine Nat).exec (lockInit Nat) race = some s ∧
    s.pc 2 = .got ∧ s.pc 1 = .blocked ∧ s.holder = none := ⟨_, rfl, rfl, rfl, rfl⟩
  have hr := Machine.reach_exec (fun _ _ => trivial) (.init rfl) hs
  exact ⟨s, hs, h2, h1, (lock_excludes Nat s hr).2.1, h0⟩

end Pintos.Lock
