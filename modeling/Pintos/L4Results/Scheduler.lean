import Pintos.L3Proof.SchedInv

/-!
# The queues of the scheduler

* `scheduler_queues`: in every run in which `thread_unblock` wakes only threads
  that have called `thread_block` themselves, one thread runs, the lists agree
  with `status`, and threads other than idle are dispatched in the order in
  which they became ready.
* `queues_need_self_blocked`: `thread_unblock` of a thread that waits for a
  semaphore, or of the idle thread, breaks this; and the idle thread has no
  place in the order.
-/
namespace Pintos.Sched

open Pintos.Core Pintos.Synch

/-- The initial thread is 0, the idle thread 1; semaphore 0 is `idle_started`. -/
def smallBoot : Boot Nat Nat := ⟨0, 1, 0, by decide⟩

/-- Thread 0 waits for semaphore 7, and a handler unblocks it directly. -/
def unblockWaiter : List (Act Nat Nat) := [.down 7, .unblock 0]

/-- The idle thread is set up and blocks, and thread 0 unblocks it. -/
def unblockIdle : List (Act Nat Nat) := [.yield, .run, .run, .run, .unblock 1]

/-- The idle thread is preempted before it blocks: it is ready now. Thread 2
unblocks thread 0 after that. -/
def idleReady : List (Act Nat Nat) :=
  [.create 2, .run, .create 3, .run, .block, .run, .run, .yield, .unblock 0, .block, .block]

theorem reach_small {s : St Nat Nat} (acts : List (Act Nat Nat))
    (hs : (machine smallBoot).exec (boot smallBoot fun _ => 0) acts = some s) : (machine smallBoot).Reachable s :=
  Machine.reach_exec (fun _ _ => trivial) (.init ⟨fun _ => 0, rfl⟩) hs

theorem reach_small_if {s : St Nat Nat} (acts : List (Act Nat Nat))
    (hs : (machine smallBoot).execIf (fun s a => decide (SelfBlocked s a)) (boot smallBoot fun _ => 0) acts = some s) :
    (machine smallBoot).Reach SelfBlocked s :=
  Machine.reach_execIf (fun _ _ => of_decide_eq_true) (.init ⟨fun _ => 0, rfl⟩) hs

theorem queues_need_self_blocked :
    (∃ s, (machine smallBoot).Reachable s ∧ 0 ∈ (s.sema 7).waiters ∧ s.status 0 = some .ready) ∧
    (∃ s, (machine smallBoot).Reachable s ∧ s.idleThread = some 1 ∧ 1 ∈ s.readyList) ∧
    (∃ s, (machine smallBoot).Reach SelfBlocked s ∧ s.status 1 = some .ready ∧ s.log.drop 5 =
      [.ready 1, .switch 1 2, .dispatch 2, .ready 0, .switch 2 3, .dispatch 3, .switch 3 0, .dispatch 0]) := by
  refine ⟨⟨_, reach_small unblockWaiter rfl, by decide, by decide⟩,
    ⟨_, reach_small unblockIdle rfl, by decide, by decide⟩,
    ⟨_, reach_small_if idleReady rfl, by decide, by decide⟩⟩

/-- The threads other than idle that were dispatched are the first of those
that became ready, in this order; the others are in `ready_list`. -/
theorem scheduler_queues {τ ι : Type} [DecidableEq τ] [DecidableEq ι] (b : Boot τ ι) (s : St τ ι)
    (hr : (machine b).Reach SelfBlocked s) :
    (∃! t, s.status t = some .running) ∧
    (∀ t, t ≠ b.idle → (t ∈ s.readyList ↔ s.status t = some .ready)) ∧ s.readyList.Nodup ∧
    (∀ m, (s.sema m).waiters.Nodup ∧ ∀ t ∈ (s.sema m).waiters, s.status t = some .blocked ∧ t ∉ s.readyList ∧
      ∀ k, t ∈ (s.sema k).waiters → k = m) ∧
    (s.idleThread ≠ none → s.idleThread = some b.idle ∧ b.idle ∉ s.readyList) ∧
    readied b.idle s.log = dispatched b.idle s.log ++ s.readyList.filter (· ≠ b.idle) := by
  have h : Inv b none s := by
    refine hr.invariant (I := Inv b none) ?_ fun s a s' h hc hs => h.step hc hs
    rintro s ⟨value, rfl⟩
    exact .init value
  refine ⟨⟨s.cpu, h.status_cpu, fun t ht => (h.running t).mp ht⟩, fun t ht => ?_, h.ready.1, fun m => ?_,
    fun hset => ?_,
    h.fifo⟩
  · rw [h.ready.mem]
    exact ⟨And.left, fun hs => ⟨hs, fun he => ht (h.idleThread_eq he)⟩⟩
  · refine ⟨(h.waiters m).1, fun t ht => ?_⟩
    obtain ⟨-, hblocked, hpc⟩ := (h.waiters m).mem.mp ht
    refine ⟨hblocked, fun hl => ?_, fun k hk => ?_⟩
    · have hready := (h.ready.mem.mp hl).1
      rw [hblocked] at hready
      cases hready
    · have hpk := ((h.waiters k).mem.mp hk).2.2
      rw [hpc] at hpk
      exact (Pc.down.inj hpk).symm
  · obtain ⟨i, hi⟩ := Option.ne_none_iff_exists'.mp hset
    have hidle : s.idleThread = some b.idle := hi.trans (congrArg some (h.idleThread_eq hi))
    exact ⟨hidle, fun hl => (h.ready.mem.mp hl).2 hidle⟩

/-- Thread 0 creates thread 2 and waits for semaphore 7; thread 2 is preempted
and then raises it. -/
theorem scheduler_queues_handoff : ∃ s,
    (machine smallBoot).execIf (fun s a => decide (SelfBlocked s a)) (boot smallBoot fun _ => 0)
      [.create 2, .run, .down 7, .run, .run, .run, .yield, .up 7] = some s ∧
    s.cpu = 2 ∧ s.readyList = [0] ∧ (∃! t, s.status t = some .running) := by
  obtain ⟨s, hs, hcpu, hl⟩ : ∃ s,
      (machine smallBoot).execIf (fun s a => decide (SelfBlocked s a)) (boot smallBoot fun _ => 0)
        [.create 2, .run, .down 7, .run, .run, .run, .yield, .up 7] = some s ∧ s.cpu = 2 ∧ s.readyList = [0] :=
    ⟨_, rfl, rfl, rfl⟩
  exact ⟨s, hs, hcpu, hl, (scheduler_queues smallBoot s (reach_small_if _ hs)).1⟩

end Pintos.Sched
