import Pintos.Core.Queue
import Pintos.L2Code.Intq

/-!
# Assertions of the interrupt queue

`intq_getc` tests the queue, and then `lock_acquire` may sleep; when it
returns, nobody tests the queue again before `wait` asserts that it is still
empty.

* `two_readers_fail`: two threads read from an empty queue, two bytes arrive,
  and the assertion in `wait` fails in the second thread.
* `interrupt_queue_asserts`: this is the only assertion that can fail, and it
  holds if no call has to wait while another thread has the lock.
-/
namespace Pintos.Intq

open Pintos.Core Pintos.Synch Function

variable {τ : Type} {s s' : St τ} {t u : τ} {op : Op} {w : Waiter}

/-! ## The invariant -/

/-- The thread has the lock. -/
def Pc.Holds : Pc → Prop
  | .wait _ | .waitReady _ => True
  | _ => False

/-- The thread sleeps in `lock_acquire`, or has been unblocked there. -/
def Pc.Acquires : Pc → Prop
  | .acquire _ | .acquireReady _ => True
  | _ => False

/-- The thread is in the waiters of the lock's semaphore. -/
def Pc.Queued : Pc → Prop
  | .acquire _ => True
  | _ => False

/-- The member in which the thread is recorded. -/
def Pc.waiter : Pc → Option Waiter
  | .wait op => some op.waiter
  | _ => none

structure Inv (s : St τ) : Prop where
  head : s.head < intqBufsize
  tail : s.tail < intqBufsize
  queue : Lists s.sema.waiters fun t => (s.pc t).Queued
  holder : ∀ t, s.holder = some t ↔ (s.pc t).Holds
  value : s.sema.value = if s.holder.isSome then 0 else 1
  waiter : ∀ w t, s.waiter w = some t ↔ (s.pc t).waiter = some w

theorem Inv.init : Inv (intqInit τ) where
  head := show 0 < intqBufsize by decide
  tail := show 0 < intqBufsize by decide
  queue := lists_nil fun _ => id
  holder _ := ⟨nofun, False.elim⟩
  value := rfl
  waiter _ _ := ⟨nofun, nofun⟩

theorem Pc.holds_of_waiter {p : Pc} (h : p.waiter = some w) : p.Holds := by
  cases p <;> trivial

theorem Inv.value_free (h : Inv s) (hh : s.holder = none) : s.sema.value = 1 := by
  rw [h.value, hh]
  rfl

theorem Inv.not_holder (h : Inv s) (hp : s.pc t = .active) : s.holder ≠ some t := fun hh => by
  have := (h.holder t).mp hh
  rw [hp] at this
  exact this

/-- Only the indices and the bytes differ. -/
theorem Inv.move (h : Inv s) (hs : s'.sema = s.sema) (hh : s'.holder = s.holder) (hw : s'.waiter = s.waiter)
    (hp : s'.pc = s.pc) (hhead : s'.head < intqBufsize) (htail : s'.tail < intqBufsize) : Inv s' where
  head := hhead
  tail := htail
  queue := by rw [hs, hp]; exact h.queue
  holder := by rw [hh, hp]; exact h.holder
  value := by rw [hs, hh]; exact h.value
  waiter := by rw [hw, hp]; exact h.waiter

theorem next_lt (pos : Nat) : next pos < intqBufsize := Nat.mod_lt _ (by decide)

theorem next_inj {a b : Nat} (ha : a < intqBufsize) (hb : b < intqBufsize) (h : next a = next b) : a = b := by
  unfold next intqBufsize at h
  unfold intqBufsize at ha hb
  omega

variable [DecidableEq τ]

@[simp] theorem pc_setPc_self (s : St τ) (t : τ) (p : Pc) : (s.setPc t p).pc t = p := update_self ..

@[simp] theorem pc_setPc_ne (s : St τ) (h : u ≠ t) (p : Pc) : (s.setPc t p).pc u = s.pc u := update_of_ne h ..

/-! ## The functions -/

/-- A call that returns keeps the invariant, and no thread is inside
`lock_acquire` that was not before. -/
def Returns (s : St τ) (r : Except Assertion (St τ)) : Prop :=
  ∃ s', r = .ok s' ∧ Inv s' ∧ ∀ u, (s'.pc u).Acquires → (s.pc u).Acquires

theorem signal_returns (h : Inv s) (hb : s.blocks w = false) : Returns s (signal s w) := by
  cases hw : s.waiter w with
  | none => exact ⟨s, by simp [signal, hb, hw], h, fun _ => id⟩
  | some t =>
    have hpw := (h.waiter w t).mp hw
    obtain ⟨op, hpc⟩ : ∃ op, s.pc t = .wait op := by
      cases hp : s.pc t <;> rw [hp] at hpw <;> first | exact ⟨_, rfl⟩ | cases hpw
    have hres : signal s w = .ok ((s.setPc t (.waitReady op)).setWaiter w none) := by
      simp [signal, hb, hw, threadUnblock, hpc, Except.map]
    -- the pc of `t` is the only one that changes, and it keeps the lock
    have hother : ∀ {P : Pc → Prop}, (P (.waitReady op) ↔ P (.wait op)) → ∀ u,
        P ((s.setPc t (.waitReady op)).pc u) ↔ P (s.pc u) := by
      intro P hP u
      by_cases hu : u = t
      · subst hu
        rw [pc_setPc_self, hpc]
        exact hP
      · rw [pc_setPc_ne _ hu]
    refine ⟨_, hres, { head := h.head, tail := h.tail, queue := ?_, holder := fun u => ?_, value := h.value,
                       waiter := fun v u => ?_ }, fun u => (hother Iff.rfl u).mp⟩
    · exact h.queue.congr (hother Iff.rfl)
    · exact (h.holder u).trans (hother Iff.rfl u).symm
    · change update s.waiter w none v = some u ↔ ((s.setPc t (.waitReady op)).pc u).waiter = some v
      by_cases hv : v = w
      · subst hv
        rw [update_self]
        refine ⟨nofun, fun hu => ?_⟩
        by_cases hut : u = t
        · subst hut
          rw [pc_setPc_self] at hu
          cases hu
        · rw [pc_setPc_ne _ hut] at hu
          have hwu := (h.waiter v u).mpr hu
          rw [hw] at hwu
          exact absurd (Option.some.inj hwu).symm hut
      · rw [update_of_ne hv, h.waiter]
        by_cases hut : u = t
        · subst hut
          rw [pc_setPc_self, hpw]
          exact ⟨fun he => absurd (Option.some.inj he).symm hv, nofun⟩
        · rw [pc_setPc_ne _ hut]

theorem transfer_returns (h : Inv s) (hb : s.blocks op.waiter = false) : Returns s (transfer s op) := by
  cases op with
  | getc =>
    have hne : s.head ≠ s.tail := by simpa [St.blocks, Op.waiter, intqEmpty] using hb
    have hi : Inv { s with tail := next s.tail } := h.move rfl rfl rfl rfl h.head (next_lt _)
    refine signal_returns hi ?_
    simpa [St.blocks, intqFull] using fun he => hne (next_inj h.head h.tail he)
  | putc byte =>
    have hne : next s.head ≠ s.tail := by simpa [St.blocks, Op.waiter, intqFull] using hb
    have hi : Inv { s with buf := update s.buf s.head byte, head := next s.head } :=
      h.move rfl rfl rfl rfl (next_lt _) h.tail
    refine signal_returns hi ?_
    simpa [St.blocks, intqEmpty] using hne

/-- A thread takes the free lock and waits. -/
theorem Inv.enter (h : Inv s) (hh : s.holder = none) (hq : ¬ (s.pc t).Queued) (op : Op) :
    Inv (({ s with sema := { s.sema with value := 0 }, holder := some t }.setWaiter op.waiter (some t)).setPc t
      (.wait op)) := by
  have hfree : ∀ u, ¬ (s.pc u).Holds := fun u hu => by
    rw [(h.holder u).mpr hu] at hh
    cases hh
  refine { head := h.head, tail := h.tail, queue := h.queue.congr fun u => ?_, holder := fun u => ?_, value := rfl,
           waiter := fun v u => ?_ }
  · by_cases hu : u = t
    · subst hu
      rw [pc_setPc_self]
      exact ⟨False.elim, hq⟩
    · rw [pc_setPc_ne _ hu]
      rfl
  · change some t = some u ↔ _
    by_cases hu : u = t
    · subst hu
      rw [pc_setPc_self]
      exact ⟨fun _ => trivial, fun _ => rfl⟩
    · rw [pc_setPc_ne _ hu]
      exact ⟨fun he => absurd (Option.some.inj he).symm hu, fun hu => absurd hu (hfree u)⟩
  · change update s.waiter op.waiter (some t) v = some u ↔ _
    by_cases hv : v = op.waiter
    · subst hv
      rw [update_self]
      by_cases hu : u = t
      · subst hu
        rw [pc_setPc_self]
        exact ⟨fun _ => rfl, fun _ => rfl⟩
      · rw [pc_setPc_ne _ hu]
        exact ⟨fun he => absurd (Option.some.inj he).symm hu, fun hw => absurd (Pc.holds_of_waiter hw) (hfree u)⟩
    · rw [update_of_ne hv, h.waiter]
      by_cases hu : u = t
      · subst hu
        rw [pc_setPc_self]
        exact ⟨fun hw => absurd (Pc.holds_of_waiter hw) (hfree u), fun hw => absurd (Option.some.inj hw).symm hv⟩
      · rw [pc_setPc_ne _ hu]
        rfl

/-- A thread is queued for the lock. -/
theorem Inv.sleep (h : Inv s) (hp : s.pc t = .active ∨ s.pc t = .acquireReady op) :
    Inv ({ s with sema := { s.sema with waiters := s.sema.waiters ++ [t] } }.setPc t (.acquire op)) := by
  have hout : ¬ (s.pc t).Queued ∧ ¬ (s.pc t).Holds ∧ (s.pc t).waiter = none := by
    rcases hp with hp | hp <;> rw [hp] <;> exact ⟨id, id, rfl⟩
  refine { head := h.head, tail := h.tail, queue := h.queue.push hout.1 fun u => ?_, holder := fun u => ?_,
           value := h.value, waiter := fun v u => ?_ }
  · by_cases hu : u = t
    · subst hu
      rw [pc_setPc_self]
      exact ⟨fun _ => .inr rfl, fun _ => trivial⟩
    · rw [pc_setPc_ne _ hu]
      simp [hu]
  · refine (h.holder u).trans ?_
    by_cases hu : u = t
    · subst hu
      rw [pc_setPc_self]
      exact ⟨fun hh => absurd hh hout.2.1, False.elim⟩
    · rw [pc_setPc_ne _ hu]
  · refine (h.waiter v u).trans ?_
    by_cases hu : u = t
    · subst hu
      rw [pc_setPc_self, hout.2.2]
      rfl
    · rw [pc_setPc_ne _ hu]

/-- The lock is free and the queue still blocks the call: the thread waits. -/
theorem lockDown_eq (h : Inv s) (hh : s.holder = none) (hb : s.blocks op.waiter = true) :
    lockDown s t op = .ok (({ s with sema := { s.sema with value := 0 }, holder := some t }.setWaiter op.waiter
      (some t)).setPc t (.wait op)) := by
  have hb' : ({ s with sema := { s.sema with value := 0 }, holder := some t } : St τ).blocks op.waiter = true := hb
  simp [lockDown, semaDown, h.value_free hh, wait, hb']

theorem lockDown_returns (h : Inv s) (hp : s.pc t = .active ∨ s.pc t = .acquireReady op) (hh : s.holder = none)
    (hb : s.blocks op.waiter = true) : Returns s (lockDown s t op) := by
  have hq : ¬ (s.pc t).Queued := by
    rcases hp with hp | hp <;> rw [hp] <;> exact id
  refine ⟨_, lockDown_eq h hh hb, h.enter hh hq op, fun u hu => ?_⟩
  by_cases hut : u = t
  · subst hut
    rw [pc_setPc_self] at hu
    exact hu.elim
  · rwa [pc_setPc_ne _ hut] at hu

/-- The only assertion that fails is the one in `wait`. -/
def Safe : Except Assertion (St τ) → Prop
  | .ok s' => Inv s'
  | .error e => e = .wait

variable {r : Except Assertion (St τ)}

omit [DecidableEq τ] in
theorem Returns.safe (h : Returns s r) : Safe r := by
  obtain ⟨s', rfl, hi, -⟩ := h
  exact hi

theorem lockDown_safe (h : Inv s) (hp : s.pc t = .active ∨ s.pc t = .acquireReady op) : Safe (lockDown s t op) := by
  cases hh : s.holder with
  | some u =>
    have hv : s.sema.value = 0 := by rw [h.value, hh]; rfl
    have hs : lockDown s t op =
        .ok ({ s with sema := { s.sema with waiters := s.sema.waiters ++ [t] } }.setPc t (.acquire op)) := by
      simp [lockDown, semaDown, hv]
    rw [hs]
    exact h.sleep hp
  | none =>
    cases hb : s.blocks op.waiter with
    | true => exact (lockDown_returns h hp hh hb).safe
    | false =>
      -- the queue changed while the thread slept
      have hb' : ({ s with sema := { s.sema with value := 0 }, holder := some t } : St τ).blocks op.waiter = false := hb
      have hs : lockDown s t op = .error .wait := by simp [lockDown, semaDown, h.value_free hh, wait, hb']
      rw [hs]
      rfl

/-- The lock is free after the holder `t` has released it. -/
theorem Inv.release (h : Inv s) {l : List τ} {p : τ → Pc} (hh : s.holder = some t)
    (hq : Lists l fun u => (p u).Queued)
    (hp : ∀ u, u ≠ t → ((p u).Holds ↔ (s.pc u).Holds) ∧ (p u).waiter = (s.pc u).waiter)
    (hw : (s.pc t).waiter = none) (ht : p t = .active) : Inv { s with holder := none, sema := ⟨1, l⟩, pc := p } := by
  refine { head := h.head, tail := h.tail, queue := hq, holder := fun u => ⟨nofun, fun hu => ?_⟩, value := rfl,
           waiter := fun v u => (h.waiter v u).trans ?_ }
  · change (p u).Holds at hu
    by_cases hut : u = t
    · subst hut
      rw [ht] at hu
      exact hu.elim
    · have hs := (h.holder u).mpr ((hp u hut).1.mp hu)
      rw [hh] at hs
      exact absurd (Option.some.inj hs).symm hut
  · change _ ↔ (p u).waiter = some v
    by_cases hut : u = t
    · subst hut
      rw [hw, ht]
      rfl
    · rw [(hp u hut).2]

theorem lockRelease_spec (h : Inv s) (hpc : s.pc t = .waitReady op) :
    ∃ s', lockRelease (s.setPc t .active) t = .ok s' ∧ Inv s' ∧ s'.pc t = .active ∧ s'.holder = none ∧
      ∀ u, (s'.pc u).Acquires → (s.pc u).Acquires := by
  have hh : s.holder = some t := (h.holder t).mpr (by rw [hpc]; trivial)
  have hh' : (s.setPc t .active).holder = some t := hh
  have hv : s.sema.value = 0 := by rw [h.value, hh]; rfl
  have hnot : t ∉ s.sema.waiters := fun hm => by
    have := h.queue.mem.mp hm
    rw [hpc] at this
    exact this
  have hwt : (s.pc t).waiter = none := by rw [hpc]; rfl
  cases hq : s.sema.waiters with
  | nil =>
    have hsema : (s.setPc t .active).sema = ⟨0, []⟩ := by rw [← hv, ← hq]; rfl
    refine ⟨{ s with holder := none, sema := ⟨1, []⟩, pc := update s.pc t .active }, ?_, ?_, ?_, rfl, ?_⟩
    · simp only [lockRelease, hh', hsema, semaUp]
      rfl
    · refine h.release hh ?_ (fun u hu => by simp [hu]) hwt (by simp)
      refine (hq ▸ h.queue : Lists [] fun u => (s.pc u).Queued).congr fun u => ?_
      by_cases hu : u = t
      · subst hu
        simp [hpc, Pc.Queued]
      · simp [hu]
    · simp
    · intro u hu
      by_cases hut : u = t
      · subst hut
        simp [Pc.Acquires] at hu
      · simpa [hut] using hu
  | cons v rest =>
    have hsema : (s.setPc t .active).sema = ⟨0, v :: rest⟩ := by rw [← hv, ← hq]; rfl
    have hvq : (s.pc v).Queued := h.queue.mem.mp (hq ▸ List.mem_cons_self)
    have hvt : v ≠ t := fun he => hnot (hq ▸ he ▸ List.mem_cons_self)
    obtain ⟨op', hpv⟩ : ∃ op', s.pc v = .acquire op' := by
      cases hp : s.pc v <;> rw [hp] at hvq <;> first | exact ⟨_, rfl⟩ | exact hvq.elim
    have hpv' : (s.setPc t .active).pc v = .acquire op' := by rw [pc_setPc_ne _ hvt, hpv]
    refine ⟨{ s with holder := none, sema := ⟨1, rest⟩
                     pc := update (update s.pc t .active) v (.acquireReady op') }, ?_, ?_, ?_, rfl, ?_⟩
    · simp only [lockRelease, hh', hsema, semaUp, threadUnblock, hpv']
      rfl
    · refine h.release hh ?_ (fun u hu => ?_) hwt (by simp [hvt.symm])
      · refine (hq ▸ h.queue : Lists (v :: rest) fun u => (s.pc u).Queued).pop fun u => ?_
        by_cases huv : u = v
        · subst huv
          simp [Pc.Queued]
        · by_cases hut : u = t
          · subst hut
            simp [huv, hpc, Pc.Queued]
          · simp [huv, hut]
      · by_cases huv : u = v
        · subst huv
          simp [hpv, Pc.Holds, Pc.waiter]
        · simp [huv, hu]
    · simp [hvt.symm]
    · intro u hu
      by_cases huv : u = v
      · rw [huv, hpv]
        trivial
      · by_cases hut : u = t
        · subst hut
          simp [huv, Pc.Acquires] at hu
        · simpa [huv, hut] using hu

theorem Inv.read (h : Inv s) : Inv (s.read t op) := by
  cases op
  · exact h.move rfl rfl rfl rfl h.head h.tail
  · exact h

theorem loop_eq (h : Inv s) (hp : s.pc t = .active) :
    loop s t op = if s.blocks op.waiter then lockDown s t op else transfer (s.read t op) op := by
  unfold loop lockAcquire
  rw [if_neg (h.not_holder hp)]

theorem transfer_read (h : Inv s) (hb : s.blocks op.waiter = false) : Returns s (transfer (s.read t op) op) := by
  have hi : Inv (s.read t op) := h.read
  have hb' : (s.read t op).blocks op.waiter = false := by cases op <;> exact hb
  obtain ⟨s', hs, hi', ha⟩ := transfer_returns hi hb'
  refine ⟨s', hs, hi', fun u hu => ?_⟩
  have := ha u hu
  cases op <;> exact this

/-- A call that need not wait, or finds the lock free, does not sleep in
`lock_acquire`. -/
theorem loop_returns (h : Inv s) (hp : s.pc t = .active) (hfree : s.blocks op.waiter = true → s.holder = none) :
    Returns s (loop s t op) := by
  rw [loop_eq h hp]
  cases hb : s.blocks op.waiter with
  | true => exact lockDown_returns h (.inl hp) (hfree hb) hb
  | false => exact transfer_read h hb

theorem loop_safe (h : Inv s) (hp : s.pc t = .active) : Safe (loop s t op) := by
  rw [loop_eq h hp]
  cases hb : s.blocks op.waiter with
  | true => exact lockDown_safe h (.inl hp)
  | false => exact (transfer_read h hb).safe

/-! ## Steps and runs -/

/-- A call that has to wait finds the lock free. -/
def Uncontended : Except Assertion (St τ) → Act τ → Prop
  | .ok s, .call _ op => s.blocks op.waiter = true → s.holder = none
  | _, _ => True

instance : (r : Except Assertion (St τ)) → (a : Act τ) → Decidable (Uncontended r a)
  | .ok s, .call _ op => inferInstanceAs (Decidable (s.blocks op.waiter = true → s.holder = none))
  | .ok _, .run _ | .ok _, .handler _ | .error _, _ => inferInstanceAs (Decidable True)

/-- No thread sleeps in `lock_acquire`. -/
def Idle : Except Assertion (St τ) → Prop
  | .ok s => Inv s ∧ ∀ u, ¬ (s.pc u).Acquires
  | .error _ => False

omit [DecidableEq τ] in
theorem Returns.idle (h : Returns s r) (ha : ∀ u, ¬ (s.pc u).Acquires) : Idle r := by
  obtain ⟨s', rfl, hi, hsub⟩ := h
  exact ⟨hi, fun u hu => ha u (hsub u hu)⟩

theorem resume_safe (h : Inv s) (hs : resume s t = some r) : Safe r := by
  unfold resume at hs
  cases hpc : s.pc t <;> rw [hpc] at hs <;> cases hs
  case acquireReady op => exact lockDown_safe h (.inr hpc)
  case waitReady op =>
    obtain ⟨s', hrel, hi, hp, -⟩ := lockRelease_spec h hpc
    rw [hrel]
    exact loop_safe hi hp

theorem resume_idle (h : Inv s) (ha : ∀ u, ¬ (s.pc u).Acquires)
    (hs : resume s t = some r) : Idle r := by
  unfold resume at hs
  cases hpc : s.pc t <;> rw [hpc] at hs <;> cases hs
  case acquireReady op => exact absurd (by rw [hpc]; trivial) (ha t)
  case waitReady op =>
    -- nobody else can have taken the lock that the thread has just released
    obtain ⟨s', hrel, hi, hp, hfree, hsub⟩ := lockRelease_spec h hpc
    rw [hrel]
    exact (loop_returns hi hp fun _ => hfree).idle fun u hu => ha u (hsub u hu)

theorem step_safe {r' : Except Assertion (St τ)} {a : Act τ} (h : Safe r) (hs : step r a = some r') : Safe r' := by
  cases r with
  | error e => cases hs
  | ok s =>
    cases a with
    | call t op =>
      unfold step at hs
      dsimp only at hs
      split at hs <;> cases hs
      next hp => exact loop_safe h hp
    | run t => exact resume_safe h hs
    | handler op =>
      unfold step at hs
      dsimp only at hs
      split at hs <;> cases hs
      next hb => exact (transfer_returns h (Bool.eq_false_iff.mpr hb)).safe

theorem step_idle {r' : Except Assertion (St τ)} {a : Act τ} (h : Idle r) (hc : Uncontended r a)
    (hs : step r a = some r') : Idle r' := by
  cases r with
  | error e => cases hs
  | ok s =>
    obtain ⟨h, ha⟩ := h
    cases a with
    | call t op =>
      unfold step at hs
      dsimp only at hs
      split at hs <;> cases hs
      next hp => exact (loop_returns h hp hc).idle ha
    | run t => exact resume_idle h ha hs
    | handler op =>
      unfold step at hs
      dsimp only at hs
      split at hs <;> cases hs
      next hb => exact (transfer_returns h (Bool.eq_false_iff.mpr hb)).idle ha

/-- Threads 0 and 1 read from the empty queue, two keys arrive, thread 0 takes
the first one, and thread 1 gets the lock. -/
def twoReaders : List (Act Nat) :=
  [.call 0 .getc, .call 1 .getc, .handler (.putc 65), .handler (.putc 66), .run 0, .run 1]

theorem two_readers_fail : (machine Nat).Reachable (.error .wait) :=
  Machine.reach_exec (fun _ _ => trivial) (.init rfl)
    (show (machine Nat).exec (.ok (intqInit Nat)) twoReaders = _ from rfl)

/-- In every run in which a call that has to wait finds the lock free, no
assertion fails. In any run, only the one in `wait` can fail, and a thread that
is recorded in `not_empty` or `not_full` is blocked in `wait`. -/
theorem interrupt_queue_asserts (τ : Type) [DecidableEq τ] :
    (∀ r, (machine τ).Reach Uncontended r → ∃ s, r = .ok s) ∧
    (∀ e, (machine τ).Reachable (.error e) → e = .wait) ∧
    ∀ s w t, (machine τ).Reachable (.ok s) → s.waiter w = some t → ∃ op, s.pc t = .wait op ∧ op.waiter = w := by
  have hsafe : ∀ r, (machine τ).Reachable r → Safe r := by
    intro r hr
    refine hr.invariant ?_ fun r a r' h _ hs => step_safe h hs
    rintro r rfl
    exact Inv.init
  refine ⟨fun r hr => ?_, fun e hr => hsafe _ hr, fun s w t hr hw => ?_⟩
  · have hidle : Idle r := by
      refine hr.invariant ?_ fun r a r' h hc hs => step_idle h hc hs
      rintro r rfl
      exact ⟨Inv.init, fun _ => id⟩
    cases r with
    | ok s => exact ⟨s, rfl⟩
    | error e => exact hidle.elim
  · have hp := (Inv.waiter (hsafe _ hr) w t).mp hw
    cases hpc : s.pc t <;> rw [hpc] at hp
    case wait op => exact ⟨op, rfl, Option.some.inj hp⟩
    all_goals cases hp

/-- One thread waits for a key and gets the first of two. -/
theorem interrupt_queue_asserts_one_reader : ∃ s : St Nat,
    (machine Nat).execIf (fun r a => decide (Uncontended r a)) (.ok (intqInit Nat))
      [.call 0 .getc, .handler (.putc 65), .handler (.putc 66), .run 0, .call 1 .getc] = some (.ok s) ∧
    s.byte 0 = 65 ∧ s.byte 1 = 66 := by
  obtain ⟨r, hr, hbytes⟩ : ∃ r, (machine Nat).execIf (fun r a => decide (Uncontended r a)) (.ok (intqInit Nat))
      [.call 0 .getc, .handler (.putc 65), .handler (.putc 66), .run 0, .call 1 .getc] = some r ∧
      ∀ s, r = .ok s → s.byte 0 = 65 ∧ s.byte 1 = 66 := ⟨_, rfl, fun s hs => by cases hs; exact ⟨rfl, rfl⟩⟩
  obtain ⟨s, rfl⟩ := (interrupt_queue_asserts Nat).1 r
    (Machine.reach_execIf (fun _ _ => of_decide_eq_true) (.init rfl) hr)
  exact ⟨s, hr, hbytes s rfl⟩

end Pintos.Intq
