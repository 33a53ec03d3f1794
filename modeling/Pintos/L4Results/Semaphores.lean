import Pintos.Core.Machine
import Pintos.Core.Queue
import Pintos.L2Code.Synch

/-!
# No lost wake-up

One semaphore, any number of threads that call `sema_down`, and calls of
`sema_try_down` and `sema_up` by threads and interrupt handlers, in any order.
A thread inside `sema_down` is blocked, or it was unblocked by `sema_up` and
has not tested the value again (`woken`). Between the two another thread may
take the value.

* `semaphore_counts`: the value is the initial value plus ups minus downs, in
  32 bits, and while threads wait there are at least as many woken threads as
  the value says.
* `semaphore_wraps`: the count is not exact, `sema_up` wraps around.
-/
namespace Pintos.Synch

open Pintos.Core Function

/-- Where a thread is with respect to the semaphore. -/
inductive Pc
  | out
  | blocked      -- queued in `waiters`, in `thread_block`
  | woken        -- unblocked by `sema_up`, before the next test
  deriving DecidableEq

/-- The semaphore, the threads, and ghost counts of completed operations. -/
structure St (τ : Type) where
  sema : Sema τ
  pc : τ → Pc
  ups : Nat
  downs : Nat

inductive Act (τ : Type)
  | down (t : τ)       -- calls `sema_down`
  | resume (t : τ)     -- runs again after it was unblocked
  | tryDown
  | up

variable {τ : Type} [DecidableEq τ]

/-- The test of the loop by a thread that runs. -/
def St.test (s : St τ) (t : τ) : St τ :=
  match semaDown s.sema t with
  | (sema, true) => { s with sema := sema, pc := update s.pc t .out, downs := s.downs + 1 }
  | (sema, false) => { s with sema := sema, pc := update s.pc t .blocked }

def St.tryDown (s : St τ) : St τ :=
  match semaTryDown s.sema with
  | (sema, true) => { s with sema := sema, downs := s.downs + 1 }
  | (sema, false) => { s with sema := sema }

def St.up (s : St τ) : St τ :=
  match semaUp s.sema with
  | (sema, some t) => { s with sema := sema, pc := update s.pc t .woken, ups := s.ups + 1 }
  | (sema, none) => { s with sema := sema, ups := s.ups + 1 }

/-- All threads and handlers, from `sema_init (&sema, value)`. -/
def machine (τ : Type) [DecidableEq τ] (value : Nat) : Machine (St τ) (Act τ) where
  init s := s = ⟨semaInit value, fun _ => .out, 0, 0⟩
  step s
    | .down t => if s.pc t = .out then some (s.test t) else none
    | .resume t => if s.pc t = .woken then some (s.test t) else none
    | .tryDown => some s.tryDown
    | .up => some s.up

/-! ## The invariant -/

/-- `l` lists the woken threads. -/
structure Inv (value : Nat) (s : St τ) (l : List τ) : Prop where
  count : ∃ k, value + s.ups = s.sema.value + s.downs + 2 ^ 32 * k
  lt : s.sema.value < 2 ^ 32
  waiting : Lists s.sema.waiters fun t => s.pc t = .blocked
  woken : Lists l fun t => s.pc t = .woken
  enough : s.sema.waiters ≠ [] → s.sema.value ≤ l.length

variable {value : Nat} {s : St τ} {l : List τ} {t : τ}

omit [DecidableEq τ] in
theorem Inv.init (h : value < 2 ^ 32) : Inv value (⟨semaInit value, fun _ => .out, 0, 0⟩ : St τ) [] :=
  ⟨⟨0, rfl⟩, h, lists_nil nofun, lists_nil nofun, fun h => absurd rfl h⟩

/-- A test by a thread that is not queued. -/
theorem Inv.test (h : Inv value s l) (ht : s.pc t ≠ .blocked) : Inv value (s.test t) (l.erase t) := by
  have hw : Lists (l.erase t) fun u => s.pc u = .woken ∧ u ≠ t := h.woken.erase fun _ => Iff.rfl
  by_cases hv : s.sema.value = 0
  · have hs : s.test t = { s with sema := { s.sema with waiters := s.sema.waiters ++ [t] },
                                  pc := update s.pc t .blocked } := by
      simp [St.test, semaDown, hv]
    rw [hs]
    refine ⟨h.count, h.lt, h.waiting.push ht fun u => ?_, hw.congr fun u => ?_, fun _ => hv ▸ Nat.zero_le _⟩
    · by_cases hu : u = t <;> simp [hu]
    · by_cases hu : u = t <;> simp [hu]
  · have hs : s.test t = { s with sema := { s.sema with value := s.sema.value - 1 },
                                  pc := update s.pc t .out, downs := s.downs + 1 } := by
      simp [St.test, semaDown, hv]
    rw [hs]
    obtain ⟨k, hk⟩ := h.count
    have hlt := h.lt
    refine ⟨⟨k, ?_⟩, ?_, h.waiting.congr fun u => ?_, hw.congr fun u => ?_, fun hne => ?_⟩
    · dsimp only
      omega
    · dsimp only
      omega
    · by_cases hu : u = t <;> simp [hu, ht]
    · by_cases hu : u = t <;> simp [hu]
    · exact (Nat.sub_le_sub_right (h.enough hne) 1).trans List.le_length_erase

omit [DecidableEq τ] in
theorem Inv.tryDown (h : Inv value s l) : Inv value s.tryDown l := by
  by_cases hv : 0 < s.sema.value
  · have hs : s.tryDown = { s with sema := { s.sema with value := s.sema.value - 1 }, downs := s.downs + 1 } := by
      simp [St.tryDown, semaTryDown, hv]
    rw [hs]
    obtain ⟨k, hk⟩ := h.count
    have hlt := h.lt
    refine ⟨⟨k, ?_⟩, ?_, h.waiting, h.woken, fun hne => (Nat.sub_le _ 1).trans (h.enough hne)⟩
    · dsimp only
      omega
    · dsimp only
      omega
  · have hs : s.tryDown = s := by simp [St.tryDown, semaTryDown, hv]
    rwa [hs]

theorem Inv.up (h : Inv value s l) : ∃ l', Inv value s.up l' := by
  obtain ⟨k, hk⟩ := h.count
  have hlt := h.lt
  -- one more wrap if the value was the largest
  have hcount : ∃ k, value + (s.ups + 1) = (s.sema.value + 1) % 2 ^ 32 + s.downs + 2 ^ 32 * k := by
    by_cases hmax : s.sema.value + 1 = 2 ^ 32
    · exact ⟨k + 1, by rw [hmax, Nat.mod_self]; omega⟩
    · exact ⟨k, by rw [Nat.mod_eq_of_lt (by omega)]; omega⟩
  have hmod : (s.sema.value + 1) % 2 ^ 32 < 2 ^ 32 := Nat.mod_lt _ (by decide)
  cases hw : s.sema.waiters with
  | nil =>
    have hs : s.up = { s with sema := { s.sema with value := (s.sema.value + 1) % 2 ^ 32 }, ups := s.ups + 1 } := by
      simp [St.up, semaUp, hw]
    rw [hs]
    exact ⟨l, hcount, hmod, h.waiting, h.woken, fun hne => absurd hw hne⟩
  | cons t rest =>
    have hs : s.up = { s with sema := ⟨(s.sema.value + 1) % 2 ^ 32, rest⟩,
                              pc := update s.pc t .woken, ups := s.ups + 1 } := by
      simp [St.up, semaUp, hw]
    have hwait : Lists (t :: rest) fun u => s.pc u = .blocked := hw ▸ h.waiting
    have ht : s.pc t = .blocked := hwait.mem.mp List.mem_cons_self
    rw [hs]
    refine ⟨t :: l, hcount, hmod, hwait.pop fun u => ?_, h.woken.cons (by simp [ht]) fun u => ?_, fun _ => ?_⟩
    · by_cases hu : u = t <;> simp [hu]
    · by_cases hu : u = t <;> simp [hu]
    · have := h.enough (by simp [hw])
      have := Nat.mod_le (s.sema.value + 1) (2 ^ 32)
      rw [List.length_cons]
      dsimp only
      omega

theorem Inv.step {s' : St τ} {a : Act τ} (h : Inv value s l) (hs : (machine τ value).step s a = some s') :
    ∃ l', Inv value s' l' := by
  cases a with
  | down t =>
    obtain ⟨ht, rfl⟩ : s.pc t = .out ∧ s.test t = s' := by simpa [machine] using hs
    exact ⟨_, h.test (by simp [ht])⟩
  | resume t =>
    obtain ⟨ht, rfl⟩ : s.pc t = .woken ∧ s.test t = s' := by simpa [machine] using hs
    exact ⟨_, h.test (by simp [ht])⟩
  | tryDown =>
    cases hs
    exact ⟨l, h.tryDown⟩
  | up =>
    cases hs
    exact h.up

/-- In every run from `sema_init (&sema, value)`: the value is the initial
value plus completed ups minus completed downs in 32 bits, downs never exceed
what was there, and a positive value with threads waiting is matched by as
many woken threads. -/
theorem semaphore_counts (τ : Type) [DecidableEq τ] (value : Nat) (hvalue : value < 2 ^ 32) (s : St τ)
    (hr : (machine τ value).Reachable s) :
    s.sema.value + s.downs ≡ value + s.ups [MOD 2 ^ 32] ∧ s.downs ≤ value + s.ups ∧ s.sema.value < 2 ^ 32 ∧
    (0 < s.sema.value → s.sema.waiters ≠ [] →
      ∃ l : List τ, l.Nodup ∧ (∀ t ∈ l, s.pc t = .woken) ∧ s.sema.value ≤ l.length) := by
  have hinv : ∃ l, Inv value s l := by
    refine hr.invariant (I := fun s => ∃ l, Inv value s l) ?_ ?_
    · rintro s rfl
      exact ⟨[], .init hvalue⟩
    · rintro s a s' ⟨l, h⟩ - hs
      exact h.step hs
  obtain ⟨l, h⟩ := hinv
  obtain ⟨k, hk⟩ := h.count
  refine ⟨?_, by omega, h.lt, fun _ hne => ?_⟩
  · rw [hk]
    exact (Nat.add_mul_mod_self_left ..).symm
  · exact ⟨l, h.woken.1, fun t ht => h.woken.mem.mp ht, h.enough hne⟩

/-- Two threads wait, `sema_up` wakes the first, and a third call takes the
value before it runs. -/
def barging : List (Act Nat) := [.down 0, .down 1, .up, .tryDown, .up, .resume 0]

theorem semaphore_counts_barging : ∃ s : St Nat, (machine Nat 0).exec ⟨semaInit 0, fun _ => .out, 0, 0⟩ barging =
    some s ∧ s.sema.value + s.downs ≡ 0 + s.ups [MOD 2 ^ 32] := by
  obtain ⟨s, hs⟩ : ∃ s, (machine Nat 0).exec ⟨semaInit 0, fun _ => .out, 0, 0⟩ barging = some s := ⟨_, rfl⟩
  have hr := Machine.reach_exec (fun _ _ => trivial) (.init rfl) hs
  exact ⟨s, hs, (semaphore_counts Nat 0 (by decide) s hr).1⟩

/-- `sema_up` on the largest value gives zero. -/
theorem semaphore_wraps : ∃ s : St Nat, (machine Nat (2 ^ 32 - 1)).Reachable s ∧
    s.sema.value + s.downs ≠ 2 ^ 32 - 1 + s.ups := by
  refine ⟨_, .step .up (.init rfl) trivial rfl, ?_⟩
  decide

end Pintos.Synch
