import Pintos.Core.Queue
import Pintos.L2Code.Lock

/-!
# The invariant of a lock

The semaphore is 1 if no thread owns the lock and 0 if one does; owning starts
with the decrement and ends with the increment, so it spans the windows in
which `holder` is null. Most steps leave the owner as it is
(`Inv.of_same_owner`); `Inv.take` and `Inv.give` are the two that do not.
-/
namespace Pintos.Lock

open Pintos.Core Pintos.Synch Function

variable {τ : Type} [DecidableEq τ]

/-- The thread has taken the semaphore and not given it back. -/
def Pc.Owns : Pc → Prop
  | .got | .held | .leave | .cleared => True
  | _ => False

/-- `holder` names the thread. -/
def Pc.Stored : Pc → Prop
  | .held | .leave => True
  | _ => False

structure Inv (s : St τ) : Prop where
  waiting : Lists s.sema.waiters fun t => s.pc t = .blocked
  value : s.sema.value = 0 ∧ (∃ t, (s.pc t).Owns) ∨ s.sema.value = 1 ∧ ∀ t, ¬ (s.pc t).Owns
  owner : ∀ t u, (s.pc t).Owns → (s.pc u).Owns → t = u
  holder : ∀ t, s.holder = some t ↔ (s.pc t).Stored
  passed : ∀ t, s.pc t ≠ .failed

variable {s s' : St τ} {t : τ}

@[simp] theorem pc_setPc_self (s : St τ) (t : τ) (p : Pc) : (s.setPc t p).pc t = p := update_self ..

@[simp] theorem pc_setPc_ne (s : St τ) {t u : τ} (h : u ≠ t) (p : Pc) : (s.setPc t p).pc u = s.pc u :=
  update_of_ne h ..

theorem pc_setPc (s : St τ) (t u : τ) (p : Pc) : (s.setPc t p).pc u = if u = t then p else s.pc u :=
  update_apply ..

theorem Pc.Stored.owns {p : Pc} (h : p.Stored) : p.Owns := by
  cases p <;> trivial

omit [DecidableEq τ] in
theorem Inv.init : Inv (lockInit τ) :=
  ⟨lists_nil nofun, .inr ⟨rfl, fun _ => id⟩, fun _ _ h => h.elim, fun _ => ⟨nofun, False.elim⟩, nofun⟩

/-- A step of `t` that keeps the owner. -/
theorem Inv.of_same_owner {p : Pc} (h : Inv s) (hsema : s'.sema.value = s.sema.value)
    (hpc : s'.pc = update s.pc t p) (hwaiting : Lists s'.sema.waiters fun u => s'.pc u = .blocked)
    (howns : p.Owns ↔ (s.pc t).Owns) (hholder : ∀ u, s'.holder = some u ↔ (s'.pc u).Stored) (hp : p ≠ .failed) :
    Inv s' := by
  have hsame : ∀ u, (s'.pc u).Owns ↔ (s.pc u).Owns := by
    intro u
    rw [hpc, update_apply]
    split
    next hu => rw [hu, howns]
    next => rfl
  refine ⟨hwaiting, ?_, fun u v hu hv => h.owner u v ((hsame u).mp hu) ((hsame v).mp hv), hholder, fun u => ?_⟩
  · rw [hsema]
    simpa only [hsame] using h.value
  · rw [hpc, update_apply]
    split
    · exact hp
    · exact h.passed u

/-- A thread that neither owns the lock nor waits for it. -/
theorem Inv.move {p : Pc} (h : Inv s) (ht : ¬ (s.pc t).Owns) (hb : s.pc t ≠ .blocked) (hp : ¬ p.Owns)
    (hpb : p ≠ .blocked) (hpf : p ≠ .failed) : Inv (s.setPc t p) := by
  refine h.of_same_owner rfl rfl (h.waiting.congr fun u => ?_) (iff_of_false hp ht) (fun u => ?_) hpf
  · by_cases hu : u = t <;> simp [hu, hb, hpb]
  · rw [pc_setPc]
    split
    next hu =>
      subst hu
      exact iff_of_false (fun he => ht ((h.holder u).mp he).owns) fun hs => hp hs.owns
    next => exact h.holder u

/-- A thread that is queued for the semaphore. -/
theorem Inv.queue (h : Inv s) (ht : ¬ (s.pc t).Owns) (hb : s.pc t ≠ .blocked) :
    Inv ({ s with sema := { s.sema with waiters := s.sema.waiters ++ [t] } }.setPc t .blocked) := by
  refine h.of_same_owner rfl rfl (h.waiting.push hb fun u => ?_) (iff_of_false id ht) (fun u => ?_) nofun
  · by_cases hu : u = t <;> simp [hu]
  · rw [pc_setPc]
    split
    next hu =>
      subst hu
      exact iff_of_false (fun he => ht ((h.holder u).mp he).owns) id
    next => exact h.holder u

/-- A thread takes the semaphore. -/
theorem Inv.take (h : Inv s) (hv : s.sema.value ≠ 0) (hb : s.pc t ≠ .blocked) :
    Inv ({ s with sema := { s.sema with value := s.sema.value - 1 } }.setPc t .got) := by
  obtain ⟨h1, hfree⟩ : s.sema.value = 1 ∧ ∀ t, ¬ (s.pc t).Owns :=
    h.value.resolve_left fun h0 => hv h0.1
  have honly : ∀ u, (({ s with sema := { s.sema with value := s.sema.value - 1 } }.setPc t .got).pc u).Owns →
      u = t := by
    intro u hu
    rw [pc_setPc] at hu
    split at hu
    next hut => exact hut
    next => exact absurd hu (hfree u)
  refine ⟨h.waiting.congr fun u => ?_, .inl ⟨?_, t, ?_⟩, fun u v hu hv => ?_, fun u => ?_, fun u => ?_⟩
  · by_cases hu : u = t <;> simp [hu, hb]
  · change s.sema.value - 1 = 0
    omega
  · rw [pc_setPc_self]
    trivial
  · rw [honly u hu, honly v hv]
  · refine iff_of_false (fun he => hfree u ((h.holder u).mp he).owns) fun hs => ?_
    rw [honly u hs.owns, pc_setPc_self] at hs
    exact hs
  · rw [pc_setPc]
    split
    · nofun
    · exact h.passed u

theorem Inv.down (h : Inv s) (ht : ¬ (s.pc t).Owns) (hb : s.pc t ≠ .blocked) : Inv (s.down t) := by
  by_cases hv : s.sema.value = 0
  · have hs : s.down t = { s with sema := { s.sema with waiters := s.sema.waiters ++ [t] } }.setPc t .blocked := by
      simp [St.down, semaDown, hv]
    rw [hs]
    exact h.queue ht hb
  · have hs : s.down t = { s with sema := { s.sema with value := s.sema.value - 1 } }.setPc t .got := by
      simp [St.down, semaDown, hv]
    rw [hs]
    exact h.take hv hb

theorem Inv.tryDown (h : Inv s) (ht : ¬ (s.pc t).Owns) (hb : s.pc t ≠ .blocked) : Inv (s.tryDown t) := by
  by_cases hv : 0 < s.sema.value
  · have hs : s.tryDown t = { s with sema := { s.sema with value := s.sema.value - 1 } }.setPc t .got := by
      simp [St.tryDown, semaTryDown, hv]
    rw [hs]
    exact h.take (by omega) hb
  · have hs : s.tryDown t = s.setPc t .out := by simp [St.tryDown, semaTryDown, hv]
    rw [hs]
    exact h.move ht hb id nofun nofun

/-- The owner gives the semaphore back; the thread that is unblocked is not
the owner yet. -/
theorem Inv.give (h : Inv s) (ht : s.pc t = .cleared) : Inv (s.up t) := by
  have howns : (s.pc t).Owns := by
    rw [ht]
    trivial
  have h0 : s.sema.value = 0 := by
    rcases h.value with h0 | ⟨-, hfree⟩
    · exact h0.1
    · exact absurd howns (hfree t)
  have hvalue : (s.sema.value + 1) % 2 ^ 32 = 1 := by omega
  have hnone : ∀ u, u ≠ t → ¬ (s.pc u).Owns := fun u hu ho => hu (h.owner u t ho howns)
  have hfree : ∀ u, s.holder ≠ some u := by
    intro u hu
    obtain rfl : u = t := h.owner u t ((h.holder u).mp hu).owns howns
    have := (h.holder u).mp hu
    rw [ht] at this
    exact this
  -- nobody owns the lock afterwards
  have hgive : ∀ s' : St τ, s'.sema.value = 1 → s'.holder = s.holder →
      (Lists s'.sema.waiters fun u => s'.pc u = .blocked) →
      (∀ u, s'.pc u = .out ∨ s'.pc u = .woken ∨ u ≠ t ∧ s'.pc u = s.pc u) → Inv s' := by
    intro s' hv hh hw hpc
    have hno : ∀ u, ¬ (s'.pc u).Owns := by
      intro u ho
      rcases hpc u with hu | hu | ⟨hne, hu⟩ <;> rw [hu] at ho
      · exact ho
      · exact ho
      · exact hnone u hne ho
    refine ⟨hw, .inr ⟨hv, hno⟩, fun u v hu => absurd hu (hno u), fun u => ?_, fun u => ?_⟩
    · exact iff_of_false (hh ▸ hfree u) fun hs => hno u hs.owns
    · rcases hpc u with hu | hu | ⟨-, hu⟩ <;> rw [hu]
      · nofun
      · nofun
      · exact h.passed u
  cases hw : s.sema.waiters with
  | nil =>
    have hs : s.up t = { s with sema := { s.sema with value := (s.sema.value + 1) % 2 ^ 32 } }.setPc t .out := by
      simp [St.up, semaUp, hw]
    rw [hs]
    refine hgive _ hvalue rfl (h.waiting.congr fun u => ?_) fun u => ?_
    · by_cases hu : u = t <;> simp [hu, ht]
    · by_cases hu : u = t <;> simp [hu]
  | cons w rest =>
    have hs : s.up t = ({ s with sema := ⟨(s.sema.value + 1) % 2 ^ 32, rest⟩ }.setPc t .out).setPc w .woken := by
      simp [St.up, semaUp, hw]
    have hwait : Lists (w :: rest) fun u => s.pc u = .blocked := hw ▸ h.waiting
    have hwb : s.pc w = .blocked := hwait.mem.mp List.mem_cons_self
    have hwt : w ≠ t := by
      rintro rfl
      rw [hwb] at ht
      cases ht
    rw [hs]
    refine hgive _ hvalue rfl (hwait.pop fun u => ?_) fun u => ?_
    · rw [pc_setPc, pc_setPc]
      by_cases hu : u = w
      · simp [hu]
      · by_cases hut : u = t <;> simp [hu, hut, ht, hwt.symm]
    · rw [pc_setPc, pc_setPc]
      by_cases hu : u = w
      · simp [hu]
      · by_cases hut : u = t <;> simp [hu, hut, hwt.symm]

/-- `holder` is stored or cleared by the owner. -/
theorem Inv.store {p : Pc} {o : Option τ} (h : Inv s) (ht : (s.pc t).Owns) (hp : p.Owns)
    (ho : o = some t ∧ p.Stored ∨ o = none ∧ ¬ p.Stored) : Inv ({ s with holder := o }.setPc t p) := by
  have hb : s.pc t ≠ .blocked := fun he => by rw [he] at ht; exact ht
  have hpb : p ≠ .blocked := fun he => by rw [he] at hp; exact hp
  refine h.of_same_owner rfl rfl (h.waiting.congr fun u => ?_) (iff_of_true hp ht) (fun u => ?_) fun he => ?_
  · by_cases hu : u = t <;> simp [hu, hb, hpb]
  · have hother : u ≠ t → ¬ (s.pc u).Stored := fun hu hs => hu (h.owner u t hs.owns ht)
    rw [pc_setPc]
    rcases ho with ⟨rfl, hs⟩ | ⟨rfl, hs⟩
    · by_cases hu : u = t
      · simp [St.setPc, hu, hs]
      · simpa [St.setPc, hu, Ne.symm hu] using hother hu
    · by_cases hu : u = t
      · simp [St.setPc, hu, hs]
      · simpa [St.setPc, hu] using hother hu
  · rw [he] at hp
    exact hp

theorem Inv.run (h : Inv s) (hs : s.run t = some s') : Inv s' := by
  unfold St.run at hs
  cases hpc : s.pc t <;> rw [hpc] at hs <;> cases hs
  case enter => exact h.down (by simp [hpc, Pc.Owns]) (by simp [hpc])
  case tryEnter => exact h.tryDown (by simp [hpc, Pc.Owns]) (by simp [hpc])
  case woken => exact h.down (by simp [hpc, Pc.Owns]) (by simp [hpc])
  case got => exact h.store (by simp [hpc, Pc.Owns]) trivial (.inl ⟨rfl, trivial⟩)
  case leave => exact h.store (by simp [hpc, Pc.Owns]) trivial (.inr ⟨rfl, id⟩)
  case cleared => exact h.give hpc

/-- The assertions at the start of the functions hold. -/
theorem Inv.not_held (h : Inv s) (ht : s.pc t = .out) : lockHeldByCurrentThread s t = false := by
  refine decide_eq_false fun he => ?_
  have hstored := (h.holder t).mp he
  rw [ht] at hstored
  exact hstored

theorem Inv.held (h : Inv s) (ht : s.pc t = .held) : lockHeldByCurrentThread s t = true := by
  refine decide_eq_true ((h.holder t).mpr ?_)
  rw [ht]
  trivial

theorem Inv.step {a : Act τ} (h : Inv s) (hs : step s a = some s') : Inv s' := by
  cases a with
  | acquire t =>
    obtain ⟨ht, rfl⟩ : s.pc t = .out ∧ s.setPc t (if lockHeldByCurrentThread s t then .failed else .enter) = s' := by
      simpa [Lock.step] using hs
    rw [h.not_held ht]
    exact h.move (by simp [ht, Pc.Owns]) (by simp [ht]) id nofun nofun
  | tryAcquire t =>
    obtain ⟨ht, rfl⟩ : s.pc t = .out ∧ s.setPc t (if lockHeldByCurrentThread s t then .failed else .tryEnter) = s' := by
      simpa [Lock.step] using hs
    rw [h.not_held ht]
    exact h.move (by simp [ht, Pc.Owns]) (by simp [ht]) id nofun nofun
  | release t =>
    obtain ⟨ht, rfl⟩ : s.pc t = .held ∧ s.setPc t (if lockHeldByCurrentThread s t then .leave else .failed) = s' := by
      simpa [Lock.step] using hs
    rw [h.held ht]
    have hholder : s.holder = some t := of_decide_eq_true (h.held ht)
    have hstore := h.store (p := .leave) (o := some t) (by simp [ht, Pc.Owns]) trivial (.inl ⟨rfl, trivial⟩)
    rwa [← hholder] at hstore
  | run t => exact h.run hs

/-! ## One thread's way through the functions -/

/-- In `lock_release`, or just before or after it. -/
def Pc.Releasing : Pc → Prop
  | .held | .leave | .cleared | .out => True
  | _ => False

/-- In `lock_acquire`, or just before or after it. -/
def Pc.Acquiring : Pc → Prop
  | .out | .enter | .blocked | .woken | .got | .held => True
  | _ => False

theorem pc_down (s : St τ) (t : τ) : (s.down t).pc t = .got ∨ (s.down t).pc t = .blocked := by
  unfold St.down
  split
  · exact .inl (pc_setPc_self ..)
  · exact .inr (pc_setPc_self ..)

theorem Inv.pc_up (h : Inv s) (ht : s.pc t = .cleared) : (s.up t).pc t = .out := by
  cases hw : s.sema.waiters with
  | nil => simp [St.up, semaUp, hw]
  | cons w rest =>
    have hwb : s.pc w = .blocked := h.waiting.mem.mp (hw ▸ List.mem_cons_self)
    have htw : t ≠ w := by
      rintro rfl
      rw [hwb] at ht
      cases ht
    simp [St.up, semaUp, hw, htw]

theorem Inv.releasing_step (h : Inv s) (hs : Lock.step s (.release t) = some s') : (s'.pc t).Releasing := by
  obtain ⟨ht, rfl⟩ : s.pc t = .held ∧ s.setPc t (if lockHeldByCurrentThread s t then .leave else .failed) = s' := by
    simpa [Lock.step] using hs
  rw [h.held ht, pc_setPc_self]
  trivial

theorem Inv.releasing_run (h : Inv s) (ht : (s.pc t).Releasing) (hs : s.run t = some s') : (s'.pc t).Releasing := by
  unfold St.run at hs
  cases hpc : s.pc t <;> rw [hpc] at hs ht <;> cases hs <;> try exact ht.elim
  case leave =>
    rw [pc_setPc_self]
    trivial
  case cleared =>
    rw [h.pc_up hpc]
    trivial

theorem Inv.acquiring_step (h : Inv s) (hs : Lock.step s (.acquire t) = some s') : (s'.pc t).Acquiring := by
  obtain ⟨ht, rfl⟩ : s.pc t = .out ∧ s.setPc t (if lockHeldByCurrentThread s t then .failed else .enter) = s' := by
    simpa [Lock.step] using hs
  rw [h.not_held ht, pc_setPc_self]
  trivial

theorem acquiring_run (ht : (s.pc t).Acquiring) (hs : s.run t = some s') : (s'.pc t).Acquiring := by
  unfold St.run at hs
  cases hpc : s.pc t <;> rw [hpc] at hs ht <;> cases hs <;> try exact ht.elim
  case got =>
    rw [pc_setPc_self]
    trivial
  all_goals
    rcases pc_down s t with hp | hp <;> rw [hp] <;> trivial

theorem Inv.run_other {u : τ} (h : Inv s) (hs : s.run t = some s') (hu : u ≠ t) :
    s'.pc u = s.pc u ∨ s.pc u = .blocked ∧ s'.pc u = .woken := by
  unfold St.run at hs
  cases hpc : s.pc t <;> rw [hpc] at hs <;> cases hs
  case tryEnter =>
    unfold St.tryDown
    split <;> exact .inl (pc_setPc_ne _ hu _)
  case got => exact .inl (pc_setPc_ne _ hu _)
  case leave => exact .inl (pc_setPc_ne _ hu _)
  case cleared =>
    cases hw : s.sema.waiters with
    | nil => simp [St.up, semaUp, hw, hu]
    | cons w rest =>
      have hwb : s.pc w = .blocked := h.waiting.mem.mp (hw ▸ List.mem_cons_self)
      by_cases huw : u = w
      · subst huw
        exact .inr ⟨hwb, by simp [St.up, semaUp, hw]⟩
      · exact .inl (by simp [St.up, semaUp, hw, hu, huw])
  all_goals
    unfold St.down
    split <;> exact .inl (pc_setPc_ne _ hu _)

/-- A step moves another thread only by unblocking it. -/
theorem Inv.step_other {a : Act τ} {u : τ} (h : Inv s) (hs : Lock.step s a = some s') (hu : u ≠ a.thread) :
    s'.pc u = s.pc u ∨ s.pc u = .blocked ∧ s'.pc u = .woken := by
  cases a with
  | acquire t =>
    obtain ⟨-, rfl⟩ : _ ∧ s.setPc t (if lockHeldByCurrentThread s t then .failed else .enter) = s' := by
      simpa [Lock.step] using hs
    exact .inl (pc_setPc_ne s hu _)
  | tryAcquire t =>
    obtain ⟨-, rfl⟩ : _ ∧ s.setPc t (if lockHeldByCurrentThread s t then .failed else .tryEnter) = s' := by
      simpa [Lock.step] using hs
    exact .inl (pc_setPc_ne s hu _)
  | release t =>
    obtain ⟨-, rfl⟩ : _ ∧ s.setPc t (if lockHeldByCurrentThread s t then .leave else .failed) = s' := by
      simpa [Lock.step] using hs
    exact .inl (pc_setPc_ne s hu _)
  | run t => exact h.run_other hs hu

end Pintos.Lock
