import Pintos.L2Code.Timer

/-!
# The alarm clock

A thread in `wait_list` has semaphore 0 and waits for its wake-up time; the
interrupt that removes it raises the semaphore once, and the thread takes the
value back when it returns.

* `alarm_clock`: in every run `wait_list` is sorted and has no thread twice,
  no thread returns early, an interrupt wakes exactly the threads whose time
  has come, and `timer_sema` is 0 outside `timer_sleep`.
-/
namespace Pintos.Timer

open Pintos.Core Pintos.Synch Function List

variable {τ : Type} {s s' : St τ} {t u : τ}

/-! ## Arithmetic of the tick count -/

theorem wrap64_of_inInt64 {x : Int} (h : InInt64 x) : wrap64 x = x := by
  unfold InInt64 at h
  unfold wrap64
  omega

theorem wrap64_succ (x : Int) : wrap64 (wrap64 x + 1) = wrap64 (x + 1) := by
  unfold wrap64
  omega

/-- A wake-up time that is reached, even after the counter wrapped, was not
reached early. -/
theorem elapsed_of_reached {c₀ c : Nat} {n : Int} (hc : c₀ ≤ c) (h : wrap64 c₀ + n ≤ wrap64 c) :
    (c₀ : Int) + n ≤ c := by
  unfold wrap64 at h
  omega

/-! ## The invariant -/

/-- The thread is listed under the tick count at its call plus `n`. -/
def Listed (s : St τ) (t : τ) : Prop :=
  t ∈ s.waitList ∧ s.wakeupTime t = wrap64 (s.call t).count + (s.call t).n

/-- At least `n` interrupts have come since the call. -/
def Elapsed (s : St τ) (t : τ) : Prop := ((s.call t).count : Int) + (s.call t).n ≤ s.count

def ThreadOk (s : St τ) (t : τ) : Prop :=
  match s.pc t with
  | .user => t ∉ s.waitList ∧ s.timerSema t = ⟨0, []⟩
  | .read now => t ∉ s.waitList ∧ s.timerSema t = ⟨0, []⟩ ∧ now = wrap64 (s.call t).count ∧
      InInt64 (now + (s.call t).n)
  | .stored => t ∉ s.waitList ∧ s.timerSema t = ⟨0, []⟩ ∧
      s.wakeupTime t = wrap64 (s.call t).count + (s.call t).n
  | .inserted => Listed s t ∧ s.timerSema t = ⟨0, []⟩ ∨ t ∉ s.waitList ∧ s.timerSema t = ⟨1, []⟩ ∧ Elapsed s t
  | .blocked => Listed s t ∧ s.timerSema t = ⟨0, [t]⟩
  | .woken => t ∉ s.waitList ∧ s.timerSema t = ⟨1, []⟩ ∧ Elapsed s t

/-- Sorted by wake-up time; equal times in any order. -/
def Sorted (s : St τ) : Prop := s.waitList.Pairwise fun a b => s.wakeupTime a ≤ s.wakeupTime b

structure Inv (s : St τ) : Prop where
  ticks : s.ticks = wrap64 s.count
  called : ∀ t, (s.call t).count ≤ s.count
  sorted : Sorted s
  nodup : s.waitList.Nodup
  thread : ∀ t, ThreadOk s t

theorem Inv.init : Inv (timerInit τ) where
  ticks := (wrap64_of_inInt64 (show InInt64 0 by decide)).symm
  called _ := Nat.le_refl 0
  sorted := .nil
  nodup := .nil
  thread _ := ⟨not_mem_nil, rfl⟩

/-- A thread for which the step changed nothing but the time. -/
theorem ThreadOk.frame (h : ThreadOk s u) (hpc : s'.pc u = s.pc u) (hsema : s'.timerSema u = s.timerSema u)
    (htime : s'.wakeupTime u = s.wakeupTime u) (hcall : s'.call u = s.call u) (hcount : s.count ≤ s'.count)
    (hmem : u ∈ s'.waitList ↔ u ∈ s.waitList) : ThreadOk s' u := by
  have hlisted : Listed s u → Listed s' u := fun h => ⟨hmem.mpr h.1, by rw [htime, hcall, h.2]⟩
  have helapsed : Elapsed s u → Elapsed s' u := by
    unfold Elapsed
    rw [hcall]
    omega
  unfold ThreadOk at h ⊢
  rw [hpc]
  cases hp : s.pc u <;> rw [hp] at h <;> dsimp only at h ⊢
  case user => exact ⟨mt hmem.mp h.1, hsema.trans h.2⟩
  case read now => exact ⟨mt hmem.mp h.1, hsema.trans h.2.1, by rw [hcall]; exact h.2.2⟩
  case stored => exact ⟨mt hmem.mp h.1, hsema.trans h.2.1, by rw [hcall, htime]; exact h.2.2⟩
  case inserted =>
    refine h.imp (fun h => ⟨hlisted h.1, hsema.trans h.2⟩) fun h => ?_
    exact ⟨mt hmem.mp h.1, hsema.trans h.2.1, helapsed h.2.2⟩
  case blocked => exact ⟨hlisted h.1, hsema.trans h.2⟩
  case woken => exact ⟨mt hmem.mp h.1, hsema.trans h.2.1, helapsed h.2.2⟩

/-- A listed thread, with its semaphore and its place. -/
theorem ThreadOk.of_mem (h : ThreadOk s t) (ht : t ∈ s.waitList) :
    s.wakeupTime t = wrap64 (s.call t).count + (s.call t).n ∧
    (s.timerSema t = ⟨0, []⟩ ∧ s.pc t = .inserted ∨ s.timerSema t = ⟨0, [t]⟩ ∧ s.pc t = .blocked) := by
  unfold ThreadOk at h
  cases hp : s.pc t <;> rw [hp] at h <;> dsimp only at h
  case user => exact absurd ht h.1
  case read => exact absurd ht h.1
  case stored => exact absurd ht h.1
  case inserted =>
    rcases h with ⟨hl, hs⟩ | ⟨hn, -⟩
    · exact ⟨hl.2, .inl ⟨hs, rfl⟩⟩
    · exact absurd ht hn
  case blocked => exact ⟨h.1.2, .inr ⟨h.2, rfl⟩⟩
  case woken => exact absurd ht h.1

/-! ## The threads' steps -/

theorem mem_listInsertOrdered {less : τ → τ → Bool} {l : List τ} : u ∈ listInsertOrdered less t l ↔ u = t ∨ u ∈ l :=
  mem_orderedInsert _

/-- The new element goes behind those that are not greater. -/
theorem pairwise_listInsertOrdered (time : τ → Int) {l : List τ} (h : l.Pairwise fun a b => time a ≤ time b) :
    (listInsertOrdered (compareThreadsByWakeupTime time) t l).Pairwise fun a b => time a ≤ time b := by
  induction l with
  | nil => exact pairwise_singleton ..
  | cons b l ih =>
    obtain ⟨hb, hl⟩ := pairwise_cons.mp h
    by_cases hlt : time t < time b
    · have hs : listInsertOrdered (compareThreadsByWakeupTime time) t (b :: l) = t :: b :: l := by
        simp [listInsertOrdered, compareThreadsByWakeupTime, hlt]
      rw [hs]
      refine pairwise_cons.mpr ⟨fun c hc => ?_, h⟩
      rcases mem_cons.mp hc with rfl | hc
      · exact Int.le_of_lt hlt
      · exact Int.le_trans (Int.le_of_lt hlt) (hb c hc)
    · have hs : listInsertOrdered (compareThreadsByWakeupTime time) t (b :: l) =
          b :: listInsertOrdered (compareThreadsByWakeupTime time) t l := by
        simp [listInsertOrdered, compareThreadsByWakeupTime, hlt]
      rw [hs]
      refine pairwise_cons.mpr ⟨fun c hc => ?_, ih hl⟩
      rcases mem_listInsertOrdered.mp hc with rfl | hc
      · exact Int.not_lt.mp hlt
      · exact hb c hc

variable [DecidableEq τ]

theorem Inv.sleep (h : Inv s) {n : Int} (hpc : s.pc t = .user) (hfits : InInt64 (s.ticks + n)) :
    Inv { s with pc := update s.pc t (.read s.ticks), call := update s.call t ⟨s.count, n⟩ } := by
  refine { h with called := fun u => ?_, thread := fun u => ?_ }
  · by_cases hu : u = t
    · subst hu
      simp
    · simpa [hu] using h.called u
  · by_cases hu : u = t
    · subst hu
      have hok := h.thread u
      unfold ThreadOk at hok ⊢
      rw [hpc] at hok
      simp only [update_self]
      exact ⟨hok.1, hok.2, h.ticks, hfits⟩
    · exact (h.thread u).frame (by simp [hu]) rfl rfl (by simp [hu]) (Nat.le_refl _) Iff.rfl

theorem Inv.store (h : Inv s) {now : Int} (hpc : s.pc t = .read now) :
    Inv { s with wakeupTime := update s.wakeupTime t (wrap64 (now + (s.call t).n))
                 pc := update s.pc t .stored } := by
  have hok := h.thread t
  unfold ThreadOk at hok
  rw [hpc] at hok
  obtain ⟨hnot, hsema, hnow, hfits⟩ := hok
  refine { h with sorted := ?_, thread := fun u => ?_ }
  · -- the thread is not in the list yet
    refine h.sorted.imp_of_mem fun {a b} ha hb hab => ?_
    have hat : a ≠ t := fun he => hnot (he ▸ ha)
    have hbt : b ≠ t := fun he => hnot (he ▸ hb)
    simpa [hat, hbt] using hab
  · by_cases hu : u = t
    · subst hu
      unfold ThreadOk
      simp only [update_self]
      exact ⟨hnot, hsema, by rw [wrap64_of_inInt64 hfits, hnow]⟩
    · exact (h.thread u).frame (by simp [hu]) rfl (by simp [hu]) rfl (Nat.le_refl _) Iff.rfl

theorem Inv.insert (h : Inv s) (hpc : s.pc t = .stored) :
    Inv { s with waitList := listInsertOrdered (compareThreadsByWakeupTime s.wakeupTime) t s.waitList
                 pc := update s.pc t .inserted } := by
  have hok := h.thread t
  unfold ThreadOk at hok
  rw [hpc] at hok
  obtain ⟨hnot, hsema, htime⟩ := hok
  refine { h with sorted := pairwise_listInsertOrdered _ h.sorted, nodup := ?_, thread := fun u => ?_ }
  · exact (perm_orderedInsert _ t s.waitList).nodup_iff.mpr (nodup_cons.mpr ⟨hnot, h.nodup⟩)
  · by_cases hu : u = t
    · subst hu
      unfold ThreadOk
      simp only [update_self]
      exact .inl ⟨⟨mem_listInsertOrdered.mpr (.inl rfl), htime⟩, hsema⟩
    · exact (h.thread u).frame (by simp [hu]) rfl rfl rfl (Nat.le_refl _) (by simp [mem_listInsertOrdered, hu])

/-- A test of `sema_down` finds the value 0 only while the thread is listed;
otherwise it takes the value, and `n` ticks have passed. -/
theorem test_eq (h : ThreadOk s t) (hpc : s.pc t = .inserted ∨ s.pc t = .woken) :
    Listed s t ∧ s.test t = { s with timerSema := update s.timerSema t ⟨0, [t]⟩
                                     pc := update s.pc t .blocked } ∨
    t ∉ s.waitList ∧ Elapsed s t ∧ s.test t = { s with timerSema := update s.timerSema t ⟨0, []⟩
                                                       pc := update s.pc t .user } := by
  unfold ThreadOk at h
  have hraised : t ∉ s.waitList ∧ s.timerSema t = ⟨1, []⟩ ∧ Elapsed s t → t ∉ s.waitList ∧ Elapsed s t ∧
      s.test t = { s with timerSema := update s.timerSema t ⟨0, []⟩, pc := update s.pc t .user } :=
    fun ⟨hn, hs, he⟩ => ⟨hn, he, by simp [St.test, semaDown, hs]⟩
  rcases hpc with hp | hp <;> rw [hp] at h
  · rcases h with ⟨hl, hs⟩ | h
    · exact .inl ⟨hl, by simp [St.test, semaDown, hs]⟩
    · exact .inr (hraised h)
  · exact .inr (hraised h)

theorem Inv.test (h : Inv s) (hpc : s.pc t = .inserted ∨ s.pc t = .woken) : Inv (s.test t) := by
  rcases test_eq (h.thread t) hpc with ⟨hl, hs⟩ | ⟨hn, -, hs⟩
  · rw [hs]
    refine { h with thread := fun u => ?_ }
    by_cases hu : u = t
    · subst hu
      unfold ThreadOk
      simp only [update_self]
      exact ⟨hl, trivial⟩
    · exact (h.thread u).frame (by simp [hu]) (by simp [hu]) rfl rfl (Nat.le_refl _) Iff.rfl
  · rw [hs]
    refine { h with thread := fun u => ?_ }
    by_cases hu : u = t
    · subst hu
      unfold ThreadOk
      simp only [update_self]
      exact ⟨hn, trivial⟩
    · exact (h.thread u).frame (by simp [hu]) (by simp [hu]) rfl rfl (Nat.le_refl _) Iff.rfl

theorem Inv.run (h : Inv s) (hs : s.run t = some s') : Inv s' := by
  unfold St.run at hs
  cases hpc : s.pc t <;> rw [hpc] at hs <;> cases hs
  case read now => exact h.store hpc
  case stored => exact h.insert hpc
  case inserted => exact h.test (.inl hpc)
  case woken => exact h.test (.inr hpc)

theorem Inv.elapsed_of_return (h : Inv s) (hs : s.run t = some s') (hret : s'.pc t = .user) : Elapsed s t := by
  have htest : (s.pc t = .inserted ∨ s.pc t = .woken) → (s.test t).pc t = .user → Elapsed s t := by
    intro hpc hret
    rcases test_eq (h.thread t) hpc with ⟨-, hs⟩ | ⟨-, he, -⟩
    · simp [hs] at hret
    · exact he
  unfold St.run at hs
  cases hpc : s.pc t <;> rw [hpc] at hs <;> cases hs
  case read => simp at hret
  case stored => simp at hret
  case inserted => exact htest (.inl hpc) hret
  case woken => exact htest (.inr hpc) hret

/-! ## The interrupt -/

/-- What the loop of the handler does: the expired threads of `l` get one
`sema_up` each, which wakes those that sleep, and the others stay listed. -/
structure Wakes (s : St τ) (l : List τ) (s' : St τ) : Prop where
  list : s'.waitList = l.filter fun t => s.ticks < s.wakeupTime t
  ticks : s'.ticks = s.ticks
  time : s'.wakeupTime = s.wakeupTime
  count : s'.count = s.count
  call : s'.call = s.call
  raised : ∀ t ∈ l, s.wakeupTime t ≤ s.ticks → s'.timerSema t = (semaUp (s.timerSema t)).1 ∧
    s'.pc t = if (s.timerSema t).waiters = [] then s.pc t else .woken
  kept : ∀ t, ¬ (t ∈ l ∧ s.wakeupTime t ≤ s.ticks) → s'.timerSema t = s.timerSema t ∧ s'.pc t = s.pc t

/-- The fields `sema_up` leaves alone. -/
theorem up_same (s : St τ) (t : τ) : (s.up t).waitList = s.waitList ∧ (s.up t).ticks = s.ticks ∧
    (s.up t).wakeupTime = s.wakeupTime ∧ (s.up t).count = s.count ∧ (s.up t).call = s.call := by
  unfold St.up
  split <;> exact ⟨rfl, rfl, rfl, rfl, rfl⟩

theorem timerSema_up (s : St τ) (t : τ) :
    (s.up t).timerSema = update s.timerSema t (semaUp (s.timerSema t)).1 := by
  unfold St.up
  split <;> simp_all

/-- Only the thread itself sleeps on its semaphore. -/
theorem pc_up (h : (s.timerSema t).waiters = [] ∨ (s.timerSema t).waiters = [t]) (u : τ) :
    (s.up t).pc u = if u = t ∧ (s.timerSema t).waiters ≠ [] then .woken else s.pc u := by
  rcases h with hw | hw
  · simp [St.up, semaUp, hw]
  · by_cases hu : u = t
    · simp [St.up, semaUp, hw, hu]
    · simp [St.up, semaUp, hw, hu]

theorem wakeExpired_wakes {l : List τ} (hsorted : l.Pairwise fun a b => s.wakeupTime a ≤ s.wakeupTime b)
    (hnodup : l.Nodup) (hsema : ∀ t ∈ l, (s.timerSema t).waiters = [] ∨ (s.timerSema t).waiters = [t]) :
    Wakes s l (wakeExpired s l) := by
  induction l generalizing s with
  | nil => exact ⟨rfl, rfl, rfl, rfl, rfl, nofun, fun _ _ => ⟨rfl, rfl⟩⟩
  | cons t l ih =>
    obtain ⟨hle, hsorted⟩ := pairwise_cons.mp hsorted
    obtain ⟨hnot, hnodup⟩ := nodup_cons.mp hnodup
    unfold wakeExpired
    split
    next hlt =>
      -- the list is sorted, so nobody behind `t` is due either
      have hall : ∀ u ∈ t :: l, s.ticks < s.wakeupTime u := by
        intro u hu
        rcases mem_cons.mp hu with rfl | hu
        · exact hlt
        · exact Int.lt_of_lt_of_le hlt (hle u hu)
      refine ⟨?_, rfl, rfl, rfl, rfl, fun u hu hdue => ?_, fun _ _ => ⟨rfl, rfl⟩⟩
      · exact (filter_eq_self.mpr fun u hu => decide_eq_true (hall u hu)).symm
      · exact absurd (hall u hu) (Int.not_lt.mpr hdue)
    next hge =>
      obtain ⟨-, hticks, htime, hcount, hcall⟩ := up_same s t
      have hup := pc_up (hsema t mem_cons_self)
      have hother : ∀ u, u ≠ t → (s.up t).timerSema u = s.timerSema u ∧ (s.up t).pc u = s.pc u := fun u hu =>
        ⟨by rw [timerSema_up, update_of_ne hu], by rw [hup, if_neg fun h => hu h.1]⟩
      have hne : ∀ u ∈ l, u ≠ t := fun u hu he => hnot (he ▸ hu)
      have hw : Wakes (s.up t) l (wakeExpired (s.up t) l) := by
        refine ih (by rw [htime]; exact hsorted) hnodup fun u hu => ?_
        rw [(hother u (hne u hu)).1]
        exact hsema u (mem_cons_of_mem _ hu)
      have htail := hw.list
      rw [hticks, htime] at htail
      refine ⟨?_, hw.ticks.trans hticks, hw.time.trans htime, hw.count.trans hcount, hw.call.trans hcall,
        fun u hu hdue => ?_, fun u hu => ?_⟩
      · rw [htail, filter_cons_of_neg (by simpa using hge)]
      · rcases mem_cons.mp hu with rfl | hul
        · have hk := hw.kept u fun h => hnot h.1
          rw [hk.1, hk.2, timerSema_up, update_self, hup]
          by_cases hnil : (s.timerSema u).waiters = [] <;> simp [hnil]
        · have hr := hw.raised u hul (by rw [hticks, htime]; exact hdue)
          rw [(hother u (hne u hul)).1, (hother u (hne u hul)).2] at hr
          exact hr
      · have hut : u ≠ t := by
          rintro rfl
          exact hu ⟨mem_cons_self, Int.not_lt.mp hge⟩
        have hk := hw.kept u (by rw [hticks, htime]; exact fun h => hu ⟨mem_cons_of_mem _ h.1, h.2⟩)
        exact ⟨hk.1.trans (hother u hut).1, hk.2.trans (hother u hut).2⟩

/-- The state in which the loop of the handler starts. -/
def St.tick (s : St τ) : St τ := { s with ticks := wrap64 (s.ticks + 1), count := s.count + 1 }

theorem Inv.wakes (h : Inv s) : Wakes s.tick s.waitList (timerInterrupt s) := by
  refine wakeExpired_wakes h.sorted h.nodup fun t ht => ?_
  rcases ((h.thread t).of_mem ht).2 with ⟨hs, -⟩ | ⟨hs, -⟩
  · exact .inl (congrArg Sema.waiters hs)
  · exact .inr (congrArg Sema.waiters hs)

theorem Inv.raised (h : Inv s) (ht : t ∈ s.waitList) (hdue : s.wakeupTime t ≤ s.tick.ticks) :
    (timerInterrupt s).timerSema t = (semaUp (s.timerSema t)).1 ∧
    (timerInterrupt s).pc t = if (s.timerSema t).waiters = [] then s.pc t else .woken :=
  h.wakes.raised t ht hdue

theorem Inv.interrupt (h : Inv s) : Inv (timerInterrupt s) := by
  have hw := h.wakes
  have hticks : s.tick.ticks = wrap64 (s.count + 1 : Nat) := by
    change wrap64 (s.ticks + 1) = _
    rw [h.ticks, wrap64_succ]
    rfl
  have hcount : (timerInterrupt s).count = s.count + 1 := hw.count
  have hmem : ∀ u, u ∈ (timerInterrupt s).waitList ↔ u ∈ s.waitList ∧ s.tick.ticks < s.wakeupTime u := by
    intro u
    rw [hw.list, mem_filter, decide_eq_true_eq]
    rfl
  refine ⟨?_, fun u => ?_, ?_, ?_, fun u => ?_⟩
  · rw [hw.ticks, hcount, hticks]
  · rw [hw.call, hcount]
    exact Nat.le_succ_of_le (h.called u)
  · unfold Sorted
    rw [hw.list, hw.time]
    exact Pairwise.filter _ h.sorted
  · rw [hw.list]
    exact h.nodup.filter _
  · by_cases hdue : u ∈ s.waitList ∧ s.wakeupTime u ≤ s.tick.ticks
    · obtain ⟨htime, hplace⟩ := (h.thread u).of_mem hdue.1
      have helapsed : Elapsed (timerInterrupt s) u := by
        unfold Elapsed
        rw [hw.call, hcount]
        refine elapsed_of_reached (Nat.le_succ_of_le (h.called u)) ?_
        rw [← hticks]
        exact htime ▸ hdue.2
      have hout : u ∉ (timerInterrupt s).waitList := fun hm => by
        have := ((hmem u).mp hm).2
        omega
      obtain ⟨hsema, hpc⟩ := h.raised hdue.1 hdue.2
      rcases hplace with ⟨hs, hp⟩ | ⟨hs, hp⟩
      · have hpc' : (timerInterrupt s).pc u = .inserted := by
          rw [hpc, hs, if_pos rfl, hp]
        unfold ThreadOk
        rw [hpc']
        exact .inr ⟨hout, by rw [hsema, hs]; rfl, helapsed⟩
      · have hpc' : (timerInterrupt s).pc u = .woken := by
          rw [hpc, hs, if_neg (cons_ne_nil _ _)]
        unfold ThreadOk
        rw [hpc']
        exact ⟨hout, by rw [hsema, hs]; rfl, helapsed⟩
    · obtain ⟨hsema, hpc⟩ := hw.kept u hdue
      refine (h.thread u).frame hpc hsema (by rw [hw.time]; rfl) (by rw [hw.call]; rfl) (by rw [hcount]; omega) ?_
      rw [hmem]
      exact ⟨And.left, fun hm => ⟨hm, Int.not_le.mp fun hle => hdue ⟨hm, hle⟩⟩⟩

theorem Inv.step {a : Act τ} (h : Inv s) (hfits : Fits s a) (hs : step s a = some s') : Inv s' := by
  cases a with
  | sleep t n =>
    unfold Timer.step at hs
    dsimp only at hs
    split at hs <;> cases hs
    next hpc => exact h.sleep hpc hfits
  | run t => exact h.run hs
  | interrupt =>
    cases hs
    exact h.interrupt

/-! ## The result -/

/-- `call t` has the number of interrupts at the call and the argument `n`; the
counter `ticks` is the number of interrupts in 64 bits. -/
theorem alarm_clock (τ : Type) [DecidableEq τ] (s : St τ) (hr : (machine τ).Reach Fits s) :
    Sorted s ∧ s.waitList.Nodup ∧
    (∀ t, s.pc t = .user → (s.timerSema t).value = 0) ∧
    s.ticks = wrap64 s.count ∧
    (∀ t s', step s (.run t) = some s' → s'.pc t = .user → ((s.call t).count : Int) + (s.call t).n ≤ s.count) ∧
    ∃ s', step s .interrupt = some s' ∧ s'.ticks = wrap64 (s.ticks + 1) ∧
      s'.waitList = (s.waitList.filter fun t => s'.ticks < s.wakeupTime t) ∧
      ∀ t, if t ∈ s.waitList ∧ s.wakeupTime t ≤ s'.ticks
        then s'.timerSema t = (semaUp (s.timerSema t)).1 ∧ (s.timerSema t).value = 0 ∧
          (s.pc t = .blocked → s'.pc t = .woken)
        else s'.timerSema t = s.timerSema t ∧ s'.pc t = s.pc t := by
  have h : Inv s := by
    refine hr.invariant ?_ fun s a s' h hfits hs => h.step hfits hs
    rintro s rfl
    exact .init
  refine ⟨h.sorted, h.nodup, fun t ht => ?_, h.ticks, fun t s' hs hret => ?_, _, rfl, h.wakes.ticks, ?_, fun t => ?_⟩
  · have hok := h.thread t
    unfold ThreadOk at hok
    rw [ht] at hok
    exact congrArg Sema.value hok.2
  · exact h.elapsed_of_return hs hret
  · rw [h.wakes.ticks]
    exact h.wakes.list
  · rw [h.wakes.ticks]
    split
    next hdue =>
      obtain ⟨hsema, hpc⟩ := h.raised hdue.1 hdue.2
      have hplace := ((h.thread t).of_mem hdue.1).2
      refine ⟨hsema, ?_, fun hb => ?_⟩
      · rcases hplace with ⟨hs, -⟩ | ⟨hs, -⟩ <;> exact congrArg Sema.value hs
      · rcases hplace with ⟨-, hp⟩ | ⟨hs, -⟩
        · rw [hb] at hp
          cases hp
        · rw [hpc, hs, if_neg (cons_ne_nil _ _)]
    next hdue => exact h.wakes.kept t hdue

/-- Thread 0 sleeps for two ticks, thread 1 for a negative time; the interrupt
comes before thread 1 sleeps. -/
def twoSleepers : List (Act Nat) :=
  [.sleep 0 2, .run 0, .run 0, .run 0, .sleep 1 (-5), .run 1, .run 1, .interrupt]

theorem alarm_clock_two_sleepers : ∃ s : St Nat,
    (machine Nat).execIf (fun s a => decide (Fits s a)) (timerInit Nat) twoSleepers = some s ∧
    s.waitList = [0] ∧ s.pc 0 = .blocked ∧ (s.timerSema 1).value = 1 ∧ Sorted s := by
  obtain ⟨s, hs, hl, h0, h1⟩ : ∃ s,
      (machine Nat).execIf (fun s a => decide (Fits s a)) (timerInit Nat) twoSleepers = some s ∧
      s.waitList = [0] ∧ s.pc 0 = .blocked ∧ (s.timerSema 1).value = 1 := ⟨_, rfl, rfl, rfl, rfl⟩
  have hr := Machine.reach_execIf (fun _ _ => of_decide_eq_true) (.init rfl) hs
  exact ⟨s, hs, hl, h0, h1, (alarm_clock Nat s hr).1⟩

end Pintos.Timer
