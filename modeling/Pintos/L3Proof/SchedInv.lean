import Pintos.Core.Queue
import Pintos.L2Code.Sched

/-!
# The invariant of the scheduler

`Queues` relates the lists to `status` and to what each thread is doing; it
holds in the middle of `schedule` too. Between operations exactly `cpu` runs
(`Inv`); when an operation has changed the status of the running thread and
calls `schedule`, nobody does (`Mid`). `schedule_spec` leads from `Mid` back to
`Inv`, and each operation is shown to reach `Mid` or to keep `Inv`.
-/
namespace Pintos.Sched

open Pintos.Core Pintos.Synch Function

variable {τ ι : Type}

/-! ## The invariant -/

/-- A step of `idle`. -/
def Pc.Idle : Pc τ ι → Prop
  | .idleStart | .idleUp | .idleLoop => True
  | _ => False

/-- The status that fits to what a thread is doing; for `idle` see `Queues.idle`. -/
def Pc.Fits : Pc τ ι → Option Status → Prop
  | .user, x => x ≠ some .blocked
  | .block, x | .new, x => x = some .blocked
  | .down _, x => x ≠ none ∧ x ≠ some .dying
  | .create _, x => x = some .running ∨ x = some .ready
  | .idleStart, x => x = some .running ∨ x = some .ready
  | .idleUp, x | .idleLoop, x => x = some .running ∨ x = some .ready ∨ x = some .blocked

variable [DecidableEq τ]

/-- The threads other than `idle` that became ready, in this order. -/
def readied (idle : τ) (log : List (Ev τ)) : List τ :=
  log.filterMap fun
    | .ready t => if t = idle then none else some t
    | _ => none

/-- The threads other than `idle` that were dispatched, in this order. -/
def dispatched (idle : τ) (log : List (Ev τ)) : List τ :=
  log.filterMap fun
    | .dispatch t => if t = idle then none else some t
    | _ => none

/-- The lists. The thread `x`, if any, has been taken from its list and is
about to be unblocked. -/
structure Queues (b : Boot τ ι) (x : Option τ) (s : St τ ι) : Prop where
  ready : Lists s.readyList fun t => s.status t = some .ready ∧ s.idleThread ≠ some t
  waiters : ∀ m, Lists (s.sema m).waiters fun t => some t ≠ x ∧ s.status t = some .blocked ∧ s.pc t = .down m
  idle : s.pc b.idle = .idleStart ∧ s.idleThread = none ∨
    (s.pc b.idle = .idleUp ∨ s.pc b.idle = .idleLoop) ∧ s.idleThread = some b.idle
  notIdle : ∀ t, t ≠ b.idle → ¬ (s.pc t).Idle
  fits : ∀ t, (s.pc t).Fits (s.status t)
  creating : ∀ c t, s.pc c = .create t → some t ≠ x ∧ s.pc t = .new
  creators : ∀ c d t, s.pc c = .create t → s.pc d = .create t → c = d
  fifo : readied b.idle s.log = dispatched b.idle s.log ++ s.readyList.filter (· ≠ b.idle)

structure Inv (b : Boot τ ι) (x : Option τ) (s : St τ ι) : Prop extends Queues b x s where
  running : ∀ t, s.status t = some .running ↔ t = s.cpu
  dying : ∀ t, s.status t = some .dying → t = b.initial

structure Mid (b : Boot τ ι) (s : St τ ι) : Prop extends Queues b none s where
  running : ∀ t, s.status t ≠ some .running
  dying : ∀ t, s.status t = some .dying → t = b.initial ∨ t = s.cpu

attribute [grind] Pc.Idle Pc.Fits Pc.returned
attribute [grind cases] Queues Inv Mid

variable {b : Boot τ ι} {x : Option τ} {s s' : St τ ι} {t u : τ} {m : ι}

theorem readied_append (i : τ) (l₁ l₂ : List (Ev τ)) : readied i (l₁ ++ l₂) = readied i l₁ ++ readied i l₂ :=
  List.filterMap_append

theorem dispatched_append (i : τ) (l₁ l₂ : List (Ev τ)) :
    dispatched i (l₁ ++ l₂) = dispatched i l₁ ++ dispatched i l₂ :=
  List.filterMap_append

theorem Inv.init (value : ι → Nat) : Inv b none (boot b value) where
  ready := by
    refine ⟨List.nodup_singleton _, fun t => ?_⟩
    grind [boot, b.distinct]
  waiters m := lists_nil fun t => by grind [boot]
  idle := .inl (by simp [boot])
  notIdle t ht := by grind [boot]
  fits t := by grind [boot, b.distinct]
  creating c t h := by grind [boot]
  creators c d t h := by grind [boot]
  fifo := by simp [boot, readied, dispatched]
  running t := by grind [boot, b.distinct]
  dying t h := by grind [boot]

theorem Queues.idleThread_eq (h : Queues b x s) (ht : s.idleThread = some t) : t = b.idle := by
  rcases h.idle with ⟨-, hn⟩ | ⟨-, hn⟩ <;> rw [hn] at ht <;> cases ht
  rfl

theorem Queues.idle_pc (h : Queues b x s) : (s.pc b.idle).Idle := by
  rcases h.idle with ⟨hp, -⟩ | ⟨hp | hp, -⟩ <;> rw [hp] <;> trivial

/-- The idle thread is alive, and blocks only in its loop. -/
theorem Queues.idle_status (h : Queues b x s) :
    s.status b.idle = some .running ∨ s.status b.idle = some .ready ∨
      s.status b.idle = some .blocked ∧ s.idleThread = some b.idle := by
  have hfits := h.fits b.idle
  rcases h.idle with ⟨hp, -⟩ | ⟨hp | hp, hi⟩ <;> grind

/-! ## `thread_unblock` -/

variable {p : Pc τ ι} {y : Status}

omit [DecidableEq τ] in
theorem Pc.returned_idle (h : ¬ p.Idle) : ¬ p.returned.Idle := by
  cases p <;> exact h

omit [DecidableEq τ] in
theorem Pc.returned_fits (h : p.Fits (some .blocked)) : p.returned.Fits (some .ready) := by
  cases p <;> simp_all [Pc.returned, Pc.Fits]

omit [DecidableEq τ] in
theorem Pc.create_of_returned (h : p.returned = .create t) : p = .create t := by
  cases p <;> first | exact h | cases h

/-- A thread that is in no list becomes ready. -/
theorem threadUnblock_spec (h : Inv b (some t) s) (ht : s.status t = some .blocked) (hidle : t ≠ b.idle) :
    ∃ s', threadUnblock s t = some s' ∧ Inv b none s' ∧ s'.cpu = s.cpu ∧
      s'.status = update s.status t (some .ready) ∧ s'.log = s.log ++ [.ready t] ∧
      s'.pc = update s.pc t (s.pc t).returned ∧ s'.sema = s.sema := by
  refine ⟨_, if_pos ht, ?_, rfl, rfl, rfl, rfl, rfl⟩
  refine { ready := h.ready.push ?_ fun u => ?_, waiters := fun m => (h.waiters m).congr fun u => ?_, idle := ?_,
           notIdle := ?_, fits := ?_, creating := ?_, creators := ?_, fifo := ?fifo, running := ?_, dying := ?_ }
  case fifo =>
    simp only [readied_append, dispatched_append, h.fifo, List.filter_append, List.append_assoc]
    simp [readied, dispatched, hidle]
  all_goals grind [update_apply, Pc.returned_idle, Pc.returned_fits, Pc.create_of_returned]

/-! ## `schedule` -/

/-- Which thread is chosen. -/
structure Chosen (b : Boot τ ι) (s : St τ ι) (n : τ) (rest : List τ) : Prop where
  next : nextThreadToRun s = (some n, rest)
  status : s.status n = some .ready ∨ n = b.idle ∧ s.status n = some .blocked
  ready : Lists rest fun t => (s.status t = some .ready ∧ s.idleThread ≠ some t) ∧ t ≠ n
  fifo : s.readyList.filter (· ≠ b.idle) = [n].filter (· ≠ b.idle) ++ rest.filter (· ≠ b.idle)

theorem Mid.chosen (h : Mid b s) : ∃ n rest, Chosen b s n rest := by
  have hidle := h.idle_status
  cases hl : s.readyList with
  | cons n rest =>
    have hready := hl ▸ h.ready
    refine ⟨n, rest, by rw [nextThreadToRun, hl], .inl (hready.mem.mp List.mem_cons_self).1,
      hready.pop fun u => Iff.rfl, ?_⟩
    rw [hl, ← List.filter_append]
    rfl
  | nil =>
    -- the idle thread is not waiting in the list, so it has set `idle_thread`
    have hempty : ∀ u, ¬ (s.status u = some .ready ∧ s.idleThread ≠ some u) := fun u hu => by
      simpa [hl] using h.ready.mem.mpr hu
    have hset : s.idleThread = some b.idle := by grind
    exact ⟨b.idle, [], by rw [nextThreadToRun, hl, hset], by grind, lists_nil fun u hu => hempty u hu.1, by simp [hl]⟩

/-- What `schedule` does to the threads: the chosen one runs, and the previous
one is gone if it was dying. -/
structure Switched (b : Boot τ ι) (s s' : St τ ι) : Prop where
  sema : s'.sema = s.sema
  pc : s'.pc = s.pc
  idleThread : s'.idleThread = s.idleThread
  status : ∀ t, s'.status t = if t = s'.cpu then some .running
    else if t = s.cpu ∧ s.status t = some .dying ∧ t ≠ b.initial then none else s.status t
  chosen : s.status s'.cpu = some .ready ∨ s'.cpu = b.idle ∧ s.status s'.cpu = some .blocked
  log : s'.log = s.log ++ (if s'.cpu = s.cpu then [] else [.switch s.cpu s'.cpu]) ++ [.dispatch s'.cpu] ++
    (if s.status s.cpu = some .dying ∧ s.cpu ≠ b.initial then [.free s.cpu s'.cpu] else [])

theorem Chosen.schedule_eq {n : τ} {rest : List τ} (hc : Chosen b s n rest) :
    ∃ s', schedule b s = some s' ∧ s'.readyList = rest ∧ s'.cpu = n ∧ Switched b s s' := by
  have hsome : s.status n ≠ none := by grind [hc.status]
  have halive : s.status n ≠ some .dying := by grind [hc.status]
  unfold schedule
  rw [hc.next]
  dsimp only
  rw [if_neg hsome]
  by_cases hn : n = s.cpu
  · subst hn
    rw [if_pos rfl]
    refine ⟨_, rfl, rfl, rfl, rfl, rfl, rfl, fun t => ?_, hc.status, by simp [threadScheduleTail, halive]⟩
    by_cases ht : t = s.cpu <;> simp [threadScheduleTail, ht]
  · rw [if_neg hn]
    by_cases hd : s.status s.cpu = some .dying ∧ s.cpu ≠ b.initial
    · have htail : threadScheduleTail b { s with readyList := rest, cpu := n, log := s.log ++ [.switch s.cpu n] }
          (some s.cpu) = { s with
            readyList := rest, cpu := n, log := s.log ++ [.switch s.cpu n] ++ [.dispatch n] ++ [.free s.cpu n]
            status := update (update s.status n (some .running)) s.cpu none } := by
        simp [threadScheduleTail, Ne.symm hn, hd]
      rw [htail]
      refine ⟨_, rfl, rfl, rfl, rfl, rfl, rfl, fun t => ?_, hc.status, by simp [hn, hd]⟩
      grind [update_apply]
    · have htail : threadScheduleTail b { s with readyList := rest, cpu := n, log := s.log ++ [.switch s.cpu n] }
          (some s.cpu) = { s with
            readyList := rest, cpu := n, log := s.log ++ [.switch s.cpu n] ++ [.dispatch n]
            status := update s.status n (some .running) } := by
        simp [threadScheduleTail, Ne.symm hn, hd]
      rw [htail]
      refine ⟨_, rfl, rfl, rfl, rfl, rfl, rfl, fun t => ?_, hc.status, by simp [hn, hd]⟩
      grind [update_apply]

omit [DecidableEq τ] in
/-- Only a thread in its own code, or none, can be dying. -/
theorem Pc.fits_none (h : p.Fits (some .dying)) : p.Fits none := by
  cases p <;> simp_all [Pc.Fits]

omit [DecidableEq τ] in
theorem Pc.fits_running {x : Option Status} (h : p.Fits x) (hx : x = some .ready ∨ p.Idle) :
    p.Fits (some .running) := by
  rcases hx with rfl | hx
  · cases p <;> simp_all [Pc.Fits]
  · cases p <;> simp_all [Pc.Fits, Pc.Idle]

theorem Switched.readied_log (h : Switched b s s') (i : τ) : readied i s'.log = readied i s.log := by
  rw [h.log]
  simp only [readied_append]
  split <;> split <;> simp [readied]

theorem Switched.dispatched_log (h : Switched b s s') (i : τ) :
    dispatched i s'.log = dispatched i s.log ++ [s'.cpu].filter (· ≠ i) := by
  have hone : dispatched i [.dispatch s'.cpu] = [s'.cpu].filter (· ≠ i) := by
    by_cases hi : s'.cpu = i <;> simp [dispatched, hi]
  rw [h.log]
  simp only [dispatched_append, hone]
  split <;> split <;> simp [dispatched]

theorem schedule_spec (h : Mid b s) : ∃ s', schedule b s = some s' ∧ Inv b none s' ∧ Switched b s s' := by
  obtain ⟨n, rest, hc⟩ := h.chosen
  obtain ⟨s', hs, hlist, rfl, hsw⟩ := hc.schedule_eq
  refine ⟨s', hs, ?_, hsw⟩
  have hwho : s.status s'.cpu = some .ready ∨ (s.pc s'.cpu).Idle := by grind [hsw.chosen, h.idle_pc]
  have hstatus := hsw.status
  have hpc := congrFun hsw.pc
  refine { ready := hlist ▸ hc.ready.congr fun t => ?_, waiters := fun m => hsw.sema ▸ (h.waiters m).congr fun t => ?_,
           idle := ?_, notIdle := ?_, fits := ?_, creating := ?_, creators := ?_, fifo := ?fifo, running := ?_,
           dying := ?_ }
  case fifo => rw [hsw.readied_log, hsw.dispatched_log, hlist, h.fifo, hc.fifo, List.append_assoc]
  all_goals grind [hsw.idleThread, Pc.fits_none, Pc.fits_running]

/-! ## Operations that call `schedule` -/

theorem Inv.status_cpu (h : Inv b x s) : s.status s.cpu = some .running := (h.running s.cpu).mpr rfl

/-- The running thread changes its status to `y` and its place to `p`. -/
structure Leaves (b : Boot τ ι) (s : St τ ι) (y : Status) (p : Pc τ ι) (s' : St τ ι) : Prop where
  status : s'.status = update s.status s.cpu (some y)
  pc : s'.pc = update s.pc s.cpu p
  cpu : s'.cpu = s.cpu
  idleThread : s'.idleThread = s.idleThread
  notRunning : y ≠ .running
  fits : p.Fits (some y)
  place : p = s.pc s.cpu ∨ ¬ (s.pc s.cpu).Idle ∧ ¬ p.Idle ∧ ∀ v, p ≠ .create v

theorem Leaves.status_at (h : Leaves b s y p s') (t : τ) :
    s'.status t = if t = s.cpu then some y else s.status t := by
  rw [h.status, update_apply]

theorem Leaves.pc_at (h : Leaves b s y p s') (t : τ) :
    s'.pc t = if t = s.cpu then p else s.pc t := by
  rw [h.pc, update_apply]

attribute [grind cases] Leaves

theorem Inv.mid (h : Inv b none s) (hl : Leaves b s y p s')
    (hready : Lists s'.readyList fun t => s'.status t = some .ready ∧ s'.idleThread ≠ some t)
    (hwaiters : ∀ m, Lists (s'.sema m).waiters fun t => s'.status t = some .blocked ∧ s'.pc t = .down m)
    (hfifo : readied b.idle s'.log = dispatched b.idle s'.log ++ s'.readyList.filter (· ≠ b.idle)) : Mid b s' := by
  have hidle := h.idle_pc
  have hstatus := hl.status_at
  have hpc := hl.pc_at
  refine { ready := hready, waiters := fun m => (hwaiters m).congr fun u => by simp, idle := ?_, notIdle := ?_,
           fits := ?_, creating := ?_, creators := ?_, fifo := hfifo, running := ?_, dying := ?_ }
  all_goals grind

/-- The lists when the running thread leaves and is put on none. -/
theorem Inv.ready_same (h : Inv b none s) (hl : Leaves b s y p s')
    (hlist : s'.readyList = s.readyList) (hy : y = .ready → s.idleThread = some s.cpu) :
    Lists s'.readyList fun t => s'.status t = some .ready ∧ s'.idleThread ≠ some t := by
  refine hlist ▸ h.ready.congr fun u => ?_
  grind [hl.status_at u]

theorem Inv.waiters_same (h : Inv b none s) (hl : Leaves b s y p s')
    (hsema : (s'.sema m).waiters = (s.sema m).waiters) (hp : ¬ (y = .blocked ∧ p = .down m)) :
    Lists (s'.sema m).waiters fun t => s'.status t = some .blocked ∧ s'.pc t = .down m := by
  refine hsema ▸ (h.waiters m).congr fun u => ?_
  grind [hl.status_at u, hl.pc_at u]

theorem threadExit_spec (h : Inv b none s) (hp : s.pc s.cpu = .user) :
    ∃ s', threadExit b s = some s' ∧ Inv b none s' ∧ Switched b
      { s with status := update s.status s.cpu (some .dying), log := s.log ++ [.exit s.cpu] } s' := by
  have hl : Leaves b s .dying (s.pc s.cpu) { s with
      status := update s.status s.cpu (some .dying), log := s.log ++ [.exit s.cpu] } :=
    ⟨rfl, (update_eq_self _ _).symm, rfl, rfl, nofun, by rw [hp]; nofun, .inl rfl⟩
  refine schedule_spec (h.mid hl (h.ready_same hl rfl nofun) (fun m => h.waiters_same hl rfl nofun) ?_)
  simp only [readied_append, dispatched_append, h.fifo]
  simp [readied, dispatched]

theorem threadYield_spec (h : Inv b none s) :
    ∃ s', threadYield b s = some s' ∧ Inv b none s' ∧ Switched b
      { s with readyList := if s.idleThread = some s.cpu then s.readyList else s.readyList ++ [s.cpu]
               status := update s.status s.cpu (some .ready), log := s.log ++ [.ready s.cpu] } s' := by
  have hfits : (s.pc s.cpu).Fits (some .ready) := by
    have hf := h.fits s.cpu
    rw [h.status_cpu] at hf
    cases hp : s.pc s.cpu <;> simp_all [Pc.Fits]
  have hl : Leaves b s .ready (s.pc s.cpu) { s with
      readyList := if s.idleThread = some s.cpu then s.readyList else s.readyList ++ [s.cpu]
      status := update s.status s.cpu (some .ready), log := s.log ++ [.ready s.cpu] } :=
    ⟨rfl, (update_eq_self _ _).symm, rfl, rfl, nofun, hfits, .inl rfl⟩
  refine schedule_spec (h.mid hl ?_ (fun m => h.waiters_same hl rfl nofun) ?_)
  · by_cases hi : s.idleThread = some s.cpu
    · exact h.ready_same hl (if_pos hi) fun _ => hi
    · simp only [if_neg hi]
      exact h.ready.push (by grind) fun u => by grind [update_apply]
  · simp only [readied_append, dispatched_append, h.fifo]
    by_cases hi : s.idleThread = some s.cpu
    · have hidle := h.idleThread_eq hi
      simp [readied, dispatched, hi, hidle]
    · rw [if_neg hi, List.filter_append]
      by_cases hidle : s.cpu = b.idle <;> simp [readied, dispatched, hidle]

/-- `thread_block` by a thread that is not on a list of waiters. -/
theorem block_spec (h : Inv b none s) (hfits : p.Fits (some .blocked)) (hdown : ∀ m, p ≠ .down m)
    (hplace : p = s.pc s.cpu ∨ ¬ (s.pc s.cpu).Idle ∧ ¬ p.Idle ∧ ∀ v, p ≠ .create v) :
    ∃ s', threadBlock b { s with pc := update s.pc s.cpu p } = some s' ∧ Inv b none s' ∧ Switched b
      { s with status := update s.status s.cpu (some .blocked), pc := update s.pc s.cpu p } s' := by
  have hl : Leaves b s .blocked p { s with
      status := update s.status s.cpu (some .blocked), pc := update s.pc s.cpu p } :=
    ⟨rfl, rfl, rfl, rfl, nofun, hfits, hplace⟩
  exact schedule_spec (h.mid hl (h.ready_same hl rfl nofun) (fun m => h.waiters_same hl rfl fun hw => hdown m hw.2)
    h.fifo)

variable [DecidableEq ι]

/-- A test of `sema_down`: the value is taken, or the thread is queued. -/
theorem downTest_spec (h : Inv b none s) (hp : s.pc s.cpu = .user ∨ s.pc s.cpu = .down m) :
    0 < (s.sema m).value ∧ (∃ s', downTest b s m = some s' ∧ Inv b none s' ∧
      s' = { s with sema := update s.sema m { s.sema m with value := (s.sema m).value - 1 }
                    pc := update s.pc s.cpu .user }) ∨
    (s.sema m).value = 0 ∧ ∃ s', downTest b s m = some s' ∧ Inv b none s' ∧ Switched b
      { s with sema := update s.sema m { s.sema m with waiters := (s.sema m).waiters ++ [s.cpu] }
               status := update s.status s.cpu (some .blocked)
               pc := update s.pc s.cpu (.down m) } s' := by
  by_cases hv : (s.sema m).value = 0
  · refine .inr ⟨hv, ?_⟩
    have hdown : semaDown (s.sema m) s.cpu = ({ s.sema m with waiters := (s.sema m).waiters ++ [s.cpu] }, false) := by
      simp [semaDown, hv]
    unfold downTest
    rw [hdown]
    have hl : Leaves b s .blocked (.down m) { s with
        sema := update s.sema m { s.sema m with waiters := (s.sema m).waiters ++ [s.cpu] }
        status := update s.status s.cpu (some .blocked), pc := update s.pc s.cpu (.down m) } :=
      ⟨rfl, rfl, rfl, rfl, nofun, ⟨nofun, nofun⟩, .inr ⟨by grind, id, nofun⟩⟩
    refine schedule_spec (h.mid hl (h.ready_same hl rfl nofun) (fun k => ?_) h.fifo)
    by_cases hk : k = m
    · subst hk
      simp only [update_self]
      exact (h.waiters k).push (by grind) fun u => by grind [update_apply]
    · exact h.waiters_same hl (by simp [hk]) fun hw => hk (Pc.down.inj hw.2).symm
  · refine .inl ⟨Nat.pos_of_ne_zero hv, _, by simp [downTest, semaDown, hv], ?_, rfl⟩
    have hsame : ∀ k, (update s.sema m { s.sema m with value := (s.sema m).value - 1 } k).waiters =
        (s.sema k).waiters := fun k => by
      by_cases hk : k = m <;> simp [hk]
    refine { h with waiters := fun k => (hsame k).symm ▸ (h.waiters k).congr fun u => ?_, idle := ?_, notIdle := ?_,
                    fits := ?_, creating := ?_, creators := ?_ }
    all_goals grind [update_apply]

/-- `sema_up`: one more, and the first waiter becomes ready. -/
theorem up_spec (h : Inv b none s) (m : ι) :
    ∃ s', up s m = some s' ∧ Inv b none s' ∧ s'.cpu = s.cpu ∧
      s'.sema = update s.sema m ⟨((s.sema m).value + 1) % 2 ^ 32, (s.sema m).waiters.tail⟩ ∧
      s'.pc = s.pc ∧
      match (s.sema m).waiters with
      | [] => s'.status = s.status ∧ s'.log = s.log
      | t :: _ => s'.status = update s.status t (some .ready) ∧ s'.log = s.log ++ [.ready t] := by
  cases hw : (s.sema m).waiters with
  | nil =>
    refine ⟨{ s with sema := update s.sema m ⟨((s.sema m).value + 1) % 2 ^ 32, []⟩ }, ?_, ?_, rfl, rfl, rfl,
      rfl, rfl⟩
    · simp [up, semaUp, hw]
    · refine { h with waiters := fun k => ?_ }
      have hk := h.waiters k
      by_cases hkm : k = m <;> simp_all
  | cons t rest =>
    obtain ⟨-, ht, hpc⟩ := (h.waiters m).mem.mp (hw ▸ List.mem_cons_self : t ∈ (s.sema m).waiters)
    have hpop : Inv b (some t) { s with sema := update s.sema m ⟨((s.sema m).value + 1) % 2 ^ 32, rest⟩ } := by
      refine { h with waiters := fun k => ?_, creating := by grind }
      by_cases hk : k = m
      · subst hk
        simp only [update_self]
        exact (hw ▸ h.waiters k).pop fun u => by grind
      · simp only [update_of_ne hk]
        exact (h.waiters k).congr fun u => by grind
    obtain ⟨s', hs, hi, hcpu, hstatus, hlog, hpc', hsema⟩ := threadUnblock_spec hpop ht (by grind [h.idle_pc])
    refine ⟨s', by simpa [up, semaUp, hw] using hs, hi, hcpu, hsema, ?_, hstatus, hlog⟩
    rw [hpc']
    simp [hpc, Pc.returned]

/-! ## The other steps -/

omit [DecidableEq ι] in
theorem Inv.create (h : Inv b none s) (hp : s.pc s.cpu = .user) (ht : s.status t = none) :
    Inv b none { s with status := update s.status t (some .blocked)
                        pc := update (update s.pc s.cpu (.create t)) t .new } := by
  have hidle := h.idle_status
  have hcpu := h.status_cpu
  refine { ready := h.ready.congr fun u => ?_, waiters := fun m => (h.waiters m).congr fun u => ?_, idle := ?_,
           notIdle := ?_, fits := ?_, creating := ?_, creators := ?_, fifo := h.fifo, running := ?_, dying := ?_ }
  all_goals grind [update_apply]

omit [DecidableEq ι] in
/-- The creator is about to unblock the new thread. -/
theorem Inv.created (h : Inv b none s) (hp : s.pc s.cpu = .create t) :
    Inv b (some t) { s with pc := update s.pc s.cpu .user } ∧ s.status t = some .blocked ∧ t ≠ b.idle := by
  have hnew := (h.creating _ _ hp).2
  refine ⟨{ h with waiters := fun m => (h.waiters m).congr fun u => ?_, idle := ?_, notIdle := ?_, fits := ?_,
                   creating := ?_, creators := ?_ }, ?_, ?_⟩
  all_goals grind [update_apply]

omit [DecidableEq ι] in
/-- `idle` goes on to the next of its steps. -/
theorem Inv.idleStep (h : Inv b none s) (hi : (s.pc s.cpu).Idle) (hp : p = .idleUp ∨ p = .idleLoop) :
    Inv b none { s with idleThread := some s.cpu, pc := update s.pc s.cpu p } := by
  have hcpu : s.cpu = b.idle := by grind
  refine { h with ready := h.ready.congr fun u => ?_, waiters := fun m => (h.waiters m).congr fun u => ?_, idle := ?_,
                  notIdle := ?_, fits := ?_, creating := ?_, creators := ?_ }
  all_goals grind [update_apply]

omit [DecidableEq ι] in
theorem Inv.idle_set (h : Inv b x s) (hp : s.pc s.cpu = .idleUp) : s.idleThread = some s.cpu := by
  have hcpu : s.cpu = b.idle := by grind
  grind

/-- `thread_unblock` wakes only a thread that has called `thread_block` itself. -/
def SelfBlocked (s : St τ ι) : Act τ ι → Prop
  | .unblock t => s.pc t = .block
  | _ => True

instance (s : St τ ι) : (a : Act τ ι) → Decidable (SelfBlocked s a)
  | .unblock t => inferInstanceAs (Decidable (s.pc t = .block))
  | .create _ | .block | .yield | .exit | .down _ | .up _ | .run => inferInstanceAs (Decidable True)

omit [DecidableEq ι] in
/-- Such a thread is in no list. -/
theorem Inv.exempt (h : Inv b none s) (hp : s.pc t = .block) :
    Inv b (some t) s ∧ s.status t = some .blocked ∧ t ≠ b.idle := by
  refine ⟨{ h with waiters := fun m => (h.waiters m).congr fun u => ?_, creating := ?_ }, ?_, ?_⟩
  all_goals grind

theorem Inv.run (h : Inv b none s) (hs : Sched.run b s = some s') : Inv b none s' := by
  unfold Sched.run at hs
  cases hp : s.pc s.cpu <;> rw [hp] at hs <;> dsimp only at hs
  case user => cases hs
  case block => cases hs
  case new => cases hs
  case down m =>
    rcases downTest_spec h (.inr hp) with ⟨-, s₁, hs₁, hi, -⟩ | ⟨-, s₁, hs₁, hi, -⟩ <;>
      rw [hs₁] at hs <;> cases hs <;> exact hi
  case create t =>
    obtain ⟨hx, ht, hidle⟩ := h.created hp
    obtain ⟨s₁, hs₁, hi, -⟩ := threadUnblock_spec hx ht hidle
    rw [hs₁] at hs
    cases hs
    exact hi
  case idleStart =>
    cases hs
    exact h.idleStep (by rw [hp]; trivial) (.inl rfl)
  case idleUp =>
    have hset := h.idle_set hp
    have hloop := h.idleStep (p := .idleLoop) (by rw [hp]; trivial) (.inr rfl)
    rw [← hset] at hloop
    obtain ⟨s₁, hs₁, hi, -⟩ := up_spec hloop b.idleStarted
    rw [hs₁] at hs
    cases hs
    exact hi
  case idleLoop =>
    obtain ⟨s₁, hs₁, hi, -⟩ := block_spec h (p := s.pc s.cpu) (by rw [hp]; exact .inr (.inr rfl)) (by rw [hp]; nofun)
      (.inl rfl)
    rw [update_eq_self] at hs₁
    rw [hs₁] at hs
    cases hs
    exact hi

theorem Inv.step {a : Act τ ι} (h : Inv b none s) (hc : SelfBlocked s a) (hs : step b s a = some s') :
    Inv b none s' := by
  cases a with
  | create t =>
    obtain ⟨hg, hs⟩ := Option.ite_none_right_eq_some.mp hs
    cases hs
    exact h.create hg.1 hg.2
  | block =>
    obtain ⟨hp, hs⟩ := Option.ite_none_right_eq_some.mp hs
    obtain ⟨s₁, hs₁, hi, -⟩ := block_spec h (p := .block) rfl nofun (.inr ⟨by rw [hp]; exact id, id, nofun⟩)
    rw [hs₁] at hs
    cases hs
    exact hi
  | unblock t =>
    obtain ⟨-, hs⟩ := Option.ite_none_right_eq_some.mp hs
    obtain ⟨hx, ht, hidle⟩ := h.exempt hc
    obtain ⟨s₁, hs₁, hi, -⟩ := threadUnblock_spec hx ht hidle
    rw [hs₁] at hs
    cases hs
    exact hi
  | yield =>
    obtain ⟨-, hs⟩ := Option.ite_none_right_eq_some.mp hs
    obtain ⟨s₁, hs₁, hi, -⟩ := threadYield_spec h
    rw [hs₁] at hs
    cases hs
    exact hi
  | exit =>
    obtain ⟨hp, hs⟩ := Option.ite_none_right_eq_some.mp hs
    obtain ⟨s₁, hs₁, hi, -⟩ := threadExit_spec h hp
    rw [hs₁] at hs
    cases hs
    exact hi
  | down m =>
    obtain ⟨hp, hs⟩ := Option.ite_none_right_eq_some.mp hs
    rcases downTest_spec h (.inl hp) with ⟨-, s₁, hs₁, hi, -⟩ | ⟨-, s₁, hs₁, hi, -⟩ <;>
      rw [hs₁] at hs <;> cases hs <;> exact hi
  | up m =>
    obtain ⟨-, hs⟩ := Option.ite_none_right_eq_some.mp hs
    obtain ⟨s₁, hs₁, hi, -⟩ := up_spec h m
    rw [hs₁] at hs
    cases hs
    exact hi
  | run => exact h.run hs

end Pintos.Sched
