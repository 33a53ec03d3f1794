import Pintos.Core.Trace
import Pintos.L2Code.Ide
import Pintos.L3Proof.LockInv

/-!
# Completion of disk commands

Nothing sets `expecting_interrupt` back to false, so after the first command
the handler takes every interrupt for the answer to a command.

* `stray_interrupt`: an interrupt between two reads makes the second one
  return from `sema_down` before its command is answered.
* `completion_matched`: as long as each interrupt arrives while a command is
  outstanding, or finds `expecting_interrupt` false, the semaphore counts the
  answer to the command in flight and nothing else.
-/
namespace Pintos.Ide

open Pintos.Core Pintos.Synch

variable {τ : Type} {s s' : St τ} {t u : τ}

/-! ## The invariant -/

/-- How far a thread with a command in flight is with its `sema_down`. -/
inductive Wait
  | running
  | blocked
  | woken
  deriving DecidableEq

def Pc.wait : Pc → Option Wait
  | .output | .down _ => some .running
  | .blocked _ => some .blocked
  | .woken _ => some .woken
  | _ => none

/-- The two levels of a thread's position agree. -/
def Pc.Agrees : Pc → Lock.Pc → Prop
  | .user, p => p = .out
  | .acquire _, p => p.Acquiring
  | .release, p => p.Releasing
  | _, p => p = .held

/-- The command of `t` is outstanding. -/
structure Pending (s : St τ) (t : τ) (w : Wait) : Prop where
  outstanding : s.outstanding = some (s.cmd t)
  completion : s.completion = ⟨0, if w = .blocked then [t] else []⟩
  wait : w ≠ .woken

/-- The command of `t` has been answered, and its `sema_down` has not returned. -/
structure Answered (s : St τ) (t : τ) (w : Wait) : Prop where
  outstanding : s.outstanding = none
  completion : s.completion = ⟨1, []⟩
  wait : w ≠ .blocked
  log : Ev.interrupt (s.cmd t) ∈ s.log

structure Inv (s : St τ) : Prop where
  lock : Lock.Inv s.lock
  agrees : ∀ t, (s.pc t).Agrees (s.lock.pc t)
  idle : (∀ t, (s.pc t).wait = none) → s.completion = ⟨0, []⟩ ∧ s.outstanding = none
  wait : ∀ t w, (s.pc t).wait = some w → Pending s t w ∨ Answered s t w
  command : ∀ t op, s.pc t = .command op → s.expecting = true
  expecting : ∀ n, s.outstanding = some n → s.expecting = true ∧ Ev.issued n ∈ s.log
  issued : Precedes Ev.issued Ev.interrupt s.log
  answered : Precedes Ev.interrupt Ev.returned s.log

theorem Inv.init {e : Bool} : Inv (channel τ e) where
  lock := Lock.Inv.init
  agrees _ := rfl
  idle _ := ⟨rfl, rfl⟩
  wait _ _ := nofun
  command _ _ := nofun
  expecting _ := nofun
  issued := precedes_nil
  answered := precedes_nil

theorem Pc.Agrees.held {p : Pc} {q : Lock.Pc} {w : Wait} (h : p.Agrees q) (hw : p.wait = some w) : q = .held := by
  cases p <;> first | exact h | cases hw

/-- Only the thread that holds the lock has a command in flight. -/
theorem Inv.alone (h : Inv s) (ht : s.lock.pc t = .held) {w : Wait} (hu : (s.pc u).wait = some w) : u = t :=
  h.lock.owner u t (by rw [(h.agrees u).held hu]; trivial) (by rw [ht]; trivial)

theorem Inv.quiet (h : Inv s) (ht : s.lock.pc t = .held) (hw : (s.pc t).wait = none) (u : τ) :
    (s.pc u).wait = none := by
  by_contra hu
  obtain ⟨w, hw'⟩ := Option.ne_none_iff_exists'.mp hu
  obtain rfl := h.alone ht hw'
  rw [hw] at hu
  exact hu rfl

/-- A step that does not concern the command in flight. -/
theorem Inv.keep (h : Inv s) (hlock : Lock.Inv s'.lock) (hagrees : ∀ u, (s'.pc u).Agrees (s'.lock.pc u))
    (hwait : ∀ u, (s'.pc u).wait = (s.pc u).wait) (hcommand : ∀ u op, s'.pc u = .command op → s'.expecting = true)
    (hexp : s.expecting = true → s'.expecting = true) (hc : s'.completion = s.completion)
    (ho : s'.outstanding = s.outstanding) (hcmd : s'.cmd = s.cmd) (hlog : s'.log = s.log) : Inv s' where
  lock := hlock
  agrees := hagrees
  idle hn := by
    rw [hc, ho]
    exact h.idle fun u => (hwait u).symm.trans (hn u)
  wait u w hu := by
    rw [hwait u] at hu
    refine (h.wait u w hu).imp (fun hp => ⟨?_, hc.trans hp.completion, hp.wait⟩)
      fun ha => ⟨ho.trans ha.outstanding, hc.trans ha.completion, ha.wait, ?_⟩
    · rw [ho, hcmd]
      exact hp.outstanding
    · rw [hcmd, hlog]
      exact ha.log
  command := hcommand
  expecting n hn := by
    rw [ho] at hn
    rw [hlog]
    exact ⟨hexp (h.expecting n hn).1, (h.expecting n hn).2⟩
  issued := hlog ▸ h.issued
  answered := hlog ▸ h.answered

theorem Inv.record {e : Ev} (h : Inv s) (hint : ∀ n, e ≠ .interrupt n) (hret : ∀ n, e ≠ .returned n) :
    Inv (s.record e) where
  lock := h.lock
  agrees := h.agrees
  idle := h.idle
  wait u w hu := (h.wait u w hu).imp (fun hp => ⟨hp.outstanding, hp.completion, hp.wait⟩)
    fun ha => ⟨ha.outstanding, ha.completion, ha.wait, List.mem_append_left _ ha.log⟩
  command := h.command
  expecting n hn := ⟨(h.expecting n hn).1, List.mem_append_left _ (h.expecting n hn).2⟩
  issued := h.issued.snoc fun n hn => absurd hn (hint n)
  answered := h.answered.snoc fun n hn => absurd hn (hret n)

variable [DecidableEq τ]

@[simp] theorem pc_setPc_self (s : St τ) (t : τ) (p : Pc) : (s.setPc t p).pc t = p := Function.update_self ..

@[simp] theorem pc_setPc_ne (s : St τ) (h : u ≠ t) (p : Pc) : (s.setPc t p).pc u = s.pc u := Function.update_of_ne h ..

/-! ## Steps outside the command -/

/-- The thread goes on to a point of the functions that agrees with its lock. -/
theorem Inv.move {p : Pc} (h : Inv s) (hp : p.Agrees (s.lock.pc t)) (hw : p.wait = (s.pc t).wait)
    (hcommand : ∀ op, p ≠ .command op) : Inv (s.setPc t p) := by
  refine h.keep h.lock (fun u => ?_) (fun u => ?_) (fun u op hu => ?_) id rfl rfl rfl rfl <;> by_cases hut : u = t
  · subst hut
    rw [pc_setPc_self]
    exact hp
  · rw [pc_setPc_ne s hut]
    exact h.agrees u
  · subst hut
    rw [pc_setPc_self, hw]
  · rw [pc_setPc_ne s hut]
  · subst hut
    rw [pc_setPc_self] at hu
    exact absurd hu (hcommand op)
  · rw [pc_setPc_ne s hut] at hu
    exact h.command u op hu

theorem Inv.lockStep {a : Lock.Act τ} (h : Inv s) (hs : s.lockStep a = some s')
    (hown : ∀ l, Lock.step s.lock a = some l → (s.pc a.thread).Agrees (l.pc a.thread)) : Inv s' := by
  obtain ⟨l, hl, rfl⟩ := Option.map_eq_some_iff.mp hs
  refine h.keep (h.lock.step hl) (fun u => ?_) (fun _ => rfl) h.command id rfl rfl rfl rfl
  by_cases hu : u = a.thread
  · subst hu
    exact hown l hl
  · change (s.pc u).Agrees (l.pc u)
    rcases h.lock.step_other hl hu with he | ⟨hb, hw⟩
    · rw [he]
      exact h.agrees u
    · -- only a thread in `lock_acquire` sleeps there
      have ha := h.agrees u
      rw [hb] at ha
      rw [hw]
      cases hp : s.pc u <;> rw [hp] at ha <;> trivial

theorem Inv.call {op : Op} (h : Inv s) (ht : s.pc t = .user) : Inv (s.setPc t (.acquire op)) := by
  have ha := h.agrees t
  rw [ht] at ha
  refine h.move ?_ (by rw [ht]; rfl) nofun
  rw [show s.lock.pc t = .out from ha]
  trivial

theorem Inv.acquire {op : Op} (h : Inv s) (ht : s.pc t = .acquire op)
    (hs : s.lockStep (if s.lock.pc t = .out then .acquire t else .run t) = some s') : Inv s' := by
  have ha := h.agrees t
  rw [ht] at ha
  split at hs
  next =>
    refine h.lockStep hs fun l hl => ?_
    change (s.pc t).Agrees (l.pc t)
    rw [ht]
    exact h.lock.acquiring_step hl
  next =>
    refine h.lockStep hs fun l hl => ?_
    change (s.pc t).Agrees (l.pc t)
    rw [ht]
    exact Lock.acquiring_run ha hl

theorem Inv.release (h : Inv s) (ht : s.pc t = .release)
    (hs : s.lockStep (if s.lock.pc t = .held then .release t else .run t) = some s') : Inv s' := by
  have ha := h.agrees t
  rw [ht] at ha
  split at hs
  next =>
    refine h.lockStep hs fun l hl => ?_
    change (s.pc t).Agrees (l.pc t)
    rw [ht]
    exact h.lock.releasing_step hl
  next =>
    refine h.lockStep hs fun l hl => ?_
    change (s.pc t).Agrees (l.pc t)
    rw [ht]
    exact h.lock.releasing_run ha hl

/-- `expecting_interrupt` is set. -/
theorem Inv.select {op : Op} (h : Inv s) (ht : s.pc t = .select op) :
    Inv ({ s with expecting := true }.setPc t (.command op)) := by
  have ha := h.agrees t
  rw [ht] at ha
  refine h.keep h.lock (fun u => ?_) (fun u => ?_) (fun _ _ _ => rfl) (fun _ => rfl) rfl rfl rfl rfl <;>
    by_cases hut : u = t
  · subst hut
    rw [pc_setPc_self]
    exact ha
  · rw [pc_setPc_ne _ hut]
    exact h.agrees u
  · subst hut
    rw [pc_setPc_self, ht]
    rfl
  · rw [pc_setPc_ne _ hut]

/-! ## The command in flight -/

/-- A step of the thread with the command in flight, or the interrupt that
answers it. -/
theorem Inv.flight {w : Option Wait} (h : Inv s) (ht : s.lock.pc t = .held) (hlock : s'.lock = s.lock)
    (hother : ∀ u, u ≠ t → s'.pc u = s.pc u) (hcommand : ∀ op, s'.pc t ≠ .command op)
    (hagrees : (s'.pc t).Agrees .held) (hw : (s'.pc t).wait = w)
    (hidle : w = none → s'.completion = ⟨0, []⟩ ∧ s'.outstanding = none)
    (hwait : ∀ v, w = some v → Pending s' t v ∨ Answered s' t v) (hexp : s'.expecting = s.expecting)
    (hnew : ∀ n, s'.outstanding = some n → s.expecting = true ∧ Ev.issued n ∈ s'.log)
    (hissued : Precedes Ev.issued Ev.interrupt s'.log) (hanswered : Precedes Ev.interrupt Ev.returned s'.log) :
    Inv s' where
  lock := hlock ▸ h.lock
  agrees u := by
    rw [hlock]
    by_cases hu : u = t
    · subst hu
      rw [ht]
      exact hagrees
    · rw [hother u hu]
      exact h.agrees u
  idle hn := hidle (hw.symm.trans (hn t))
  wait u v hv := by
    by_cases hu : u = t
    · subst hu
      exact hwait v (hw.symm.trans hv)
    · rw [hother u hu] at hv
      exact absurd (h.alone ht hv) hu
  command u op hop := by
    by_cases hu : u = t
    · subst hu
      exact absurd hop (hcommand op)
    · rw [hother u hu] at hop
      rw [hexp]
      exact h.command u op hop
  expecting n hn := by
    rw [hexp]
    exact hnew n hn
  issued := hissued
  answered := hanswered

theorem Inv.issue {op : Op} (h : Inv s) (ht : s.pc t = .command op) : Inv (s.issue t op) := by
  have ha : s.lock.pc t = .held := by
    have ha := h.agrees t
    rwa [ht] at ha
  obtain ⟨hc, -⟩ := h.idle (h.quiet ha (by rw [ht]; rfl))
  have hpc : (s.issue t op).pc t = op.next := pc_setPc_self ..
  refine h.flight (w := some .running) ha rfl (fun u hu => pc_setPc_ne _ hu _) ?_ ?_ ?_ nofun
    (fun v hv => .inl ⟨?_, ?_, ?_⟩) rfl (fun n hn => ?_) (h.issued.snoc nofun) (h.answered.snoc nofun)
  · intro op'
    rw [hpc]
    cases op <;> nofun
  · rw [hpc]
    cases op <;> rfl
  · rw [hpc]
    cases op <;> rfl
  · exact congrArg some (Function.update_self t s.issued s.cmd).symm
  · cases hv
    exact hc
  · cases hv
    nofun
  · cases hn
    exact ⟨h.command t op ht, List.mem_append_right _ List.mem_cons_self⟩

/-- One test of `sema_down`: it returns if the command has been answered. -/
theorem Inv.test {op : Op} {w : Wait} (h : Inv s) (ht : (s.pc t).wait = some w) (hw : w ≠ .blocked) :
    Inv (s.test t op) := by
  have ha := (h.agrees t).held ht
  rcases h.wait t w ht with hp | hd
  · have hc : s.completion = ⟨0, []⟩ := by rw [hp.completion, if_neg hw]
    have htest : s.test t op = { s with completion := ⟨0, [t]⟩ }.setPc t (.blocked op) := by
      simp [St.test, semaDown, hc]
    rw [htest]
    refine h.flight (w := some .blocked) ha rfl (fun u hu => pc_setPc_ne _ hu _) (by simp) ?_ (by simp [Pc.wait])
      (fun h => by cases h)
      (fun v hv => .inl ⟨hp.outstanding, ?_, ?_⟩) rfl h.expecting h.issued h.answered
    · rw [pc_setPc_self]
      rfl
    · cases hv
      rfl
    · cases hv
      exact Wait.noConfusion
  · have htest : s.test t op =
        ({ s with completion := ⟨0, []⟩ }.record (.returned (s.cmd t))).setPc t op.after := by
      simp [St.test, semaDown, hd.completion]
    have hpc : (s.test t op).pc t = op.after := by rw [htest, pc_setPc_self]
    rw [htest] at hpc ⊢
    refine h.flight (w := none) ha rfl (fun u hu => pc_setPc_ne _ hu _) ?_ ?_ ?_ (fun _ => ⟨rfl, hd.outstanding⟩)
      (fun _ h => by cases h)
      rfl (fun n hn => ?_) (h.issued.snoc fun _ h => by cases h) (h.answered.snoc fun n hn => ?_)
    · intro op'
      rw [hpc]
      cases op <;> (intro h; cases h)
    · rw [hpc]
      cases op <;> first | rfl | trivial
    · rw [hpc]
      cases op <;> rfl
    · exact absurd (hd.outstanding.symm.trans hn) (fun h => by cases h)
    · cases hn
      exact hd.log

/-- The interrupt that answers the outstanding command. -/
theorem Inv.answer {n : Nat} (h : Inv s) (hn : s.outstanding = some n) : Inv s.answer.up := by
  obtain ⟨t, w, ht⟩ : ∃ t w, (s.pc t).wait = some w := by
    by_contra hno
    push Not at hno
    have := (h.idle fun t => Option.eq_none_iff_forall_ne_some.mpr (hno t)).2
    rw [hn] at this
    cases this
  have ha := (h.agrees t).held ht
  have hp : Pending s t w := (h.wait t w ht).resolve_right fun hd => by
    have := hd.outstanding
    rw [hn] at this
    cases this
  obtain rfl : n = s.cmd t := Option.mem_unique hn hp.outstanding
  have hissued := h.issued.snoc (e := .interrupt (s.cmd t)) fun m hm => by
    cases hm
    exact (h.expecting _ hn).2
  have hmem : Ev.interrupt (s.cmd t) ∈ s.log ++ [Ev.interrupt (s.cmd t)] := List.mem_append_right _ List.mem_cons_self
  by_cases hb : w = .blocked
  · subst hb
    obtain ⟨op, hop⟩ : ∃ op, s.pc t = .blocked op := by
      cases hpc : s.pc t <;> rw [hpc] at ht <;> first | exact ⟨_, rfl⟩ | cases ht
    have hup : s.answer.up =
        ({ s with outstanding := none, completion := ⟨1, []⟩ }.record (.interrupt (s.cmd t))).setPc t
        (.woken op) := by
      simp [St.answer, St.up, St.wake, St.record, hn, semaUp, hp.completion, hop]
    rw [hup]
    refine h.flight (w := some .woken) ha rfl (fun u hu => pc_setPc_ne _ hu _) (by simp) ?_ (by simp [Pc.wait])
      (fun h => by cases h)
      (fun v hv => .inr ⟨rfl, rfl, ?_, hmem⟩) rfl (fun _ h => by cases h) hissued
      (h.answered.snoc fun _ h => by cases h)
    · rw [pc_setPc_self]
      rfl
    · cases hv
      intro hw
      cases hw
  · have hup : s.answer.up = { s with outstanding := none, completion := ⟨1, []⟩ }.record (.interrupt (s.cmd t)) := by
      simp [St.answer, St.up, St.record, hn, semaUp, hp.completion, hb]
    rw [hup]
    refine h.flight (w := some w) ha rfl (fun _ _ => rfl) (fun op hop => ?_) ?_ ht (fun h => by cases h)
      (fun v hv => .inr ⟨rfl, rfl, ?_, hmem⟩) rfl (fun _ h => by cases h) hissued
      (h.answered.snoc fun _ h => by cases h)
    · have hpc : s.pc t = .command op := hop
      rw [hpc] at ht
      cases ht
    · rw [← ha]
      exact h.agrees t
    · cases hv
      exact hb

/-! ## Runs -/

theorem Inv.run {drq : Bool} (h : Inv s) (hs : s.run t drq = some s') : Inv s' := by
  have ha := h.agrees t
  have hhalt : Inv { s with halted := true } := h.keep h.lock h.agrees (fun _ => rfl) h.command id rfl rfl rfl rfl
  unfold St.run at hs
  cases hpc : s.pc t with
  | user | blocked op =>
    rw [hpc] at hs
    cases hs
  | acquire op =>
    rw [hpc] at hs
    dsimp only at hs
    split at hs
    next hheld =>
      cases hs
      exact h.move hheld (by rw [hpc]; rfl) nofun
    next => exact h.acquire hpc hs
  | select op =>
    rw [hpc] at hs
    cases hs
    exact h.select hpc
  | command op =>
    rw [hpc] at hs
    cases hs
    exact h.issue hpc
  | output =>
    rw [hpc] at hs ha
    cases hs
    cases drq with
    | false => exact hhalt
    | true => exact h.move ha (by rw [hpc]; rfl) nofun
  | down op =>
    rw [hpc] at hs
    cases hs
    exact h.test (w := .running) (by rw [hpc]; rfl) nofun
  | woken op =>
    rw [hpc] at hs
    cases hs
    exact h.test (w := .woken) (by rw [hpc]; rfl) nofun
  | input =>
    rw [hpc] at hs ha
    cases hs
    cases drq with
    | false => exact hhalt
    | true =>
      refine h.move ?_ (by rw [hpc]; rfl) nofun
      rw [show s.lock.pc t = .held from ha]
      trivial
  | release =>
    rw [hpc] at hs
    dsimp only at hs
    split at hs
    next hout =>
      cases hs
      exact h.move hout (by rw [hpc]; rfl) nofun
    next => exact h.release hpc hs

/-- An interrupt arrives only while a command is outstanding or while
`expecting_interrupt` is false. -/
def Solicited (s : St τ) : Act τ → Prop
  | .interrupt => s.outstanding ≠ none ∨ s.expecting = false
  | _ => True

instance (s : St τ) : DecidablePred (Solicited s)
  | .interrupt => inferInstanceAs (Decidable (_ ∨ _))
  | .call _ _ | .run _ _ => .isTrue trivial

theorem Inv.interrupt (h : Inv s) (hc : Solicited s .interrupt) : Inv s.interruptHandler := by
  unfold St.interruptHandler
  split
  next hexp =>
    obtain ⟨n, hn⟩ := Option.ne_none_iff_exists'.mp (hc.resolve_right (by simp [hexp]))
    exact h.answer hn
  next => exact h.record nofun nofun

theorem Inv.step {a : Act τ} (h : Inv s) (hc : Solicited s a) (hs : step s a = some s') : Inv s' := by
  unfold Ide.step at hs
  split at hs
  next => cases hs
  next =>
    cases a with
    | call t op =>
      obtain ⟨ht, rfl⟩ : s.pc t = .user ∧ s.setPc t (.acquire op) = s' := by simpa using hs
      exact h.call ht
    | run t drq => exact h.run hs
    | interrupt =>
      cases hs
      exact h.interrupt hc

theorem reach_inv (h : (machine τ).Reach Solicited s) : Inv s := by
  refine h.invariant (I := Inv) ?_ fun s a s' hi hc hs => hi.step hc hs
  rintro s ⟨e, rfl⟩
  exact Inv.init

omit [DecidableEq τ] in
/-- No thread has a command in flight while the lock has no holder. -/
theorem Inv.free (h : Inv s) (hfree : s.lock.holder = none) (t : τ) : (s.pc t).wait = none := by
  by_contra hw
  obtain ⟨w, hw⟩ := Option.ne_none_iff_exists'.mp hw
  have hheld := (h.lock.holder t).mpr (by rw [(h.agrees t).held hw]; trivial)
  rw [hfree] at hheld
  cases hheld

/-- In every run whose interrupts are all solicited: a `sema_down` returns
behind an interrupt that came behind its own command, the semaphore is 0 while
the lock is free, and the next interrupt without an outstanding command is
reported and changes nothing exactly if `expecting_interrupt` is false. -/
theorem completion_matched (h : (machine τ).Reach Solicited s) :
    Precedes Ev.issued Ev.interrupt s.log ∧ Precedes Ev.interrupt Ev.returned s.log ∧
    (s.lock.holder = none → s.completion.value = 0) ∧
    (s.outstanding = none → (s.interruptHandler = s.record .unexpected ↔ Solicited s .interrupt)) := by
  have hi := reach_inv h
  refine ⟨hi.issued, hi.answered, fun hfree => ?_, fun hnone => ⟨fun heq => .inr ?_, fun hc => ?_⟩⟩
  · rw [(hi.idle (hi.free hfree)).1]
  · cases hexp : s.expecting with
    | false => rfl
    | true =>
      -- the handler counts the interrupt, and the log shows it
      have hlog : s.interruptHandler.log = s.log ++ [Ev.stray] := by
        simp only [St.interruptHandler, hexp, if_true, St.answer, hnone, St.up, St.record]
        split
        next => unfold St.wake; split <;> rfl
        next => rfl
      rw [heq] at hlog
      simp [St.record] at hlog
  · have hexp : s.expecting = false := hc.resolve_left fun hne => hne hnone
    simp [St.interruptHandler, hexp]

/-- `ide_read` up to its command, and from its `sema_down` to its return. -/
def startRead : List (Act Nat) := .call 0 .read :: List.replicate 6 (.run 0 true)

def finishRead : List (Act Nat) := List.replicate 6 (.run 0 true)

theorem channel_init : (machine Nat).init (channel Nat false) := ⟨false, rfl⟩

theorem completion_matched_read : ∃ s, (machine Nat).Reach Solicited s ∧
    s.log = [.issued 0, .interrupt 0, .returned 0] ∧ s.lock.holder = none ∧
    Precedes Ev.issued Ev.interrupt s.log ∧ Precedes Ev.interrupt Ev.returned s.log ∧
    (s.lock.holder = none → s.completion.value = 0) ∧
    (s.outstanding = none → (s.interruptHandler = s.record .unexpected ↔ Solicited s .interrupt)) := by
  obtain ⟨s, hs, hlog, hfree⟩ : ∃ s, (machine Nat).execIf (fun s a => decide (Solicited s a)) (channel Nat false)
      (startRead ++ .interrupt :: finishRead) = some s ∧ s.log = [.issued 0, .interrupt 0, .returned 0] ∧
      s.lock.holder = none := ⟨_, rfl, by decide, by decide⟩
  have hreach := Machine.reach_execIf (C := Solicited) (fun _ _ => of_decide_eq_true) (.init channel_init) hs
  exact ⟨s, hreach, hlog, hfree, completion_matched hreach⟩

/-- An interrupt behind a read is counted, and the next read returns from
`sema_down` before its command is answered. -/
theorem stray_interrupt : ∃ s s' : St Nat, (machine Nat).Reachable s ∧ (machine Nat).Reachable s' ∧
    s.outstanding = none ∧ s.interruptHandler ≠ s.record .unexpected ∧
    s.interruptHandler.lock.holder = none ∧ s.interruptHandler.completion.value = 1 ∧
    s'.log = [.issued 0, .interrupt 0, .returned 0, .stray, .issued 1, .returned 1] := by
  obtain ⟨s, hs, hnone, hexp, hfree, hvalue⟩ : ∃ s, (machine Nat).exec (channel Nat false)
      (startRead ++ .interrupt :: finishRead) = some s ∧ s.outstanding = none ∧
      s.interruptHandler.log ≠ s.log ++ [.unexpected] ∧ s.interruptHandler.lock.holder = none ∧
      s.interruptHandler.completion.value = 1 := ⟨_, rfl, by decide, by decide, by decide, by decide⟩
  obtain ⟨s', hs', hlog⟩ : ∃ s', (machine Nat).exec (channel Nat false)
      (startRead ++ .interrupt :: finishRead ++ .interrupt :: startRead ++ finishRead) = some s' ∧
      s'.log = [.issued 0, .interrupt 0, .returned 0, .stray, .issued 1, .returned 1] := ⟨_, rfl, by decide⟩
  exact ⟨s, s', Machine.reach_exec (fun _ _ => trivial) (.init channel_init) hs,
    Machine.reach_exec (fun _ _ => trivial) (.init channel_init) hs', hnone, fun he => hexp (congrArg St.log he),
    hfree, hvalue, hlog⟩

end Pintos.Ide
