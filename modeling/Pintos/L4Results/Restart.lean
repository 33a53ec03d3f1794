import Pintos.L4Results.FsRefine

/-!
# The file system across restarts

A kernel formats a device and serves calls. After `filesys_done` another kernel
opens the device and serves calls, and so on. `restarts_refine`: over any number
of such sessions the results are those of one abstract file system, which loses
its handles and nothing else at a restart.
-/
namespace Pintos.Fs

open Pintos.Core

/-- A restart closes all handles. -/
def Abs.restart (a : Abs) : Abs := { a with handles := fun _ => none }

/-- The calls of each session on a device, the first of which formats it. -/
inductive Sessions : List (List Event) → St → Prop
  | format {dev : Nat} {disk : Nat → Block} {bits : Nat → Bool} {evs : List Event} {s t : St} (hdev : dev < maxSectors)
      (he : filesysInit bits true (powerOn dev disk []) = .ok ((), s)) (hrun : Trace s evs t) : Sessions [evs] t
  | again {log : List (List Event)} {bits : Nat → Bool} {evs : List Event} {s t u v : St} (h : Sessions log s)
      (hdone : filesysDone s = .ok ((), t)) (he : filesysInit bits false (powerOn t.devSize t.disk []) = .ok ((), u))
      (hrun : Trace u evs v) : Sessions (log ++ [evs]) v

inductive Abs.Sessions : List (List Event) → Abs → Prop
  | format {evs : List Event} {a : Abs} (hrun : Abs.Trace .empty evs a) : Abs.Sessions [evs] a
  | again {log : List (List Event)} {evs : List Event} {a b : Abs} (h : Abs.Sessions log a)
      (hrun : Abs.Trace a.restart evs b) : Abs.Sessions (log ++ [evs]) b

variable {s t : St} {a : Abs} {log : List (List Event)} {evs : List Event}

theorem Trace.run (h : Trace s evs t) : Run s t := by
  induction h with
  | nil => exact .refl _
  | call _ _ hv he ih => exact ih.call hv he

/-- The directory and the files are read from the device alone. -/
theorem Sim.restart (h : Sim s a) (hw : Wf t noHold) (hm : t.mem = []) (hdisk : t.disk = s.disk)
    (hh : ∀ g, ¬ t.Handle g) : Sim t a.restart := by
  have hslot : t.slot = s.slot := by
    funext k
    simp only [St.slot, St.root, St.dinode, hdisk]
  have hhas : t.Has = s.Has := by
    funext name k
    simp only [St.Has, hslot]
  have hfile : ∀ g f, t.files g = some f → t.freeMapFile = some g := by
    intro g f hf
    by_contra hne
    exact hh g ⟨by simp [hf], hne⟩
  refine { wf := hw, mem := hm, allow := fun g f hf => ?_, valid := ?_, distinct := ?_, names := ?_, handles := ?_,
           data := fun x hx => ?_ }
  · obtain ⟨g', f', -, hg', hf', hd, -⟩ := hw.heap.map
    have hg := hfile g f hf
    simp_all
  · rw [hslot, hhas]
    exact h.valid
  · rw [hhas]
    exact h.distinct
  · rw [hslot, hhas]
    exact h.names
  · funext g
    unfold St.handles St.view
    split
    · rfl
    · cases hf : t.files g with
      | none => rfl
      | some f => exact absurd (hfile g f hf) ‹_›
  · rcases hx with hx | ⟨g, pos, hg⟩
    · simp only [St.content, St.dinode, hdisk]
      exact h.data x (.inl hx)
    · cases hg

/-- Closing the file system and opening it again. -/
theorem Sim.reopened (h : Sim s a) (hs : s.Synced) (bits : Nat → Bool) :
    Ok filesysDone s fun _ t => Ok (filesysInit bits false) (powerOn t.devSize t.disk []) fun _ u =>
      Sim u a.restart ∧ u.Synced := by
  refine (ok_filesysDone h.wf).mono ?_
  intro _ t ⟨hdisk, hdev⟩
  rw [hdisk, hdev]
  refine ((exits_reboot [] bits h.wf hs).ok fun _ hne => hne rfl).mono ?_
  intro _ u ⟨hw, hsync, _, hdisk', _, hm, hh⟩
  exact ⟨h.restart hw (hm rfl) hdisk' hh, hsync⟩

theorem Sessions.sim (h : Sessions log t) :
    ∃ a, Abs.Sessions log a ∧ Sim t a ∧ t.Synced := by
  induction h with
  | format hdev he hrun =>
    obtain ⟨hw, hs, -, hm, hslot, hh⟩ := (exits_format hdev).post he
    obtain ⟨a, htrace, ha⟩ := hrun.sim (sim_empty hw (hm rfl) hslot hh)
    exact ⟨a, .format htrace, ha, (hrun.run.wf hw).2.2.2 (hm rfl) hs⟩
  | again _ hdone he hrun ih =>
    obtain ⟨a, hlog, ha, hs⟩ := ih
    obtain ⟨hu, hsu⟩ := ((ha.reopened hs _).post hdone).post he
    obtain ⟨b, htrace, hb⟩ := hrun.sim hu
    exact ⟨b, hlog.again htrace, hb, (hrun.run.wf hu.wf).2.2.2 hu.mem hsu⟩

/-- Over any number of sessions the results are those of the abstract file system,
the next call returns, and the file system can be closed and opened again. -/
theorem restarts_refine (h : Sessions log t) :
    ∃ a, Abs.Sessions log a ∧ (∀ g, t.Handle g ↔ (a.handles g).isSome = true) ∧
      (∀ op : Op, op.InRange → op.Valid t → ∃ r u, op.code t = .ok (r, u)) ∧
      ∀ bits, ∃ u v, filesysDone t = .ok ((), u) ∧
        filesysInit bits false (powerOn u.devSize u.disk []) = .ok ((), v) := by
  obtain ⟨a, hlog, ha, hs⟩ := h.sim
  refine ⟨a, hlog, fun g => handle_iff ha, fun op hop hv => ?_, fun bits => ?_⟩
  · obtain ⟨r, u, -, he, -⟩ := sim_op ha hop hv
    exact ⟨r, u, he⟩
  · obtain ⟨_, u, hu, _, v, hv, -⟩ := ha.reopened hs bits
    exact ⟨u, v, hu, hv⟩

/-- A file of one byte is made on the device of eight sectors. -/
theorem tinyDevice_session : ∃ t evs, Sessions [evs] t ∧ (t.slot 0).inUse = true := by
  have h : check (filesysInit (fun _ => false) true) tinyDevice (fun _ s =>
      check (Op.create nameA 1 []).code s fun _ t => (t.slot 0).inUse) = true := by
    decide +kernel
  obtain ⟨_, s, hs, hc⟩ := ok_of_check h
  obtain ⟨_, t, ht, hused⟩ := ok_of_check hc
  have hrun := (Trace.nil s).call (show (Op.create nameA 1 []).InRange from Int.one_nonneg) (fun g hg => by cases hg) ht
  exact ⟨t, _, .format (by decide) hs hrun, hused⟩

/-- The device is opened again. -/
theorem restarts_refine_again : ∃ t evs a, Sessions [evs, []] t ∧ Abs.Sessions [evs, []] a := by
  obtain ⟨s, evs, h, -⟩ := tinyDevice_session
  obtain ⟨-, -, -, -, hopen⟩ := restarts_refine h
  obtain ⟨u, v, hu, hv⟩ := hopen fun _ => false
  have hagain : Sessions [evs, []] v := h.again hu hv (.nil v)
  obtain ⟨a, ha, -⟩ := restarts_refine hagain
  exact ⟨v, evs, a, hagain, ha⟩

/-- Over any number of sessions, no two entries of the directory in use have one
name or one inode, and each has a name that a file may have and is for a file. -/
theorem directory_entries_unique (h : Sessions log t) :
    (∀ j < dirEntries, ∀ k < dirEntries, ∀ name, t.Has name j → t.Has name k → j = k) ∧
      (∀ j < dirEntries, ∀ k < dirEntries, (t.slot j).inUse = true → (t.slot k).inUse = true →
        (t.slot j).inodeSector = (t.slot k).inodeSector → j = k) ∧
      ∀ k < dirEntries, (t.slot k).inUse = true → (∃ name : Name, name.Valid ∧ t.Has name k) ∧
        (t.slot k).inodeSector ≠ freeMapSector ∧ (t.slot k).inodeSector ≠ rootDirSector := by
  obtain ⟨a, -, ha, -⟩ := h.sim
  have hl := ha.wf.layout
  refine ⟨fun j hj k hk name => ha.distinct name j k hj hk, fun j hj k hk => hl.slots j k hj hk, fun k hk hused => ?_⟩
  exact ⟨ha.valid k hk hused, hl.named _ ⟨k, hk, hused, rfl⟩⟩

theorem directory_entries_unique_created : ∃ t log, Sessions log t ∧ ∃ name : Name, name.Valid ∧ t.Has name 0 := by
  obtain ⟨t, evs, h, hused⟩ := tinyDevice_session
  exact ⟨t, _, h, ((directory_entries_unique h).2.2 0 (by decide) hused).1⟩

end Pintos.Fs
