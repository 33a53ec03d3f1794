import Pintos.L3Proof.ProcRefs
import Pintos.L4Results.FileSystem
import Pintos.L4Results.Machine

/-!
# File references are balanced

`open_cnt` of an inode against the descriptors, mappings and executables that
refer to it. `unmap` forgets the file of a mapping without closing it, so the
counts are right in the runs in which no mapping is given up
(`references_balanced`), and a removed file that was mapped once keeps its
sectors for good (`mapped_file_never_closed`).
-/
namespace Pintos.Fs

open Pintos.Core

/-- The file of the reference is one on the inode at `p`. -/
def Sys.On (s : Sys) (r : Ref) (p : Nat) : Prop := ∃ f, s.fs.files r.file = some f ∧ f.inode = p

/-- Nothing refers to the file whose inode is in sector `x`. -/
def Sys.Unreferenced (s : Sys) (x : Nat) : Prop := ∀ r p i, s.Holds r → s.On r p → s.fs.inodes p = some i → i.sector ≠ x

/-- No process has been started and no file is open but that of the map. -/
structure Sys.Fresh (s : Sys) : Prop where
  run : ∃ mem b, Booted mem b ∧ Fs.Run b s.fs
  handle : ∀ g, ¬ s.fs.Handle g
  procs : ∀ t, s.procs t = Proc.init

variable {s t : Sys}

theorem Sys.Fresh.owned (h : s.Fresh) : s.Owned := by
  obtain ⟨mem, b, hboot, hrun⟩ := h.run
  have hw := (hrun.wf hboot.wf.1).1
  have hproc : ∀ u k g, ¬ s.Holds (.proc u k g) := fun u k g hh => by
    rw [Sys.Holds, h.procs u] at hh
    exact Proc.not_has_init g k hh
  refine ⟨hw, fun u => ?_, fun r hr => ?_, fun r r' hr hr' hfile => ?_, fun g f hf => ?_⟩
  · rw [h.procs u]
    exact ⟨List.nodup_nil, List.nodup_nil⟩
  · cases r with
    | proc u k g => exact absurd hr (hproc u k g)
    | freeMap g =>
      obtain ⟨m, f, -, hm, hf, -⟩ := hw.heap.map
      rw [Sys.Holds, hm] at hr
      cases hr
      exact ⟨f, hf⟩
  · cases r with
    | proc u k g => exact absurd hr (hproc u k g)
    | freeMap g =>
      cases r' with
      | proc u k g => exact absurd hr' (hproc u k g)
      | freeMap g' => exact congrArg Ref.freeMap hfile
  · by_contra hno
    exact h.handle g ⟨by rw [hf]; rfl, fun hm => hno ⟨.freeMap g, hm, rfl⟩⟩

/-- The number of references is the count of the inode. -/
theorem Sys.Owned.openCnt_eq (h : s.Owned) {p : Nat} {i : Inode} (hi : s.fs.inodes p = some i) :
    i.openCnt = {r | s.Holds r ∧ s.On r p}.ncard := by
  have hfiles : Set.image Ref.file {r | s.Holds r ∧ s.On r p} =
      {g | ∃ f, s.fs.files g = some f ∧ (f.inode == p) = true} := by
    ext g
    simp only [Set.mem_image, Set.mem_ofPred_eq, beq_iff_eq]
    constructor
    · rintro ⟨r, ⟨-, hon⟩, rfl⟩
      exact hon
    · rintro ⟨f, hf, hp⟩
      obtain ⟨r, hr, rfl⟩ := h.held g f hf
      exact ⟨r, ⟨hr, f, hf, hp⟩, rfl⟩
  have hcount := (h.wf.heap.openCnt p i hi).1
  rw [hcount, St.refs, count_eq_ncard fun g hg => (h.wf.heap.below g hg).2, ← hfiles,
    Set.InjOn.ncard_image fun r hr r' hr' hfile => h.one r r' hr.1 hr'.1 hfile]
  rfl

theorem Sys.Owned.not_open (h : s.Owned) {x : Nat} (hx : s.Unreferenced x) : ¬ s.fs.Open x := by
  rintro ⟨p, i, hi, rfl⟩
  have hpos := (h.wf.heap.openCnt p i hi).2
  rw [h.openCnt_eq hi] at hpos
  obtain ⟨r, hr, hon⟩ := Set.nonempty_of_ncard_ne_zero (Nat.ne_of_gt hpos)
  exact hx r p i hr hon hi rfl

/-- A name that `remove` takes away names a file that is gone. -/
theorem Sys.Owned.gone_of_remove {u : Sys} (h : s.Owned) {name : Name} {j : Nat} (hj : j < dirEntries)
    (hhas : s.fs.Has name j) (he : (Call.remove name).code s = .ok ((), u)) (hnot : ¬ u.fs.Has name j) :
    u.fs.Gone (s.fs.slot j).inodeSector (s.fs.dinode (s.fs.slot j).inodeSector) := by
  have hok : Ok (sysRemove name) s fun _ u => ¬ u.fs.Has name j →
      u.fs.Gone (s.fs.slot j).inodeSector (s.fs.dinode (s.fs.slot j).inodeSector) := by
    unfold sysRemove
    rw [ok_bind, ok_onFs]
    refine (ok_filesysRemove h.wf name).mono ?_
    rintro ok f ⟨-, -, -, -, -, hres⟩
    refine (ok_pure _).mpr fun hnot => ?_
    cases ok with
    | false => exact absurd (by simpa only [St.Has, Sys.setFs_fs, hres.1 j hj] using hhas) hnot
    | true =>
      obtain ⟨k, hk, -, -, hother, hgone⟩ := hres
      by_cases hkj : j = k
      · rw [hkj]
        exact hgone
      · exact absurd (by simpa only [St.Has, Sys.setFs_fs, hother j hj hkj] using hhas) hnot
  exact hok.post he hnot

/-- The tiny device with a small executable, before any process. -/
theorem exists_fresh (P : Sys → Bool) (h : check (filesysInit (fun _ => false) true) tinyDevice (fun _ b =>
      check (Op.create nameA 52 []).code b fun _ f₁ => check (Op.open nameA).code f₁ fun _ f₂ =>
      decide (f₂.Handle 7) && check (Op.write 7 Vm.smallHeader).code f₂ fun n f₃ =>
      decide (n = .count 52 ∧ f₃.Handle 7) && check (Op.close 7).code f₃ fun _ f =>
        ((List.range f.brk).all fun g => !decide (f.Handle g)) && P ⟨f, fun _ => Proc.init⟩) = true) :
    ∃ s, s.Fresh ∧ P s = true := by
  obtain ⟨_, b, hb, hc⟩ := ok_of_check h
  obtain ⟨_, f₁, h₁, hc⟩ := ok_of_check hc
  obtain ⟨_, f₂, h₂, hc⟩ := ok_of_check hc
  rw [Bool.and_eq_true, decide_eq_true_eq] at hc
  obtain ⟨hw, hc⟩ := hc
  obtain ⟨_, f₃, h₃, hc⟩ := ok_of_check hc
  rw [Bool.and_eq_true, decide_eq_true_eq] at hc
  obtain ⟨⟨-, hcl⟩, hc⟩ := hc
  obtain ⟨_, f, hf, hc⟩ := ok_of_check hc
  rw [Bool.and_eq_true, List.all_eq_true] at hc
  obtain ⟨hno, hP⟩ := hc
  have hboot : Booted [] b := .format (by decide) hb
  have hrun : Fs.Run b f := by
    refine .call (.call (.call (.call (.refl b) (fun g hg => ?_) h₁) (fun g hg => ?_) h₂) (fun g hg => ?_) h₃)
      (fun g hg => ?_) hf <;> cases hg
    · exact hw
    · exact hcl
  refine ⟨⟨f, fun _ => Proc.init⟩, ⟨⟨[], b, hboot, hrun⟩, fun g hg => ?_, fun _ => rfl⟩, hP⟩
  obtain ⟨e, he⟩ := Option.isSome_iff_exists.mp hg.1
  have hlt := (hrun.wf hboot.wf.1).1.heap.lt_brk_of_file he
  have := hno g (List.mem_range.mpr hlt)
  rw [Bool.not_eq_true', decide_eq_false_iff_not] at this
  exact this hg

/-- In every state reached by calls that give up no mapping, `open_cnt` is the
number of references to the inode, an inode without one is closed, and then
the sectors of a file that was removed are free. -/
theorem references_balanced (hs : s.Fresh) (hrun : s.Run t) :
    (∀ p i, t.fs.inodes p = some i → i.openCnt = {r | t.Holds r ∧ t.On r p}.ncard) ∧
      (∀ x, t.Unreferenced x → ¬ t.fs.Open x) ∧
      ∀ u v name j, s.Run u → j < dirEntries → u.fs.Has name j → (Call.remove name).code u = .ok ((), v) →
        ¬ v.fs.Has name j → v.Run t → t.Unreferenced (u.fs.slot j).inodeSector →
        ∀ z ∈ u.fs.extent (u.fs.slot j).inodeSector, t.fs.freeMap z = false := by
  have ht := (hrun.keeps hs.owned).owned
  refine ⟨fun p i hi => ht.openCnt_eq hi, fun x hx => ht.not_open hx, ?_⟩
  intro u v name j hu hj hhas he hnot hv hx
  have hou := (hu.keeps hs.owned).owned
  have hov : v.Owned := ((hou.ok_sysRemove name).post he).owned
  rcases (hv.keeps hov).gone _ _ (hou.gone_of_remove hj hhas he hnot) with ⟨p, i, hi, hsec, -⟩ | hfree
  · exact absurd ⟨p, i, hi, hsec⟩ (ht.not_open hx)
  · exact fun z hz => hfree z hz

/-- A process runs the file and has it open. -/
theorem references_balanced_running : ∃ (s t : Sys) (i : Inode), s.Fresh ∧ s.Run t ∧
    t.fs.inodes 9 = some i ∧ i.openCnt = 2 ∧ i.openCnt = {r | t.Holds r ∧ t.On r 9}.ncard := by
  obtain ⟨s, hs, hc⟩ := exists_fresh (fun s => check (Call.exec 1 nameA true true).code s fun _ u =>
    (u.procs 1).alive && check (Call.open 1 nameA).code u fun _ t => (t.fs.inodes 9).any fun i => i.openCnt == 2)
    (by decide +kernel)
  obtain ⟨_, u, hu, hc⟩ := ok_of_check hc
  rw [Bool.and_eq_true] at hc
  obtain ⟨halive, hc⟩ := hc
  obtain ⟨_, t, ht, hc⟩ := ok_of_check hc
  obtain ⟨i, hi, hcnt⟩ := (Option.any_eq_true ..).mp hc
  have hstart : s.Run u := .call (.refl s) (show (Call.exec 1 nameA true true).Valid s from hs.procs 1) trivial hu
  have hrun : s.Run t := .call hstart (show (Call.open 1 nameA).Valid u from halive) trivial ht
  exact ⟨s, t, i, hs, hrun, hi, beq_iff_eq.mp hcnt, (references_balanced hs hrun).1 9 i hi⟩

/-- A process opens a file, maps it and removes it, and exits: it was the only
one to refer to the file, which stays open and keeps its sector. -/
theorem mapped_file_never_closed : ∃ s₀ s₁ s₂ s₃ s₄ s₅ : Sys, s₀.Fresh ∧
    (Call.exec 1 nameA true true).code s₀ = .ok ((), s₁) ∧ (Call.open 1 nameA).code s₁ = .ok ((), s₂) ∧
    12 ∈ (s₂.procs 1).fds ∧ (Call.mmap 1 12 true true).code s₂ = .ok ((), s₃) ∧
    (Call.remove nameA).code s₃ = .ok ((), s₄) ∧ (Call.exit 1 fun _ => []).code s₄ = .ok ((), s₅) ∧
    s₅.procs 1 = Proc.init ∧ s₅.fs.Open 4 ∧ s₅.fs.freeMap 4 = true := by
  obtain ⟨s₀, hs, hc⟩ := exists_fresh (fun s => check (Call.exec 1 nameA true true).code s fun _ s =>
    check (Call.open 1 nameA).code s fun _ s => decide (12 ∈ (s.procs 1).fds) &&
      check (Call.mmap 1 12 true true).code s fun _ s => check (Call.remove nameA).code s fun _ s =>
        check (Call.exit 1 fun _ => []).code s fun _ s => decide (s.procs 1 = Proc.init) &&
          ((s.fs.inodes 9).any fun i => i.sector == 4) && s.fs.freeMap 4) (by decide +kernel)
  obtain ⟨_, s₁, h₁, hc⟩ := ok_of_check hc
  obtain ⟨_, s₂, h₂, hc⟩ := ok_of_check hc
  rw [Bool.and_eq_true, decide_eq_true_eq] at hc
  obtain ⟨hfd, hc⟩ := hc
  obtain ⟨_, s₃, h₃, hc⟩ := ok_of_check hc
  obtain ⟨_, s₄, h₄, hc⟩ := ok_of_check hc
  obtain ⟨_, s₅, h₅, hc⟩ := ok_of_check hc
  rw [Bool.and_eq_true, Bool.and_eq_true, decide_eq_true_eq] at hc
  obtain ⟨⟨hinit, hopen⟩, hmap⟩ := hc
  obtain ⟨i, hi, hsec⟩ := (Option.any_eq_true ..).mp hopen
  exact ⟨s₀, s₁, s₂, s₃, s₄, s₅, hs, h₁, h₂, hfd, h₃, h₄, h₅, hinit, ⟨9, i, hi, beq_iff_eq.mp hsec⟩, hmap⟩

end Pintos.Fs
