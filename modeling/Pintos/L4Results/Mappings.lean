import Pintos.L3Proof.Alone
import Pintos.L4Results.Machine

/-!
# Memory mappings: `sys_mmap`, `unmap`, `sys_munmap`

What the functions do when they run alone.

* `munmap_never_returns`: `sys_munmap` of a live mapping never returns.
-/
namespace Pintos.Vm

open Pintos.Core

variable {s : St} {t : Tid}

/-! ## Unmapping by handle -/

/-- Handle `h` belongs to a mapping of process `t`. -/
def LiveHandle (s : St) (t : Tid) (h : Int) : Prop :=
  ∃ m ∈ (s.procs t).mappings, ∃ r, (s.procs t).maps m = some r ∧ r.handle = h

variable {h : Int} {s' : St} {m addr : Nat} {g : FileId} {F : File} {fd : FileDescriptor}

theorem lookupMapping_live (hl : LiveHandle s t h) :
    ((s.procs t).mappings.find? fun m => ((s.procs t).maps m).any fun r => r.handle = h).isSome := by
  obtain ⟨m, hm, r, hr, hh⟩ := hl
  rw [List.find?_isSome]
  exact ⟨m, hm, by simp [hr, hh]⟩

theorem ends_unmapHandle (h : Int) {A : Option Nat → Prop} {Q : Res sig Unit → Prop}
    (h1 : Q (.panic .kernelFault)) (h2 : Q (.panic .wild)) : Ends A False t (unmapHandle h) Q s := by
  intro e _
  dsimp only [unmapHandle]
  cases kernelByte s t (h % 2 ^ 32).toNat with
  | none => exact h1
  | some b => exact h2

/-- `unmap` takes the handle for the address of the mapping: the kernel
faults there, or reads user memory as a `struct mapping`. -/
theorem munmap_never_returns {h : Int} (hl : LiveHandle s t h) :
    (∃ r, Runs t (sysMunmap h) s r) ∧
      ∀ r, Runs t (sysMunmap h) s r → r = .panic .kernelFault ∨ r = .panic .wild := by
  have key : Ends (fun _ => True) False t (sysMunmap h)
      (fun r => r = .panic .kernelFault ∨ r = .panic .wild) s := by
    obtain ⟨m, hm⟩ := Option.isSome_iff_exists.1 (lookupMapping_live hl)
    refine ends_bind (ends_prim (fun _ _ => rfl) ?_)
    simp only [andThen, hm]
    exact ends_bind (ends_unmapHandle h (.inl rfl) (.inr rfl))
  refine ⟨?_, fun r hr => key.runs hr⟩
  obtain ⟨r, hr, -⟩ := key.can (e := none) trivial
  exact ⟨r, hr⟩

/-- A process opens the program it runs and maps it at 64 MB; the mapping's
handle is 3. -/
def mapSmall : List (Move kernel) :=
  startSmall 0 ++ script 0 (.openFile [0x61]) (fresh 30 3) ++ script 0 (.mmap 0 2 0x4000000) (fresh 40 16)

instance (s : St) (t : Tid) (h : Int) : Decidable (LiveHandle s t h) :=
  decidable_of_iff ((s.procs t).mappings.any fun m => ((s.procs t).maps m).any fun r => r.handle = h)
    (by simp [LiveHandle, Option.any_eq_true])

def Res.panicsWith {α : Type} (p : Panic) : Res sig α → Bool
  | .done _ _ => false
  | .panic q => decide (q = p)

def idleThr : Prog sig Unit → Bool
  | .ret _ => true
  | .act _ _ _ => false

theorem idle_of_idleThr {c : Prog sig Unit} (h : idleThr c = true) : c = .ret () := by
  cases c with
  | ret a => rfl
  | act l f k => simp [idleThr] at h

theorem runs_of_panicsWith {α : Type} {c : K α} {es : List (Option Nat)} {p : Panic}
    (h : Prog.runIs (S := sig) t c es s (Res.panicsWith p) = true) : Runs (S := sig) t c s (.panic p) := by
  obtain ⟨r, hr, hp⟩ := exists_of_runIs h
  cases r with
  | done a s => simp [Res.panicsWith] at hp
  | panic q =>
    obtain rfl : q = p := by simpa [Res.panicsWith] using hp
    exact hr

/-- The process calls `munmap (3)`, and the kernel faults at address 3. -/
theorem munmap_faults : ∃ s c, Boot s ∧ kernel.Reachable (kernel.idle s .init) c ∧
    c.thr 0 = .ret () ∧ LiveHandle c.st 0 3 ∧ Runs (S := sig) 0 (sysMunmap 3) c.st (.panic .kernelFault) := by
  obtain ⟨c, hc, hchk⟩ := exists_reachable (smallMachine 1 1) mapSmall
    (fun c => idleThr (c.thr 0) && decide (LiveHandle c.st 0 3) &&
      Prog.runIs (S := sig) 0 (sysMunmap 3) [none, none] c.st (Res.panicsWith .kernelFault)) (by decide)
  simp only [Bool.and_eq_true, decide_eq_true_eq] at hchk
  obtain ⟨⟨h1, h2⟩, h3⟩ := hchk
  exact ⟨_, c, smallMachine_boot 1 1, hc, idle_of_idleThr h1, h2, runs_of_panicsWith h3⟩

/-- The same process: `munmap (3)` can only end in a fault. -/
theorem munmap_never_returns_mapped : ∃ c, kernel.Reachable (kernel.idle (smallMachine 1 1) .init) c ∧
    LiveHandle c.st 0 3 ∧
      ∀ r, Runs (S := sig) 0 (sysMunmap 3) c.st r → r = .panic .kernelFault ∨ r = .panic .wild := by
  obtain ⟨c, hc, hchk⟩ := exists_reachable (smallMachine 1 1) mapSmall
    (fun c => decide (LiveHandle c.st 0 3)) (by decide)
  have hl : LiveHandle c.st 0 3 := by simpa using hchk
  exact ⟨c, hc, hl, (munmap_never_returns hl).2⟩

/-! ## A mapping that fails -/

/-- What a failed `sys_mmap` of process `t` must leave as it was. -/
structure Untouched (t : Tid) (s s' : St) : Prop where
  mappings : (s'.procs t).mappings = (s.procs t).mappings
  maps : ∀ m r, (s.procs t).maps m = some r → (s'.procs t).maps m = some r
  table : s'.tables t = s.tables t
  pages : s'.pages = s.pages
  data : ∀ i, (s'.inodes i).data = (s.inodes i).data ∧ (s'.inodes i).length = (s.inodes i).length
  openCnt : ∀ i, (s'.inodes i).openCnt = (s.inodes i).openCnt

/-- `sys_mmap` gets as far as the loop over the pages. -/
def Attempts (s : St) (t : Tid) (h : Int) (addr : Nat) : Prop :=
  ∃ fd F, (s.procs t).fds.find? (fun fd => fd.handle = h) = some fd ∧ s.files fd.file = some F ∧
    0 < (s.inodes F.inode).length ∧ addr ≠ 0 ∧ pgOfs addr = 0 ∧
    (∃ m, (s.procs t).maps m = none) ∧ ∃ g, s.files g = none

/-- Only the handle counter, locks and `struct mapping`s that `s` does not
know differ. -/
structure Prepared (t : Tid) (s s' : St) : Prop where
  rest : s' = { s with procs := s'.procs, locks := s'.locks }
  mappings : (s'.procs t).mappings = (s.procs t).mappings
  maps : ∀ m r, (s.procs t).maps m = some r → (s'.procs t).maps m = some r

theorem Prepared.untouched (h : Prepared t s s') : Untouched t s s' := by
  have hr := h.rest
  exact ⟨h.mappings, h.maps, by rw [hr], by rw [hr], fun i => by rw [hr]; exact ⟨rfl, rfl⟩,
    fun i => by rw [hr]⟩

theorem Prepared.refl (t : Tid) (s : St) : Prepared t s s := ⟨rfl, rfl, fun _ _ h => h⟩

theorem Prepared.setLock (h : Prepared t s s') (l : Lock) (o : Option Tid) :
    Prepared t s (s'.setLock l o) :=
  ⟨by rw [h.rest]; rfl, h.mappings, h.maps⟩

theorem Prepared.setProc {P : Proc} (h : Prepared t s s')
    (hp : P.mappings = (s'.procs t).mappings)
    (hm : ∀ m r, (s.procs t).maps m = some r → P.maps m = (s'.procs t).maps m) :
    Prepared t s (s'.setProc t P) :=
  ⟨by rw [h.rest]; rfl, by simpa [hp] using h.mappings,
    fun m r hr => by simpa [hm m r hr] using h.maps m r hr⟩

/-- A `struct mapping` at an address that `s` does not use may change. -/
theorem Prepared.setMap (h : Prepared t s s') (hm : (s.procs t).maps m = none)
    (r : Option Mapping) : Prepared t s (s'.setProc t ((s'.procs t).setMap m r)) := by
  refine h.setProc rfl fun m' r' hr => ?_
  have hne : m' ≠ m := by
    intro he
    rw [he, hm] at hr
    cases hr
  simp [Proc.setMap, hne]

/-- `sys_mmap` of an empty file returns the handle. -/
theorem ends_mapFile (hf : s.files g = some F)
    (hlen : (s.inodes F.inode).length = 0) (hh : 0 ≤ h) {Q : St → Prop} :
    Ends (fun _ => True) True t (mapFile m h addr g) (fun r => ∀ s', r = .done (-1) s' → Q s') s := by
  refine ends_step fun _ _ => ?_
  cases (s.procs t).maps m with
  | none => exact nofun
  | some r =>
    refine ends_step fun _ _ => ends_lockAcquire (fun _ h => by cases h) fun _ => ends_step fun _ _ => ?_
    simp only [St.setLock_files, St.setProc_files, hf, St.setLock_inodes, St.setProc_inodes, hlen]
    refine ends_lockRelease (by simp) ?_
    rintro s' ⟨⟩
    exact absurd hh (by decide)

/-- The rest of `sys_mmap` after the checks of the address. -/
theorem ends_reopenAndMap {s1 : St} {r : Mapping} (h1 : Prepared t s s1)
    (hm : (s.procs t).maps m = none) (hr : (s1.procs t).maps m = some r) (hn : 0 ≤ (s1.procs t).nextHandle)
    (hx : ∀ F g, s.files fd.file = some F → s.files g = none → (s.inodes F.inode).length = 0) :
    Ends (fun _ => True) True t (do
        let h ← nextHandle
        modMap m fun r => { r with handle := h }
        lockAcquire .fs
        let g? ← fileReopen m fd.file
        lockRelease .fs
        match g? with
        | none => do
          modProc fun P => P.setMap m none
          pure (-1)
        | some g => mapFile m h addr g)
      (fun r => ∀ s', r = .done (-1) s' → Untouched t s s') s1 := by
  -- the handle is taken and stored
  refine ends_step fun _ _ => ends_step fun _ _ => ?_
  have h2 : Prepared t s (s1.setProc t { s1.procs t with nextHandle := (s1.procs t).nextHandle + 1 }) :=
    h1.setProc rfl fun _ _ _ => rfl
  generalize hs2 : s1.setProc t _ = s2 at h2 ⊢
  have hr2 : (s2.procs t).maps m = some r := by simpa [← hs2] using hr
  simp only [hr2]
  have h3 := h2.setMap hm (some { r with handle := (s1.procs t).nextHandle })
  generalize hs3 : s2.setProc t _ = s3 at h3 ⊢
  refine ends_lockAcquire (fun _ h => by cases h) fun _ => ends_step fun e _ => ?_
  have hr3 : (s3.procs t).maps m = some { r with handle := (s1.procs t).nextHandle } := by
    simp [← hs3, Proc.setMap]
  have h4 := h3.setLock .fs (some t)
  simp only [St.setLock_files, St.setLock_procs, hr3]
  cases hF : s3.files fd.file with
  | none => exact fun _ h => by cases h
  | some F =>
    rw [h3.rest] at hF
    cases e with
    | none =>
      -- `file_reopen` failed
      refine ends_lockRelease (by simp) (ends_step fun _ _ => ?_)
      rintro s' ⟨⟩
      exact ((h4.setLock .fs none).setMap hm none).untouched
    | some g =>
      dsimp only
      by_cases hg : s3.files g = none
      · rw [if_pos (by simp [hg])]
        rw [h3.rest] at hg
        refine ends_lockRelease (by simp [openFile]) (ends_mapFile (F := ⟨F.inode, 0, false⟩) ?_ ?_ hn)
        · simp [openFile]
        · have := hx F g hF hg
          rw [h3.rest]
          simpa [openFile, Inode.reopen] using this
      · rw [if_neg (by simpa using hg)]
        trivial

/-- Unless the loop over the pages is reached, -1 means that nothing but the
allocation of the `struct mapping` and the handle counter has changed. -/
theorem ends_mmapFd (hn : 0 ≤ (s.procs t).nextHandle)
    (hfd : (s.procs t).fds.find? (fun fd => fd.handle = h) = some fd) (ha : ¬Attempts s t h addr) :
    Ends (fun _ => True) True t (mmapFd fd addr)
      (fun r => ∀ s', r = .done (-1) s' → Untouched t s s') s := by
  refine ends_step fun e _ => ?_
  cases e with
  | none =>
    rintro s' ⟨⟩
    exact (Prepared.refl t s).untouched
  | some m =>
    dsimp only
    by_cases hm : (s.procs t).maps m = none
    · rw [if_pos (by simp [hm])]
      dsimp only
      have h1 := (Prepared.refl t s).setMap hm (some ⟨0, none, 0, 0⟩)
      by_cases hb : addr = 0 ∨ pgOfs addr ≠ 0
      · rw [if_pos hb]
        rintro s' ⟨⟩
        exact h1.untouched
      · rw [if_neg hb]
        exact ends_reopenAndMap (r := ⟨0, none, 0, 0⟩) h1 hm (by simp [Proc.setMap]) (by simpa [Proc.setMap] using hn)
          fun F g hF hg => by
            by_contra hne
            obtain ⟨h0, h2⟩ := not_or.1 hb
            exact ha ⟨fd, F, hfd, hF, Nat.pos_of_ne_zero hne, h0, not_not.1 h2, ⟨m, hm⟩, g, hg⟩
    · rw [if_neg (by simpa using hm)]
      trivial

section Can
variable {α : Type} {d : Unit → K α} {Q : Res sig α → Prop}

variable {m : Nat} {r : Mapping}

theorem can_modMap {g : Mapping → Mapping} (hr : (s.procs t).maps m = some r)
    (h : Can t (d ()) Q (s.setProc t ((s.procs t).setMap m (some (g r))))) : Can t (modMap m g >>= d) Q s :=
  can_step none (by simp only [hr]) h

theorem can_readMap {d : Mapping → K α} (hr : (s.procs t).maps m = some r)
    (h : Can t (d r) Q s) : Can t (readMap m >>= d) Q s := can_step none (by simp only [hr]) h

theorem can_mapLength {addr : Nat} {g : FileId} {F : File} {d : Nat → K α} (hf : s.files g = some F)
    (h : Can t (d (s.inodes F.inode).length) Q s) : Can t (mapLength addr g >>= d) Q s :=
  can_step none (by simp only [hf]) h

theorem can_fileReopen {g g' : FileId} {F : File} {d : Option FileId → K α}
    (hf : s.files g = some F) (hr : (s.procs t).maps m = some r) (hg : s.files g' = none)
    (h : Can t (d (some g')) Q ((openFile s F.inode g').setProc t
      ((s.procs t).setMap m (some { r with file := some g' })))) : Can t (fileReopen m g >>= d) Q s :=
  can_step (some g') (by simp only [hf, hr, hg, Option.isNone_none, if_true]) h

end Can

/-- The first page of the mapping cannot be allocated; `unmap` is then called
for a mapping without pages, and the reopened file stays open. -/
theorem can_mapFile {r : Mapping} (hl : s.locks .fs = none)
    (hf : s.files g = some F) (hlen : 0 < (s.inodes F.inode).length) (hr : (s.procs t).maps m = some r) :
    Can t (mapFile m h addr g) (fun r => ∃ s', r = .done (-1) s' ∧ s'.inodes = s.inodes) s := by
  refine can_modMap hr (can_step none rfl ?_)
  refine can_lockAcquire hl (can_mapLength hf ?_)
  refine can_lockRelease (by simp) ?_
  obtain ⟨n, hn⟩ := Nat.exists_eq_succ_of_ne_zero hlen.ne'
  simp only [St.setLock_inodes, St.setProc_inodes, hn, mapLoop, Nat.succ_pos, if_true]
  refine can_step none rfl (can_step none rfl (can_readMap (r := { r with base := addr, pageCnt := 0 }) ?_ ?_))
  · simp [Proc.setMap]
  · exact can_ret ⟨_, rfl, rfl⟩

theorem can_mmapFd (hl : s.locks .fs = none)
    (hF : s.files fd.file = some F) (hlen : 0 < (s.inodes F.inode).length) (h0 : addr ≠ 0)
    (hofs : pgOfs addr = 0) (hm : (s.procs t).maps m = none) (hg : s.files g = none) :
    Can t (mmapFd fd addr) (fun r => ∃ s', r = .done (-1) s' ∧
      (s'.inodes F.inode).openCnt = (s.inodes F.inode).openCnt + 1) s := by
  refine can_step (some m) (by simp only [hm]; rfl) ?_
  simp only [h0, hofs, false_or, ne_eq, not_true_eq_false, if_false]
  refine can_step none rfl (can_modMap (r := ⟨0, none, 0, 0⟩) (by simp [Proc.setMap]) ?_)
  refine can_lockAcquire hl (can_fileReopen hF (by simp [Proc.setMap]; rfl) hg (can_lockRelease rfl ?_))
  refine (can_mapFile (F := ⟨F.inode, 0, false⟩) (r := ⟨(s.procs t).nextHandle, some g, 0, 0⟩) ?_ ?_ ?_ ?_).mono ?_
  · simp
  · simp [openFile]
  · simpa [openFile, Inode.reopen] using hlen
  · simp [Proc.setMap]
  · rintro _ ⟨s', rfl, hs'⟩
    refine ⟨s', rfl, ?_⟩
    rw [hs']
    simp [openFile, Inode.reopen]

theorem mmap_attempt_leaks (hl : s.locks .fs = none) (ha : Attempts s t h addr) :
    ∃ s', Runs t (sysMmap h addr) s (.done (some (-1)) s') ∧ ¬Untouched t s s' := by
  obtain ⟨fd, F, hfd, hF, hlen, h0, hofs, ⟨m, hm⟩, g, hg⟩ := ha
  have hcan : Can t (sysMmap h addr) (fun r => ∃ s', r = .done (some (-1)) s' ∧
      (s'.inodes F.inode).openCnt = (s.inodes F.inode).openCnt + 1) s := by
    refine can_step none rfl ?_
    simp only [hfd]
    refine can_bind ((can_mmapFd hl hF hlen h0 hofs hm hg).mono ?_)
    rintro _ ⟨s', rfl, hs'⟩
    exact ⟨-1, s', rfl, can_ret ⟨s', rfl, hs'⟩⟩
  obtain ⟨r, h1, s', rfl, h2⟩ := hcan
  refine ⟨s', h1, fun hu => ?_⟩
  have := hu.openCnt F.inode
  omega

theorem failed_mmap_iff {h : Int} {addr : Nat} (hl : s.locks .fs = none) (hn : 0 ≤ (s.procs t).nextHandle) :
    (∀ s', Runs t (sysMmap h addr) s (.done (some (-1)) s') → Untouched t s s') ↔ ¬Attempts s t h addr := by
  constructor
  · intro hu ha
    obtain ⟨s', h1, h2⟩ := mmap_attempt_leaks hl ha
    exact h2 (hu s' h1)
  · intro ha s' hr
    have key : Ends (fun _ => True) True t (sysMmap h addr)
        (fun r => ∀ s', r = .done (some (-1)) s' → Untouched t s s') s := by
      refine ends_step fun _ _ => ?_
      dsimp only
      cases hfd : (s.procs t).fds.find? fun fd => fd.handle = h with
      | none =>
        refine ends_bind (ends_any fun r => ?_)
        cases r with
        | done a s1 => exact nofun
        | panic p => exact nofun
      | some fd =>
        refine ends_bind ((ends_mmapFd hn hfd ha).mono fun r hQ => ?_)
        cases r with
        | done a s1 =>
          rintro s2 ⟨⟩
          exact hQ _ rfl
        | panic p => exact nofun
    exact key.runs hr _ rfl

/-- A misaligned address, after the process has opened a file as descriptor 2. -/
theorem failed_mmap_iff_misaligned : ∃ c, kernel.Reachable (kernel.idle (smallMachine 1 1) .init) c ∧
    c.st.locks .fs = none ∧ 0 ≤ (c.st.procs 0).nextHandle ∧
      ∀ s', Runs (S := sig) 0 (sysMmap 2 0x4000001) c.st (.done (some (-1)) s') → Untouched 0 c.st s' := by
  obtain ⟨c, hc, hchk⟩ := exists_reachable (smallMachine 1 1)
    (startSmall 0 ++ script 0 (.openFile [0x61]) (fresh 30 3))
    (fun c => decide (c.st.locks .fs = none) && decide (0 ≤ (c.st.procs 0).nextHandle)) (by decide)
  simp only [Bool.and_eq_true, decide_eq_true_eq] at hchk
  obtain ⟨h1, h2⟩ := hchk
  refine ⟨c, hc, h1, h2, (failed_mmap_iff h1 h2).2 ?_⟩
  rintro ⟨_, _, _, _, _, _, hofs, _⟩
  exact absurd hofs (by decide)

/-- `-1` from a call that changed the `open_cnt` of inode 0, which was `n`. -/
def leakedFile (n : Nat) : Res sig (Option Int) → Bool
  | .done (some h) s => decide (h = -1 ∧ (s.inodes 0).openCnt ≠ n)
  | _ => false

/-- The process maps its file a second time at the same address: the call
returns -1 and the inode is open once more than before. -/
theorem overlap_leaks_file : ∃ s c, Boot s ∧ kernel.Reachable (kernel.idle s .init) c ∧
    c.thr 0 = .ret () ∧ (∃ p ∈ c.st.table 0, ∃ r, c.st.pages p = some r ∧ r.addr = 0x4000000) ∧
    ∃ s', Runs (S := sig) 0 (sysMmap 2 0x4000000) c.st (.done (some (-1)) s') ∧
      (s'.inodes 0).openCnt ≠ (c.st.inodes 0).openCnt := by
  obtain ⟨c, hc, hchk⟩ := exists_reachable (smallMachine 1 1) mapSmall
    (fun c => idleThr (c.thr 0) &&
      ((c.st.table 0).any fun p => (c.st.pages p).any fun r : Page => decide (r.addr = 0x4000000)) &&
      Prog.runIs (S := sig) 0 (sysMmap 2 0x4000000) (fresh 60 16) c.st (leakedFile (c.st.inodes 0).openCnt))
    (by decide)
  simp only [Bool.and_eq_true, decide_eq_true_eq, List.any_eq_true, Option.any_eq_true] at hchk
  obtain ⟨⟨h1, h2⟩, h3⟩ := hchk
  refine ⟨_, c, smallMachine_boot 1 1, hc, idle_of_idleThr h1, h2, ?_⟩
  obtain ⟨r, hr, hl⟩ := exists_of_runIs h3
  match r, hl with
  | .done (some h) s', hl =>
    obtain ⟨rfl, hne⟩ : h = -1 ∧ _ := by simpa [leakedFile] using hl
    exact ⟨s', hr, hne⟩

end Pintos.Vm
