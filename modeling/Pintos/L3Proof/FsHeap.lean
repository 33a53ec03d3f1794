import Pintos.L3Proof.FsInv

/-!
# Open inodes and files

The changes that calls make to the inodes and files in memory, and that each
keeps `Heap`: the reference counts and the counts of handles that deny writes
stay in step with the files.
-/
namespace Pintos.Fs

open Pintos.Core Function

/-- One more reference to inode `p` is held outside files. -/
def hold (e : Nat → Nat) (p : Nat) : Nat → Nat := update e p (e p + 1)

@[simp] theorem hold_self (e : Nat → Nat) (p : Nat) : hold e p p = e p + 1 := update_self ..

theorem hold_of_ne {e : Nat → Nat} {p q : Nat} (h : q ≠ p) : hold e p q = e q := update_of_ne h ..

/-! ## Counts -/

namespace St

variable {s : St} {g p : Nat}

theorem refs_setFile (o : Option File) (hg : g < s.brk) (p : Nat) :
    (s.setFile g o).refs p + ((s.files g).any fun f => f.inode == p).toNat =
      s.refs p + (o.any fun f => f.inode == p).toNat := count_update o hg

theorem denies_setFile (o : Option File) (hg : g < s.brk) (p : Nat) :
    (s.setFile g o).denies p + ((s.files g).any fun f => f.inode == p && f.denyWrite).toNat =
      s.denies p + (o.any fun f => f.inode == p && f.denyWrite).toNat := count_update o hg

theorem denies_le_refs (s : St) (p : Nat) : s.denies p ≤ s.refs p :=
  count_le_count fun f hf => by
    rw [Bool.and_eq_true] at hf
    exact hf.1

end St

namespace Heap

variable {s s' : St} {e e' : Nat → Nat} {p : Nat}

/-- The device, the map and outcomes of allocations do not matter. -/
theorem congr (h : Heap s e) (b : Nat → Bool) (disk : Nat → Block) (m : List Bool) :
    Heap (((s.setFreeMap b).setDisk disk).setMem m) e :=
  ⟨h.nodup, h.mem_open, h.inj, h.openCnt, h.denyCnt, h.file, h.extra, h.below, h.map⟩

variable {g : Nat} {f : File} {i : Inode}

theorem lt_brk_of_file (h : Heap s e) (hf : s.files g = some f) : g < s.brk := by
  by_contra hge
  rw [(h.below g (by omega)).2] at hf
  cases hf

/-- An inode that is not there has no files. -/
theorem file_ne (h : Heap s e) (hp : s.inodes p = none) (hf : s.files g = some f) :
    f.inode ≠ p := by
  rintro rfl
  obtain ⟨i, hi, -⟩ := h.file g f hf
  rw [hp] at hi
  cases hi

theorem refs_of_none (h : Heap s e) (hp : s.inodes p = none) : s.refs p = 0 := by
  by_contra hne
  obtain ⟨g, f, -, hf, hP⟩ := exists_of_count_pos (Nat.pos_of_ne_zero hne)
  exact h.file_ne hp hf (beq_iff_eq.mp hP)

/-- Inodes change in their counts and flags, files in theirs, and files may go. -/
theorem of_sector_eq (h : Heap s e) (hlist : s'.openInodes = s.openInodes) (hbrk : s'.brk = s.brk)
    (hmap : s'.freeMapFile = s.freeMapFile)
    (hino : ∀ q, (s'.inodes q).map Inode.sector = (s.inodes q).map Inode.sector)
    (hfile : ∀ g f, s'.files g = some f → ∃ f', s.files g = some f' ∧ f'.inode = f.inode)
    (hkeep : ∀ g, s.freeMapFile = some g → s'.files g = s.files g)
    (hopen : ∀ q j, s'.inodes q = some j → j.openCnt = s'.refs q + e' q ∧ 0 < j.openCnt)
    (hdeny : ∀ q j, s'.inodes q = some j → j.denyWriteCnt = s'.denies q)
    (hextra : ∀ q, s.inodes q = none → e' q = 0) : Heap s' e' := by
  have hto : ∀ q j, s'.inodes q = some j → ∃ k, s.inodes q = some k ∧ k.sector = j.sector := fun q j hj => by
    have hq := hino q
    rw [hj] at hq
    exact Option.map_eq_some_iff.mp hq.symm
  have hfrom : ∀ q j, s.inodes q = some j → ∃ k, s'.inodes q = some k ∧ k.sector = j.sector := fun q j hj => by
    have hq := hino q
    rw [hj] at hq
    exact Option.map_eq_some_iff.mp hq
  have hnone : ∀ q, s'.inodes q = none ↔ s.inodes q = none := fun q => by
    rw [← Option.map_eq_none_iff, hino, Option.map_eq_none_iff]
  exact {
    nodup := hlist ▸ h.nodup
    mem_open := fun q => by
      rw [hlist, h.mem_open, ← Option.isSome_iff_exists, ← Option.isSome_iff_exists, Option.isSome_iff_ne_none,
        Option.isSome_iff_ne_none, Ne, Ne, hnone]
    inj := fun q r j k hj hk hjk => by
      obtain ⟨j', hj', hs⟩ := hto q j hj
      obtain ⟨k', hk', hs'⟩ := hto r k hk
      exact h.inj q r j' k' hj' hk' (by rw [hs, hs', hjk])
    openCnt := hopen
    denyCnt := hdeny
    file := fun g f hf => by
      obtain ⟨f', hf', hf⟩ := hfile g f hf
      obtain ⟨j, hj, hr, hm⟩ := h.file g f' hf'
      obtain ⟨k, hk, hs⟩ := hfrom f'.inode j hj
      rw [hmap, ← hf]
      exact ⟨k, hk, by rwa [hs], by rwa [hs]⟩
    extra := fun q hq => hextra q ((hnone q).mp hq)
    below := fun g hg => by
      obtain ⟨hi, hf⟩ := h.below g (hbrk ▸ hg)
      refine ⟨(hnone g).mpr hi, Option.eq_none_iff_forall_ne_some.mpr fun f hf' => ?_⟩
      obtain ⟨f', hf', -⟩ := hfile g f hf'
      rw [hf] at hf'
      cases hf'
    map := by
      obtain ⟨g, f, j, hg, hf, hd, hj, h0⟩ := h.map
      obtain ⟨k, hk, hs⟩ := hfrom f.inode j hj
      exact ⟨g, f, k, hmap.trans hg, (hkeep g hg).trans hf, hd, hk, hs.trans h0⟩ }

/-- An inode gets other counts or flags. -/
theorem sector_update {i' : Inode} (hi : s.inodes p = some i) (hsec : i'.sector = i.sector) (q : Nat) :
    (update s.inodes p (some i') q).map Inode.sector = (s.inodes q).map Inode.sector := by
  by_cases hq : q = p
  · rw [hq, update_self, hi, Option.map_some, Option.map_some, hsec]
  · rw [update_of_ne hq]

/-- An inode changes in its counts or flags. -/
theorem setInode (h : Heap s e) {i' : Inode} (hi : s.inodes p = some i) (hsec : i'.sector = i.sector)
    (hopen : i'.openCnt = s.refs p + e' p ∧ 0 < i'.openCnt) (hdeny : i'.denyWriteCnt = s.denies p)
    (he : ∀ q, q ≠ p → e' q = e q) : Heap (s.setInode p (some i')) e' := by
  refine h.of_sector_eq rfl rfl rfl (sector_update hi hsec) (fun g f hf => ⟨f, hf, rfl⟩) (fun _ _ => rfl)
    (fun q j hj => ?_) (fun q j hj => ?_) fun q hq => ?_
  · rcases update_some_iff.mp hj with ⟨rfl, rfl⟩ | ⟨hq, hj⟩
    · exact hopen
    · rw [he q hq]
      exact h.openCnt q j hj
  · rcases update_some_iff.mp hj with ⟨rfl, rfl⟩ | ⟨-, hj⟩
    · exact hdeny
    · exact h.denyCnt q j hj
  · rw [he q fun hqp => by rw [hqp, hi] at hq; cases hq]
    exact h.extra q hq

/-- `inode_open` makes a new inode for a sector that is not open. -/
theorem newInode (h : Heap s e) (hnew : ∀ p j, s.inodes p = some j → j.sector ≠ i.sector)
    (hopen : i.openCnt = 1) (hdeny : i.denyWriteCnt = 0) :
    Heap (((s.setBrk (s.brk + 1)).setInode s.brk (some i)).setOpen (s.brk :: s.openInodes)) (hold e s.brk) := by
  have hnone := (h.below s.brk (Nat.le_refl _)).1
  have hfile : s.files s.brk = none := (h.below s.brk (Nat.le_refl _)).2
  have hcount : ∀ P, count s.files P (s.brk + 1) = count s.files P s.brk := fun P => by
    rw [count_succ, hfile]
    rfl
  have hnotin : s.brk ∉ s.openInodes := by
    rw [h.mem_open]
    rintro ⟨j, hj⟩
    rw [hnone] at hj
    cases hj
  have hrefs : s.refs s.brk = 0 := h.refs_of_none hnone
  exact {
    nodup := List.nodup_cons.mpr ⟨hnotin, h.nodup⟩
    mem_open := fun q => by
      change q ∈ s.brk :: s.openInodes ↔ ∃ j, update s.inodes s.brk (some i) q = some j
      rw [List.mem_cons, h.mem_open]
      by_cases hq : q = s.brk
      · subst hq
        simp
      · rw [update_of_ne hq]
        simp [hq]
    inj := fun q r j k hj hk hjk => by
      rcases update_some_iff.mp hj with ⟨rfl, rfl⟩ | ⟨-, hj'⟩
      · rcases update_some_iff.mp hk with ⟨rfl, rfl⟩ | ⟨-, hk'⟩
        · rfl
        · exact absurd hjk.symm (hnew r k hk')
      · rcases update_some_iff.mp hk with ⟨rfl, rfl⟩ | ⟨-, hk'⟩
        · exact absurd hjk (hnew q j hj')
        · exact h.inj q r j k hj' hk' hjk
    openCnt := fun q j hj => by
      change j.openCnt = count s.files _ (s.brk + 1) + _ ∧ _
      rw [hcount]
      rcases update_some_iff.mp hj with ⟨rfl, rfl⟩ | ⟨hq, hj⟩
      · rw [hopen, hold_self, h.extra _ hnone]
        change 1 = s.refs s.brk + _ ∧ _
        omega
      · rw [hold_of_ne hq]
        exact h.openCnt q j hj
    denyCnt := fun q j hj => by
      change j.denyWriteCnt = count s.files _ (s.brk + 1)
      rw [hcount]
      rcases update_some_iff.mp hj with ⟨rfl, rfl⟩ | ⟨-, hj⟩
      · have := s.denies_le_refs s.brk
        change i.denyWriteCnt = s.denies s.brk
        omega
      · exact h.denyCnt q j hj
    file := fun g f hf => by
      obtain ⟨j, hj, hrest⟩ := h.file g f hf
      refine ⟨j, ?_, hrest⟩
      change update s.inodes s.brk (some i) f.inode = some j
      rwa [update_of_ne (h.file_ne hnone hf)]
    extra := fun q hq => by
      change update s.inodes s.brk (some i) q = none at hq
      by_cases hne : q = s.brk
      · subst hne
        rw [update_self] at hq
        cases hq
      · rw [update_of_ne hne] at hq
        rw [hold_of_ne hne]
        exact h.extra q hq
    below := fun g hg => by
      have hg : s.brk + 1 ≤ g := hg
      change update s.inodes s.brk (some i) g = none ∧ s.files g = none
      rw [update_of_ne (by omega)]
      exact h.below g (by omega)
    map := by
      obtain ⟨g, f, j, hg, hf, hd, hj, h0⟩ := h.map
      refine ⟨g, f, j, hg, hf, hd, ?_, h0⟩
      change update s.inodes s.brk (some i) f.inode = some j
      rwa [update_of_ne (h.file_ne hnone hf)] }

/-- `file_open` turns a reference into a file. -/
theorem newFile (h : Heap s (hold e p)) (hi : s.inodes p = some i) (hroot : i.sector ≠ rootDirSector)
    (hmap : i.sector ≠ freeMapSector) :
    Heap ((s.setBrk (s.brk + 1)).setFile s.brk (some ⟨p, 0, false⟩)) e := by
  have hcount : ∀ P, count (update s.files s.brk (some ⟨p, 0, false⟩)) P (s.brk + 1) =
      count s.files P s.brk + (P ⟨p, 0, false⟩).toNat := fun P => by
    rw [count_succ, count_update_of_le _ (Nat.le_refl _), update_self]
    rfl
  exact {
    nodup := h.nodup
    mem_open := h.mem_open
    inj := h.inj
    openCnt := fun q j hj => by
      have := h.openCnt q j hj
      change j.openCnt = count (update s.files s.brk _) _ (s.brk + 1) + _ ∧ _
      rw [hcount]
      change j.openCnt = s.refs q + (p == q).toNat + e q ∧ _
      by_cases hq : q = p
      · subst hq
        rw [hold_self] at this
        rw [beq_self_eq_true]
        simp only [Bool.toNat_true]
        omega
      · rw [hold_of_ne hq] at this
        rw [beq_eq_false_iff_ne.mpr (Ne.symm hq)]
        exact this
    denyCnt := fun q j hj => by
      change j.denyWriteCnt = count (update s.files s.brk _) _ (s.brk + 1)
      rw [hcount, Bool.and_false]
      exact h.denyCnt q j hj
    file := fun g f hf => by
      rcases update_some_iff.mp hf with ⟨rfl, rfl⟩ | ⟨-, hf⟩
      · exact ⟨i, hi, hroot, fun h0 => absurd h0 hmap⟩
      · exact h.file g f hf
    extra := fun q hq => by
      have := h.extra q hq
      by_cases hne : q = p
      · subst hne
        rw [hold_self] at this
        omega
      · rwa [hold_of_ne hne] at this
    below := fun g hg => by
      have hg : s.brk + 1 ≤ g := hg
      change s.inodes g = none ∧ update s.files s.brk _ g = none
      rw [update_of_ne (by omega)]
      exact h.below g (by omega)
    map := by
      obtain ⟨g, f, j, hg, hf, hd, hj, h0⟩ := h.map
      refine ⟨g, f, j, hg, ?_, hd, hj, h0⟩
      have := h.lt_brk_of_file hf
      change update s.files s.brk _ g = some f
      rwa [update_of_ne (by omega)] }

/-- The last reference to inode `p` is dropped. -/
theorem free (h : Heap s (hold e p)) (hi : s.inodes p = some i) (hlast : i.openCnt = 1) :
    Heap ((s.setOpen (s.openInodes.erase p)).setInode p none) e := by
  obtain ⟨hcnt, -⟩ := h.openCnt p i hi
  rw [hold_self] at hcnt
  have hrefs : s.refs p = 0 := by omega
  have hfile : ∀ g f, s.files g = some f → f.inode ≠ p := by
    rintro g f hf rfl
    have := count_pos (h.lt_brk_of_file hf) hf (P := fun f' => f'.inode == f.inode) (beq_self_eq_true _)
    change 0 < s.refs f.inode at this
    omega
  exact {
    nodup := h.nodup.erase p
    mem_open := fun q => by
      change q ∈ s.openInodes.erase p ↔ ∃ j, update s.inodes p none q = some j
      rw [h.nodup.mem_erase_iff, h.mem_open]
      by_cases hq : q = p
      · subst hq
        simp
      · rw [update_of_ne hq]
        simp [hq]
    inj := fun q r j k hj hk hjk => h.inj q r j k (update_none_iff.mp hj).2 (update_none_iff.mp hk).2 hjk
    openCnt := fun q j hj => by
      obtain ⟨hq, hj⟩ := update_none_iff.mp hj
      have := h.openCnt q j hj
      rwa [hold_of_ne hq] at this
    denyCnt := fun q j hj => h.denyCnt q j (update_none_iff.mp hj).2
    file := fun g f hf => by
      obtain ⟨j, hj, hrest⟩ := h.file g f hf
      refine ⟨j, ?_, hrest⟩
      change update s.inodes p none f.inode = some j
      rwa [update_of_ne (hfile g f hf)]
    extra := fun q hq => by
      by_cases hne : q = p
      · subst hne
        omega
      · change update s.inodes p none q = none at hq
        rw [update_of_ne hne] at hq
        have := h.extra q hq
        rwa [hold_of_ne hne] at this
    below := fun g hg => by
      refine ⟨?_, (h.below g hg).2⟩
      change update s.inodes p none g = none
      by_cases hg' : g = p
      · rw [hg', update_self]
      · rw [update_of_ne hg']
        exact (h.below g hg).1
    map := by
      obtain ⟨g, f, j, hg, hf, hd, hj, h0⟩ := h.map
      refine ⟨g, f, j, hg, hf, hd, ?_, h0⟩
      change update s.inodes p none f.inode = some j
      rwa [update_of_ne (hfile g f hf)] }

/-- A file that denies nothing is freed, and its reference is held. -/
theorem closeFile (h : Heap s e) (hf : s.files g = some f) (hd : f.denyWrite = false)
    (hmap : s.freeMapFile ≠ some g) : Heap (s.setFile g none) (hold e f.inode) := by
  have hlt := h.lt_brk_of_file hf
  refine h.of_sector_eq rfl rfl rfl (fun _ => rfl) (fun g' f' hf' => ⟨f', (update_none_iff.mp hf').2, rfl⟩)
    (fun g' hg' => update_of_ne (fun heq : g' = g => hmap (heq ▸ hg')) ..) (fun q j hj => ?_) (fun q j hj => ?_)
    fun q hq => ?_
  · have hold := h.openCnt q j hj
    have := s.refs_setFile none hlt q
    rw [hf] at this
    change (s.setFile g none).refs q + (f.inode == q).toNat = s.refs q + 0 at this
    by_cases hq : q = f.inode
    · subst hq
      rw [beq_self_eq_true] at this
      rw [hold_self]
      simp only [Bool.toNat_true] at this
      omega
    · rw [beq_eq_false_iff_ne.mpr (Ne.symm hq)] at this
      rw [hold_of_ne hq]
      simp only [Bool.toNat_false] at this
      omega
  · have hold := h.denyCnt q j hj
    have := s.denies_setFile none hlt q
    rw [hf] at this
    change (s.setFile g none).denies q + (f.inode == q && f.denyWrite).toNat = s.denies q + 0 at this
    rw [hd, Bool.and_false] at this
    exact hold.trans this.symm
  · rw [hold_of_ne (Ne.symm (h.file_ne hq hf))]
    exact h.extra q hq

/-- A file changes its position or denies or allows writes, and its inode counts it. -/
theorem setFile (h : Heap s e) {f' : File} {i' : Inode} (hf : s.files g = some f)
    (hi : s.inodes f.inode = some i) (hin : f'.inode = f.inode) (hsec : i'.sector = i.sector)
    (hopen : i'.openCnt = i.openCnt)
    (hdeny : i'.denyWriteCnt + f.denyWrite.toNat = i.denyWriteCnt + f'.denyWrite.toNat)
    (hmap : s.freeMapFile ≠ some g) : Heap ((s.setFile g (some f')).setInode f.inode (some i')) e := by
  have hlt := h.lt_brk_of_file hf
  refine h.of_sector_eq rfl rfl rfl (sector_update hi hsec) (fun g' f₁ hf₁ => ?_)
    (fun g' hg' => update_of_ne (fun heq : g' = g => hmap (heq ▸ hg')) ..) (fun q j hj => ?_) (fun q j hj => ?_)
    h.extra
  · rcases update_some_iff.mp hf₁ with ⟨rfl, rfl⟩ | ⟨-, hf₁⟩
    · exact ⟨f, hf, hin.symm⟩
    · exact ⟨f₁, hf₁, rfl⟩
  · have hrefs := s.refs_setFile (some f') hlt q
    rw [hf] at hrefs
    change (s.setFile g (some f')).refs q + (f.inode == q).toNat = s.refs q + (f'.inode == q).toNat at hrefs
    rw [hin] at hrefs
    change j.openCnt = (s.setFile g (some f')).refs q + e q ∧ _
    rw [Nat.add_right_cancel hrefs]
    rcases update_some_iff.mp hj with ⟨rfl, rfl⟩ | ⟨-, hj⟩
    · rw [hopen]
      exact h.openCnt _ i hi
    · exact h.openCnt q j hj
  · have hd := s.denies_setFile (some f') hlt q
    rw [hf] at hd
    change (s.setFile g (some f')).denies q + (f.inode == q && f.denyWrite).toNat =
      s.denies q + (f'.inode == q && f'.denyWrite).toNat at hd
    rw [hin] at hd
    change j.denyWriteCnt = (s.setFile g (some f')).denies q
    rcases update_some_iff.mp hj with ⟨rfl, rfl⟩ | ⟨hq, hj⟩
    · have := h.denyCnt _ i hi
      rw [beq_self_eq_true, Bool.true_and, Bool.true_and] at hd
      omega
    · have := h.denyCnt q j hj
      rw [beq_eq_false_iff_ne.mpr (Ne.symm hq), Bool.false_and, Bool.false_and] at hd
      omega

end Heap

end Pintos.Fs
