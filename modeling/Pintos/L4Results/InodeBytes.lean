import Pintos.L3Proof.FsStep

/-!
# The data of an inode is a byte array

`inode_read_at` and `inode_write_at` (filesys/inode.c) on any inode whose data
lies on the device, in any state in which allocations succeed: the inode need
not be reached from `filesys_init`. `Transfer` are reads and writes of any open
inodes in any order; `newest` is the byte that was written last at a position.

* `inode_byte_array`: a write changes the bytes of its range and nothing else,
  and a read after any calls returns the bytes written last.
-/
namespace Pintos.Fs

open Pintos.Core

/-- A byte of the inode's data lies in sector `z`. -/
def DiskInode.Holds (d : DiskInode) (z : Nat) : Prop := ∃ k < d.length, z = d.start + k / sectorSize

/-- Lengths are not negative as `off_t`, allocations succeed, the data of open
inodes lies on the device, and no two of them share a sector. -/
structure St.Apart (s : St) : Prop where
  mem : s.mem = []
  length : ∀ p i, s.inodes p = some i → i.data.length < 2 ^ 31
  fits : ∀ p i, s.inodes p = some i → i.data.Fits s.devSize
  apart : ∀ p q i j, s.inodes p = some i → s.inodes q = some j → p ≠ q → ∀ z, i.data.Holds z → ¬ j.data.Holds z

/-- Byte `k` of the data of an inode. -/
def St.byte (s : St) (i : Inode) (k : Nat) : Byte := byteOf s.disk i.data.start k

/-- `max(0, min(size, length - offset))`. -/
def transferred (i : Inode) (size ofs : Nat) : Nat := min size (i.data.length - ofs)

theorem transferred_eq (i : Inode) (size ofs : Nat) :
    (transferred i size ofs : Int) = max 0 (min (size : Int) ((i.data.length : Int) - ofs)) := by
  unfold transferred
  omega

/-! ## One call -/

inductive Transfer where
  | read (p size ofs : Nat)
  | write (p : Nat) (bs : List Byte) (ofs : Nat)

/-- The inode is open, and a write is not denied. -/
def Transfer.Allowed (s : St) : Transfer → Prop
  | .read p _ _ => ∃ i, s.inodes p = some i
  | .write p _ _ => ∃ i, s.inodes p = some i ∧ i.denyWriteCnt = 0

/-- The call is made and its result is dropped. -/
def Transfer.code : Transfer → M Unit
  | .read p size ofs => do
    let _ ← inodeReadAt p size ofs
    pure ()
  | .write p bs ofs => do
    let _ ← inodeWriteAt p bs ofs
    pure ()

/-- What the call writes to byte `k` of inode `p`. -/
def Transfer.written (p k : Nat) : Transfer → Option Byte
  | .read .. => none
  | .write q bs ofs => if q = p ∧ ofs ≤ k ∧ k < ofs + bs.length then some (bs.getD (k - ofs) 0) else none

variable {s s' : St} {p q : Nat} {i j : Inode}

/-- A write inside the file leaves the sectors that hold none of its bytes. -/
theorem writeBytes_of_not_holds {d : DiskInode} {disk : Nat → Block} {ofs : Nat} {bs : List Byte}
    (hle : ofs + bs.length ≤ d.length ∨ bs = []) {z : Nat} (hz : ¬ d.Holds z) :
    writeBytes disk d.start ofs bs z = disk z := by
  funext o
  rw [writeBytes, if_neg]
  rintro ⟨hstart, ho, hlo, hhi⟩
  refine hz ⟨(z - d.start) * sectorSize + o, ?_, ?_⟩
  · rcases hle with hle | rfl
    · omega
    · rw [List.length_nil] at hhi
      omega
  · simp only [sectorSize] at *
    omega

theorem take_transferred (i : Inode) (bs : List Byte) (ofs : Nat) :
    (bs.take (transferred i bs.length ofs)).length = transferred i bs.length ofs ∧
      (ofs + (bs.take (transferred i bs.length ofs)).length ≤ i.data.length ∨
        bs.take (transferred i bs.length ofs) = []) := by
  have hlen : (bs.take (transferred i bs.length ofs)).length = transferred i bs.length ofs := by
    rw [List.length_take]
    unfold transferred
    omega
  refine ⟨hlen, ?_⟩
  rcases Nat.lt_or_ge ofs i.data.length with hlt | hge
  · rw [hlen]
    unfold transferred
    omega
  · have hz : transferred i bs.length ofs = 0 := by
      unfold transferred
      omega
    rw [hz]
    exact .inr List.take_zero

/-- `inode_write_at` changes the bytes of its range. -/
structure WroteAt (s : St) (i : Inode) (bs : List Byte) (ofs k : Nat) (s' : St) : Prop where
  count : k = transferred i bs.length ofs
  rest : s' = s.setDisk s'.disk
  bytes : ∀ x < i.data.length, s'.byte i x = if ofs ≤ x ∧ x < ofs + k then bs.getD (x - ofs) 0 else s.byte i x
  sectors : ∀ z, ¬ i.data.Holds z → s'.disk z = s.disk z

theorem setMem_nil (hmem : s.mem = []) : s.setMem [] = s := by
  rw [← hmem]
  rfl

theorem ok_write (hi : s.inodes p = some i) (hd : i.data.Fits s.devSize) (hw : i.denyWriteCnt = 0) (hmem : s.mem = [])
    (bs : List Byte) (ofs : Nat) : Ok (inodeWriteAt p bs ofs) s (WroteAt s i bs ofs) := by
  refine (ok_inodeWriteAt hi hw hd fun _ => Int.natCast_nonneg ofs).mono ?_
  rintro k s' ⟨m', hs', hu⟩
  rw [Int.toNat_natCast] at hs' hu
  obtain ⟨hk, rfl⟩ := hu.full hmem
  rw [setMem_nil (s := s.setDisk (writeBytes s.disk i.data.start ofs (bs.take k))) hmem] at hs'
  obtain ⟨hlen, hle⟩ := take_transferred i bs ofs
  change k = transferred i bs.length ofs at hk
  rw [← hk] at hlen hle
  subst hs'
  refine ⟨hk, rfl, fun x hx => ?_, fun z hz => writeBytes_of_not_holds hle hz⟩
  change byteOf (writeBytes _ _ _ _) _ _ = _
  rw [byteOf_writeBytes, hlen]
  by_cases hx : ofs ≤ x ∧ x < ofs + k
  · rw [if_pos hx, if_pos hx, List.getD_eq_getElem?_getD, List.getD_eq_getElem?_getD,
      List.getElem?_take_of_lt (by omega)]
  · rw [if_neg hx, if_neg hx]
    rfl

/-- `inode_read_at` returns the bytes of its range. -/
theorem ok_read (hi : s.inodes p = some i) (hd : i.data.Fits s.devSize) (hmem : s.mem = []) (size ofs : Nat) :
    Ok (inodeReadAt p size ofs) s fun bs s' => s' = s ∧ bs.length = transferred i size ofs ∧
      ∀ x < bs.length, bs.getD x 0 = s.byte i (ofs + x) := by
  refine (ok_inodeReadAt hi hd fun _ => Int.natCast_nonneg ofs).mono ?_
  rintro bs s' ⟨k, m', rfl, hs', hu⟩
  rw [Int.toNat_natCast, Int.toNat_natCast] at *
  obtain ⟨hk, rfl⟩ := hu.full hmem
  rw [setMem_nil hmem] at hs'
  rw [length_readBytes]
  exact ⟨hs', hk, fun x hx => getD_readBytes _ _ _ _ hx⟩

/-! ## Runs -/

/-- The byte that `calls` have written last to byte `k` of inode `p`. -/
def newest (p k : Nat) : List Transfer → Option Byte
  | [] => none
  | c :: calls => (newest p k calls).or (c.written p k)

def runTransfers : List Transfer → M Unit
  | [] => pure ()
  | c :: calls => do
    c.code
    runTransfers calls

/-- A call changes the bytes it writes, in the file it writes to. -/
theorem ok_transfer (h : s.Apart) {c : Transfer} (hc : c.Allowed s) :
    Ok c.code s fun _ s' => s' = s.setDisk s'.disk ∧ ∀ p i, s.inodes p = some i → ∀ x < i.data.length,
      s'.byte i x = (c.written p x).getD (s.byte i x) := by
  cases c with
  | read q size ofs =>
    obtain ⟨j, hj⟩ := hc
    refine ok_bind.mpr ((ok_read hj (h.fits q j hj) h.mem size ofs).mono ?_)
    rintro bs s' ⟨rfl, -⟩
    exact (ok_pure _).mpr ⟨rfl, fun _ _ _ _ _ => rfl⟩
  | write q bs ofs =>
    obtain ⟨j, hj, hw⟩ := hc
    refine ok_bind.mpr ((ok_write hj (h.fits q j hj) hw h.mem bs ofs).mono ?_)
    rintro k s' hwrote
    refine (ok_pure _).mpr ⟨hwrote.rest, fun p i hi x hx => ?_⟩
    by_cases hq : q = p
    · subst hq
      obtain rfl := Option.mem_unique hj hi
      have hin : (ofs ≤ x ∧ x < ofs + transferred j bs.length ofs) ↔ ofs ≤ x ∧ x < ofs + bs.length := by
        unfold transferred
        omega
      rw [hwrote.bytes x hx, hwrote.count]
      simp only [Transfer.written, hin, true_and]
      split <;> rfl
    · -- the sector of the byte holds nothing of the other file
      have hsec := hwrote.sectors _ (h.apart p q i j hi hj (fun he => hq he.symm) _ ⟨x, hx, rfl⟩)
      rw [Transfer.written, if_neg fun he => hq he.1]
      exact congrFun hsec _

theorem Transfer.Allowed.setDisk {c : Transfer} {disk : Nat → Block} (hc : c.Allowed s) :
    c.Allowed (s.setDisk disk) := by
  cases c <;> exact hc

theorem St.Apart.setDisk (h : s.Apart) (disk : Nat → Block) : (s.setDisk disk).Apart :=
  ⟨h.mem, h.length, h.fits, h.apart⟩

/-- After any calls a byte is the one written last, or the old one. -/
theorem ok_transfers (h : s.Apart) {calls : List Transfer} (hc : ∀ c ∈ calls, c.Allowed s) :
    Ok (runTransfers calls) s fun _ s' => s' = s.setDisk s'.disk ∧ ∀ p i, s.inodes p = some i → ∀ x < i.data.length,
      s'.byte i x = (newest p x calls).getD (s.byte i x) := by
  induction calls generalizing s with
  | nil => exact (ok_pure _).mpr ⟨rfl, fun _ _ _ _ _ => rfl⟩
  | cons c calls ih =>
    refine ok_bind.mpr ((ok_transfer h (hc c List.mem_cons_self)).mono ?_)
    rintro - s₁ ⟨hs₁, hbytes⟩
    rw [hs₁] at hbytes ⊢
    refine (ih (h.setDisk _) fun c' hc' => (hc c' (List.mem_cons_of_mem _ hc')).setDisk).mono ?_
    rintro - s₂ ⟨hs₂, hrest⟩
    refine ⟨hs₂, fun p i hi x hx => ?_⟩
    rw [hrest p i hi x hx, hbytes p i hi x hx, newest]
    cases newest p x calls <;> rfl

/-! ## The result -/

/-- Any open inode with its data on the device, allocations succeeding. A write
returns `max(0, min(size, length - offset))` and changes exactly that many bytes
of the file, and no sector without data of the file. After any calls on open
inodes that share no sectors a read returns as many bytes as a write would
have, each as it was written last. -/
theorem inode_byte_array (s : St) (h : s.Apart) (p : Nat) (i : Inode) (hi : s.inodes p = some i) :
    (i.denyWriteCnt = 0 → ∀ (bs : List Byte) (ofs : Nat), Ok (inodeWriteAt p bs ofs) s fun k s' =>
      (k : Int) = max 0 (min (bs.length : Int) ((i.data.length : Int) - ofs)) ∧ s' = s.setDisk s'.disk ∧
      (∀ x < i.data.length, s'.byte i x =
        if ofs ≤ x ∧ x < ofs + k then bs.getD (x - ofs) 0 else s.byte i x) ∧
      ∀ z, ¬ i.data.Holds z → s'.disk z = s.disk z) ∧
    ∀ calls : List Transfer, (∀ c ∈ calls, c.Allowed s) → ∀ size ofs : Nat,
      Ok (do runTransfers calls; inodeReadAt p size ofs) s fun bs _ =>
        (bs.length : Int) = max 0 (min (size : Int) ((i.data.length : Int) - ofs)) ∧
        ∀ x < bs.length, bs.getD x 0 = (newest p (ofs + x) calls).getD (s.byte i (ofs + x)) := by
  refine ⟨fun hw bs ofs => ?_, fun calls hc size ofs => ?_⟩
  · refine (ok_write hi (h.fits p i hi) hw h.mem bs ofs).mono fun k s' hwrote => ?_
    refine ⟨?_, hwrote.rest, hwrote.bytes, hwrote.sectors⟩
    rw [hwrote.count, transferred_eq]
  · refine ok_bind.mpr ((ok_transfers h hc).mono ?_)
    rintro - s₁ ⟨hs₁, hbytes⟩
    rw [hs₁] at hbytes ⊢
    refine (ok_read (s := s.setDisk s₁.disk) hi (h.fits p i hi) h.mem size ofs).mono ?_
    rintro bs s₂ ⟨-, hlen, hget⟩
    refine ⟨by rw [hlen, transferred_eq], fun x hx => ?_⟩
    have hin : ofs + x < i.data.length := by
      unfold transferred at hlen
      omega
    rw [hget x hx, hbytes p i hi _ hin]

/-- A device with one file of 600 bytes in its two sectors. -/
def oneFile : St :=
  { powerOn 2 (fun _ _ => 0) [] with inodes := fun p => if p = 0 then some ⟨5, 1, false, 0, ⟨0, 600⟩⟩ else none }

theorem oneFile_apart : oneFile.Apart := by
  have hone : ∀ p i, oneFile.inodes p = some i → p = 0 ∧ i.data = ⟨0, 600⟩ := by
    intro p i hi
    obtain ⟨hp, he⟩ := Option.ite_none_right_eq_some.mp hi
    cases he
    exact ⟨hp, rfl⟩
  refine ⟨rfl, fun p i hi => ?_, fun p i hi k hk => ?_, fun p q i j hi hj hne => ?_⟩
  · rw [(hone p i hi).2]
    decide
  · rw [(hone p i hi).2] at hk ⊢
    change k < 600 at hk
    change 0 + k / 512 < 2
    omega
  · exact absurd ((hone p i hi).1.trans (hone q j hj).1.symm) hne

/-- Two writes that overlap across the end of the first sector. -/
theorem inode_byte_array_overlap :
    Ok (do runTransfers [.write 0 [1, 2, 3] 511, .write 0 [9] 512]; inodeReadAt 0 5 (510 : Nat)) oneFile fun bs _ =>
      (bs.length : Int) = 5 ∧ ∀ x < bs.length, bs.getD x 0 =
        (newest 0 (510 + x) [.write 0 [1, 2, 3] 511, .write 0 [9] 512]).getD
          (oneFile.byte ⟨5, 1, false, 0, ⟨0, 600⟩⟩ (510 + x)) :=
  (inode_byte_array oneFile oneFile_apart 0 _ rfl).2 _ (by simp [Transfer.Allowed, oneFile]) 5 510

example : (List.range 5).map (fun x => newest 0 (510 + x) [.write 0 [1, 2, 3] 511, .write 0 [9] 512]) =
    [none, some 1, some 9, some 3, none] := by decide

end Pintos.Fs
