import Pintos.L2Code.Filesys

/-!
# What a transfer reads and writes

`inode_read_at` and `inode_write_at` work sector by sector and through a
bounce buffer. Here they get equations over the bytes of a file: a read
returns `readBytes`, a write leaves `writeBytes`, up to the end of the file
or up to an allocation that fails.
-/
namespace Pintos.Fs

open Pintos.Core List

/-! ## Primitives -/

variable {s : St} {p x ofs n : Nat} {i : Inode} {bs : List Byte} {m m' : List Bool}

@[simp] theorem ok_malloc {Q : Bool → St → Prop} :
    Ok malloc s Q ↔ Q (s.mem.headD true) (s.setMem s.mem.tail) := by
  have h : malloc s = .ok (s.mem.headD true, s.setMem s.mem.tail) := by
    unfold malloc
    cases hm : s.mem with
    | nil =>
      have : s.setMem [] = s := by rw [← hm]; rfl
      rw [tail_nil, this]
      rfl
    | cons b bs => rfl
  constructor
  · exact fun hq => hq.post h
  · exact fun hq => ⟨_, _, h, hq⟩

@[simp] theorem ok_newPtr {Q : Nat → St → Prop} :
    Ok newPtr s Q ↔ Q s.brk (s.setBrk (s.brk + 1)) :=
  ⟨fun hq => hq.post rfl, fun hq => ⟨_, _, rfl, hq⟩⟩

@[simp] theorem ok_fsGet {Q : St → St → Prop} : Ok get s Q ↔ Q s s := ok_get

@[simp] theorem ok_fsModify (f : St → St) {Q : Unit → St → Prop} :
    Ok (modify f) s Q ↔ Q () (f s) := ok_modify f

theorem ok_inodeAt (h : s.inodes p = some i) {Q : Inode → St → Prop} :
    Ok (inodeAt p) s Q ↔ Q i s := by
  have he : inodeAt p s = .ok (i, s) := by simp only [inodeAt, h]
  exact ⟨fun hq => hq.post he, fun hq => ⟨_, _, he, hq⟩⟩

theorem ok_fileAt {g : Nat} {f : File} (h : s.files g = some f) {Q : File → St → Prop} :
    Ok (fileAt g) s Q ↔ Q f s := by
  have he : fileAt g s = .ok (f, s) := by simp only [fileAt, h]
  exact ⟨fun hq => hq.post he, fun hq => ⟨_, _, he, hq⟩⟩

theorem ok_blockRead (h : x < s.devSize) {Q : Block → St → Prop} :
    Ok (blockRead x) s Q ↔ Q (s.disk x) s := by
  have he : blockRead x s = .ok (s.disk x, s) := by simp only [blockRead, if_pos h]
  exact ⟨fun hq => hq.post he, fun hq => ⟨_, _, he, hq⟩⟩

theorem ok_blockWrite {b : Block} (h : x < s.devSize) {Q : Unit → St → Prop} :
    Ok (blockWrite x b) s Q ↔ Q () (s.setDisk (putSector s.disk x b)) := by
  have he : blockWrite x b s = .ok ((), s.setDisk (putSector s.disk x b)) := by
    simp only [blockWrite, if_pos h]
  exact ⟨fun hq => hq.post he, fun hq => ⟨_, _, he, hq⟩⟩

/-! ## Bytes of a file -/

/-- Byte `k` of the data that starts at sector `start`. -/
def byteOf (disk : Nat → Block) (start k : Nat) : Byte :=
  disk (start + k / sectorSize) (k % sectorSize)

/-- `n` bytes from offset `ofs` on. -/
def readBytes (disk : Nat → Block) (start ofs n : Nat) : List Byte :=
  (range n).map fun j => byteOf disk start (ofs + j)

/-- The disk with `bs` at offset `ofs` of the data that starts at `start`. -/
def writeBytes (disk : Nat → Block) (start ofs : Nat) (bs : List Byte) : Nat → Block := fun x o =>
  if start ≤ x ∧ o < sectorSize ∧ ofs ≤ (x - start) * sectorSize + o ∧
      (x - start) * sectorSize + o < ofs + bs.length then
    bs.getD ((x - start) * sectorSize + o - ofs) 0
  else disk x o

@[simp] theorem length_readBytes (disk : Nat → Block) (start ofs n : Nat) :
    (readBytes disk start ofs n).length = n := by
  simp [readBytes]

theorem readBytes_add (disk : Nat → Block) (start ofs m n : Nat) :
    readBytes disk start ofs (m + n) = readBytes disk start ofs m ++ readBytes disk start (ofs + m) n := by
  simp [readBytes, range_add, Nat.add_assoc, Function.comp_def]

theorem getD_readBytes (disk : Nat → Block) (start ofs n : Nat) {j : Nat} (hj : j < n) :
    (readBytes disk start ofs n).getD j 0 = byteOf disk start (ofs + j) := by
  simp [readBytes, getD_eq_getElem?_getD, hj]

theorem readBytes_congr {disk disk' : Nat → Block} {start : Nat}
    (h : ∀ j < n, byteOf disk' start (ofs + j) = byteOf disk start (ofs + j)) :
    readBytes disk' start ofs n = readBytes disk start ofs n :=
  map_congr_left fun j hj => h j (mem_range.mp hj)

@[simp] theorem writeBytes_nil (disk : Nat → Block) (start ofs : Nat) :
    writeBytes disk start ofs [] = disk := by
  funext x o
  rw [writeBytes, if_neg]
  rintro ⟨-, -, h1, h2⟩
  rw [length_nil] at h2
  omega

/-- Two writes in a row are one write. -/
theorem writeBytes_append (disk : Nat → Block) (start ofs : Nat) (as bs : List Byte) :
    writeBytes (writeBytes disk start ofs as) start (ofs + as.length) bs =
      writeBytes disk start ofs (as ++ bs) := by
  funext x o
  simp only [writeBytes, length_append]
  generalize hk : (x - start) * sectorSize + o = k
  by_cases hx : start ≤ x ∧ o < sectorSize
  · simp only [hx, true_and]
    by_cases h1 : ofs + as.length ≤ k ∧ k < ofs + as.length + bs.length
    · have h2 : ofs ≤ k ∧ k < ofs + (as.length + bs.length) := by omega
      rw [if_pos h1, if_pos h2, getD_append_right _ _ _ _ (by omega)]
      congr 1
      omega
    · rw [if_neg h1]
      by_cases h2 : ofs ≤ k ∧ k < ofs + as.length
      · have h3 : ofs ≤ k ∧ k < ofs + (as.length + bs.length) := by omega
        rw [if_pos h2, if_pos h3, getD_append _ _ _ _ (by omega)]
      · have h3 : ¬ (ofs ≤ k ∧ k < ofs + (as.length + bs.length)) := by omega
        rw [if_neg h2, if_neg h3]
  · rw [if_neg (by tauto), if_neg (by tauto), if_neg (by tauto)]

/-- Sectors outside a written range keep their contents. -/
theorem writeBytes_of_outside {disk : Nat → Block} {start : Nat}
    (h : x < start ∨ start + (ofs + bs.length + (sectorSize - 1)) / sectorSize ≤ x) :
    writeBytes disk start ofs bs x = disk x := by
  funext o
  rw [writeBytes, if_neg]
  rintro ⟨h1, h2, h3, h4⟩
  rcases h with h | h
  · omega
  · simp only [sectorSize] at *
    omega

theorem byteOf_writeBytes (disk : Nat → Block) (start ofs : Nat) (bs : List Byte) (k : Nat) :
    byteOf (writeBytes disk start ofs bs) start k =
      if ofs ≤ k ∧ k < ofs + bs.length then bs.getD (k - ofs) 0 else byteOf disk start k := by
  have hk : (start + k / sectorSize - start) * sectorSize + k % sectorSize = k := by
    rw [Nat.add_sub_cancel_left]
    exact Nat.div_add_mod' k sectorSize
  have hlt : k % sectorSize < sectorSize := Nat.mod_lt _ (by simp [sectorSize])
  simp only [byteOf, writeBytes, hk, hlt, Nat.le_add_right, true_and]

/-- One sector is written through `Block.put`. -/
theorem putSector_put (disk : Nat → Block) (b : Block) (start ofs n : Nat) (bs : List Byte)
    (hn : n ≤ bs.length) (hfit : ofs % sectorSize + n ≤ sectorSize)
    (hb : ∀ o < sectorSize, ¬ (ofs % sectorSize ≤ o ∧ o < ofs % sectorSize + n) →
      b o = disk (start + ofs / sectorSize) o) :
    putSector disk (start + ofs / sectorSize) (Block.put b (ofs % sectorSize) n bs) =
      writeBytes disk start ofs (bs.take n) := by
  have hdm : ofs / sectorSize * sectorSize + ofs % sectorSize = ofs := Nat.div_add_mod' ofs sectorSize
  have hlen : (bs.take n).length = n := by rw [length_take]; omega
  funext x o
  simp only [putSector, writeBytes, hlen]
  by_cases hx : x = start + ofs / sectorSize
  · subst hx
    simp only [Function.update_self, Nat.add_sub_cancel_left, Nat.le_add_right, true_and, Block.put]
    by_cases ho : o < sectorSize
    · simp only [ho, if_true, true_and]
      by_cases hin : ofs % sectorSize ≤ o ∧ o < ofs % sectorSize + n
      · have hin' : ofs ≤ ofs / sectorSize * sectorSize + o ∧
            ofs / sectorSize * sectorSize + o < ofs + n := by omega
        rw [if_pos hin, if_pos hin']
        have : ofs / sectorSize * sectorSize + o - ofs = o - ofs % sectorSize := by omega
        rw [this, getD_eq_getElem?_getD, getD_eq_getElem?_getD, getElem?_take_of_lt (by omega)]
      · have hin' : ¬ (ofs ≤ ofs / sectorSize * sectorSize + o ∧
            ofs / sectorSize * sectorSize + o < ofs + n) := by omega
        rw [if_neg hin, if_neg hin', hb o ho hin]
    · simp only [ho, if_false, false_and]
  · rw [Function.update_of_ne hx, if_neg]
    rintro ⟨h1, h2, h3, h4⟩
    apply hx
    simp only [sectorSize] at *
    omega

/-! ## The loops -/

/-- The data of `d` lies on a device of `dev` sectors. -/
def DiskInode.Fits (d : DiskInode) (dev : Nat) : Prop := ∀ k < d.length, d.start + k / sectorSize < dev

/-- `k` of `n` bytes from offset `ofs` on are transferred while the outcomes of
allocations go from `m` to `m'`: all of them when no allocation fails, and
else none or up to the end of a sector. -/
structure Upto (ofs n : Nat) (m : List Bool) (k : Nat) (m' : List Bool) : Prop where
  le : k ≤ n
  full : m = [] → k = n ∧ m' = []
  cut : k = n ∨ k = 0 ∨ (ofs + k) % sectorSize = 0

/-- A chunk and what follows it. -/
theorem Upto.add {c k : Nat} {m₁ : List Bool} (h : Upto (ofs + c) (n - c) m₁ k m') (hc : c ≤ n)
    (hcut : c = n ∨ (ofs + c) % sectorSize = 0) (hm : m = [] → m₁ = []) : Upto ofs n m (c + k) m' where
  le := by have := h.le; omega
  full hn := by
    obtain ⟨h1, h2⟩ := h.full (hm hn)
    exact ⟨by omega, h2⟩
  cut := by
    have := h.le
    rw [← Nat.add_assoc]
    rcases h.cut with h1 | rfl | h1
    · exact .inl (by omega)
    · rcases hcut with h2 | h2
      · exact .inl h2
      · exact .inr (.inr h2)
    · exact .inr (.inr h1)

/-- A transfer inside one sector is done as a whole or not at all. -/
theorem Upto.whole {k : Nat} (h : Upto ofs n m k m')
    (hfit : ofs % sectorSize + n ≤ sectorSize) : k = n ∨ k = 0 := by
  have := h.le
  rcases h.cut with h1 | h1 | h1
  · exact .inl h1
  · exact .inr h1
  · simp only [sectorSize] at *
    omega

theorem upto_zero : Upto ofs 0 m 0 m :=
  ⟨Nat.le_refl 0, fun h => ⟨rfl, h⟩, .inl rfl⟩

theorem upto_failed (h : m.headD true = false) : Upto ofs n m 0 m' := by
  refine ⟨Nat.zero_le n, fun hm => ?_, .inr (.inl rfl)⟩
  rw [hm] at h
  cases h

theorem ok_getBounce {bounce : Bool} {Q : Bool → St → Prop}
    (hgot : ∀ m', (m = [] → m' = []) → Q true (s.setMem m'))
    (hfail : m.headD true = false → Q false (s.setMem m.tail)) :
    Ok (getBounce bounce) (s.setMem m) Q := by
  cases bounce with
  | true => exact (ok_pure true).mpr (hgot m id)
  | false =>
    refine ok_malloc.mpr ?_
    change Q (m.headD true) (s.setMem m.tail)
    cases h : m.headD true with
    | true => exact hgot m.tail fun hm => by rw [hm]; rfl
    | false => exact hfail h

theorem slice_disk (disk : Nat → Block) (start ofs n : Nat) (h : ofs % sectorSize + n ≤ sectorSize) :
    slice (disk (start + ofs / sectorSize)) (ofs % sectorSize) n = readBytes disk start ofs n := by
  refine map_congr_left fun j hj => ?_
  have hj := mem_range.mp hj
  have h1 : (ofs + j) / sectorSize = ofs / sectorSize := by simp only [sectorSize] at *; omega
  have h2 : (ofs + j) % sectorSize = ofs % sectorSize + j := by simp only [sectorSize] at *; omega
  simp only [byteOf, h1, h2]

theorem ok_readLoop {d : DiskInode} (hd : d.Fits s.devSize) :
    ∀ (n : Nat) (bounce : Bool) (size ofs : Nat) (m : List Bool), size ≤ n →
      Ok (readLoop d n bounce size ofs) (s.setMem m) fun bs s' => ∃ k m',
        bs = readBytes s.disk d.start ofs k ∧ s' = s.setMem m' ∧ Upto ofs (min size (d.length - ofs)) m k m' := by
  intro n
  induction n with
  | zero =>
    intro bounce size ofs m hn
    obtain rfl : size = 0 := by omega
    exact (ok_pure _).mpr ⟨0, m, rfl, rfl, by rw [Nat.zero_min]; exact upto_zero⟩
  | succ n ih =>
    intro bounce size ofs m hn
    unfold readLoop
    dsimp only
    split
    next hc =>
      refine (ok_pure _).mpr ⟨0, m, rfl, rfl, ?_⟩
      have : min size (d.length - ofs) = 0 := by simp only [chunkSize, sectorSize] at hc; omega
      rw [this]
      exact upto_zero
    next hc =>
      generalize hchunk : chunkSize d size ofs = c at *
      have hle : c ≤ min size (d.length - ofs) := by simp only [chunkSize] at hchunk; omega
      have hfit : ofs % sectorSize + c ≤ sectorSize := by simp only [chunkSize, sectorSize] at *; omega
      have hcut : c = min size (d.length - ofs) ∨ (ofs + c) % sectorSize = 0 := by
        simp only [chunkSize, sectorSize] at *; omega
      have hdev : d.start + ofs / sectorSize < s.devSize := hd ofs (by omega)
      have hrest : min (size - c) (d.length - (ofs + c)) = min size (d.length - ofs) - c := by omega
      -- what is left after this chunk
      have next : ∀ bounce m₁, (m = [] → m₁ = []) →
          Ok (readLoop d n bounce (size - c) (ofs + c)) (s.setMem m₁) fun bs s' => ∃ k m',
            readBytes s.disk d.start ofs c ++ bs = readBytes s.disk d.start ofs k ∧ s' = s.setMem m' ∧
              Upto ofs (min size (d.length - ofs)) m k m' := by
        intro bounce m₁ hm
        refine (ih bounce (size - c) (ofs + c) m₁ (by omega)).mono ?_
        rintro bs s' ⟨k, m', rfl, rfl, hu⟩
        rw [hrest] at hu
        exact ⟨c + k, m', (readBytes_add _ _ _ _ _).symm, rfl, hu.add hle hcut hm⟩
      split
      next hfull =>
        rw [ok_bind, ok_blockRead (by exact hdev), ok_bind]
        refine (next bounce m id).mono fun bs s' h => (ok_pure _).mpr ?_
        rw [← slice_disk _ _ _ _ hfit, hfull.1] at h
        exact h
      next =>
        rw [ok_bind]
        refine ok_getBounce (fun m₁ hm => ?_) (fun hm => ?_)
        · rw [if_pos rfl, ok_bind, ok_blockRead (by exact hdev), ok_bind]
          refine (next true m₁ hm).mono fun bs s' h => (ok_pure _).mpr ?_
          rw [← slice_disk _ _ _ _ hfit] at h
          exact h
        · rw [if_neg (by decide)]
          exact (ok_pure _).mpr ⟨0, m.tail, rfl, rfl, upto_failed hm⟩

theorem ok_writeLoop {d : DiskInode} (hd : d.Fits s.devSize) :
    ∀ (n : Nat) (bounce : Bool) (bs : List Byte) (ofs : Nat) (disk : Nat → Block) (m : List Bool),
      bs.length ≤ n → Ok (writeLoop d n bounce bs ofs) ((s.setDisk disk).setMem m) fun k s' => ∃ m',
        s' = (s.setDisk (writeBytes disk d.start ofs (bs.take k))).setMem m' ∧
          Upto ofs (min bs.length (d.length - ofs)) m k m' := by
  intro n
  induction n with
  | zero =>
    intro bounce bs ofs disk m hn
    obtain rfl : bs = [] := eq_nil_of_length_eq_zero (by omega)
    refine (ok_pure _).mpr ⟨m, ?_, by rw [length_nil, Nat.zero_min]; exact upto_zero⟩
    rw [take_nil, writeBytes_nil]
  | succ n ih =>
    intro bounce bs ofs disk m hn
    unfold writeLoop
    dsimp only
    split
    next hc =>
      refine (ok_pure _).mpr ⟨m, by rw [take_zero, writeBytes_nil], ?_⟩
      have : min bs.length (d.length - ofs) = 0 := by simp only [chunkSize, sectorSize] at hc; omega
      rw [this]
      exact upto_zero
    next hc =>
      generalize hchunk : chunkSize d bs.length ofs = c at *
      have hle : c ≤ min bs.length (d.length - ofs) := by simp only [chunkSize] at hchunk; omega
      have hfit : ofs % sectorSize + c ≤ sectorSize := by simp only [chunkSize, sectorSize] at *; omega
      have hcut : c = min bs.length (d.length - ofs) ∨ (ofs + c) % sectorSize = 0 := by
        simp only [chunkSize, sectorSize] at *; omega
      have hdev : d.start + ofs / sectorSize < s.devSize := hd ofs (by omega)
      have hlen : (bs.take c).length = c := by rw [length_take]; omega
      have hrest : min (bs.drop c).length (d.length - (ofs + c)) = min bs.length (d.length - ofs) - c := by
        rw [length_drop]; omega
      have next : ∀ bounce m₁, (m = [] → m₁ = []) →
          Ok (writeLoop d n bounce (bs.drop c) (ofs + c) >>= fun k => pure (c + k))
            ((s.setDisk (writeBytes disk d.start ofs (bs.take c))).setMem m₁) fun k s' => ∃ m',
            s' = (s.setDisk (writeBytes disk d.start ofs (bs.take k))).setMem m' ∧
              Upto ofs (min bs.length (d.length - ofs)) m k m' := by
        intro bounce m₁ hm
        rw [ok_bind]
        refine (ih bounce (bs.drop c) (ofs + c) _ m₁ (by rw [length_drop]; omega)).mono ?_
        rintro k s' ⟨m', rfl, hu⟩
        rw [hrest] at hu
        refine (ok_pure _).mpr ⟨m', ?_, hu.add hle hcut hm⟩
        have := writeBytes_append disk d.start ofs (bs.take c) ((bs.drop c).take k)
        rw [hlen, ← take_add] at this
        rw [this]
      split
      next hfull =>
        rw [ok_bind, ok_blockWrite (by exact hdev)]
        have hput := putSector_put disk (fun _ => 0) d.start ofs c bs (by omega) hfit (by omega)
        rw [hfull.1] at hput
        have := next bounce m id
        rw [← hput] at this
        exact this
      next =>
        rw [ok_bind]
        refine ok_getBounce (fun m₁ hm => ?_) (fun hm => ?_)
        · have hb : ∀ b : Block, (∀ o < sectorSize, ¬ (ofs % sectorSize ≤ o ∧ o < ofs % sectorSize + c) →
              b o = disk (d.start + ofs / sectorSize) o) →
              Ok (blockWrite (d.start + ofs / sectorSize) (Block.put b (ofs % sectorSize) c bs) >>= fun _ =>
                writeLoop d n true (bs.drop c) (ofs + c) >>= fun k => pure (c + k))
                ((s.setDisk disk).setMem m₁) fun k s' => ∃ m',
                s' = (s.setDisk (writeBytes disk d.start ofs (bs.take k))).setMem m' ∧
                  Upto ofs (min bs.length (d.length - ofs)) m k m' := by
            intro b hb
            rw [ok_bind, ok_blockWrite (by exact hdev)]
            have := next true m₁ hm
            rw [← putSector_put disk b d.start ofs c bs (by omega) hfit hb] at this
            exact this
          rw [if_pos rfl]
          split
          next =>
            rw [ok_bind, ok_blockRead (by exact hdev)]
            exact hb _ fun _ _ _ => rfl
          next hwhole =>
            rw [ok_bind, ok_pure]
            exact hb _ (by omega)
        · rw [if_neg (by decide)]
          exact (ok_pure _).mpr ⟨m.tail, by rw [take_zero, writeBytes_nil], upto_failed hm⟩

theorem ok_inodeReadAt {size ofs : Int} (hi : s.inodes p = some i)
    (hd : i.data.Fits s.devSize) (hofs : 0 < size → 0 ≤ ofs) :
    Ok (inodeReadAt p size ofs) s fun bs s' => ∃ k m',
      bs = readBytes s.disk i.data.start ofs.toNat k ∧ s' = s.setMem m' ∧
        Upto ofs.toNat (min size.toNat (i.data.length - ofs.toNat)) s.mem k m' := by
  unfold inodeReadAt
  rw [ok_bind, ok_inodeAt hi, if_neg (by omega)]
  exact ok_readLoop hd size.toNat false size.toNat ofs.toNat s.mem (Nat.le_refl _)

theorem ok_inodeWriteAt {ofs : Int} (hi : s.inodes p = some i)
    (hw : i.denyWriteCnt = 0) (hd : i.data.Fits s.devSize) (hofs : bs ≠ [] → 0 ≤ ofs) :
    Ok (inodeWriteAt p bs ofs) s fun k s' => ∃ m',
      s' = (s.setDisk (writeBytes s.disk i.data.start ofs.toNat (bs.take k))).setMem m' ∧
        Upto ofs.toNat (min bs.length (i.data.length - ofs.toNat)) s.mem k m' := by
  unfold inodeWriteAt
  rw [ok_bind, ok_inodeAt hi, if_neg (not_not.mpr hw), if_neg fun h => absurd (hofs h.1) (by omega)]
  exact ok_writeLoop hd bs.length false bs ofs.toNat s.disk s.mem (Nat.le_refl _)

/-- Nothing is written to an inode while writes are denied. -/
theorem ok_inodeWriteAt_denied {ofs : Int}
    (hi : s.inodes p = some i) (hw : i.denyWriteCnt ≠ 0) {Q : Nat → St → Prop} :
    Ok (inodeWriteAt p bs ofs) s Q ↔ Q 0 s := by
  unfold inodeWriteAt
  rw [ok_bind, ok_inodeAt hi, if_pos hw, ok_pure]

end Pintos.Fs
