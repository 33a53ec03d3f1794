import Pintos.L2Code.ReadWrite
import Pintos.L3Proof.FsTransfer

/-!
# Reading and writing a buffer page by page

`sys_read` and `sys_write` (userprog/syscall.c) over `Pintos.L2Code.ReadWrite`.

* `paged_transfers_flat`: on an open file whose data lies on the device, while
  allocations succeed, the calls do what one `file_read` or `file_write` of the
  whole size on a flat buffer does: the same count, the same file position, the
  same bytes in the buffer and in the file. `paged_read_short`: with a failing
  allocation they need not.
* `keyboard_read_iff`: a read from the keyboard returns the next keys, whatever
  the variable `retval` holds, only of size 0 and only if a descriptor has the
  number of the keyboard.
-/
namespace Pintos.ReadWrite

open Pintos.Core Function List

/-! ## Files -/

/-- File `g` is open, the data of its inode lies on the device, and allocations
succeed. -/
structure Opened (f : Fs.St) (g : Nat) (file : Fs.File) (i : Fs.Inode) : Prop where
  handle : f.files g = some file
  inode : f.inodes file.inode = some i
  fits : i.data.Fits f.devSize
  mem : f.mem = []

variable {f : Fs.St} {g : Nat} {file : Fs.File} {i : Fs.Inode}

/-- The file with its position moved. -/
def moved (f : Fs.St) (g : Nat) (file : Fs.File) (k : Nat) : Fs.St :=
  f.setFile g (some { file with pos := file.pos + k })

theorem moved_zero (h : f.files g = some file) : moved f g file 0 = f := by
  have hfiles : update f.files g (some file) = f.files := by rw [← h, update_eq_self]
  unfold moved Fs.St.setFile
  rw [Nat.add_zero, hfiles]

theorem moved_moved (f : Fs.St) (g : Nat) (file : Fs.File) (j k : Nat) :
    moved (moved f g file j) g { file with pos := file.pos + j } k = moved f g file (j + k) := by
  unfold moved Fs.St.setFile
  rw [update_idem, Nat.add_assoc]

theorem Opened.moved (h : Opened f g file i) (k : Nat) :
    Opened (moved f g file k) g { file with pos := file.pos + k } i :=
  ⟨update_self .., h.inode, h.fits, h.mem⟩

/-- `file_read` without failing allocations. -/
theorem Opened.ok_fileRead (h : Opened f g file i) (n : Nat) {Q : List Byte → Fs.St → Prop}
    (hQ : Q (Fs.readBytes f.disk i.data.start file.pos (min n (i.data.length - file.pos)))
      (ReadWrite.moved f g file (min n (i.data.length - file.pos)))) : Ok (Fs.fileRead g n) f Q := by
  unfold Fs.fileRead
  rw [ok_bind, Fs.ok_fileAt h.handle, ok_bind]
  refine (Fs.ok_inodeReadAt h.inode h.fits fun _ => Int.natCast_nonneg file.pos).mono ?_
  rintro bs f' ⟨k, m', rfl, rfl, hu⟩
  rw [Int.toNat_natCast, Int.toNat_natCast] at hu
  obtain ⟨rfl, rfl⟩ := hu.full h.mem
  have hmem : f.setMem [] = f := by
    rw [← h.mem]
    rfl
  rw [Int.toNat_natCast, ok_bind, Fs.ok_fsModify, ok_pure, Fs.length_readBytes, hmem]
  exact hQ

/-- `file_write` without failing allocations, where writes are not denied. -/
theorem Opened.ok_fileWrite (h : Opened f g file i) (hw : i.denyWriteCnt = 0) (bs : List Byte) {Q : Nat → Fs.St → Prop}
    (hQ : Q (min bs.length (i.data.length - file.pos))
      (ReadWrite.moved (f.setDisk (Fs.writeBytes f.disk i.data.start file.pos
        (bs.take (min bs.length (i.data.length - file.pos))))) g file (min bs.length (i.data.length - file.pos)))) :
    Ok (Fs.fileWrite g bs) f Q := by
  unfold Fs.fileWrite
  rw [ok_bind, Fs.ok_fileAt h.handle, ok_bind]
  refine (Fs.ok_inodeWriteAt h.inode hw h.fits fun _ => Int.natCast_nonneg file.pos).mono ?_
  rintro k f' ⟨m', rfl, hu⟩
  rw [Int.toNat_natCast] at hu
  obtain ⟨rfl, rfl⟩ := hu.full h.mem
  have hmem : ∀ disk, (f.setDisk disk).setMem [] = f.setDisk disk := by
    intro disk
    rw [← h.mem]
    rfl
  rw [Int.toNat_natCast, ok_bind, Fs.ok_fsModify, ok_pure, hmem]
  exact hQ

theorem Opened.ok_fileWrite_denied (h : Opened f g file i) (hw : i.denyWriteCnt ≠ 0) (bs : List Byte)
    {Q : Nat → Fs.St → Prop} (hQ : Q 0 f) : Ok (Fs.fileWrite g bs) f Q := by
  unfold Fs.fileWrite
  rw [ok_bind, Fs.ok_fileAt h.handle, ok_bind, Fs.ok_inodeWriteAt_denied h.inode hw, ok_bind, Fs.ok_fsModify, ok_pure]
  have hsame := moved_zero h.handle
  unfold ReadWrite.moved at hsame
  rwa [hsame]

/-! ## The pieces of a buffer -/

theorem ok_onFs {α : Type} {c : Fs.M α} {s : St} {Q : α → St → Prop} :
    Ok (onFs c) s Q ↔ Ok c s.fs fun a f => Q a { s with fs := f } := ok_zoom

theorem ok_pageLock {lock : Nat → Bool → Bool} {a : Nat} {w : Bool} (h : lock a w = true) {s : St}
    {Q : Unit → St → Prop} : Ok (pageLock lock a w) s Q ↔ Q () s := by
  rw [pageLock, if_pos h, ok_pure]

theorem pieceSize_pos {a size : Nat} (h : size ≠ 0) : 0 < pieceSize a size := by
  have hmod := Nat.mod_lt a (show 0 < pgSize by decide)
  unfold pieceSize
  split <;> omega

theorem pieceSize_le (a size : Nat) : pieceSize a size ≤ size := by
  unfold pieceSize
  split <;> omega

theorem storeAt_nil (user : Nat → Byte) (a : Nat) : storeAt user a [] = user := by
  funext x
  rw [storeAt, if_neg]
  rw [length_nil]
  omega

theorem storeAt_append (user : Nat → Byte) (a : Nat) (bs cs : List Byte) :
    storeAt (storeAt user a bs) (a + bs.length) cs = storeAt user a (bs ++ cs) := by
  funext x
  unfold storeAt
  rw [length_append]
  by_cases hb : a ≤ x ∧ x < a + bs.length
  · rw [if_neg (by omega), if_pos hb, if_pos (by omega), getD_append _ _ _ _ (by omega)]
  · by_cases hc : a + bs.length ≤ x ∧ x < a + bs.length + cs.length
    · rw [if_pos hc, if_pos (by omega), getD_append_right _ _ _ _ (by omega)]
      congr 1
      omega
    · rw [if_neg hc, if_neg hb, if_neg (by omega)]

theorem bytesAt_add (user : Nat → Byte) (a m n : Nat) :
    bytesAt user a (m + n) = bytesAt user a m ++ bytesAt user (a + m) n := by
  unfold bytesAt
  rw [range_add, map_append, map_map]
  congr 1
  refine map_congr_left fun i _ => ?_
  simp [Nat.add_assoc]

@[simp] theorem length_bytesAt (user : Nat → Byte) (a n : Nat) : (bytesAt user a n).length = n := by
  simp [bytesAt]

/-- Every page of the buffer can be locked. -/
def Valid (lock : Nat → Bool → Bool) (w : Bool) (a size : Nat) : Prop := ∀ x, a ≤ x → x < a + size → lock x w = true

theorem Valid.rest {lock : Nat → Bool → Bool} {w : Bool} {a size n : Nat} (h : Valid lock w a size) (hn : n ≤ size) :
    Valid lock w (a + n) (size - n) := fun x hx hx' => h x (by omega) (by omega)

/-! ## Reading a file -/

/-- `file_read` of the whole size into a flat buffer. -/
def flatRead (g buf size : Nat) : M Int := do
  let bs ← onFs (Fs.fileRead g size)
  store buf bs
  pure bs.length

/-- The state after `k` bytes have been read to `buf`. -/
def readInto (s : St) (g : Nat) (file : Fs.File) (i : Fs.Inode) (buf k : Nat) : St :=
  { s with
    fs := moved s.fs g file k
    user := storeAt s.user buf (Fs.readBytes s.fs.disk i.data.start file.pos k) }

variable {s : St} {lock : Nat → Bool → Bool} {junk : Nat → Int} {handle : Int} {n buf size : Nat} {acc : Int}

theorem readInto_zero (h : s.fs.files g = some file) : readInto s g file i buf 0 = s := by
  unfold readInto
  rw [moved_zero h, Fs.readBytes, range_zero, map_nil, storeAt_nil]

theorem readInto_readInto (s : St) (g : Nat) (file : Fs.File) (i : Fs.Inode) (buf j k : Nat) :
    readInto (readInto s g file i buf j) g { file with pos := file.pos + j } i (buf + j) k =
      readInto s g file i buf (j + k) := by
  have hlen := Fs.length_readBytes s.fs.disk i.data.start file.pos j
  have hstore := storeAt_append s.user buf (Fs.readBytes s.fs.disk i.data.start file.pos j)
    (Fs.readBytes s.fs.disk i.data.start (file.pos + j) k)
  rw [hlen, ← Fs.readBytes_add] at hstore
  unfold readInto
  rw [moved_moved, ← hstore]
  rfl

theorem ok_flatRead (h : Opened s.fs g file i) (buf size : Nat) {Q : Int → St → Prop}
    (hQ : Q (min size (i.data.length - file.pos) : Nat)
      (readInto s g file i buf (min size (i.data.length - file.pos)))) :
    Ok (flatRead g buf size) s Q := by
  unfold flatRead store
  rw [ok_bind, ok_onFs]
  refine h.ok_fileRead size ?_
  rw [ok_bind, ok_modify, ok_pure, Fs.length_readBytes]
  exact hQ

/-- One piece that is read from a file. -/
theorem ok_readPiece (hh : handle ≠ stdinFileno) (h : Opened s.fs g file i) (hlock : lock buf true = true)
    {Q : Int × Int → St → Prop}
    (hQ : Q (acc, (min n (i.data.length - file.pos) : Nat))
      (readInto s g file i buf (min n (i.data.length - file.pos)))) :
    Ok (readPiece lock junk handle g buf n acc) s Q := by
  unfold readPiece store
  rw [if_pos hh, ok_bind, ok_pageLock hlock, ok_bind, ok_onFs]
  refine h.ok_fileRead n ?_
  rw [ok_bind, ok_modify, ok_pure, Fs.length_readBytes]
  exact hQ

theorem ok_readLoop (hh : handle ≠ stdinFileno) (h : Opened s.fs g file i) (hlock : Valid lock true buf size)
    (hn : size ≤ n) {Q : Int → St → Prop} (hQ : Q (acc + (min size (i.data.length - file.pos) : Nat))
      (readInto s g file i buf (min size (i.data.length - file.pos)))) :
    Ok (readLoop lock junk handle g n buf size acc) s Q := by
  induction n generalizing s buf size acc file with
  | zero =>
    obtain rfl : size = 0 := by omega
    rw [Nat.zero_min, readInto_zero h.handle, Int.natCast_zero, Int.add_zero] at hQ
    rw [readLoop, ok_pure]
    exact hQ
  | succ n ih =>
    rw [readLoop]
    by_cases hz : size = 0
    · subst hz
      rw [Nat.zero_min, readInto_zero h.handle, Int.natCast_zero, Int.add_zero] at hQ
      rw [if_pos rfl, ok_pure]
      exact hQ
    have hpos := pieceSize_pos (a := buf) hz
    have hle := pieceSize_le buf size
    rw [if_neg hz]
    generalize pieceSize buf size = c at hpos hle
    rw [ok_bind]
    refine ok_readPiece hh h (hlock buf (Nat.le_refl _) (by omega)) ?_
    dsimp only
    rw [if_neg (by omega)]
    by_cases hshort : i.data.length - file.pos < c
    · -- a short read: the end of the file is in this piece
      have hk : min c (i.data.length - file.pos) = min size (i.data.length - file.pos) := by omega
      rw [if_pos (by omega), ok_pure, hk]
      exact hQ
    · have hk : min c (i.data.length - file.pos) = c := by omega
      have hrest : min size (i.data.length - file.pos) = c + min (size - c) (i.data.length - (file.pos + c)) := by omega
      rw [hk, if_neg (by omega)]
      refine ih (h.moved c) (hlock.rest hle) (by omega) ?_
      rw [readInto_readInto, ← hrest]
      have hsum : acc + (c : Int) + (min (size - c) (i.data.length - (file.pos + c)) : Nat) =
          acc + (min size (i.data.length - file.pos) : Nat) := by omega
      rw [hsum]
      exact hQ

/-! ## Writing a file -/

/-- `file_write` of the whole size from a flat buffer. -/
def flatWrite (g buf size : Nat) : M Int := do
  let s ← Code.get
  let n ← onFs (Fs.fileWrite g (bytesAt s.user buf size))
  pure n

/-- The state after `k` bytes of the buffer have been written. -/
def wroteFrom (s : St) (g : Nat) (file : Fs.File) (i : Fs.Inode) (buf k : Nat) : St :=
  { s with
    fs := moved (s.fs.setDisk (Fs.writeBytes s.fs.disk i.data.start file.pos (bytesAt s.user buf k))) g file k }

theorem take_bytesAt (user : Nat → Byte) (a : Nat) {k n : Nat} (h : k ≤ n) :
    (bytesAt user a n).take k = bytesAt user a k := by
  obtain ⟨m, rfl⟩ := Nat.exists_eq_add_of_le h
  rw [bytesAt_add, take_left' (length_bytesAt ..)]

theorem wroteFrom_zero (h : s.fs.files g = some file) : wroteFrom s g file i buf 0 = s := by
  unfold wroteFrom
  have hsame : s.fs.setDisk s.fs.disk = s.fs := rfl
  rw [bytesAt, range_zero, map_nil, Fs.writeBytes_nil, hsame, moved_zero h]

theorem wroteFrom_wroteFrom (s : St) (g : Nat) (file : Fs.File) (i : Fs.Inode) (buf j k : Nat) :
    wroteFrom (wroteFrom s g file i buf j) g { file with pos := file.pos + j } i (buf + j) k =
      wroteFrom s g file i buf (j + k) := by
  have hwrite := Fs.writeBytes_append s.fs.disk i.data.start file.pos (bytesAt s.user buf j)
    (bytesAt s.user (buf + j) k)
  rw [← bytesAt_add, length_bytesAt] at hwrite
  have hmoved := moved_moved (s.fs.setDisk (Fs.writeBytes s.fs.disk i.data.start file.pos (bytesAt s.user buf (j + k))))
    g file j k
  unfold wroteFrom
  rw [← hmoved, ← hwrite]
  rfl

theorem Opened.wroteFrom (h : Opened s.fs g file i) (buf k : Nat) :
    Opened (wroteFrom s g file i buf k).fs g { file with pos := file.pos + k } i :=
  ⟨update_self .., h.inode, h.fits, h.mem⟩

/-- How much of `size` bytes is written. -/
def writable (file : Fs.File) (i : Fs.Inode) (size : Nat) : Nat :=
  if i.denyWriteCnt = 0 then min size (i.data.length - file.pos) else 0

theorem ok_write_bytesAt (h : Opened s.fs g file i) (buf n : Nat) {Q : Nat → St → Prop}
    (hQ : Q (writable file i n) (wroteFrom s g file i buf (writable file i n))) :
    Ok (onFs (Fs.fileWrite g (bytesAt s.user buf n))) s Q := by
  rw [ok_onFs]
  unfold writable at hQ
  by_cases hw : i.denyWriteCnt = 0
  · rw [if_pos hw] at hQ
    refine h.ok_fileWrite hw _ ?_
    rw [length_bytesAt, take_bytesAt _ _ (Nat.min_le_left ..)]
    exact hQ
  · rw [if_neg hw, wroteFrom_zero h.handle] at hQ
    exact h.ok_fileWrite_denied hw _ hQ

theorem ok_writeLoop {fd : Descriptors.Binding} (h : Opened s.fs fd.file file i) (hlock : Valid lock false buf size)
    (hn : size ≤ n) {Q : Int → St → Prop} (hQ : Q (acc + (writable file i size : Nat))
      (wroteFrom s fd.file file i buf (writable file i size))) :
    Ok (writeLoop lock (some fd) n buf size acc) s Q := by
  induction n generalizing s buf size acc file with
  | zero =>
    obtain rfl : size = 0 := by omega
    have hk : writable file i 0 = 0 := by
      unfold writable
      split <;> omega
    rw [hk, wroteFrom_zero h.handle, Int.natCast_zero, Int.add_zero] at hQ
    rw [writeLoop, ok_pure]
    exact hQ
  | succ n ih =>
    rw [writeLoop]
    by_cases hz : size = 0
    · subst hz
      have hk : writable file i 0 = 0 := by
        unfold writable
        split <;> omega
      rw [hk, wroteFrom_zero h.handle, Int.natCast_zero, Int.add_zero] at hQ
      rw [if_pos rfl, ok_pure]
      exact hQ
    have hpos := pieceSize_pos (a := buf) hz
    have hle := pieceSize_le buf size
    rw [if_neg hz]
    generalize pieceSize buf size = c at hpos hle
    rw [ok_bind, writePiece, ok_bind, ok_pageLock (hlock buf (Nat.le_refl _) (by omega)), ok_bind, ok_get]
    refine ok_write_bytesAt h buf c ?_
    by_cases hshort : writable file i c ≠ c
    · -- a short write: the end of the file is in this piece, or writes are denied
      have hk : writable file i c = writable file i size := by
        unfold writable at hshort ⊢
        split
        · rename_i hw
          rw [if_pos hw] at hshort
          omega
        · rfl
      rw [if_pos hshort, ok_pure, hk]
      exact hQ
    · have hk : writable file i c = c := not_not.mp hshort
      have hrest : writable file i size = c + writable { file with pos := file.pos + c } i (size - c) := by
        unfold writable at hk ⊢
        split
        · rename_i hw
          rw [if_pos hw] at hk
          dsimp only
          omega
        · rename_i hw
          rw [if_neg hw] at hk
          omega
      rw [hk, if_neg (not_not.mpr rfl)]
      refine ih (h.wroteFrom buf c) (hlock.rest hle) (by omega) ?_
      rw [wroteFrom_wroteFrom, ← hrest]
      have hsum : acc + (c : Int) + (writable { file with pos := file.pos + c } i (size - c) : Nat) =
          acc + (writable file i size : Nat) := by omega
      rw [hsum]
      exact hQ

/-! ## The calls -/

theorem ok_lookupFd {h : Int} {fd : Descriptors.Binding} (hfd : s.proc.lookupFd h = some fd)
    {Q : Descriptors.Binding → St → Prop} : Ok (lookupFd h) s Q ↔ Q fd s := by
  unfold lookupFd
  rw [ok_bind, ok_get, hfd, ok_pure]

/-- The system calls do to an open file and to a valid buffer what one
`file_read` or `file_write` of the whole size does. -/
theorem paged_transfers_flat (s : St) (lock : Nat → Bool → Bool) (junk : Nat → Int) (h : Int) (hh : 2 ≤ h)
    (fd : Descriptors.Binding) (hfd : s.proc.lookupFd h = some fd) (file : Fs.File) (i : Fs.Inode)
    (hopen : Opened s.fs fd.file file i) (buf size : Nat) :
    (Valid lock true buf size →
      Ok (sysRead lock junk h buf size) s fun r s' => flatRead fd.file buf size s = .ok (r, s')) ∧
    (Valid lock false buf size →
      Ok (sysWrite lock h buf size) s fun r s' => flatWrite fd.file buf size s = .ok (r, s')) := by
  refine ⟨fun hlock => ?_, fun hlock => ?_⟩
  · obtain ⟨r, s', hrun, hr, hs'⟩ := ok_flatRead (Q := fun r s' => r = _ ∧ s' = _) hopen buf size ⟨rfl, rfl⟩
    have hstdin : h ≠ stdinFileno := by
      unfold stdinFileno
      omega
    unfold sysRead
    rw [ok_bind, ok_lookupFd hfd]
    refine ok_readLoop hstdin hopen hlock (Nat.le_refl _) ?_
    rw [Int.zero_add, hrun, hr, hs']
  · have hstdout : h ≠ Descriptors.stdoutFileno := by
      unfold Descriptors.stdoutFileno
      omega
    have hflat : Ok (flatWrite fd.file buf size) s fun r s' =>
        r = (writable file i size : Nat) ∧ s' = wroteFrom s fd.file file i buf (writable file i size) := by
      unfold flatWrite
      rw [ok_bind, ok_get, ok_bind]
      exact ok_write_bytesAt hopen buf size ((ok_pure _).mpr ⟨rfl, rfl⟩)
    obtain ⟨r, s', hrun, hr, hs'⟩ := hflat
    unfold sysWrite
    rw [if_pos hstdout, ok_bind, ok_lookupFd hfd]
    refine ok_writeLoop hopen hlock (Nat.le_refl _) ?_
    rw [Int.zero_add, hrun, hr, hs']

/-- A process with a file of 600 bytes that is open under handle 2. -/
def oneOpen (mem : List Bool) : St where
  fs := { Fs.powerOn 2 (fun _ _ => 7) mem with
    inodes := fun p => if p = 0 then some ⟨5, 1, false, 0, ⟨0, 600⟩⟩ else none
    files := fun g => if g = 0 then some ⟨0, 0, false⟩ else none }
  proc := ⟨true, 3, [⟨2, 0⟩], []⟩
  user := fun _ => 0
  keys := fun _ => 0
  console := []

/-- A buffer of two bytes on two pages. -/
theorem paged_transfers_flat_two :
    Ok (sysRead (fun _ _ => true) (fun _ => 0) 2 4095 2) (oneOpen []) fun r s' =>
      flatRead 0 4095 2 (oneOpen []) = .ok (r, s') := by
  refine (paged_transfers_flat (oneOpen []) (fun _ _ => true) (fun _ => 0) 2 (by decide) ⟨2, 0⟩ rfl ⟨0, 0, false⟩
    ⟨5, 1, false, 0, ⟨0, 600⟩⟩ ⟨rfl, rfl, fun k hk => ?_, rfl⟩ 4095 2).1 fun _ _ _ => rfl
  change k < 600 at hk
  change 0 + k / 512 < 2
  omega

/-- The second sector buffer cannot be allocated: `sys_read` needs one for each
page and returns one byte, `file_read` needs one and returns both. -/
theorem paged_read_short :
    (∃ s', sysRead (fun _ _ => true) (fun _ => 0) 2 4095 2 (oneOpen [true, false]) = .ok (1, s')) ∧
      ∃ s', flatRead 0 4095 2 (oneOpen [true, false]) = .ok (2, s') :=
  ⟨⟨_, rfl⟩, _, rfl⟩

/-! ## The keyboard -/

/-- The state after the next `n` keys have been stored at `a`. -/
def keysInto (s : St) (a n : Nat) : St :=
  { s with user := storeAt s.user a ((range n).map s.keys), keys := fun k => s.keys (n + k) }

/-- The next `size` keys are stored in order and consumed, and `size` is
returned. -/
def KeysRead (s : St) (buf size : Nat) (r : Int) (s' : St) : Prop := r = size ∧ s' = keysInto s buf size

theorem keysInto_zero (s : St) (a : Nat) : keysInto s a 0 = s := by
  unfold keysInto
  rw [range_zero, map_nil, storeAt_nil]
  simp only [Nat.zero_add]

theorem keysInto_one (s : St) (a n : Nat) : keysInto (keysInto s a 1) (a + 1) n = keysInto s a (n + 1) := by
  have hstore := storeAt_append s.user a [s.keys 0] ((range n).map fun k => s.keys (1 + k))
  have hrange : (range (n + 1)).map s.keys = [s.keys 0] ++ (range n).map fun k => s.keys (1 + k) := by
    rw [Nat.add_comm, range_add, map_append, map_map]
    rfl
  have hkeys : (fun k => s.keys (n + 1 + k)) = fun k => s.keys (1 + (n + k)) := by
    funext k
    congr 1
    omega
  unfold keysInto
  rw [hrange, ← hstore, hkeys]
  rfl

theorem ok_keyLoop (hlock : lock buf true = true) {j : Nat} {Q : Unit → St → Prop}
    (hQ : Q () (keysInto s (buf + j) n)) :
    Ok (keyLoop lock buf n j) s Q := by
  induction n generalizing s j with
  | zero =>
    rw [keysInto_zero] at hQ
    exact (ok_pure _).mpr hQ
  | succ n ih =>
    have hgetc : ∀ {Q : Byte → St → Prop}, Q (s.keys 0) { s with keys := fun k => s.keys (k + 1) } →
        Ok inputGetc s Q := fun hq => ⟨_, _, rfl, hq⟩
    have hone : ({ s with
        user := storeAt s.user (buf + j) [s.keys 0]
        keys := fun k => s.keys (k + 1) } : St) = keysInto s (buf + j) 1 := by
      unfold keysInto
      simp only [Nat.add_comm 1]
      rfl
    rw [keyLoop, ok_bind]
    refine hgetc ?_
    rw [ok_bind, ok_pageLock hlock, store, ok_bind, ok_modify, hone]
    refine ih ?_
    rw [← Nat.add_assoc, keysInto_one]
    exact hQ

/-- Whatever `retval` holds, the keys are read if none are asked for and a
descriptor has the number of the keyboard; else there is a value with which
they are not. -/
theorem keyboard_read_iff (s : St) (lock : Nat → Bool → Bool) (buf size : Nat) (hlock : Valid lock true buf size) :
    (∀ junk, Ok (sysRead lock junk stdinFileno buf size) s (KeysRead s buf size)) ↔
      size = 0 ∧ ∃ fd ∈ s.proc.fds, fd.handle = stdinFileno := by
  constructor
  · intro h
    cases hfd : s.proc.lookupFd stdinFileno with
    | none =>
      have hrun := h fun _ => 0
      rw [sysRead, ok_bind, lookupFd, ok_bind, ok_get, hfd] at hrun
      obtain ⟨_, _, hexit, -⟩ := hrun
      cases hexit
    | some fd =>
      refine ⟨?_, fd, mem_of_find?_eq_some hfd, ?_⟩
      · -- with `size + 1` in `retval` more is returned than was asked for
        by_contra hz
        have hle := pieceSize_le buf size
        have hpos := pieceSize_pos (a := buf) hz
        have hrun : Ok (sysRead lock (fun _ => size + 1) stdinFileno buf size) s
            fun r _ => r = (pieceSize buf size : Int) + (size + 1) := by
          obtain ⟨n, rfl⟩ := Nat.exists_eq_succ_of_ne_zero hz
          unfold sysRead
          rw [ok_bind, ok_lookupFd hfd, readLoop, if_neg hz, ok_bind, readPiece, if_neg (not_not.mpr rfl), ok_bind]
          refine ok_keyLoop (hlock buf (Nat.le_refl _) (by omega)) ?_
          rw [ok_pure]
          dsimp only
          rw [if_neg (by omega), if_pos (by omega), ok_pure]
        obtain ⟨r, s', hr, hkeys, -⟩ := h fun _ => size + 1
        have hmore := hrun.post hr
        omega
      · simpa using find?_some hfd
  · rintro ⟨rfl, fd, hmem, hhandle⟩ junk
    have hsome : (s.proc.lookupFd stdinFileno).isSome := by
      rw [Descriptors.Proc.lookupFd, find?_isSome]
      exact ⟨fd, hmem, by simpa using hhandle⟩
    obtain ⟨fd', hfd⟩ := Option.isSome_iff_exists.mp hsome
    unfold sysRead
    rw [ok_bind, ok_lookupFd hfd, readLoop, ok_pure]
    exact ⟨rfl, (keysInto_zero s buf).symm⟩

theorem keyboard_read_iff_two : ¬ ∀ junk, Ok (sysRead (fun _ _ => true) junk stdinFileno 4095 2) (oneOpen [])
    (KeysRead (oneOpen []) 4095 2) := by
  rw [keyboard_read_iff (oneOpen []) (fun _ _ => true) 4095 2 fun _ _ _ => rfl]
  omega

/-- The process is terminated, whatever `retval` holds. -/
theorem keyboard_read_exits : ¬ ∃ junk, Ok (sysRead (fun _ _ => true) junk stdinFileno 4095 2) (oneOpen [])
    (KeysRead (oneOpen []) 4095 2) := by
  rintro ⟨junk, r, s', hrun, -⟩
  have hexit : sysRead (fun _ _ => true) junk stdinFileno 4095 2 (oneOpen []) = .error .exit := rfl
  rw [hexit] at hrun
  cases hrun

/-- A process whose counter of handles has come round has a descriptor with the
number of the keyboard; then what is returned is what `retval` happens to hold
on top of the last piece. -/
example : ∃ s', sysRead (fun _ _ => true) (fun _ => 7) stdinFileno 4095 2
    { oneOpen [] with proc := ⟨true, 1, [⟨0, 0⟩], []⟩ } = .ok (8, s') := ⟨_, rfl⟩

end Pintos.ReadWrite
