import Pintos.L3Proof.FsFiles

/-!
# The entries of a directory

The loops of directory.c over a directory of any number of entries, whichever
allocations fail: entries may straddle sectors. Without failing allocations a
read is short at the end of the directory only.
-/
namespace Pintos.Fs

open Pintos.Core List

variable {s : St} {p n : Nat} {i : Inode}

/-- `p` holds the inode of a directory of `n` entries. -/
structure St.DirAt (s : St) (p : Nat) (i : Inode) (n : Nat) : Prop where
  inode : s.inodes p = some i
  fits : i.data.Fits s.devSize
  length : i.data.length = n * entrySize

/-- Entry `k` of the directory with the data `d`. -/
def St.entry (s : St) (d : DiskInode) (k : Nat) : Entry := readEntry fun o => byteOf s.disk d.start (k * entrySize + o)

/-- Entry `k` is in use for `name`. -/
def St.HasAt (s : St) (d : DiskInode) (name : Name) (k : Nat) : Prop :=
  (s.entry d k).inUse = true ∧ (s.entry d k).name = name.chars

theorem St.entry_eq_entryOf (s : St) (d : DiskInode) (k : Nat) :
    s.entry d k = entryOf (readBytes s.disk d.start (k * entrySize) entrySize) :=
  (entryOf_readBytes _ _ _).symm

/-- A name `dir_add` accepts. -/
def Name.Valid (name : Name) : Prop := name.chars ≠ [] ∧ name.chars.length ≤ nameMax

instance (name : Name) : Decidable name.Valid := inferInstanceAs (Decidable (_ ∧ _))

/-! ## Entries -/

@[simp] theorem length_newEntry (buf : List Byte) (name : Name) (x : Nat) :
    (newEntry buf name x).length = entrySize := by
  simp [newEntry]

theorem getD_newEntry (buf : List Byte) (name : Name) (x : Nat) {o : Nat} (ho : o < entrySize) :
    (newEntry buf name x).getD o 0 =
      if o < 4 then byteAt x o
      else if o < 4 + name.chars.length then name.chars.getD (o - 4) 0
      else if o = 4 + name.chars.length then 0
      else if o = 19 then 1
      else buf.getD o 0 := by
  simp only [newEntry, getD_eq_getElem?_getD, getElem?_map, getElem?_range ho, Option.map_some,
    Option.getD_some]

/-- A string is read back up to its null byte. -/
theorem cString_append {l rest : List Byte} (h : (0 : Byte) ∉ l) : cString (l ++ 0 :: rest) = l := by
  unfold cString
  rw [takeWhile_append_of_pos]
  · simp
  · intro b hb
    rw [decide_eq_true_eq]
    rintro rfl
    exact h hb

/-- A new entry is read back. -/
theorem entryOf_newEntry (buf : List Byte) {name : Name} {x : Nat} (hname : name.Valid) (hx : x < 2 ^ 32) :
    entryOf (newEntry buf name x) = ⟨x, name.chars, true⟩ := by
  obtain ⟨-, hlen⟩ := hname
  simp only [nameMax] at hlen
  have hsec : wordAt (fun i => (newEntry buf name x).getD i 0) 0 = x := by
    refine wordAt_of_byteAt hx fun i hi => ?_
    rw [Nat.zero_add, getD_newEntry _ _ _ (by simp only [entrySize]; omega), if_pos hi]
  have hchars : (range (nameMax + 1)).map (fun i => (newEntry buf name x).getD (4 + i) 0) =
      name.chars ++ 0 :: ((range (nameMax - name.chars.length)).map fun i =>
        (newEntry buf name x).getD (4 + (name.chars.length + 1 + i)) 0) := by
    have hsplit : nameMax + 1 = name.chars.length + 1 + (nameMax - name.chars.length) := by simp only [nameMax]; omega
    rw [hsplit, range_add, range_succ, map_append, map_append, map_map, append_assoc]
    congr 1
    · refine ext_getElem (by simp) fun i h1 h2 => ?_
      rw [getElem_map, getElem_range, getD_newEntry _ _ _ (by simp only [entrySize]; omega),
        if_neg (by omega), if_pos (by omega), Nat.add_sub_cancel_left, getD_eq_getElem _ _ h2]
    · rw [map_cons, map_nil, getD_newEntry _ _ _ (by simp only [entrySize]; omega), if_neg (by omega),
        if_neg (by omega), if_pos rfl]
      rfl
  have huse : (newEntry buf name x).getD 19 0 = 1 := by
    rw [getD_newEntry _ _ _ (by decide), if_neg (by omega), if_neg (by omega), if_neg (by omega), if_pos rfl]
  unfold entryOf readEntry
  rw [hsec, hchars, cString_append name.noNull]
  simp only [huse]
  rfl

/-- An erased entry is not in use. -/
theorem entryOf_freeEntry {bs : List Byte} (h : bs.length = entrySize) : (entryOf (freeEntry bs)).inUse = false := by
  have : (freeEntry bs).getD 19 0 = 0 := by
    rw [freeEntry, getD_eq_getElem _ _ (by rw [length_set, h]; decide), getElem_set_self]
  simp only [entryOf, readEntry, this, ne_eq, not_true_eq_false, decide_false]

/-! ## Loops -/

/-- A read of entry `k`: the entry or a short read. -/
theorem St.DirAt.ok_readEntry (h : s.DirAt p i n) (k : Nat) (m : List Bool) :
    Ok (inodeReadAt p entrySize ((k * entrySize : Nat) : Int)) (s.setMem m) fun bs s' => ∃ m', s' = s.setMem m' ∧
      (m = [] → m' = []) ∧
      ((k < n ∧ bs = readBytes s.disk i.data.start (k * entrySize) entrySize) ∨
        (bs.length ≠ entrySize ∧ (m = [] → n ≤ k))) := by
  refine (ok_inodeReadAt (s := s.setMem m) h.inode h.fits fun _ => Int.natCast_nonneg _).mono ?_
  rintro bs s' ⟨c, m', rfl, rfl, hu⟩
  refine ⟨m', rfl, fun hm => (hu.full hm).2, ?_⟩
  have hle := hu.le
  rw [Int.toNat_natCast] at *
  rw [h.length] at *
  simp only [entrySize, Int.toNat_natCast] at *
  by_cases hc : c = 20
  · refine .inl ⟨by omega, ?_⟩
    rw [hc]
    rfl
  · refine .inr ⟨by rw [length_readBytes]; exact hc, fun hm => ?_⟩
    have := (hu.full hm).1
    omega

theorem St.DirAt.ok_lookupLoop (h : s.DirAt p i n) (name : Name) :
    ∀ (fuel k : Nat) (m : List Bool), n < k + fuel →
      Ok (lookupLoop p name fuel (k * entrySize)) (s.setMem m) fun found s' => ∃ m', s' = s.setMem m' ∧
        (m = [] → m' = []) ∧
        match found with
        | none => m = [] → ∀ j, k ≤ j → j < n → ¬ s.HasAt i.data name j
        | some (bs, ofs) => ∃ j < n, ofs = j * entrySize ∧ s.HasAt i.data name j ∧
            bs = readBytes s.disk i.data.start (j * entrySize) entrySize := by
  intro fuel
  induction fuel with
  | zero =>
    intro k m hk
    exact (ok_pure _).mpr ⟨m, rfl, id, fun _ j h1 h2 => by omega⟩
  | succ fuel ih =>
    intro k m hk
    unfold lookupLoop
    rw [ok_bind]
    refine (h.ok_readEntry k m).mono ?_
    rintro bs s' ⟨m', rfl, hm, ⟨hlt, rfl⟩ | ⟨hshort, hend⟩⟩
    · rw [length_readBytes, if_pos rfl, ← s.entry_eq_entryOf]
      split
      next hfound => exact (ok_pure _).mpr ⟨m', rfl, hm, k, hlt, rfl, ⟨hfound.1, hfound.2.symm⟩, rfl⟩
      next hno =>
        rw [show k * entrySize + entrySize = (k + 1) * entrySize from (Nat.succ_mul k entrySize).symm]
        refine (ih (k + 1) m' (by omega)).mono ?_
        rintro found s' ⟨m'', rfl, hm', hfound⟩
        refine ⟨m'', rfl, fun h0 => hm' (hm h0), ?_⟩
        cases found with
        | some x => exact hfound
        | none =>
          intro h0 j h1 h2 hj
          rcases Nat.eq_or_lt_of_le h1 with rfl | h1
          · exact hno ⟨hj.1, hj.2.symm⟩
          · exact hfound (hm h0) j h1 h2 hj
    · rw [if_neg hshort]
      exact (ok_pure _).mpr ⟨m', rfl, hm, fun h0 j h1 h2 => absurd (hend h0) (by omega)⟩

theorem St.DirAt.ok_dirFuel (h : s.DirAt p i n) (m : List Bool) {Q : Nat → St → Prop} :
    Ok (dirFuel p) (s.setMem m) Q ↔ Q (n + 1) (s.setMem m) := by
  unfold dirFuel
  rw [ok_bind, ok_inodeAt (s := s.setMem m) h.inode, ok_pure, h.length, Nat.mul_div_cancel n (by decide)]

/-- `lookup` finds an entry for the name. -/
theorem St.DirAt.ok_lookup (h : s.DirAt p i n) (name : Name) :
    Ok (lookup p name) s fun found s' => ∃ m', s' = s.setMem m' ∧ (s.mem = [] → m' = []) ∧
      match found with
      | none => s.mem = [] → ∀ j < n, ¬ s.HasAt i.data name j
      | some (bs, ofs) => ∃ j < n, ofs = j * entrySize ∧ s.HasAt i.data name j ∧
          bs = readBytes s.disk i.data.start (j * entrySize) entrySize := by
  unfold lookup
  rw [ok_bind]
  refine (h.ok_dirFuel s.mem).mpr ?_
  refine (h.ok_lookupLoop name (n + 1) 0 s.mem (by omega)).mono ?_
  rintro found s' ⟨m', rfl, hm, hfound⟩
  refine ⟨m', rfl, hm, ?_⟩
  cases found with
  | some x => exact hfound
  | none => exact fun h0 j hj => hfound h0 j (Nat.zero_le j) hj

theorem St.DirAt.ok_slotLoop (h : s.DirAt p i n) :
    ∀ (fuel k : Nat) (buf : List Byte) (m : List Bool), n < k + fuel → k ≤ n →
      Ok (slotLoop p fuel (k * entrySize) buf) (s.setMem m) fun found s' => ∃ j m', found.1 = j * entrySize ∧
        s' = s.setMem m' ∧ (m = [] → m' = []) ∧ j ≤ n ∧
        (m = [] → (∀ l, k ≤ l → l < j → (s.entry i.data l).inUse = true) ∧
          (j < n → (s.entry i.data j).inUse = false)) := by
  intro fuel
  induction fuel with
  | zero => intro k buf m hk hle; omega
  | succ fuel ih =>
    intro k buf m hk hle
    unfold slotLoop
    rw [ok_bind]
    refine (h.ok_readEntry k m).mono ?_
    rintro bs s' ⟨m', rfl, hm, ⟨hlt, rfl⟩ | ⟨hshort, hend⟩⟩
    · rw [length_readBytes, ← s.entry_eq_entryOf]
      cases huse : (s.entry i.data k).inUse with
      | true =>
        rw [if_pos ⟨rfl, rfl⟩,
          show k * entrySize + entrySize = (k + 1) * entrySize from (Nat.succ_mul k entrySize).symm]
        refine (ih (k + 1) _ m' (by omega) (by omega)).mono ?_
        rintro found s' ⟨j, m'', hj, rfl, hm', hle', hfree⟩
        refine ⟨j, m'', hj, rfl, fun h0 => hm' (hm h0), hle', fun h0 => ?_⟩
        obtain ⟨h1, h2⟩ := hfree (hm h0)
        refine ⟨fun l hl1 hl2 => ?_, h2⟩
        rcases Nat.eq_or_lt_of_le hl1 with rfl | hl1
        · exact huse
        · exact h1 l hl1 hl2
      | false =>
        rw [if_neg (by simp)]
        refine (ok_pure _).mpr ⟨k, m', rfl, rfl, hm, hle, fun _ => ⟨fun l h1 h2 => by omega, fun _ => huse⟩⟩
    · rw [if_neg fun hc => hshort hc.1]
      exact (ok_pure _).mpr ⟨k, m', rfl, rfl, hm, hle, fun h0 =>
        ⟨fun l h1 h2 => by omega, fun hlt => absurd (hend h0) (by omega)⟩⟩

/-! ## Writing an entry -/

/-- A write of one entry changes that entry. -/
theorem entry_write {d : DiskInode} {disk : Nat → Block} {bs : List Byte} {j : Nat} (hbs : bs.length = entrySize)
    (m : List Bool) (k : Nat) (hdisk : disk = writeBytes s.disk d.start (j * entrySize) bs) :
    ((s.setDisk disk).setMem m).entry d k = if k = j then entryOf bs else s.entry d k := by
  unfold St.entry
  rw [St.setMem_disk, St.setDisk_disk]
  by_cases hk : k = j
  · rw [if_pos hk]
    refine readEntry_congr fun o ho => ?_
    rw [hdisk, byteOf_writeBytes, if_pos (by rw [hk, hbs]; omega), hk, Nat.add_sub_cancel_left]
  · rw [if_neg hk]
    refine readEntry_congr fun o ho => ?_
    rw [hdisk, byteOf_writeBytes, if_neg]
    rw [hbs]
    simp only [entrySize] at *
    omega

/-- The bytes `bs` of an entry are written at entry `j`, up to `k` of them. -/
theorem St.DirAt.ok_writeEntry (h : s.DirAt p i n) (hw : i.denyWriteCnt = 0) (bs : List Byte) (j : Nat)
    (m : List Bool) :
    Ok (inodeWriteAt p bs ((j * entrySize : Nat) : Int)) (s.setMem m) fun k s' => ∃ m',
      s' = (s.setDisk (writeBytes s.disk i.data.start (j * entrySize) (bs.take k))).setMem m' ∧
      Upto (j * entrySize) (min bs.length (n * entrySize - j * entrySize)) m k m' := by
  refine (ok_inodeWriteAt (s := s.setMem m) h.inode hw h.fits fun _ => Int.natCast_nonneg _).mono ?_
  rintro k s' ⟨m', hs', hu⟩
  rw [Int.toNat_natCast, h.length] at hu
  rw [Int.toNat_natCast] at hs'
  exact ⟨m', hs', hu⟩

/-- What `dir_add` does: nothing, or a write of the new entry where the loop
has stopped. -/
inductive Added (s : St) (d : DiskInode) (n : Nat) (name : Name) (x : Nat) : Bool → St → Prop
  | refused {m' : List Bool} (hm : s.mem = [] → m' = []) (hno : ¬ name.Valid ∨ ∃ j < n, s.HasAt d name j) :
      Added s d n name x false (s.setMem m')
  | written {j k : Nat} {m m' : List Bool} {buf : List Byte} (hname : name.Valid) (hm : s.mem = [] → m = [])
      (habsent : s.mem = [] → ∀ j < n, ¬ s.HasAt d name j) (hj : j ≤ n)
      (hused : s.mem = [] → ∀ l < j, (s.entry d l).inUse = true)
      (hfree : s.mem = [] → j < n → (s.entry d j).inUse = false)
      (hu : Upto (j * entrySize) (min entrySize (n * entrySize - j * entrySize)) m k m') :
      Added s d n name x (decide (k = entrySize))
        ((s.setDisk (writeBytes s.disk d.start (j * entrySize) ((newEntry buf name x).take k))).setMem m')

theorem St.DirAt.ok_dirAdd (h : s.DirAt p i n) (hw : i.denyWriteCnt = 0) (name : Name) (x : Nat) (buf : List Byte) :
    Ok (dirAdd p name x buf) s (Added s i.data n name x) := by
  unfold dirAdd
  by_cases hname : name.chars = [] ∨ nameMax < name.chars.length
  · rw [if_pos hname, ok_pure]
    refine .refused (show s.mem = [] → s.mem = [] from id) (.inl fun hv => ?_)
    rcases hname with h0 | h0
    · exact hv.1 h0
    · exact absurd hv.2 (Nat.not_le_of_lt h0)
  · have hvalid : name.Valid := ⟨fun h0 => hname (.inl h0), Nat.le_of_not_lt fun h0 => hname (.inr h0)⟩
    rw [if_neg hname, ok_bind]
    refine (h.ok_lookup name).mono ?_
    rintro found s' ⟨m₁, rfl, hm₁, hfound⟩
    cases found with
    | some x =>
      obtain ⟨j, hj, -, hhas, -⟩ := hfound
      exact (ok_pure _).mpr (.refused hm₁ (.inr ⟨j, hj, hhas⟩))
    | none =>
      dsimp only at hfound ⊢
      rw [ok_bind, h.ok_dirFuel m₁, ok_bind]
      refine (h.ok_slotLoop (n + 1) 0 buf m₁ (by omega) (Nat.zero_le _)).mono ?_
      rintro ⟨ofs, buf'⟩ s' ⟨j, m₂, rfl, rfl, hm₂, hj, hfree⟩
      dsimp only
      rw [ok_bind]
      refine (h.ok_writeEntry hw (newEntry buf' name x) j m₂).mono ?_
      rintro k s' ⟨m₃, rfl, hu⟩
      rw [length_newEntry] at hu
      exact (ok_pure _).mpr (.written hvalid (fun h0 => hm₂ (hm₁ h0)) hfound hj
        (fun h0 l hl => (hfree (hm₁ h0)).1 l (Nat.zero_le l) hl) (fun h0 => (hfree (hm₁ h0)).2) hu)

end Pintos.Fs
