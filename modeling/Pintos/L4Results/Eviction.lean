import Pintos.L4Results.Unmap

/-!
# Evicting a page and paging it in again

`page_out` (vm/page.c:137-181) run alone on a page in a locked frame, and what
`do_page_in` (vm/page.c:66-98) gives back. `pageOutResult` is `page_out` in
closed form: an eviction that succeeds leaves the page's bytes in a swap slot,
in the page's file, or nowhere.

* `runs_pageOut`: the closed form.
* `comesBack_slot`, `comesBack_file`, `comesBack_zero`: what paging in gives in
  the three cases.
* `eviction_recoverable_iff`: when a successful eviction loses nothing.
-/
namespace Pintos.Vm

open Pintos.Core Function

variable {s s' : St} {t u : Tid} {p : PageId} {r : Page} {f : FrameId} {A : Option Nat → Prop} {B : Prop}

/-! ## `swap_out` -/

/-- The slot that `bitmap_scan_and_flip` takes. -/
def St.freeSlot (s : St) : Option Nat := (List.range s.swapSlots).find? fun k => !s.swapUsed k

/-- Sectors `x + i` to `x + i + n` of the swap device hold sectors `i` to
`i + n` of frame `f`. -/
def St.writeSectors (s : St) (f : FrameId) (x i n : Nat) : St :=
  { s with swapDisk := fun sec => if x + i ≤ sec ∧ sec < x + i + n then
      fun o => s.ram f ((sec - x) * blockSectorSize + o) else s.swapDisk sec }

/-- Page `p`, with record `r`, is written from frame `f` to slot `k`. -/
def St.swapTo (s : St) (p : PageId) (r : Page) (f : FrameId) (k : Nat) : St :=
  ((s.setUsed k true).writeSectors f (k * pageSectors) 0 pageSectors).setPage p (some (r.swapped k))

theorem ends_bitmapScan (n k : Nat) : Ends A B t (bitmapScan n k)
    (fun x => x = .done ((List.range' k n).find? fun k => !s.swapUsed k) s) s := by
  induction n generalizing k with
  | zero => exact ends_ret rfl
  | succ n ih =>
    refine ends_det (fun _ => rfl) ?_
    rw [List.range'_succ, List.find?_cons]
    cases hk : s.swapUsed k with
    | true => simpa [hk] using ih (k + 1)
    | false => simp [hk, Ends]

theorem ends_bitmapScanAndFlip : Ends A B t bitmapScanAndFlip
    (fun x => x = .done s.freeSlot (s.freeSlot.elim s fun k => s.setUsed k true)) s := by
  refine ends_det (fun _ => rfl) (ends_bind ((ends_bitmapScan _ 0).mono ?_))
  rintro x rfl
  have hfree : (List.range' 0 s.swapSlots).find? (fun k => !s.swapUsed k) = s.freeSlot := by
    rw [← List.range_eq_range']; rfl
  simp only [andThen, hfree]
  cases s.freeSlot with
  | none => exact ends_ret rfl
  | some k => exact ends_det (fun _ => rfl) (ends_ret rfl)

theorem freeSlot_lt {k : Nat} (h : s.freeSlot = some k) : k < s.swapSlots :=
  List.mem_range.1 (List.mem_of_find?_eq_some h)

theorem writeSectors_succ (f : FrameId) (x i n : Nat) :
    (s.setSector (x + i) fun o => s.ram f (i * blockSectorSize + o)).writeSectors f x (i + 1) n =
      s.writeSectors f x i (n + 1) := by
  simp only [St.writeSectors, St.setSector]
  congr 1
  funext sec
  by_cases h0 : sec = x + i
  · subst h0
    rw [if_neg (by omega), if_pos (by omega), update_self, Nat.add_sub_cancel_left]
  · rw [update_of_ne h0]
    by_cases h1 : x + (i + 1) ≤ sec ∧ sec < x + (i + 1) + n
    · rw [if_pos h1, if_pos (by omega)]
    · rw [if_neg h1, if_neg (by omega)]

variable {x o : Nat} {n : Inode} {g : FileId} {F : File} {e : Option Nat} {m : Nat → Byte}

theorem ends_swapWriteLoop (n i : Nat) (h : x + i + n ≤ s.swapSize) :
    Ends A B t (swapWriteLoop p f x n i) (fun y => y = .done () (s.writeSectors f x i n)) s := by
  induction n generalizing i s with
  | zero =>
    refine ends_ret ?_
    have h0 : s.writeSectors f x i 0 = s := by
      simp only [St.writeSectors]
      congr 1
      funext sec
      rw [if_neg (by omega)]
    rw [h0]
  | succ n ih =>
    refine ends_det (fun _ => if_pos (by omega)) ((ih (i + 1) ?_).mono ?_)
    · rw [St.setSector_swapSize]
      omega
    · rintro y rfl
      rw [writeSectors_succ]

theorem setLock_back {l : Lock} (h : s.locks l = none) : (s.setLock l (some t)).setLock l none = s := by
  simp only [St.setLock, update_idem]
  rw [← h, update_eq_self]

/-- `swap_out` of a page in frame `f`. -/
theorem ends_swapOut (hp : s.pages p = some r) (hf : r.frame = some f) (hl : s.locks (.frame f) = some t)
    (hs : s.locks .swap = none) :
    Ends A B t (swapOut p) (fun x => x = s.freeSlot.elim (.done false s) fun k => .done true (s.swapTo p r f k)) s := by
  refine ends_readPage hp ?_
  simp only [hf]
  refine ends_assertHeld hl (ends_lockFree hs (ends_bind (ends_bitmapScanAndFlip.mono ?_)))
  rintro x rfl
  change Ends A B t (lockRelease .swap >>= fun _ => _) _ _
  have hfree : (s.setLock .swap (some t)).freeSlot = s.freeSlot := rfl
  rw [hfree]
  cases hk : s.freeSlot with
  | none =>
    refine ends_lockRelease (by simp) ?_
    simp only [Option.elim_none]
    rw [setLock_back hs]
    exact ends_det (fun _ => rfl) (ends_ret rfl)
  | some k =>
    have hback : ((s.setLock .swap (some t)).setUsed k true).setLock .swap none = s.setUsed k true :=
      congrArg (fun v : St => v.setUsed k true) (setLock_back hs)
    refine ends_lockRelease (by simp) ?_
    simp only [Option.elim_some]
    rw [hback]
    refine ends_modPage (s := s.setUsed k true) (r := r) hp ?_
    refine ends_bind ((ends_swapWriteLoop pageSectors 0 ?_).mono ?_)
    · have := freeSlot_lt hk
      have hle : s.swapSlots * pageSectors ≤ s.swapSize := Nat.div_mul_le_self _ _
      have hmul : (k + 1) * pageSectors ≤ s.swapSlots * pageSectors := Nat.mul_le_mul_right _ this
      rw [Nat.add_one_mul] at hmul
      exact (by omega : k * pageSectors + 0 + pageSectors ≤ s.swapSize)
    · rintro y rfl
      refine ends_modPage (l := .tau) (r := { r with sector := some (k * pageSectors) }) ?_ ?_
      · simp [St.writeSectors]
      refine ends_modPage (r := { r with sector := some (k * pageSectors), priv := false }) (by simp) ?_
      refine ends_modPage (r := { r with sector := some (k * pageSectors), priv := false, file := none }) (by simp) ?_
      refine ends_modPage (r := { r with
        sector := some (k * pageSectors), priv := false, file := none, fileOffset := 0 }) (by simp) (ends_ret ?_)
      simp only [St.swapTo, St.setPage, update_idem, St.writeSectors, Page.swapped]

/-! ## `page_out` -/

/-- Page `p` with record `r` is in frame `f`, which process `u` has locked. -/
structure Resident (s : St) (u : Tid) (p : PageId) (r : Page) (f : FrameId) : Prop where
  page : s.pages p = some r
  frame : r.frame = some f
  lock : s.locks (.frame f) = some u
  swapLock : s.locks .swap = none
  sector : r.sector = none
  dir : (s.pagedirs r.thread).isSome
  aligned : pgOfs r.addr = 0
  user : r.addr < physBase
  opened : ∀ g, r.file = some g → (s.files g).isSome

/-- The entry of the page is marked dirty. -/
abbrev St.dirty (s : St) (r : Page) : Bool := (s.pte r.thread r.addr).dirty

/-- The entry of the page is marked not present. -/
def St.hide (s : St) (r : Page) : St := setPte s r.thread r.addr { s.pte r.thread r.addr with present := false }

/-- The page has been written to slot `k`, and has no frame. -/
def St.toSlot (s : St) (p : PageId) (r : Page) (f : FrameId) (k : Nat) : St :=
  (s.swapTo p r f k).setPage p (some { r.swapped k with frame := none })

/-- The number of bytes that `page_out` writes to the file of the page, whose
inode is `n`; `b` says whether a bounce buffer can be allocated. -/
def Page.amount (r : Page) (n : Inode) (b : Bool) : Nat :=
  if n.denyWriteCnt ≠ 0 then 0 else transferred r.fileOffset (inFile n r.fileBytes r.fileOffset) b

/-- The page is written to its file. -/
def St.toFile (s : St) (r : Page) (f : FrameId) (F : File) (b : Bool) : St :=
  s.setInode F.inode ((s.inodes F.inode).write r.fileOffset (r.amount (s.inodes F.inode) b) (s.ram f))

/-- `page_out (p)` in closed form; `e` is what the allocator returns. -/
def pageOutResult (s : St) (p : PageId) (r : Page) (f : FrameId) (e : Option Nat) : Res sig Bool :=
  let s0 := s.hide r
  let away := fun s : St => s.setPage p (some { r with frame := none })
  match s.dirty r, r.file with
  | false, some _ => .done true (away s0)
  | false, none => .done true (s.freeSlot.elim (away s0) (s0.toSlot p r f))
  | true, none => if s.freeSlot = none ∧ r.priv then .done false s0 else .panic .nullFile
  | true, some g =>
    if r.priv then s.freeSlot.elim (.done false s0) fun k => .done true (s0.toSlot p r f k)
    else
      match s.files g with
      | none => .panic .freed
      | some F =>
        if r.amount (s.inodes F.inode) e.isSome = 0 then .done false s0
        else .done true (away (s0.toFile r f F e.isSome))

theorem hide_eq (h : Resident s u p r f) : ∃ pd, s.pagedirs r.thread = some pd ∧
    s.hide r = s.setPagedir r.thread (some { pd with
      pte := update pd.pte r.addr { s.pte r.thread r.addr with present := false } }) := by
  obtain ⟨pd, hpd⟩ := Option.isSome_iff_exists.1 h.dir
  exact ⟨pd, hpd, by simp only [St.hide, setPte, hpd]⟩

/-- Hiding the entry leaves the page in its frame, with its dirty bit. -/
theorem Resident.hide (h : Resident s u p r f) : Resident (s.hide r) u p r f ∧
    (s.hide r).dirty r = s.dirty r ∧ (s.hide r).freeSlot = s.freeSlot ∧ (s.hide r).files = s.files ∧
    (s.hide r).inodes = s.inodes ∧ (s.hide r).ram = s.ram := by
  obtain ⟨pd, hpd, he⟩ := hide_eq h
  rw [he]
  refine ⟨{ h with dir := by simp }, ?_, rfl, rfl, rfl, rfl⟩
  simp [St.dirty]

/-- `page_out` after `swap_out`: the page has no file. -/
theorem ends_pageOutDirty_noFile {dirty : Bool} (hp : s.pages p = some r) (hf : r.frame = some f)
    (hl : s.locks (.frame f) = some u) (hs : s.locks .swap = none) (hfile : r.file = none)
    (hfull : r.priv → s.freeSlot = none) : Ends A B u (pageOutDirty p f dirty)
      (fun x => x = if dirty then (if r.priv then .done false s else .panic .nullFile) else .done true s) s := by
  cases dirty with
  | false => exact ends_ret rfl
  | true =>
    refine ends_readPage hp ?_
    cases hpr : r.priv with
    | false =>
      simp only [hfile, Bool.false_eq_true, if_false, if_true]
      exact fun _ _ => rfl
    | true =>
      refine (ends_swapOut hp hf hl hs).mono ?_
      rintro x rfl
      rw [hfull hpr]
      rfl

theorem amount_zero_write {b : Bool} {src : Nat → Byte} (h : r.amount n b = 0) :
    n.write r.fileOffset (r.amount n b) src = n := by
  rw [h]
  cases n
  simp only [Inode.write, Inode.mk.injEq, true_and, and_true]
  funext o
  exact if_neg (by omega)

/-- `page_out` of a dirty page with a file. -/
theorem ends_pageOutDirty_file (hr : Resident s u p r f) (hg : r.file = some g)
    (hF : s.files g = some F) : Ends A B u (pageOutDirty p f true)
      (fun x => ∃ e, A e ∧ x = if r.priv then s.freeSlot.elim (.done false s) fun k => .done true (s.swapTo p r f k)
        else .done (decide (r.amount (s.inodes F.inode) e.isSome ≠ 0)) (s.toFile r f F e.isSome)) s := by
  refine ends_step fun e he => ?_
  simp only [hr.page]
  cases hpr : r.priv with
  | true =>
    refine (ends_swapOut hr.page hr.frame hr.lock hr.swapLock).mono ?_
    rintro x rfl
    exact ⟨e, he, rfl⟩
  | false =>
    simp only [hg, Bool.false_eq_true, if_false]
    refine ends_step fun e' he' => ?_
    simp only [hF]
    by_cases hdeny : (s.inodes F.inode).denyWriteCnt = 0
    · have ha : r.amount (s.inodes F.inode) e'.isSome =
          transferred r.fileOffset (inFile (s.inodes F.inode) r.fileBytes r.fileOffset) e'.isSome :=
        if_neg (by simpa using hdeny)
      rw [if_neg (by simpa using hdeny)]
      exact ends_ret ⟨e', he', by simp only [St.toFile, ha]⟩
    · have ha : r.amount (s.inodes F.inode) e'.isSome = 0 := if_pos (by simpa using hdeny)
      rw [if_pos (by simpa using hdeny)]
      refine ends_ret ⟨e', he', ?_⟩
      rw [St.toFile, amount_zero_write ha, St.setInode, update_eq_self, ha]

/-- `if (ok) p->frame = NULL;` and the return. -/
theorem ends_clearFrame (hp : s.pages p = some r) (ok : Bool) :
    Ends A B u (doIf ok (setPageFrame p none) >>= fun _ => pure ok)
      (fun x => x = .done ok (if ok then s.setPage p (some { r with frame := none }) else s)) s := by
  cases ok with
  | false => exact ends_ret rfl
  | true => exact ends_modPage (l := .tau) hp (ends_ret rfl)

/-- The end of `page_out` for a page without a file. -/
theorem ends_pageOut_noFile (hr : Resident s u p r f) (hfile : r.file = none) (he : A e) :
    Ends A B u (do
        doIf true (do let _ ← swapOut p)
        let ok ← pageOutDirty p f (s.dirty r)
        doIf ok (setPageFrame p none)
        pure ok)
      (fun x => ∃ e, A e ∧ x = if s.dirty r then
          (if s.freeSlot = none ∧ r.priv then .done false s else .panic .nullFile)
        else .done true (s.freeSlot.elim (s.setPage p (some { r with frame := none })) (s.toSlot p r f))) s := by
  refine ends_bind (ends_bind ((ends_swapOut hr.page hr.frame hr.lock hr.swapLock).mono ?_))
  rintro x rfl
  cases hk : s.freeSlot with
  | none =>
    refine ends_bind ((ends_pageOutDirty_noFile hr.page hr.frame hr.lock hr.swapLock hfile fun _ => hk).mono ?_)
    rintro y rfl
    cases s.dirty r with
    | false =>
      refine (ends_clearFrame hr.page true).mono ?_
      rintro z rfl
      exact ⟨e, he, rfl⟩
    | true =>
      cases hpr : r.priv with
      | false => exact ⟨e, he, by simp⟩
      | true => exact ⟨e, he, by simp⟩
  | some k =>
    have hp : (s.swapTo p r f k).pages p = some (r.swapped k) := by simp [St.swapTo]
    refine ends_bind ((ends_pageOutDirty_noFile (r := r.swapped k) hp hr.frame hr.lock hr.swapLock rfl
      fun h => by simp [Page.swapped] at h).mono ?_)
    rintro y rfl
    cases s.dirty r with
    | false =>
      refine (ends_clearFrame hp true).mono ?_
      rintro z rfl
      exact ⟨e, he, rfl⟩
    | true => exact ⟨e, he, by simp⟩

/-- The end of `page_out` for a page with a file. -/
theorem ends_pageOut_file (hr : Resident s u p r f) (hg : r.file = some g) (he : A e) :
    Ends A B u (do
        let ok ← pageOutDirty p f (s.dirty r)
        doIf ok (setPageFrame p none)
        pure ok)
      (fun x => ∃ e, A e ∧ x = if s.dirty r then
          (if r.priv then s.freeSlot.elim (.done false s) fun k => .done true (s.toSlot p r f k)
          else match s.files g with
            | none => .panic .freed
            | some F =>
              if r.amount (s.inodes F.inode) e.isSome = 0 then .done false s
              else .done true ((s.toFile r f F e.isSome).setPage p (some { r with frame := none })))
        else .done true (s.setPage p (some { r with frame := none }))) s := by
  obtain ⟨F, hF⟩ := Option.isSome_iff_exists.1 (hr.opened g hg)
  cases hd : s.dirty r with
  | false =>
    refine (ends_clearFrame hr.page true).mono ?_
    rintro z rfl
    exact ⟨e, he, rfl⟩
  | true =>
    refine ends_bind ((ends_pageOutDirty_file hr hg hF).mono ?_)
    rintro y ⟨e', he', rfl⟩
    simp only [hF, if_true]
    cases hpr : r.priv with
    | true =>
      simp only [if_true]
      cases hk : s.freeSlot with
      | none => exact ⟨e', he', rfl⟩
      | some k =>
        have hp : (s.swapTo p r f k).pages p = some (r.swapped k) := by simp [St.swapTo]
        refine (ends_clearFrame hp true).mono ?_
        rintro z rfl
        exact ⟨e', he', rfl⟩
    | false =>
      simp only [Bool.false_eq_true, if_false]
      refine (ends_clearFrame (s := s.toFile r f F e'.isSome) hr.page _).mono ?_
      rintro z rfl
      refine ⟨e', he', ?_⟩
      by_cases ha : r.amount (s.inodes F.inode) e'.isSome = 0
      · rw [St.toFile, amount_zero_write ha]
        simp [ha, St.setInode]
      · simp [ha, hpr]

/-- `page_out` is `pageOutResult`. -/
theorem ends_pageOut (hr : Resident s u p r f) :
    Ends A B u (pageOut p) (fun x => ∃ e, A e ∧ x = pageOutResult s p r f e) s := by
  obtain ⟨hr0, hd, hfree, hfiles, hinodes, -⟩ := hr.hide
  obtain ⟨pd, hpd⟩ := Option.isSome_iff_exists.1 hr.dir
  obtain ⟨pd0, hpd0⟩ := Option.isSome_iff_exists.1 hr0.dir
  refine ends_readPage hr.page ?_
  simp only [hr.frame]
  refine ends_assertHeld hr.lock ?_
  refine ends_det (u := s.hide r) (b := ()) (fun _ => ?_) ?_
  · simp only [hpd, hr.aligned, hr.user, true_and, if_true]
    rfl
  refine ends_step fun e he => ?_
  simp only [hpd0, hr.user, if_true]
  refine ends_readPage hr0.page ?_
  rw [show ((s.hide r).pte r.thread r.addr).dirty = (s.hide r).dirty r from rfl]
  cases hfile : r.file with
  | none =>
    refine (ends_pageOut_noFile hr0 hfile he).mono ?_
    rintro x ⟨e', he', rfl⟩
    refine ⟨e', he', ?_⟩
    rw [hd, hfree]
    simp only [pageOutResult, hfile]
    cases s.dirty r <;> rfl
  | some g =>
    refine (ends_pageOut_file hr0 hfile he).mono ?_
    rintro x ⟨e', he', rfl⟩
    refine ⟨e', he', ?_⟩
    rw [hd, hfree, hfiles, hinodes]
    simp only [pageOutResult, hfile]
    cases s.dirty r <;> rfl

theorem runs_pageOut (hr : Resident s u p r f) {x : Res sig Bool} :
    Runs u (pageOut p) s x ↔ ∃ e, x = pageOutResult s p r f e := by
  constructor
  · intro h
    obtain ⟨e, -, hx⟩ := (ends_pageOut (A := fun _ => True) (B := True) hr).runs h
    exact ⟨e, hx⟩
  · rintro ⟨e, rfl⟩
    obtain ⟨x, hx, e', he', rfl⟩ := (ends_pageOut (A := (· = e)) hr).can rfl
    exact he' ▸ hx

/-- A clean page that has a file, or for which there is no slot, is dropped. -/
theorem pageOutResult_clean (hd : s.dirty r = false) (hfree : r.file = none → s.freeSlot = none) :
    pageOutResult s p r f e = .done true ((s.hide r).setPage p (some { r with frame := none })) := by
  cases hg : r.file with
  | none =>
    simp only [pageOutResult, hd, hg, hfree hg]
    rfl
  | some g => simp only [pageOutResult, hd, hg]

/-- A successful `page_out` has written the page to a slot, or to its file, or
has dropped it. -/
theorem pageOutResult_true (h : pageOutResult s p r f e = .done true s') :
    (∃ k, s.freeSlot = some k ∧ (r.file.isSome → r.priv = true) ∧ s' = (s.hide r).toSlot p r f k) ∨
    (s.dirty r = false ∧ (r.file = none → s.freeSlot = none) ∧
      s' = (s.hide r).setPage p (some { r with frame := none })) ∨
    (s.dirty r = true ∧ r.priv = false ∧ ∃ g F, r.file = some g ∧ s.files g = some F ∧
      r.amount (s.inodes F.inode) e.isSome ≠ 0 ∧
      s' = ((s.hide r).toFile r f F e.isSome).setPage p (some { r with frame := none })) := by
  unfold pageOutResult at h
  dsimp only at h
  split at h
  · rename_i hd hg
    refine .inr (.inl ⟨hd, fun hn => ?_, (Res.done.inj h).2.symm⟩)
    rw [hn] at hg
    cases hg
  · rename_i hd hg
    have h' := (Res.done.inj h).2
    cases hk : s.freeSlot with
    | none =>
      rw [hk] at h'
      exact .inr (.inl ⟨hd, fun _ => rfl, h'.symm⟩)
    | some k =>
      rw [hk] at h'
      exact .inl ⟨k, rfl, fun hs => (by rw [hg] at hs; cases hs), h'.symm⟩
  · split at h <;> cases h
  · rename_i g hd hg
    split at h
    · rename_i hpr
      cases hk : s.freeSlot with
      | none =>
        rw [hk] at h
        cases h
      | some k =>
        rw [hk] at h
        exact .inl ⟨k, rfl, fun _ => hpr, (Res.done.inj h).2.symm⟩
    · rename_i hpr
      split at h
      · cases h
      · rename_i F hF
        split at h
        · cases h
        · rename_i ha
          exact .inr (.inr ⟨hd, by simpa using hpr, g, F, hg, hF, ha, (Res.done.inj h).2.symm⟩)

/-! ## Paging in -/

/-- Page `p`, which had record `r` and no frame in `s`, has been given frame
`f` by its owner `t` (vm/page.c:68-73), and its backing is that of `s`. -/
structure Returns (s s' : St) (t : Tid) (p : PageId) (r : Page) (f : FrameId) : Prop where
  page : s'.pages p = some { r with frame := some f }
  lock : s'.locks (.frame f) = some t
  slot : ∀ x, r.sector = some x → ∀ i < pageSectors, s'.swapDisk (x + i) = s.swapDisk (x + i)
  file : ∀ g F, r.file = some g → s.files g = some F → ∃ F', s'.files g = some F' ∧ F'.inode = F.inode ∧
    (s'.inodes F.inode).data = (s.inodes F.inode).data ∧ (s'.inodes F.inode).length = (s.inodes F.inode).length

/-- Whatever frame the page is paged into, the frame then holds `m`. -/
def ComesBack (s : St) (p : PageId) (r : Page) (m : Nat → Byte) : Prop :=
  ∀ t f s' s'', Returns s s' t p r f → Runs t (fillFrame p f) s' (.done () s'') → ∀ o < pgSize, s''.ram f o = m o

/-- Some frame the page can be paged into. -/
theorem exists_returns (s : St) (p : PageId) (r : Page) : ∃ t f s', Returns s s' t p r f ∧
    s'.files = s.files ∧ s'.inodes = s.inodes := by
  refine ⟨0, 0, (s.setPage p (some { r with frame := some 0 })).setLock (.frame 0) (some 0), ?_, rfl, rfl⟩
  exact ⟨by simp, by simp, fun _ _ _ _ => rfl, fun g F _ hF => ⟨F, hF, rfl, rfl, rfl⟩⟩

theorem putSector_apply {d : Nat → Byte} {i : Nat} :
    putSector m i d o = if o / blockSectorSize = i then d (o % blockSectorSize) else m o := by
  unfold putSector
  by_cases h : o / blockSectorSize = i
  · have h1 : i * blockSectorSize ≤ o ∧ o < (i + 1) * blockSectorSize := by
      unfold blockSectorSize at *
      omega
    have h2 : o - i * blockSectorSize = o % blockSectorSize := by
      unfold blockSectorSize at *
      omega
    rw [if_pos h1, if_pos h, h2]
  · have h1 : ¬(i * blockSectorSize ≤ o ∧ o < (i + 1) * blockSectorSize) := by
      unfold blockSectorSize at *
      omega
    rw [if_neg h1, if_neg h]

/-- After the loop of `swap_in` the frame holds the sectors that were read. -/
theorem ends_swapReadLoop (n i : Nat) : Ends A B t (swapReadLoop f x n i)
    (fun y => ∀ v, y = .done () v → ∃ m, v = s.setRam f m ∧ ∀ o, m o =
      if i ≤ o / blockSectorSize ∧ o / blockSectorSize < i + n then
        s.swapDisk (x + o / blockSectorSize) (o % blockSectorSize) else s.ram f o) s := by
  induction n generalizing i s with
  | zero =>
    refine ends_ret fun v hv => ?_
    cases hv
    refine ⟨s.ram f, by simp [St.setRam], fun o => ?_⟩
    rw [if_neg (by omega)]
  | succ n ih =>
    refine ends_step fun _ _ => ?_
    by_cases hx : x + i < s.swapSize
    · rw [if_pos hx]
      refine (ih (i + 1)).mono fun y hy v hv => ?_
      obtain ⟨m, rfl, hm⟩ := hy v hv
      refine ⟨m, by simp [St.setRam], fun o => ?_⟩
      rw [hm o]
      simp only [St.setRam_swapDisk, St.setRam_ram, update_self, putSector_apply]
      by_cases hi : o / blockSectorSize = i
      · rw [if_neg (by omega), if_pos hi, if_pos (by omega), hi]
      · rw [if_neg hi]
        by_cases hj : i + 1 ≤ o / blockSectorSize ∧ o / blockSectorSize < i + 1 + n
        · rw [if_pos hj, if_pos (by omega)]
        · rw [if_neg hj, if_neg (by omega)]
    · rw [if_neg hx]
      exact fun v hv => by cases hv

theorem comesBack_slot (hx : r.sector = some x)
    (hm : ∀ o < pgSize, s.swapDisk (x + o / blockSectorSize) (o % blockSectorSize) = m o) : ComesBack s p r m := by
  intro t f s' s'' hret hrun
  have hends : Ends (fun _ => True) True t (fillFrame p f)
      (fun y => ∀ v, y = .done () v → ∀ o < pgSize, v.ram f o = m o) s' := by
    refine ends_readPage hret.page ?_
    simp only [hx]
    refine ends_readPage hret.page ?_
    simp only [hx]
    refine ends_assertHeld hret.lock (ends_bind ((ends_swapReadLoop pageSectors 0).mono fun y hy => ?_))
    cases y with
    | panic q => exact fun v hv => by cases hv
    | done a v =>
      obtain ⟨m', rfl, hm'⟩ := hy v rfl
      simp only [andThen]
      refine ends_det (u := (s'.setRam f m').setUsed (x / pageSectors) false) (b := ()) (fun _ => rfl) ?_
      refine ends_prim (u := ((s'.setRam f m').setUsed (x / pageSectors) false).setPage p
        (some { r with frame := some f, sector := none })) (b := ()) (fun _ _ => ?_) fun v hv o ho => ?_
      · simp [hret.page]
      · cases hv
        have hlt : o / blockSectorSize < 0 + pageSectors := by
          unfold pageSectors pgSize blockSectorSize at *
          omega
        have hdisk := hret.slot x hx (o / blockSectorSize) (by omega)
        simp only [St.setPage_ram, St.setUsed_ram, St.setRam_ram, update_self]
        rw [hm' o, if_pos ⟨Nat.zero_le _, hlt⟩, hdisk]
        exact hm o ho
  exact hends.runs hrun s'' rfl

theorem comesBack_zero (hx : r.sector = none) (hg : r.file = none) :
    ComesBack s p r m ↔ ∀ o < pgSize, m o = 0 := by
  have hends : ∀ {t f s'} {B : Prop}, Returns s s' t p r f → Ends (fun _ => True) B t (fillFrame p f)
      (fun y => ∃ v, y = .done () v ∧ ∀ o < pgSize, v.ram f o = 0) s' := by
    intro t f s' B hret
    refine ends_readPage hret.page ?_
    simp only [hx, hg]
    refine ends_prim (fun _ _ => rfl) ⟨_, rfl, fun o ho => ?_⟩
    simp [ho]
  constructor
  · intro h o ho
    obtain ⟨t, f, s', hret, -⟩ := exists_returns s p r
    obtain ⟨y, hy, v, rfl, hv⟩ := (hends hret).can (e := none) trivial
    rw [← h t f s' v hret hy o ho, hv o ho]
  · intro h t f s' s'' hret hrun o ho
    obtain ⟨v, hv, hz⟩ := (hends (B := True) hret).runs hrun
    cases hv
    rw [hz o ho, h o ho]

/-- What a page-in from the inode gives; `b` says whether a bounce buffer can
be allocated. -/
def Page.fromFile (r : Page) (n : Inode) (b : Bool) (o : Nat) : Byte :=
  if o < transferred r.fileOffset (inFile n r.fileBytes r.fileOffset) b then n.data (r.fileOffset + o) else 0

theorem comesBack_file (hx : r.sector = none) (hg : r.file = some g)
    (hF : s.files g = some F) :
    ComesBack s p r m ↔ ∀ b, ∀ o < pgSize, r.fromFile (s.inodes F.inode) b o = m o := by
  have hends : ∀ {t f s'} {B : Prop} {A : Option Nat → Prop}, Returns s s' t p r f → Ends A B t (fillFrame p f)
      (fun y => ∃ e v, A e ∧ y = .done () v ∧ ∀ o < pgSize, v.ram f o = r.fromFile (s.inodes F.inode) e.isSome o)
      s' := by
    intro t f s' B A hret
    obtain ⟨F', hF', hi, hdata, hlen⟩ := hret.file g F hg hF
    refine ends_readPage hret.page ?_
    simp only [hx, hg]
    refine ends_step fun e he => ?_
    simp only [hF', hi]
    refine ends_prim (fun _ _ => rfl) ⟨e, _, he, rfl, fun o ho => ?_⟩
    have hin : inFile (s'.inodes F.inode) r.fileBytes r.fileOffset =
        inFile (s.inodes F.inode) r.fileBytes r.fileOffset := by
      simp only [inFile, hlen]
    simp only [St.setRam_ram, update_self, hin, hdata, Page.fromFile]
    by_cases hlt : o < transferred r.fileOffset (inFile (s.inodes F.inode) r.fileBytes r.fileOffset) e.isSome
    · rw [if_neg (by omega), if_pos hlt, if_pos hlt]
    · rw [if_pos (by omega), if_neg hlt]
  constructor
  · intro h b o ho
    obtain ⟨t, f, s', hret, -⟩ := exists_returns s p r
    obtain ⟨e, rfl⟩ : ∃ e : Option Nat, e.isSome = b := by
      cases b with
      | true => exact ⟨some 0, rfl⟩
      | false => exact ⟨none, rfl⟩
    obtain ⟨y, hy, e', v, rfl, rfl, hv⟩ := (hends (A := (· = e)) hret).can rfl
    rw [← h t f s' v hret hy o ho, hv o ho]
  · intro h t f s' s'' hret hrun o ho
    obtain ⟨e, v, -, hv, hz⟩ := (hends (A := fun _ => True) (B := True) hret).runs hrun
    cases hv
    rw [hz o ho, h _ o ho]

/-! ## Recoverable evictions -/

/-- A clean page that has a file is as in the file. -/
def Coherent (s : St) (r : Page) (f : FrameId) : Prop :=
  s.dirty r = false → ∀ g, r.file = some g → ∀ o < pgSize, s.ram f o = s.backing r o

/-- What should come back: the bytes of the frame; for a page that is shared
with its file, the `file_bytes` bytes of the file followed by zeros. -/
def St.recovered (s : St) (r : Page) (f : FrameId) (o : Nat) : Byte :=
  if r.file.isSome ∧ r.priv = false ∧ r.fileBytes ≤ o then 0 else s.ram f o

/-- Every successful eviction of the page can be undone. -/
def Recovers (s : St) (u : Tid) (p : PageId) (r : Page) (f : FrameId) : Prop :=
  ∀ s', Runs u (pageOut p) s (.done true s') →
    ∃ r', s'.pages p = some r' ∧ r'.frame = none ∧ ComesBack s' p r' (s.recovered r f)

/-- The bytes of the page that lie inside its file. -/
def Page.inside (r : Page) (n : Inode) : Nat := inFile n r.fileBytes r.fileOffset

/-- The bytes that are transferred even when no bounce buffer can be allocated. -/
def Page.sure (r : Page) (n : Inode) : Nat := transferred r.fileOffset (r.inside n) false

/-- The condition on the state before `page_out`. -/
structure Recoverable (s : St) (r : Page) (f : FrameId) : Prop where
  noFile : r.file = none → s.dirty r = false → s.freeSlot = none → ∀ o < pgSize, s.ram f o = 0
  clean : ∀ g F, r.file = some g → s.files g = some F → s.dirty r = false →
    ∀ o < pgSize, r.sure (s.inodes F.inode) ≤ o → o < r.inside (s.inodes F.inode) →
      (s.inodes F.inode).data (r.fileOffset + o) = 0
  tail : ∀ g F, r.file = some g → s.files g = some F → s.dirty r = true → r.priv = false →
    (s.inodes F.inode).denyWriteCnt = 0 → r.inside (s.inodes F.inode) ≠ 0 →
      ∀ o < pgSize, r.sure (s.inodes F.inode) ≤ o → o < r.fileBytes → s.ram f o = 0
  short : ∀ g F, r.file = some g → s.files g = some F → s.dirty r = true → r.priv = false →
    (s.inodes F.inode).denyWriteCnt = 0 → r.sure (s.inodes F.inode) ≠ 0 →
      ∀ o < pgSize, r.sure (s.inodes F.inode) ≤ o → o < r.inside (s.inodes F.inode) →
        (s.inodes F.inode).data (r.fileOffset + o) = s.ram f o

theorem sure_le (n : Inode) : r.sure n ≤ r.inside n := transferred_le ..

theorem inside_le (n : Inode) : r.inside n ≤ r.fileBytes := by
  unfold Page.inside inFile
  omega

theorem fromFile_true (n : Inode) (o : Nat) :
    r.fromFile n true o = if o < r.inside n then n.data (r.fileOffset + o) else 0 := rfl

theorem fromFile_false (n : Inode) (o : Nat) :
    r.fromFile n false o = if o < r.sure n then n.data (r.fileOffset + o) else 0 := rfl

/-- The slot to which the page was written holds the bytes of the frame. -/
theorem toSlot_disk (k : Nat) (ho : o < pgSize) :
    (s.toSlot p r f k).swapDisk (k * pageSectors + o / blockSectorSize) (o % blockSectorSize) = s.ram f o := by
  have h : o / blockSectorSize < pageSectors ∧ o / blockSectorSize * blockSectorSize + o % blockSectorSize = o := by
    unfold pageSectors pgSize blockSectorSize at *
    omega
  have hin : k * pageSectors + 0 ≤ k * pageSectors + o / blockSectorSize ∧
      k * pageSectors + o / blockSectorSize < k * pageSectors + 0 + pageSectors :=
    ⟨Nat.add_le_add_left (Nat.zero_le _) _, Nat.add_lt_add_left h.1 _⟩
  simp only [St.toSlot, St.swapTo, St.writeSectors, St.setPage_swapDisk, St.setUsed_ram]
  rw [if_pos hin, Nat.add_sub_cancel_left, h.2]

theorem recovers_slot (hr : Resident s u p r f) (hsh : r.file.isSome → r.priv = true) (k : Nat) :
    ∃ r', ((s.hide r).toSlot p r f k).pages p = some r' ∧ r'.frame = none ∧
      ComesBack ((s.hide r).toSlot p r f k) p r' (s.recovered r f) := by
  obtain ⟨-, -, -, -, -, hram⟩ := hr.hide
  refine ⟨{ r.swapped k with frame := none }, by simp [St.toSlot], rfl,
    comesBack_slot (x := k * pageSectors) rfl fun o ho => ?_⟩
  rw [toSlot_disk k ho, hram, St.recovered, if_neg]
  rintro ⟨h1, h2, -⟩
  rw [hsh h1] at h2
  cases h2

theorem recovers_iff (hr : Resident s u p r f) : Recovers s u p r f ↔
    ∀ e s', pageOutResult s p r f e = .done true s' →
      ∃ r', s'.pages p = some r' ∧ r'.frame = none ∧ ComesBack s' p r' (s.recovered r f) := by
  simp only [Recovers, runs_pageOut hr]
  constructor
  · intro h e s' he
    exact h s' ⟨e, he.symm⟩
  · rintro h s' ⟨e, he⟩
    exact h e s' he.symm

/-- The page leaves its frame in `v`, and nothing of its record but the frame
changes. -/
theorem exists_away_iff {v : St} :
    (∃ r', (v.setPage p (some { r with frame := none })).pages p = some r' ∧ r'.frame = none ∧
      ComesBack (v.setPage p (some { r with frame := none })) p r' m) ↔
    ComesBack (v.setPage p (some { r with frame := none })) p { r with frame := none } m := by
  constructor
  · rintro ⟨r', h1, -, h2⟩
    obtain rfl : { r with frame := none } = r' := by simpa using h1
    exact h2
  · intro h
    exact ⟨_, by simp, rfl, h⟩

/-- A clean page without a file, and no free slot. -/
theorem recovers_dropped (hr : Resident s u p r f) (hfile : r.file = none) (hd : s.dirty r = false)
    (hfree : s.freeSlot = none) : Recovers s u p r f ↔ ∀ o < pgSize, s.ram f o = 0 := by
  have hres := fun e => pageOutResult_clean (p := p) (f := f) (e := e) hd fun _ => hfree
  have hrec : ∀ o, s.recovered r f o = s.ram f o := fun o => if_neg (by simp [hfile])
  simp only [recovers_iff hr, hres, Res.done.injEq, true_and, forall_eq', forall_const, exists_away_iff,
    comesBack_zero (r := { r with frame := none }) hr.sector hfile, hrec]

/-- A clean page with a file. -/
theorem recovers_clean (hr : Resident s u p r f) (hg : r.file = some g)
    (hF : s.files g = some F) (hd : s.dirty r = false) :
    Recovers s u p r f ↔ ∀ b, ∀ o < pgSize, r.fromFile (s.inodes F.inode) b o = s.recovered r f o := by
  obtain ⟨-, -, -, hfiles, hinodes, -⟩ := hr.hide
  have hres := fun e => pageOutResult_clean (p := p) (f := f) (e := e) hd fun h => by simp [hg] at h
  have hF' : ((s.hide r).setPage p (some { r with frame := none })).files g = some F := by
    rw [St.setPage_files, hfiles, hF]
  simp only [recovers_iff hr, hres, Res.done.injEq, true_and, forall_eq', forall_const, exists_away_iff,
    comesBack_file (r := { r with frame := none }) hr.sector hg hF', St.setPage_inodes, hinodes]
  rfl

/-- A dirty page that is written to its file. -/
theorem recovers_shared (hr : Resident s u p r f) (hg : r.file = some g)
    (hF : s.files g = some F) (hd : s.dirty r = true) (hpr : r.priv = false) :
    Recovers s u p r f ↔ ∀ b, r.amount (s.inodes F.inode) b ≠ 0 → ∀ b', ∀ o < pgSize,
      r.fromFile ((s.inodes F.inode).write r.fileOffset (r.amount (s.inodes F.inode) b) (s.ram f)) b' o =
        s.recovered r f o := by
  obtain ⟨-, -, -, hfiles, hinodes, hram⟩ := hr.hide
  have hback : ∀ b, (∃ r', (((s.hide r).toFile r f F b).setPage p (some { r with frame := none })).pages p = some r' ∧
      r'.frame = none ∧ ComesBack (((s.hide r).toFile r f F b).setPage p (some { r with frame := none })) p r'
        (s.recovered r f)) ↔ ∀ b', ∀ o < pgSize,
      r.fromFile ((s.inodes F.inode).write r.fileOffset (r.amount (s.inodes F.inode) b) (s.ram f)) b' o =
        s.recovered r f o := by
    intro b
    have hF' : (((s.hide r).toFile r f F b).setPage p (some { r with frame := none })).files g = some F := by
      rw [St.setPage_files, St.toFile, St.setInode_files, hfiles, hF]
    rw [exists_away_iff, comesBack_file (r := { r with frame := none }) hr.sector hg hF', St.setPage_inodes,
      St.toFile, St.setInode_inodes, update_self, hinodes, hram]
    rfl
  rw [recovers_iff hr]
  constructor
  · intro h b hb
    obtain ⟨e, rfl⟩ : ∃ e : Option Nat, e.isSome = b := by
      cases b with
      | true => exact ⟨some 0, rfl⟩
      | false => exact ⟨none, rfl⟩
    refine (hback _).1 (h e _ ?_)
    simp only [pageOutResult, hd, hg, hpr, hF, if_neg hb]
    rfl
  · intro h e s' hs'
    simp only [pageOutResult, hd, hg, hpr, hF, Bool.false_eq_true, if_false] at hs'
    split at hs'
    · cases hs'
    · rename_i hb
      cases hs'
      rw [← hpr, ← hg]
      exact (hback _).2 (h _ hb)

/-- The bytes that come back from a clean page that is as in its file. -/
theorem recovered_clean (hc : Coherent s r f) (hg : r.file = some g)
    (hF : s.files g = some F) (hd : s.dirty r = false) (ho : o < pgSize) :
    s.recovered r f o = r.fromFile (s.inodes F.inode) true o := by
  have hb : s.ram f o = r.fromFile (s.inodes F.inode) true o := by
    rw [hc hd g hg o ho, St.backing]
    simp only [hg, St.fileByte, hF]
    rfl
  unfold St.recovered
  split
  · rename_i h
    rw [fromFile_true, if_neg]
    have := inside_le (r := r) (s.inodes F.inode)
    omega
  · exact hb

theorem clean_iff (n : Inode) : (∀ b, ∀ o < pgSize, r.fromFile n b o = r.fromFile n true o) ↔
    ∀ o < pgSize, r.sure n ≤ o → o < r.inside n → n.data (r.fileOffset + o) = 0 := by
  constructor
  · intro h o ho h1 h2
    have := h false o ho
    rw [fromFile_false, fromFile_true, if_neg (by omega), if_pos h2] at this
    exact this.symm
  · intro h b o ho
    cases b with
    | true => rfl
    | false =>
      have hle := sure_le (r := r) n
      rw [fromFile_false, fromFile_true]
      by_cases h1 : o < r.sure n
      · rw [if_pos h1, if_pos (by omega)]
      · rw [if_neg h1]
        by_cases h2 : o < r.inside n
        · rw [if_pos h2, h o ho (by omega) h2]
        · rw [if_neg h2]

/-- Paging in from a file to which `k` bytes of the page were written. -/
theorem fromFile_write (n : Inode) (k : Nat) (src : Nat → Byte) (b : Bool) (o : Nat) :
    r.fromFile (n.write r.fileOffset k src) b o = if o < (if b then r.inside n else r.sure n) then
      (if o < k then src o else n.data (r.fileOffset + o)) else 0 := by
  have hlen : transferred r.fileOffset (inFile (n.write r.fileOffset k src) r.fileBytes r.fileOffset) b =
      if b then r.inside n else r.sure n := by
    cases b <;> rfl
  have hdata : (n.write r.fileOffset k src).data (r.fileOffset + o) =
      if o < k then src o else n.data (r.fileOffset + o) := by
    simp [Inode.write]
  rw [Page.fromFile, hlen, hdata]

theorem amount_eq (h : n.denyWriteCnt = 0) (b : Bool) :
    r.amount n b = if b then r.inside n else r.sure n := by
  rw [Page.amount, if_neg (by simpa using h)]
  cases b <;> rfl

/-- A page of which `k` bytes get to the file and `j` bytes come back. -/
theorem shared_recovered {k j : Nat} {src : Nat → Byte} (hk : k = r.inside n ∨ k = r.sure n)
    (hj : j = r.inside n ∨ j = r.sure n) (hk0 : k ≠ 0)
    (htail : r.inside n ≠ 0 → r.sure n ≤ o → o < r.fileBytes → src o = 0)
    (hshort : r.sure n ≠ 0 → r.sure n ≤ o → o < r.inside n → n.data (r.fileOffset + o) = src o) :
    (if o < j then (if o < k then src o else n.data (r.fileOffset + o)) else 0) =
      if r.fileBytes ≤ o then 0 else src o := by
  have h1 := sure_le (r := r) n
  have h2 := inside_le (r := r) n
  by_cases ho : o < j
  · have hin : ¬r.fileBytes ≤ o := by omega
    rw [if_pos ho, if_neg hin]
    by_cases hok : o < k
    · rw [if_pos hok]
    · rw [if_neg hok]
      exact hshort (by omega) (by omega) (by omega)
  · rw [if_neg ho]
    by_cases hb : r.fileBytes ≤ o
    · rw [if_pos hb]
    · rw [if_neg hb]
      exact (htail (by omega) (by omega) (by omega)).symm

theorem shared_iff (n : Inode) (hdeny : n.denyWriteCnt = 0) (src : Nat → Byte) :
    (∀ b, r.amount n b ≠ 0 → ∀ b', ∀ o < pgSize, r.fromFile (n.write r.fileOffset (r.amount n b) src) b' o =
      if r.fileBytes ≤ o then 0 else src o) ↔
    (r.inside n ≠ 0 → ∀ o < pgSize, r.sure n ≤ o → o < r.fileBytes → src o = 0) ∧
    (r.sure n ≠ 0 → ∀ o < pgSize, r.sure n ≤ o → o < r.inside n → n.data (r.fileOffset + o) = src o) := by
  have h2 := inside_le (r := r) n
  simp only [fromFile_write, amount_eq hdeny]
  constructor
  · intro h
    refine ⟨fun h0 o ho h3 h4 => ?_, fun h0 o ho h3 h4 => ?_⟩
    · have := h true h0 false o ho
      rw [if_neg (by simpa using h3), if_neg (by omega)] at this
      exact this.symm
    · have := h false h0 true o ho
      rw [if_pos (by simpa using h4), if_neg (by simpa using h3), if_neg (by omega)] at this
      exact this
  · rintro ⟨htail, hshort⟩ b hb b' o ho
    refine shared_recovered ?_ ?_ hb (fun h => htail h o ho) fun h => hshort h o ho
    · cases b <;> simp
    · cases b' <;> simp

/-- **A successful eviction is recoverable iff the state before it is
`Recoverable`.** -/
theorem eviction_recoverable_iff (hr : Resident s u p r f) (hc : Coherent s r f) :
    Recovers s u p r f ↔ Recoverable s r f := by
  cases hg : r.file with
  | none =>
    cases hd : s.dirty r with
    | true =>
      refine iff_of_true ((recovers_iff hr).2 fun e s' he => ?_) ⟨?_, ?_, ?_, ?_⟩
      · simp only [pageOutResult, hd, hg] at he
        split at he <;> cases he
      all_goals simp [hg, hd]
    | false =>
      cases hfree : s.freeSlot with
      | none =>
        rw [recovers_dropped hr hg hd hfree]
        refine ⟨fun h => ⟨fun _ _ _ => h, ?_, ?_, ?_⟩, fun h => h.noFile hg hd hfree⟩
        all_goals simp [hg]
      | some k =>
        refine iff_of_true ((recovers_iff hr).2 fun e s' he => ?_) ⟨?_, ?_, ?_, ?_⟩
        · simp only [pageOutResult, hd, hg, hfree, Option.elim_some, Res.done.injEq, true_and] at he
          subst he
          exact recovers_slot hr (by simp [hg]) k
        all_goals simp [hg, hfree]
  | some g =>
    obtain ⟨F, hF⟩ := Option.isSome_iff_exists.1 (hr.opened g hg)
    cases hd : s.dirty r with
    | false =>
      rw [recovers_clean hr hg hF hd]
      have hiff := clean_iff (r := r) (s.inodes F.inode)
      constructor
      · intro h
        refine ⟨by simp [hg], fun g' F' hg' hF' _ => ?_, by simp [hd], by simp [hd]⟩
        obtain rfl : g = g' := by simpa [hg] using hg'
        obtain rfl : F = F' := by simpa [hF] using hF'
        exact hiff.1 fun b o ho => (h b o ho).trans (recovered_clean hc hg hF hd ho)
      · intro h b o ho
        rw [recovered_clean hc hg hF hd ho]
        exact hiff.2 (h.clean g F hg hF hd) b o ho
    | true =>
      cases hpr : r.priv with
      | true =>
        refine iff_of_true ((recovers_iff hr).2 fun e s' he => ?_)
          ⟨by simp [hg], by simp [hd], by simp [hpr], by simp [hpr]⟩
        simp only [pageOutResult, hd, hg, hpr, if_true] at he
        cases hfree : s.freeSlot with
        | none => simp [hfree] at he
        | some k =>
          simp only [hfree, Option.elim_some, Res.done.injEq, true_and] at he
          subst he
          exact recovers_slot hr (fun _ => hpr) k
      | false =>
        have hrec : ∀ o, s.recovered r f o = if r.fileBytes ≤ o then 0 else s.ram f o := by
          intro o
          simp only [St.recovered, hg, hpr, Option.isSome_some, true_and]
        rw [recovers_shared hr hg hF hd hpr]
        simp only [hrec]
        by_cases hdeny : (s.inodes F.inode).denyWriteCnt = 0
        · rw [shared_iff _ hdeny]
          constructor
          · intro h
            refine ⟨by simp [hg], by simp [hd], fun g' F' hg' hF' _ _ _ => ?_, fun g' F' hg' hF' _ _ _ => ?_⟩
            all_goals
              obtain rfl : g = g' := by simpa [hg] using hg'
              obtain rfl : F = F' := by simpa [hF] using hF'
            · exact h.1
            · exact h.2
          · intro h
            exact ⟨h.tail g F hg hF hd hpr hdeny, h.short g F hg hF hd hpr hdeny⟩
        · refine iff_of_true (fun b hb => absurd (if_pos (by simpa using hdeny)) hb)
            ⟨by simp [hg], by simp [hd], fun g' F' hg' hF' _ _ h0 => ?_, fun g' F' hg' hF' _ _ h0 => ?_⟩
          all_goals
            obtain rfl : g = g' := by simpa [hg] using hg'
            obtain rfl : F = F' := by simpa [hF] using hF'
            exact absurd h0 hdeny

/-- The initial stack page, clean and not empty, has been chosen for eviction
from frame `f`; `free` says whether there is a free slot. -/
def stackChosen (f : FrameId) (free : Bool) (c : Config kernel) : Bool :=
  (c.st.pages 7).any fun r : Page => decide (r.frame = some f ∧ c.st.locks (.frame f) = some 0 ∧
    c.st.locks .swap = none ∧ r.sector = none ∧ (c.st.pagedirs r.thread).isSome ∧ pgOfs r.addr = 0 ∧
    r.addr < physBase ∧ r.file = none ∧ c.st.dirty r = false ∧ c.st.freeSlot.isSome = free ∧ c.st.ram f 4094 ≠ 0)

theorem resident_of_stackChosen {free : Bool} {c : Config kernel} (h : stackChosen f free c = true) :
    ∃ r, Resident c.st 0 7 r f ∧ Coherent c.st r f ∧ r.file = none ∧ c.st.dirty r = false ∧
      c.st.freeSlot.isSome = free ∧ c.st.ram f 4094 ≠ 0 := by
  obtain ⟨r, hp, hr⟩ := (Option.any_eq_true _ _).1 h
  obtain ⟨h1, h2, h3, h4, h5, h6, h7, h8, h9, h10, h11⟩ := of_decide_eq_true hr
  exact ⟨r, ⟨hp, h1, h2, h3, h4, h5, h6, h7, by simp [h8]⟩, fun _ g hg => by simp [h8] at hg, h8, h9, h10, h11⟩

/-- Process 0 starts and loads from one address after the other: `(a, n, k)` is
a load from `a` with `k` actions, whose allocations return `n` and so on. -/
def loads (l : List (Nat × Nat × Nat)) : List (Move kernel) :=
  startSmall 0 ++ l.flatMap fun (a, n, k) => script 0 (.access a a none) (fresh n k)

/-- With a free slot the initial stack page can be evicted and paged in again:
the stack grows on a machine with one frame. -/
theorem eviction_recoverable_iff_stack : ∃ c r, kernel.Reachable (kernel.idle (smallMachine 1 4) .init) c ∧
    Resident c.st 0 7 r 0 ∧ Recovers c.st 0 7 r 0 := by
  obtain ⟨c, hc, hchk⟩ := exists_reachable (smallMachine 1 4) (loads [(0xbfffe800, 100, 20)]) (stackChosen 0 true)
    (by decide +kernel)
  obtain ⟨r, hr, hco, hg, -, hfree, -⟩ := resident_of_stackChosen hchk
  refine ⟨c, r, hc, hr, (eviction_recoverable_iff hr hco).2 ⟨fun _ _ h => ?_, ?_, ?_, ?_⟩⟩
  · simp [h] at hfree
  all_goals simp [hg]

/-- Two frames and one slot. The stack grows until the initial stack page is in
the slot; it is read and comes back, and the slot goes to another page. -/
def swapStack : List (Move kernel) :=
  loads [(0xbfffe800, 100, 26), (0xbfffd800, 200, 59), (0xbffffffe, 300, 55), (0xbfffc800, 500, 59),
    (0xbfffb800, 600, 21)]

/-- Then `page_out` returns true for the initial stack page, and the bytes that
came from swap are gone. -/
theorem eviction_loses_stack : ∃ s c r, Boot s ∧ kernel.Reachable (kernel.idle s .init) c ∧
    Resident c.st 0 7 r 1 ∧ Coherent c.st r 1 ∧ ¬Recovers c.st 0 7 r 1 := by
  obtain ⟨c, hc, hchk⟩ := exists_reachable (smallMachine 2 1) swapStack (stackChosen 1 false) (by decide +kernel)
  obtain ⟨r, hr, hco, hg, hd, hfree, hne⟩ := resident_of_stackChosen hchk
  refine ⟨_, c, r, smallMachine_boot 2 1, hc, hr, hco, fun h => hne ?_⟩
  exact (recovers_dropped hr hg hd (by simpa using hfree)).1 h 4094 (by decide)

end Pintos.Vm
