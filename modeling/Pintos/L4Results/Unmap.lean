import Pintos.L4Results.Mappings

/-!
# `unmap` writes back

`unmap` of userprog/syscall.c on a mapping as `sys_mmap` builds it
(`MappedFile`), run alone. The first loop writes from user memory: for a page
whose dirty bit is set it writes `PGSIZE * page_cnt` bytes, that is
everything from that page to the end of the file. The second loop frees the
pages, and `page_out` writes each dirty page that is in a frame.

`Mixed` says what a sequence of such writes leaves in a file when the
allocations of bounce buffers may fail: a byte has the new value and some
write may have reached it, or it has the old value and no write must have.

* `ends_writeLoop`, `ends_deallocLoop`: the two loops.
* `unmap_writes_back_iff`: when the file ends up with exactly the bytes of the
  pages that the process modified.
-/
namespace Pintos.Vm

open Pintos.Core Function

/-- Mapping `m` of process `t` as `sys_mmap` leaves it, while no kernel code
runs. `page i` is the `i`-th page of the mapping and `rcd i` its record. -/
structure MappedFile (s : St) (t : Tid) (m : Nat) where
  M : Mapping
  g : FileId
  F : File
  elems : List PageId
  page : Nat → PageId
  rcd : Nat → Page
  map : (s.procs t).maps m = some M
  file : M.file = some g
  opened : s.files g = some F
  dir : (s.pagedirs t).isSome
  table : s.tables t = some ⟨true, elems⟩
  aligned : pgOfs M.base = 0
  base_lt : M.base < 2 ^ 32
  pageCnt : M.pageCnt = ((s.inodes F.inode).length + pgSize - 1) / pgSize
  mem : ∀ i < M.pageCnt, page i ∈ elems
  pages : ∀ i < M.pageCnt, s.pages (page i) = some (rcd i)
  addr : ∀ i < M.pageCnt, (rcd i).addr = u32 (M.base + pgSize * i)
  thread : ∀ i < M.pageCnt, (rcd i).thread = t
  rfile : ∀ i < M.pageCnt, (rcd i).file = some g
  priv : ∀ i < M.pageCnt, (rcd i).priv = false
  offset : ∀ i < M.pageCnt, (rcd i).fileOffset = pgSize * i
  bytes : ∀ i < M.pageCnt, (rcd i).fileBytes = min pgSize ((s.inodes F.inode).length - pgSize * i)
  uniq : ∀ p ∈ elems, ∀ q ∈ elems, ∀ r r', s.pages p = some r → s.pages q = some r' → r.addr = r'.addr → p = q
  present : ∀ i < M.pageCnt, (s.pte t (rcd i).addr).present → (rcd i).frame = some (s.pte t (rcd i).addr).frame
  locks : ∀ l, s.locks l = none

namespace MappedFile

variable {s : St} {t : Tid} {m : Nat} (X : MappedFile s t m)

abbrev inode : Inode := s.inodes X.F.inode
abbrev len : Nat := X.inode.length

/-- The address of page `i`. -/
def at_ (i : Nat) : Nat := u32 (X.M.base + pgSize * i)

/-- The entry of page `i` is marked dirty, as `pagedir_is_dirty` reads it. -/
def dirty (i : Nat) : Bool := if X.at_ i < physBase then (s.pte t (X.at_ i)).dirty else s.kdirty (X.at_ i)

def resident (i : Nat) : Bool := (X.rcd i).frame.isSome

/-- Byte `o` of the file as the process sees it through the mapping: a page
that is not in a frame would be read from the file. -/
def memByte (o : Nat) : Byte :=
  (X.rcd (o / pgSize)).frame.elim (X.inode.data o) fun f => s.ram f (o % pgSize)

/-- What the kernel reads at offset `o` of the mapping. -/
def kbyte (o : Nat) : Option Byte := kernelByte s t (u32 (X.M.base + o))

/-- Iteration `i` of the first loop writes the file from page `i` to its end.
A mapping of `2^31` bytes is taken for a negative number of bytes. -/
def Floods (i : Nat) : Prop :=
  X.inode.denyWriteCnt = 0 ∧ i < X.M.pageCnt ∧ X.dirty i ∧ pgSize * X.M.pageCnt < 2 ^ 31

/-- Page `j` is written to the file, by the first loop or by `page_out`. -/
def Written (j : Nat) : Prop :=
  (∃ i ≤ j, X.Floods i) ∨ (X.inode.denyWriteCnt = 0 ∧ X.dirty j ∧ X.resident j)

/-- The bytes of the file that are not in a partial last sector. -/
def whole : Nat := X.len / blockSectorSize * blockSectorSize

/-- After `unmap`, the file has the mapped bytes in the pages `D` and its old
bytes elsewhere. -/
def WritesBack (D : Nat → Prop) : Prop :=
  ∀ r, Runs t (unmap m) s r → ∃ s', r = .done () s' ∧ ∀ o < X.len,
    (D (o / pgSize) → (s'.inodes X.F.inode).data o = X.memByte o) ∧
      (¬D (o / pgSize) → (s'.inodes X.F.inode).data o = X.inode.data o)

/-- The condition for that, in the state before `unmap`. -/
structure Safe (D : Nat → Prop) : Prop where
  user : ∀ i < X.M.pageCnt, X.at_ i < physBase
  present : ∀ i j, X.Floods i → i ≤ j → j < X.M.pageCnt → (s.pte t (X.at_ j)).present
  saved : ∀ o < X.len, D (o / pgSize) → X.inode.data o = X.memByte o ∨ (X.Written (o / pgSize) ∧ o < X.whole)
  kept : ∀ o < X.len, ¬D (o / pgSize) → X.Written (o / pgSize) → X.inode.data o = X.memByte o

end MappedFile

/-! ## Writes that may fall short -/

/-- Each byte of `d` is new and may have been written, or it is old and need
not have been. -/
def Mixed (may must : Nat → Prop) (new old d : Nat → Byte) : Prop :=
  ∀ o, (d o = new o ∧ may o) ∨ (d o = old o ∧ ¬must o)

/-- One of the first `n` writes may, or must, reach byte `o`. `R b i o` says
that write `i` reaches it, where `b` is whether a bounce buffer can be
allocated. -/
def MayBy (R : Bool → Nat → Nat → Prop) (A : Option Nat → Prop) (n o : Nat) : Prop :=
  ∃ i < n, ∃ e, A e ∧ R e.isSome i o

def MustBy (R : Bool → Nat → Nat → Prop) (A : Option Nat → Prop) (n o : Nat) : Prop :=
  ∃ i < n, ∀ e, A e → R e.isSome i o

theorem mixed_zero {R : Bool → Nat → Nat → Prop} {A : Option Nat → Prop} {new old : Nat → Byte} :
    Mixed (MayBy R A 0) (MustBy R A 0) new old old := by
  intro o
  refine .inr ⟨rfl, ?_⟩
  rintro ⟨i, hi, -⟩
  omega

/-- Write `i`, of `k` bytes of `new` at `ofs`. -/
theorem Mixed.write {R : Bool → Nat → Nat → Prop} {A : Option Nat → Prop} {new old d : Nat → Byte} {i ofs k : Nat}
    {e : Option Nat} (h : Mixed (MayBy R A i) (MustBy R A i) new old d) (he : A e)
    (hR : ∀ o, R e.isSome i o ↔ ofs ≤ o ∧ o < ofs + k) :
    Mixed (MayBy R A (i + 1)) (MustBy R A (i + 1)) new old
      fun o => if ofs ≤ o ∧ o < ofs + k then new o else d o := by
  intro o
  dsimp only
  by_cases ho : ofs ≤ o ∧ o < ofs + k
  · rw [if_pos ho]
    exact .inl ⟨rfl, i, Nat.lt_succ_self i, e, he, (hR o).2 ho⟩
  · rw [if_neg ho]
    rcases h o with ⟨h1, j, hj, h2⟩ | ⟨h1, h2⟩
    · exact .inl ⟨h1, j, Nat.lt_succ_of_lt hj, h2⟩
    · refine .inr ⟨h1, ?_⟩
      rintro ⟨j, hj, hm⟩
      rcases Nat.lt_succ_iff_lt_or_eq.1 hj with hlt | rfl
      · exact h2 ⟨j, hlt, hm⟩
      · exact ho ((hR o).1 (hm e he))

namespace MappedFile

variable {s s' : St} {t : Tid} {m : Nat} (X : MappedFile s t m) {A : Option Nat → Prop}

/-! ## The first loop -/

/-- The number of bytes that iteration `i` writes; `b` says whether a bounce
buffer can be allocated. -/
def amount1 (b : Bool) (i : Nat) : Nat :=
  if X.inode.denyWriteCnt = 0 ∧ X.dirty i then
    transferred (pgSize * i) (inFile X.inode (offT (pgSize * X.M.pageCnt)) (pgSize * i)) b
  else 0

/-- Iteration `i` writes byte `o`. -/
def Reach1 (b : Bool) (i o : Nat) : Prop := pgSize * i ≤ o ∧ o < pgSize * i + X.amount1 b i

/-- What iteration `i` reads is present. -/
def Quiet1 (b : Bool) (i : Nat) : Prop := ∀ o, X.Reach1 b i o → (X.kbyte o).isSome

/-- The first loop changes only the data of the file. -/
def Writing (s' : St) (d : Nat → Byte) : Prop :=
  s' = { s with procs := s'.procs, inodes := update s.inodes X.F.inode { X.inode with data := d } }

theorem Writing.kernelByte {d : Nat → Byte} (h : X.Writing s' d) (a : Nat) :
    kernelByte s' t a = kernelByte s t a := by
  rw [h]
  rfl

theorem ends_pagedirIsDirty {d : Nat → Byte} {α : Type} {c : Bool → K α} {Q : Res sig α → Prop} {B : Prop}
    (h : X.Writing s' d) (i : Nat) (hc : ∀ e, A e → Ends A B t (c (X.dirty i)) Q s') :
    Ends A B t (pagedirIsDirty id (u32 (X.M.base + i * pgSize)) >>= c) Q s' := by
  refine ends_step fun e he => ?_
  obtain ⟨pd, hpd⟩ := Option.isSome_iff_exists.1 X.dir
  have h1 : s'.pagedirs t = some pd := by rw [h]; exact hpd
  have h2 : u32 (X.M.base + i * pgSize) = X.at_ i := by rw [Nat.mul_comm]; rfl
  have h3 : (if X.at_ i < physBase then (s'.pte t (X.at_ i)).dirty else s'.kdirty (X.at_ i)) = X.dirty i := by
    rw [h]; rfl
  simp only [id, h1, h2, h3]
  exact hc e he

/-- The file after iteration `i` of the first loop. -/
def put1 (b : Bool) (i : Nat) (d : Nat → Byte) : Nat → Byte := fun o =>
  if pgSize * i ≤ o ∧ o < pgSize * i + X.amount1 b i then (X.kbyte o).getD 0 else d o

variable {b : Bool} {r : Page} {o : Nat} {f : FrameId} {e : Option Nat}

theorem put1_zero {i : Nat} (h : X.amount1 b i = 0) (d : Nat → Byte) : X.put1 b i d = d := by
  funext o
  have hn : ¬(pgSize * i ≤ o ∧ o < pgSize * i + X.amount1 b i) := by omega
  exact if_neg hn

theorem u32_add (a b : Nat) : u32 (u32 a + b) = u32 (a + b) := by
  unfold u32
  omega

theorem ends_writeBack {d : Nat → Byte} {i : Nat} (h : X.Writing s' d) (hd : X.dirty i = true) {B : Prop} :
    Ends A B t (writeBack X.M i) (fun r => ∃ e, A e ∧
      ((r = .panic .kernelFault ∧ ¬X.Quiet1 e.isSome i) ∨
        (X.Quiet1 e.isSome i ∧ ∃ s'', r = .done () s'' ∧ X.Writing s'' (X.put1 e.isSome i d)))) s' := by
  unfold writeBack
  rw [X.file]
  refine ends_step fun e he => ?_
  have hf : s'.files X.g = some X.F := by rw [h]; exact X.opened
  have hn : s'.inodes X.F.inode = { X.inode with data := d } := by rw [h]; exact update_self ..
  simp only [hf, hn]
  by_cases hdeny : X.inode.denyWriteCnt = 0
  · rw [if_neg (by simpa using hdeny)]
    have hk : transferred (pgSize * i) (inFile { X.inode with data := d } (offT (pgSize * X.M.pageCnt)) (pgSize * i))
        e.isSome = X.amount1 e.isSome i := by
      rw [amount1, if_pos ⟨hdeny, hd⟩]; rfl
    have hb : ∀ o, kernelByte s' t (u32 (u32 (X.M.base + pgSize * i) + o)) = X.kbyte (pgSize * i + o) := by
      intro o
      rw [h.kernelByte, u32_add, Nat.add_assoc]
      rfl
    have hq : ((List.range (X.amount1 e.isSome i)).all fun o => (X.kbyte (pgSize * i + o)).isSome) = true ↔
        X.Quiet1 e.isSome i := by
      simp only [List.all_eq_true, List.mem_range]
      constructor
      · intro hall o ho
        obtain ⟨h1, h2⟩ := ho
        have := hall (o - pgSize * i) (by omega)
        rwa [Nat.add_sub_cancel' h1] at this
      · intro hall o ho
        exact hall (pgSize * i + o) ⟨by omega, by omega⟩
    simp only [hk, hb]
    by_cases hall : X.Quiet1 e.isSome i
    · rw [if_pos (hq.2 hall)]
      refine ⟨e, he, .inr ⟨hall, _, rfl, ?_⟩⟩
      have hput : X.put1 e.isSome i d = (Inode.write { X.inode with data := d } (pgSize * i) (X.amount1 e.isSome i)
          fun o => (X.kbyte (pgSize * i + o)).getD 0).data := by
        funext o
        by_cases ho : pgSize * i ≤ o ∧ o < pgSize * i + X.amount1 e.isSome i
        · simp only [put1, Inode.write, if_pos ho, Nat.add_sub_cancel' ho.1]
        · simp only [put1, Inode.write, if_neg ho]
      rw [Writing, hput]
      conv_lhs => rw [h]
      simp only [St.setInode, update_idem, Inode.write]
    · rw [if_neg (mt hq.1 hall)]
      exact ⟨e, he, .inl ⟨rfl, hall⟩⟩
  · rw [if_pos (by simpa using hdeny)]
    have h0 : X.amount1 e.isSome i = 0 := if_neg fun hc => hdeny hc.1
    refine ⟨e, he, .inr ⟨fun o ho => ?_, s', rfl, ?_⟩⟩
    · unfold Reach1 at ho
      omega
    · rw [X.put1_zero h0]; exact h

/-- Each byte is that of the file or was read from memory. -/
def FromMemory (d : Nat → Byte) : Prop := ∀ o, d o = X.inode.data o ∨ X.kbyte o = some (d o)

theorem FromMemory.put1 {i : Nat} {d : Nat → Byte} (h : X.FromMemory d) (hq : X.Quiet1 b i) :
    X.FromMemory (X.put1 b i d) := by
  intro o
  unfold MappedFile.put1
  split
  · rename_i ho
    obtain ⟨v, hv⟩ := Option.isSome_iff_exists.1 (hq o ho)
    exact .inr (by rw [hv]; rfl)
  · exact h o

/-- How the first loop ends. -/
def After1 (A : Option Nat → Prop) (r : Res sig Unit) : Prop :=
  (r = .panic .kernelFault ∧ ∃ j < X.M.pageCnt, ∃ e, A e ∧ ¬X.Quiet1 e.isSome j) ∨
  ∃ s' d, r = .done () s' ∧ X.Writing s' d ∧
    Mixed (MayBy X.Reach1 A X.M.pageCnt) (MustBy X.Reach1 A X.M.pageCnt) (fun o => (X.kbyte o).getD 0) X.inode.data d ∧
    (∀ j < X.M.pageCnt, ∃ e, A e ∧ X.Quiet1 e.isSome j) ∧ X.FromMemory d

/-- **The first loop**, from iteration `i` on. -/
theorem ends_writeLoop (n i : Nat) {d : Nat → Byte} (hn : i + n = X.M.pageCnt) (h : X.Writing s' d)
    (hd : Mixed (MayBy X.Reach1 A i) (MustBy X.Reach1 A i) (fun o => (X.kbyte o).getD 0) X.inode.data d)
    (hq : ∀ j < i, ∃ e, A e ∧ X.Quiet1 e.isSome j) (hm : X.FromMemory d) :
    Ends A False t (writeLoop X.M n i) (X.After1 A) s' := by
  induction n generalizing i d s' with
  | zero =>
    obtain rfl : i = X.M.pageCnt := hn
    exact .inr ⟨s', d, rfl, h, hd, hq, hm⟩
  | succ n ih =>
    -- what iteration `i` leaves is what the induction hypothesis starts from
    have next : ∀ {e s''}, A e → X.Quiet1 e.isSome i → X.Writing s'' (X.put1 e.isSome i d) →
        Ends A False t (writeLoop X.M n (i + 1)) (X.After1 A) s'' := by
      intro e s'' he hqi h'
      refine ih (i + 1) (by omega) h' (hd.write he fun o => Iff.rfl) ?_ (hm.put1 X hqi)
      intro j hj
      rcases Nat.lt_succ_iff_lt_or_eq.1 hj with h1 | rfl
      · exact hq j h1
      · exact ⟨e, he, hqi⟩
    refine X.ends_pagedirIsDirty h i fun e he => ?_
    cases hdi : X.dirty i with
    | false =>
      have h0 : X.amount1 e.isSome i = 0 := if_neg fun hc => by simp [hdi] at hc
      refine next he ?_ (by rw [X.put1_zero h0]; exact h)
      intro o ho
      unfold Reach1 at ho
      omega
    | true =>
      refine ends_bind ((X.ends_writeBack h hdi).mono ?_)
      rintro r ⟨e', he', ⟨rfl, hnq⟩ | ⟨hqi, s'', rfl, h'⟩⟩
      · exact .inl ⟨rfl, i, by omega, e', he', hnq⟩
      · exact next he' hqi h'

/-! ## The second loop -/

theorem pageCnt_le : pgSize * X.M.pageCnt ≤ 2 ^ 31 := by
  have h1 : (s.inodes X.F.inode).length < 2 ^ 31 := (s.inodes X.F.inode).length_lt
  have h2 := X.pageCnt
  unfold pgSize at *
  omega

/-- The pages of a mapping have different addresses. -/
theorem at_inj {i j : Nat} (hi : i < X.M.pageCnt) (hj : j < X.M.pageCnt) (h : X.at_ i = X.at_ j) : i = j := by
  have h1 := X.pageCnt_le
  unfold at_ u32 pgSize at *
  omega

theorem page_inj {i j : Nat} (hi : i < X.M.pageCnt) (hj : j < X.M.pageCnt) (h : X.page i = X.page j) : i = j := by
  have h1 := X.pages i hi
  rw [h, X.pages j hj, Option.some.injEq] at h1
  exact X.at_inj hi hj ((X.addr i hi).symm.trans (h1 ▸ X.addr j hj))

/-- Pages `i` and on of the mapping are still there, and the file holds `d`. -/
structure Left (s' : St) (i : Nat) (d : Nat → Byte) : Prop where
  opened : s'.files X.g = some X.F
  inode : s'.inodes X.F.inode = { X.inode with data := d }
  dir : (s'.pagedirs t).isSome
  table : ∃ es, s'.tables t = some ⟨true, es⟩ ∧ (∀ j, i ≤ j → j < X.M.pageCnt → X.page j ∈ es) ∧
    ∀ p ∈ es, p ∈ X.elems
  pages : ∀ j, i ≤ j → j < X.M.pageCnt → s'.pages (X.page j) = some (X.rcd j)
  addr : ∀ p r, s'.pages p = some r → ∃ r0, s.pages p = some r0 ∧ r.addr = r0.addr
  pte : ∀ j, i ≤ j → j < X.M.pageCnt → s'.pte t (X.at_ j) = s.pte t (X.at_ j)
  ram : s'.ram = s.ram

variable {X} {d : Nat → Byte} {i : Nat}

/-- `hash_find` finds the page of the table that has the address. -/
theorem Left.find (h : X.Left s' i d) {es : List PageId} (hes : ∀ p ∈ es, p ∈ X.elems) {p : PageId}
    (hp : p ∈ es) (hr : s'.pages p = some r) : s'.findAddr es r.addr = some p := by
  have hsome : (s'.findAddr es r.addr).isSome := by
    rw [St.findAddr, List.find?_isSome]
    exact ⟨p, hp, by simp [hr]⟩
  obtain ⟨q, hq⟩ := Option.isSome_iff_exists.1 hsome
  have hqe : q ∈ es := List.mem_of_find?_eq_some hq
  have hqa := List.find?_some hq
  simp only [Option.any_eq_true, beq_iff_eq] at hqa
  obtain ⟨r', hr', ha⟩ := hqa
  obtain ⟨r0, h1, h2⟩ := h.addr p r hr
  obtain ⟨r1, h3, h4⟩ := h.addr q r' hr'
  rw [hq, X.uniq p (hes p hp) q (hes q hqe) r0 r1 h1 h3 (by rw [← h2, ← h4, ha])]

theorem Left.setLock (h : X.Left s' i d) (l : Lock) (o : Option Tid) : X.Left (s'.setLock l o) i d := { h with }

theorem Left.setFrame (h : X.Left s' i d) (f : FrameId) (o : Option PageId) : X.Left (s'.setFrame f o) i d :=
  { h with }

theorem Left.setInode (h : X.Left s' i d) (d' : Nat → Byte) :
    X.Left (s'.setInode X.F.inode { X.inode with data := d' }) i d' :=
  { h with inode := update_self .. }

theorem Left.succ (h : X.Left s' i d) : X.Left s' (i + 1) d := { h with
  table := by
    obtain ⟨es, h1, h2, h3⟩ := h.table
    exact ⟨es, h1, fun j hj => h2 j (by omega), h3⟩
  pages := fun j hj => h.pages j (by omega)
  pte := fun j hj => h.pte j (by omega) }

/-- Page `i` may change while later pages are considered. -/
theorem Left.setPage (h : X.Left s' (i + 1) d) (hi : i < X.M.pageCnt) {r' : Page}
    (hr : s'.pages (X.page i) = some r) (ha : r'.addr = r.addr) :
    X.Left (s'.setPage (X.page i) (some r')) (i + 1) d := { h with
  pages := by
    intro j hj hlt
    have hne : X.page j ≠ X.page i := fun he => by
      have := X.page_inj hlt hi he
      omega
    simpa [hne] using h.pages j hj hlt
  addr := by
    intro p r1 hp
    by_cases hpi : p = X.page i
    · subst hpi
      obtain rfl : r' = r1 := by simpa using hp
      rw [ha]
      exact h.addr _ r hr
    · exact h.addr p r1 (by simpa [hpi] using hp) }

theorem Left.setPte (h : X.Left s' (i + 1) d) (hi : i < X.M.pageCnt) (e : Pte) :
    X.Left (setPte s' t (X.at_ i) e) (i + 1) d := by
  obtain ⟨pd, hpd⟩ := Option.isSome_iff_exists.1 h.dir
  simp only [Vm.setPte, hpd]
  exact { h with
    dir := by simp
    pte := by
      intro j hj hlt
      have hne : X.at_ j ≠ X.at_ i := fun he => by
        have := X.at_inj hlt hi he
        omega
      have := h.pte j hj hlt
      simp only [St.pte, hpd, pteOf_some] at this
      simp only [St.pte, St.setPagedir_pagedirs, update_self, pteOf_some, update_of_ne hne]
      exact this }

variable (X)

/-- The number of bytes that `page_out` writes for page `i`. -/
def amount2 (b : Bool) (i : Nat) : Nat :=
  if X.inode.denyWriteCnt = 0 ∧ X.dirty i ∧ X.resident i then
    transferred (pgSize * i) (inFile X.inode (min pgSize (X.len - pgSize * i) : Nat) (pgSize * i)) b
  else 0

def Reach2 (b : Bool) (i o : Nat) : Prop := pgSize * i ≤ o ∧ o < pgSize * i + X.amount2 b i

/-- The file after page `i` has been freed. -/
def put2 (b : Bool) (i : Nat) (d : Nat → Byte) : Nat → Byte := fun o =>
  if pgSize * i ≤ o ∧ o < pgSize * i + X.amount2 b i then X.memByte o else d o

theorem put2_zero (h : X.amount2 b i = 0) (d : Nat → Byte) : X.put2 b i d = d := by
  funext o
  have hn : ¬(pgSize * i ≤ o ∧ o < pgSize * i + X.amount2 b i) := by omega
  exact if_neg hn

theorem amount2_le (b : Bool) (i : Nat) : X.amount2 b i ≤ pgSize := by
  unfold amount2
  split
  · refine (transferred_le ..).trans ?_
    unfold inFile
    omega
  · exact Nat.zero_le _

theorem memByte_eq (hf : (X.rcd i).frame = some f) (h1 : pgSize * i ≤ o)
    (h2 : o < pgSize * i + pgSize) : X.memByte o = s.ram f (o - pgSize * i) := by
  have hdiv : o / pgSize = i := by
    unfold pgSize at *
    omega
  have hmod : o % pgSize = o - pgSize * i := by
    unfold pgSize at *
    omega
  rw [memByte, hdiv, hmod, hf]
  rfl

variable {X} {A : Option Nat → Prop} {α : Type} {Q : Res sig α → Prop} {B : Prop}

/-- Only the lock of frame `f` is held, by the running process. -/
def OnlyFrame (s' : St) (t : Tid) (f : FrameId) : Prop :=
  s'.locks (.frame f) = some t ∧ ∀ l, l ≠ .frame f → s'.locks l = none

/-- `page_for_addr` finds page `i`. -/
theorem ends_pageForAddr (h : X.Left s' i d) (hi : i < X.M.pageCnt) (hu : X.at_ i < physBase)
    {c : Option PageId → K α} (hc : Ends A B t (c (some (X.page i))) Q s') :
    Ends A B t (pageForAddr (X.at_ i) >>= c) Q s' := by
  obtain ⟨es, h1, h2, h3⟩ := h.table
  have hal : pgRoundDown (X.at_ i) = X.at_ i := by
    have := X.aligned
    unfold pgRoundDown pgOfs at_ u32 pgSize at *
    omega
  have hfind : s'.findAddr es (X.at_ i) = some (X.page i) := by
    have := h.find h3 (h2 i le_rfl hi) (h.pages i le_rfl hi)
    rwa [X.addr i hi] at this
  unfold pageForAddr
  rw [if_pos hu]
  refine ends_bind (ends_det (u := s') (b := some (X.page i)) (fun _ => ?_) hc)
  simp only [h1, hal, hfind]

/-- Page `i` is about to be deleted; the pages after it are untouched. -/
structure Going (X : MappedFile s t m) (u : St) (i : Nat) (d : Nat → Byte) : Prop where
  left : X.Left u (i + 1) d
  page : ∃ r, u.pages (X.page i) = some r
  table : ∃ es, u.tables t = some ⟨true, es⟩ ∧ X.page i ∈ es

theorem Left.going (h : X.Left s' i d) (hi : i < X.M.pageCnt) : X.Going s' i d := by
  obtain ⟨es, h1, h2, -⟩ := h.table
  exact ⟨h.succ, ⟨_, h.pages i le_rfl hi⟩, es, h1, h2 i le_rfl hi⟩

theorem ends_deletePage (h : X.Going s' i d) (hi : i < X.M.pageCnt) (hl : ∀ l, s'.locks l = none) :
    Ends A B t (deletePage (X.page i)) (fun r => ∃ u, r = .done () u ∧ X.Left u (i + 1) d ∧ ∀ l, u.locks l = none)
      s' := by
  obtain ⟨hleft, ⟨r, hr⟩, es, h1, h2⟩ := h
  obtain ⟨es', h1', h3, h4⟩ := hleft.table
  obtain rfl : es = es' := by simpa [h1] using h1'
  have hfind := hleft.find h4 h2 hr
  have hne : ∀ j, i + 1 ≤ j → j < X.M.pageCnt → X.page j ≠ X.page i := by
    intro j hj hlt he
    have := X.page_inj hlt hi he
    omega
  refine ends_prim (u := (s'.setPage (X.page i) none).setTable t (some ⟨true, es.erase (X.page i)⟩))
    (fun _ _ => by simp only [hr, h1, hfind, Option.elim_some]) ⟨_, rfl, ?_, hl⟩
  exact { hleft with
    table := ⟨es.erase (X.page i), by simp, fun j hj hlt => (List.mem_erase_of_ne (hne j hj hlt)).2 (h3 j hj hlt),
      fun p hp => h4 p (List.mem_of_mem_erase hp)⟩
    pages := fun j hj hlt => by simpa [hne j hj hlt] using hleft.pages j hj hlt
    addr := by
      intro p r1 hp
      by_cases hpi : p = X.page i
      · simp [hpi] at hp
      · exact hleft.addr p r1 (by simpa [hpi] using hp) }

theorem ends_frameFree (h : X.Going s' i d) (hl : OnlyFrame s' t f) :
    Ends A B t (frameFree f) (fun r => ∃ u, r = .done () u ∧ X.Going u i d ∧ ∀ l, u.locks l = none) s' := by
  refine ends_assertHeld hl.1 (ends_det (u := s'.setFrame f none) (b := ()) (fun _ => rfl) ?_)
  refine ends_prim (u := (s'.setFrame f none).setLock (.frame f) none) (b := ()) (fun _ _ => if_pos hl.1) ?_
  refine ⟨_, rfl, ⟨(h.left.setFrame f none).setLock _ _, h.page, h.table⟩, fun l => ?_⟩
  by_cases hlf : l = .frame f
  · simp [hlf]
  · simpa [hlf] using hl.2 l hlf

/-- `file_write_at` of page `i` from its frame. -/
theorem ends_fileWriteAt (h : X.Going s' i d) (hi : i < X.M.pageCnt)
    (hf : (X.rcd i).frame = some f) (hd : X.dirty i = true) {c : Nat → K α}
    (hc : ∀ e u k, A e → X.Going u i (X.put2 e.isSome i d) → u.locks = s'.locks → Ends A B t (c k) Q u) :
    Ends A B t (fileWriteAt X.g f (X.rcd i).fileBytes (X.rcd i).fileOffset >>= c) Q s' := by
  refine ends_step fun e he => ?_
  simp only [h.left.opened, h.left.inode]
  by_cases hdeny : X.inode.denyWriteCnt = 0
  · rw [if_neg (by simpa using hdeny)]
    have hres : X.resident i := by simp [resident, hf]
    have hk : transferred (X.rcd i).fileOffset (inFile { X.inode with data := d } (X.rcd i).fileBytes
        (X.rcd i).fileOffset) e.isSome = X.amount2 e.isSome i := by
      rw [amount2, if_pos ⟨hdeny, hd, hres⟩, X.offset i hi, X.bytes i hi]; rfl
    have hput : (Inode.write { X.inode with data := d } (X.rcd i).fileOffset (X.amount2 e.isSome i) (s'.ram f)).data =
        X.put2 e.isSome i d := by
      funext o
      simp only [Inode.write, put2, X.offset i hi, h.left.ram]
      by_cases ho : pgSize * i ≤ o ∧ o < pgSize * i + X.amount2 e.isSome i
      · rw [if_pos ho, if_pos ho]
        exact (X.memByte_eq hf ho.1 (lt_of_lt_of_le ho.2 (Nat.add_le_add_left (X.amount2_le _ i) _))).symm
      · rw [if_neg ho, if_neg ho]
    simp only [hk]
    refine hc e _ _ he ⟨?_, h.page, h.table⟩ rfl
    have := h.left.setInode (X.put2 e.isSome i d)
    rw [← hput] at this ⊢
    exact this
  · rw [if_pos (by simpa using hdeny)]
    have h0 : X.amount2 e.isSome i = 0 := if_neg fun hc => hdeny hc.1
    refine hc e s' 0 he ?_ rfl
    rw [X.put2_zero h0]
    exact h

theorem Left.dirty_eq (h : X.Left s' i d) (hi : i < X.M.pageCnt) (hu : X.at_ i < physBase) :
    (s'.pte t (X.at_ i)).dirty = X.dirty i := by
  rw [h.pte i le_rfl hi, dirty, if_pos hu]

theorem Going.setPte (h : X.Going s' i d) (hi : i < X.M.pageCnt) (e : Pte) :
    X.Going (Vm.setPte s' t (X.at_ i) e) i d := by
  obtain ⟨pd, hpd⟩ := Option.isSome_iff_exists.1 h.left.dir
  refine ⟨h.left.setPte hi e, ?_, ?_⟩
  · simpa [Vm.setPte, hpd] using h.page
  · simpa [Vm.setPte, hpd] using h.table

theorem Going.setPage (h : X.Going s' i d) (hi : i < X.M.pageCnt) {r' : Page}
    (hr : s'.pages (X.page i) = some r) (ha : r'.addr = r.addr) :
    X.Going (s'.setPage (X.page i) (some r')) i d :=
  ⟨h.left.setPage hi hr ha, ⟨r', by simp⟩, h.table⟩

/-- `if (ok) p->frame = NULL;` -/
theorem ends_clearFrame (h : X.Going s' i d) (hi : i < X.M.pageCnt) (hl : OnlyFrame s' t f)
    (ok : Bool) {c : Unit → K α} (hc : ∀ u, X.Going u i d → OnlyFrame u t f → Ends A B t (c ()) Q u) :
    Ends A B t (doIf ok (setPageFrame (X.page i) none) >>= c) Q s' := by
  cases ok with
  | false => exact hc s' h hl
  | true =>
    obtain ⟨r, hr⟩ := h.page
    refine ends_bind (ends_prim (u := s'.setPage (X.page i) (some { r with frame := none })) (b := ())
      (fun _ _ => by simp only [hr]) ?_)
    exact hc _ (h.setPage hi hr rfl) hl

theorem ends_pageOutDirty (h : X.Going s' i d) (hi : i < X.M.pageCnt)
    (hf : (X.rcd i).frame = some f) (hp : s'.pages (X.page i) = some (X.rcd i)) (he : A e)
    {c : Bool → K α}
    (hc : ∀ e u b, A e → X.Going u i (X.put2 e.isSome i d) → u.locks = s'.locks → Ends A B t (c b) Q u) :
    Ends A B t (pageOutDirty (X.page i) f (X.dirty i) >>= c) Q s' := by
  cases hd : X.dirty i with
  | false =>
    have h0 : X.amount2 e.isSome i = 0 := if_neg fun hc => by simp [hd] at hc
    refine hc e s' true he ?_ rfl
    rw [X.put2_zero h0]
    exact h
  | true =>
    refine ends_bind (ends_readPage hp ?_)
    simp only [X.priv i hi, X.rfile i hi, Bool.false_eq_true, if_false]
    exact ends_fileWriteAt h hi hf hd fun e u k he hg hl => hc e u _ he hg hl

/-- `page_out` of page `i`, which is in frame `f`. -/
theorem ends_pageOut (h : X.Left s' i d) (hi : i < X.M.pageCnt) (hu : X.at_ i < physBase)
    (hf : (X.rcd i).frame = some f) (hl : OnlyFrame s' t f) {c : Bool → K α}
    (hc : ∀ e u b, A e → X.Going u i (X.put2 e.isSome i d) → OnlyFrame u t f → Ends A B t (c b) Q u) :
    Ends A B t (pageOut (X.page i) >>= c) Q s' := by
  have hp := h.pages i le_rfl hi
  have hofs : pgOfs (X.at_ i) = 0 := by
    have := X.aligned
    unfold pgOfs at_ u32 pgSize at *
    omega
  have hat : (X.rcd i).addr = X.at_ i := X.addr i hi
  obtain ⟨pd, hpd⟩ := Option.isSome_iff_exists.1 h.dir
  refine ends_bind (ends_readPage hp ?_)
  simp only [hf, X.thread i hi, hat]
  refine ends_assertHeld hl.1 ?_
  -- the entry is cleared, and its dirty bit is read
  let v : Pte := { s'.pte t (X.at_ i) with present := false }
  have hg := (h.going hi).setPte hi v
  have hv : (setPte s' t (X.at_ i) v).pte t (X.at_ i) = v := by simp [setPte, hpd]
  have hpd' : ∃ pd, (setPte s' t (X.at_ i) v).pagedirs t = some pd := by simp [setPte, hpd]
  have hp' : (setPte s' t (X.at_ i) v).pages (X.page i) = some (X.rcd i) := by simpa [setPte, hpd] using hp
  have hl' : OnlyFrame (setPte s' t (X.at_ i) v) t f := by simpa [OnlyFrame, setPte, hpd] using hl
  refine ends_det (u := setPte s' t (X.at_ i) v) (b := ())
    (fun _ => by simp only [hpd, hofs, hu, true_and, if_true]; rfl) ?_
  generalize setPte s' t (X.at_ i) v = u at hg hv hpd' hp' hl' ⊢
  obtain ⟨pd', hpd'⟩ := hpd'
  have hdirty : (u.pte t (X.at_ i)).dirty = X.dirty i := by
    rw [hv]
    exact h.dirty_eq hi hu
  refine ends_step fun e he => ?_
  simp only [hpd', hu, if_true, hdirty]
  refine ends_readPage hp' ?_
  have hnone : doIf (X.rcd i).file.isNone (do let _ ← swapOut (X.page i)) = pure () := by
    rw [X.rfile i hi]; rfl
  rw [hnone]
  refine ends_pageOutDirty hg hi hf hp' he fun e u' b he hg' hlocks => ?_
  have hl'' : OnlyFrame u' t f := by rwa [OnlyFrame, hlocks]
  exact ends_clearFrame hg' hi hl'' b fun u'' hg'' h3 => hc e u'' b he hg'' h3

/-- The frame of page `i` is given back. -/
theorem ends_releaseFrame (h : X.Left s' i d) (hi : i < X.M.pageCnt) (hu : X.at_ i < physBase)
    (hf : (X.rcd i).frame = some f) (hl : OnlyFrame s' t f) {c : Unit → K α}
    (hc : ∀ e u, A e → X.Going u i (X.put2 e.isSome i d) → (∀ l, u.locks l = none) → Ends A B t (c ()) Q u) :
    Ends A B t (releaseFrame (X.page i) >>= c) Q s' := by
  have hout : (X.rcd i).file.isSome && !(X.rcd i).priv := by rw [X.rfile i hi, X.priv i hi]; rfl
  refine ends_bind (ends_readPage (h.pages i le_rfl hi) ?_)
  simp only [hf, hout, doIf, if_true]
  refine ends_bind (ends_pageOut h hi hu hf hl fun e u b he hg hl' => ?_)
  refine (ends_frameFree hg hl').mono ?_
  rintro r ⟨u', rfl, hg', hfree⟩
  exact hc e u' he hg' hfree

/-- **One iteration of the second loop.** -/
theorem ends_pageDeallocate (h : X.Left s' i d) (hl : ∀ l, s'.locks l = none) (hi : i < X.M.pageCnt)
    (hu : X.at_ i < physBase) (he : A e) :
    Ends A B t (pageDeallocate (X.at_ i)) (fun r => ∃ e u, A e ∧ r = .done () u ∧
      X.Left u (i + 1) (X.put2 e.isSome i d) ∧ ∀ l, u.locks l = none) s' := by
  refine ends_pageForAddr h hi hu ?_
  have hp := h.pages i le_rfl hi
  cases hf : (X.rcd i).frame with
  | none =>
    have h0 : X.amount2 e.isSome i = 0 := if_neg fun hc => by simp [resident, hf] at hc
    refine ends_bind (ends_readPage hp ?_)
    simp only [hf]
    refine ends_bind (ends_readPage hp ?_)
    simp only [hf]
    refine (ends_deletePage (h.going hi) hi hl).mono ?_
    rintro r ⟨u, rfl, h1, h2⟩
    exact ⟨e, u, he, rfl, by rwa [X.put2_zero h0], h2⟩
  | some f =>
    refine ends_frameLock hp hf (hl _) ?_
    refine ends_releaseFrame (h.setLock _ _) hi hu hf ?_ fun e u he hg hl' => ?_
    · refine ⟨by simp, fun l hne => ?_⟩
      simpa [hne] using hl l
    · refine (ends_deletePage hg hi hl').mono ?_
      rintro r ⟨u', rfl, h1, h2⟩
      exact ⟨e, u', he, rfl, h1, h2⟩

/-- **The second loop**, from iteration `i` on: an address outside user memory
is a failed assertion of `page_deallocate`. -/
theorem ends_deallocLoop (n i : Nat) {d0 : Nat → Byte} (hn : i + n = X.M.pageCnt)
    (h : X.Left s' i d) (hl : ∀ l, s'.locks l = none) (he : A e)
    (hd : Mixed (MayBy X.Reach2 A i) (MustBy X.Reach2 A i) X.memByte d0 d) :
    Ends A B t (deallocLoop X.M n i) (fun r =>
      (r = .panic .assertion ∧ ∃ j < X.M.pageCnt, physBase ≤ X.at_ j) ∨
      ((∀ j, i ≤ j → j < X.M.pageCnt → X.at_ j < physBase) ∧ ∃ u d', r = .done () u ∧ u.inodes X.F.inode =
        { X.inode with data := d' } ∧ Mixed (MayBy X.Reach2 A X.M.pageCnt) (MustBy X.Reach2 A X.M.pageCnt)
          X.memByte d0 d')) s' := by
  induction n generalizing i d s' with
  | zero =>
    obtain rfl : i = X.M.pageCnt := hn
    exact .inr ⟨fun j h1 h2 => absurd h1 (by omega), s', d, rfl, h.inode, hd⟩
  | succ n ih =>
    by_cases hu : X.at_ i < physBase
    · refine ends_bind ((ends_pageDeallocate h hl (by omega) hu he).mono ?_)
      rintro r ⟨e', u, he', rfl, h1, h2⟩
      refine (ih (i + 1) (by omega) h1 h2 (hd.write he' fun o => Iff.rfl)).mono ?_
      rintro r (hr | ⟨hr1, hr2⟩)
      · exact .inl hr
      · refine .inr ⟨fun j hj hlt => ?_, hr2⟩
        rcases Nat.eq_or_lt_of_le hj with rfl | hj'
        · exact hu
        · exact hr1 j hj' hlt
    · have hnone : pageForAddr (X.at_ i) = pure none := if_neg hu
      refine ends_bind ?_
      show Ends A B t (pageDeallocate (X.at_ i)) _ s'
      unfold pageDeallocate
      rw [hnone]
      exact fun _ _ => .inl ⟨rfl, i, by omega, not_lt.1 hu⟩

/-! ## What the writes reach -/

variable (X)

/-- Up to where a write to the end of the file gets. -/
def upTo (b : Bool) : Nat := if b then X.len else X.whole

theorem upTo_le (b : Bool) : X.upTo b ≤ X.len := by
  cases b with
  | true => exact le_rfl
  | false => exact Nat.div_mul_le_self _ _

theorem whole_le_upTo (b : Bool) : X.whole ≤ X.upTo b := by
  cases b with
  | true => exact Nat.div_mul_le_self _ _
  | false => exact le_rfl

theorem page_lt (h : o < X.len) : o / pgSize < X.M.pageCnt := by
  have h1 := X.pageCnt
  unfold len inode pgSize at *
  omega

theorem page_start_lt (h : i < X.M.pageCnt) : pgSize * i < X.len := by
  have h1 := X.pageCnt
  unfold len inode pgSize at *
  omega

/-- How far a write from page `i` on gets that ends at `k` with a bounce buffer. -/
theorem transferred_page (i n : Nat) (b : Bool) : pgSize * i + transferred (pgSize * i) n b =
    if b then pgSize * i + n else (pgSize * i + n) / blockSectorSize * blockSectorSize := by
  cases b with
  | true => rfl
  | false =>
    have h0 : pgSize * i % blockSectorSize = 0 := by
      unfold pgSize blockSectorSize
      omega
    simp only [transferred, Bool.false_eq_true, if_false, h0, if_true]
    unfold pgSize blockSectorSize
    omega

theorem offT_pageCnt : (offT (pgSize * X.M.pageCnt)).toNat =
    if pgSize * X.M.pageCnt < 2 ^ 31 then pgSize * X.M.pageCnt else 0 := by
  have h1 := X.pageCnt_le
  unfold offT u32
  split <;> split <;> omega

theorem reach1_iff (hi : i < X.M.pageCnt) :
    X.Reach1 b i o ↔ X.Floods i ∧ pgSize * i ≤ o ∧ o < X.upTo b := by
  have hcnt := X.pageCnt
  unfold Reach1 amount1
  by_cases hf : X.Floods i
  · have hn : inFile X.inode (offT (pgSize * X.M.pageCnt)) (pgSize * i) = X.len - pgSize * i := by
      rw [inFile, X.offT_pageCnt, if_pos hf.2.2.2]
      unfold len inode pgSize at *
      omega
    have hlt := X.page_start_lt hi
    rw [if_pos ⟨hf.1, hf.2.2.1⟩, transferred_page, hn, Nat.add_sub_cancel' hlt.le]
    cases b with
    | true => simp [hf, upTo]
    | false => simp [hf, upTo, whole]
  · have h0 : (if X.inode.denyWriteCnt = 0 ∧ X.dirty i then
        transferred (pgSize * i) (inFile X.inode (offT (pgSize * X.M.pageCnt)) (pgSize * i)) b else 0) = 0 := by
      split
      · rename_i hd
        have hbig : ¬pgSize * X.M.pageCnt < 2 ^ 31 := fun hb => hf ⟨hd.1, hi, hd.2, hb⟩
        have := transferred_le (pgSize * i) (inFile X.inode (offT (pgSize * X.M.pageCnt)) (pgSize * i)) b
        rw [inFile, X.offT_pageCnt, if_neg hbig] at this ⊢
        omega
      · rfl
    rw [h0]
    simp only [hf, false_and, iff_false]
    omega

theorem reach2_iff (hi : i < X.M.pageCnt) :
    X.Reach2 b i o ↔ (X.inode.denyWriteCnt = 0 ∧ X.dirty i ∧ X.resident i) ∧ o / pgSize = i ∧ o < X.upTo b := by
  unfold Reach2 amount2
  by_cases hf : X.inode.denyWriteCnt = 0 ∧ X.dirty i ∧ X.resident i
  · have hn : inFile X.inode (min pgSize (X.len - pgSize * i) : Nat) (pgSize * i) =
        min pgSize (X.len - pgSize * i) := by
      rw [inFile, Int.toNat_natCast]
      exact min_eq_left (min_le_right _ _)
    have hlt := X.page_start_lt hi
    rw [if_pos hf, transferred_page, hn]
    simp only [hf, true_and, and_self]
    cases b with
    | true =>
      simp only [upTo, if_true]
      unfold pgSize at *
      omega
    | false =>
      simp only [upTo, whole, Bool.false_eq_true, if_false]
      unfold pgSize blockSectorSize at *
      omega
  · rw [if_neg hf]
    simp only [hf, false_and, iff_false]
    omega

/-- Page `j` is written up to `upTo b`, by one of the loops. -/
theorem reach_iff (ho : o < X.len) :
    ((∃ i < X.M.pageCnt, X.Reach1 b i o) ∨ ∃ i < X.M.pageCnt, X.Reach2 b i o) ↔
      X.Written (o / pgSize) ∧ o < X.upTo b := by
  have hj := X.page_lt ho
  constructor
  · rintro (⟨i, hi, h⟩ | ⟨i, hi, h⟩)
    · obtain ⟨h1, h2, h3⟩ := (X.reach1_iff hi).1 h
      refine ⟨.inl ⟨i, ?_, h1⟩, h3⟩
      unfold pgSize at *
      omega
    · obtain ⟨h1, rfl, h3⟩ := (X.reach2_iff hi).1 h
      exact ⟨.inr h1, h3⟩
  · rintro ⟨⟨i, hi, h⟩ | h, h3⟩
    · refine .inl ⟨i, h.2.1, (X.reach1_iff h.2.1).2 ⟨h, ?_, h3⟩⟩
      unfold pgSize at *
      omega
    · exact .inr ⟨_, hj, (X.reach2_iff hj).2 ⟨h, rfl, h3⟩⟩

/-- What the kernel reads inside a page of the mapping. -/
theorem kbyte_page (hu : X.at_ (o / pgSize) < physBase) :
    X.kbyte o = if (s.pte t (X.at_ (o / pgSize))).present then
      some (s.ram (s.pte t (X.at_ (o / pgSize))).frame (o % pgSize)) else none := by
  have hal := X.aligned
  have h1 : u32 (X.M.base + o) < physBase ∧ pgRoundDown (u32 (X.M.base + o)) = X.at_ (o / pgSize) ∧
      pgOfs (u32 (X.M.base + o)) = o % pgSize := by
    unfold pgRoundDown pgOfs at_ u32 physBase pgSize at *
    omega
  rw [kbyte, kernelByte, if_pos h1.1, h1.2.1, h1.2.2]

theorem kbyte_isSome (hu : X.at_ (o / pgSize) < physBase) :
    (X.kbyte o).isSome ↔ (s.pte t (X.at_ (o / pgSize))).present := by
  rw [X.kbyte_page hu]
  cases (s.pte t (X.at_ (o / pgSize))).present <;> simp

theorem kbyte_eq (ho : o < X.len) (hu : X.at_ (o / pgSize) < physBase) (h : (X.kbyte o).isSome) :
    (X.kbyte o).getD 0 = X.memByte o := by
  have hp := (X.kbyte_isSome hu).1 h
  have hj := X.page_lt ho
  have hat : (X.rcd (o / pgSize)).addr = X.at_ (o / pgSize) := X.addr _ hj
  have hf := X.present _ hj (by rwa [hat])
  rw [hat] at hf
  rw [X.kbyte_page hu, if_pos hp, memByte, hf]
  rfl

/-! ## The whole of `unmap` -/

/-- How `unmap` ends. -/
def After (A : Option Nat → Prop) (r : Res sig Unit) : Prop :=
  (r = .panic .kernelFault ∧ ∃ j < X.M.pageCnt, ∃ e, A e ∧ ¬X.Quiet1 e.isSome j) ∨
  (r = .panic .assertion ∧ ∃ j < X.M.pageCnt, physBase ≤ X.at_ j) ∨
  ((∀ j < X.M.pageCnt, X.at_ j < physBase) ∧ (∀ j < X.M.pageCnt, ∃ e, A e ∧ X.Quiet1 e.isSome j) ∧
    ∃ u d1, r = .done () u ∧ X.FromMemory d1 ∧
      Mixed (MayBy X.Reach1 A X.M.pageCnt) (MustBy X.Reach1 A X.M.pageCnt) (fun o => (X.kbyte o).getD 0)
        X.inode.data d1 ∧
      Mixed (MayBy X.Reach2 A X.M.pageCnt) (MustBy X.Reach2 A X.M.pageCnt) X.memByte d1
        (u.inodes X.F.inode).data)

theorem Writing.left (h : X.Writing s' d) : X.Left s' 0 d := by
  rw [h]
  exact {
    opened := X.opened
    inode := update_self ..
    dir := X.dir
    table := ⟨X.elems, X.table, fun j _ => X.mem j, fun _ hp => hp⟩
    pages := fun j _ => X.pages j
    addr := fun p r hp => ⟨r, hp, rfl⟩
    pte := fun _ _ _ => rfl
    ram := rfl }

theorem ends_unmap (he : A e) : Ends A False t (unmap m) (X.After A) s := by
  let P : Proc := { s.procs t with mappings := (s.procs t).mappings.erase m }
  refine ends_det (u := s.setProc t P) (b := ()) (fun _ => rfl) ?_
  refine ends_det (u := s.setProc t P) (b := X.M) (fun _ => by simp [P, X.map]) ?_
  refine ends_bind ((X.ends_writeLoop X.M.pageCnt 0 (Nat.zero_add _) (d := X.inode.data) ?_ mixed_zero ?_
    fun _ => .inl rfl).mono ?_)
  · simp only [Writing, update_eq_self]
    rfl
  · intro j hj
    omega
  rintro r (⟨rfl, hr⟩ | ⟨u, d1, rfl, h1, h2, h3, hm⟩)
  · exact .inl ⟨rfl, hr⟩
  · have hl : ∀ l, u.locks l = none := by
      rw [h1]
      exact X.locks
    refine (ends_deallocLoop X.M.pageCnt 0 (Nat.zero_add _) h1.left hl he mixed_zero).mono ?_
    rintro r (⟨rfl, hr⟩ | ⟨hu, u', d', rfl, hi, hd⟩)
    · exact .inr (.inl ⟨rfl, hr⟩)
    · refine .inr (.inr ⟨fun j hj => hu j (Nat.zero_le j) hj, h3, u', d1, rfl, hm, h2, ?_⟩)
      rw [hi]
      exact hd

/-- Among the runs in which bounce buffers are available, or not, the data of
the file after `unmap` is determined. -/
theorem data_after (b : Bool) {d1 : Nat → Byte} (hu : ∀ j < X.M.pageCnt, X.at_ j < physBase)
    (hq : ∀ j < X.M.pageCnt, X.Quiet1 b j)
    (h1 : Mixed (MayBy X.Reach1 (·.isSome = b) X.M.pageCnt) (MustBy X.Reach1 (·.isSome = b) X.M.pageCnt)
      (fun o => (X.kbyte o).getD 0) X.inode.data d1)
    (h2 : Mixed (MayBy X.Reach2 (·.isSome = b) X.M.pageCnt) (MustBy X.Reach2 (·.isSome = b) X.M.pageCnt)
      X.memByte d1 d) (ho : o < X.len) :
    (X.Written (o / pgSize) ∧ o < X.upTo b → d o = X.memByte o) ∧
      (¬(X.Written (o / pgSize) ∧ o < X.upTo b) → d o = X.inode.data o) := by
  have hj := X.page_lt ho
  rcases h2 o with ⟨h3, i, hi, e, rfl, hr⟩ | ⟨h3, hn2⟩
  · exact ⟨fun _ => h3, fun hn => absurd ((X.reach_iff ho).1 (.inr ⟨i, hi, hr⟩)) hn⟩
  · rcases h1 o with ⟨h4, i, hi, e, rfl, hr⟩ | ⟨h4, hn1⟩
    · refine ⟨fun _ => ?_, fun hn => absurd ((X.reach_iff ho).1 (.inl ⟨i, hi, hr⟩)) hn⟩
      rw [h3, h4]
      exact X.kbyte_eq ho (hu _ hj) (hq i hi o hr)
    · refine ⟨fun hw => ?_, fun _ => h3.trans h4⟩
      rcases (X.reach_iff ho).2 hw with ⟨i, hi, hr⟩ | ⟨i, hi, hr⟩
      · exact absurd ⟨i, hi, fun e he => he ▸ hr⟩ hn1
      · exact absurd ⟨i, hi, fun e he => he ▸ hr⟩ hn2

/-- A run in which bounce buffers are available, or not. -/
theorem WritesBack.run {D : Nat → Prop} (h : X.WritesBack D) (b : Bool) :
    (∀ j < X.M.pageCnt, X.at_ j < physBase) ∧ (∀ j < X.M.pageCnt, X.Quiet1 b j) ∧ ∀ o < X.len,
      (X.Written (o / pgSize) ∧ o < X.upTo b → (D (o / pgSize) ∨ X.inode.data o = X.memByte o)) ∧
      (¬(X.Written (o / pgSize) ∧ o < X.upTo b) → D (o / pgSize) → X.inode.data o = X.memByte o) := by
  obtain ⟨e, he⟩ : ∃ e : Option Nat, e.isSome = b := by
    cases b with
    | true => exact ⟨some 0, rfl⟩
    | false => exact ⟨none, rfl⟩
  obtain ⟨r, hr, ha⟩ := (X.ends_unmap (A := (·.isSome = b)) he).can he
  obtain ⟨u, rfl, hd⟩ := h r hr
  rcases ha with ⟨h1, -⟩ | ⟨h1, -⟩ | ⟨hu, hq, u', d1, h1, -, h2, h3⟩
  · cases h1
  · cases h1
  · cases h1
    have hq' : ∀ j < X.M.pageCnt, X.Quiet1 b j := by
      intro j hj
      obtain ⟨e', rfl, hqe⟩ := hq j hj
      exact hqe
    refine ⟨hu, hq', fun o ho => ?_⟩
    obtain ⟨h4, h5⟩ := X.data_after b hu hq' h2 h3 ho
    obtain ⟨h6, h7⟩ := hd o ho
    constructor
    · intro hw
      by_cases hD : D (o / pgSize)
      · exact .inl hD
      · exact .inr ((h7 hD).symm.trans (h4 hw))
    · intro hw hD
      exact (h5 hw).symm.trans (h6 hD)

theorem Safe.writesBack {D : Nat → Prop} (h : X.Safe D) : X.WritesBack D := by
  intro r hr
  have hb : ∀ {b i o}, i < X.M.pageCnt → X.Reach1 b i o → o < X.len ∧ (X.kbyte o).isSome := by
    intro b i o hi hro
    obtain ⟨hf, hle, hlt⟩ := (X.reach1_iff hi).1 hro
    have ho : o < X.len := lt_of_lt_of_le hlt (X.upTo_le b)
    have hj := X.page_lt ho
    refine ⟨ho, (X.kbyte_isSome (h.user _ hj)).2 (h.present i _ hf ?_ hj)⟩
    unfold pgSize at *
    omega
  rcases (X.ends_unmap (A := fun _ => True) (e := none) trivial).runs hr with
    ⟨-, j, hj, e, -, hnq⟩ | ⟨-, j, hj, hge⟩ | ⟨hu, -, u, d1, rfl, -, h1, h2⟩
  · exact absurd (fun o hro => (hb hj hro).2) hnq
  · exact absurd (h.user j hj) (not_lt.2 hge)
  · refine ⟨u, rfl, fun o ho => ?_⟩
    have hj := X.page_lt ho
    -- the byte is new and some write reached it, or old and not every run writes it
    have key : ((u.inodes X.F.inode).data o = X.memByte o ∧ X.Written (o / pgSize)) ∨
        ((u.inodes X.F.inode).data o = X.inode.data o ∧ ¬(X.Written (o / pgSize) ∧ o < X.whole)) := by
      rcases h2 o with ⟨h3, i, hi, e, -, hro⟩ | ⟨h3, hn2⟩
      · exact .inl ⟨h3, ((X.reach_iff ho).1 (.inr ⟨i, hi, hro⟩)).1⟩
      · rcases h1 o with ⟨h4, i, hi, e, -, hro⟩ | ⟨h4, hn1⟩
        · refine .inl ⟨?_, ((X.reach_iff ho).1 (.inl ⟨i, hi, hro⟩)).1⟩
          rw [h3, h4]
          exact X.kbyte_eq ho (h.user _ hj) (hb hi hro).2
        · refine .inr ⟨h3.trans h4, ?_⟩
          rintro ⟨⟨i, hij, hf⟩ | hf, hw⟩
          · refine hn1 ⟨i, hf.2.1, fun e _ => (X.reach1_iff hf.2.1).2 ⟨hf, ?_, lt_of_lt_of_le hw (X.whole_le_upTo _)⟩⟩
            unfold pgSize at *
            omega
          · exact hn2 ⟨_, hj, fun e _ => (X.reach2_iff hj).2 ⟨hf, rfl, lt_of_lt_of_le hw (X.whole_le_upTo _)⟩⟩
    rcases key with ⟨h3, h4⟩ | ⟨h3, h4⟩
    · exact ⟨fun _ => h3, fun hD => h3.trans (h.kept o ho hD h4).symm⟩
    · refine ⟨fun hD => ?_, fun _ => h3⟩
      rcases h.saved o ho hD with h5 | h5
      · exact h3.trans h5
      · exact absurd h5 h4

/-- **`unmap` writes back exactly the modified pages** `D` iff the condition
`Safe` holds before the call. -/
theorem unmap_writes_back_iff {s : St} {t : Tid} {m : Nat} (X : MappedFile s t m) (D : Nat → Prop) :
    X.WritesBack D ↔ X.Safe D := by
  refine ⟨fun h => ?_, fun h => h.writesBack⟩
  obtain ⟨hu, hq, hfull⟩ := WritesBack.run X h true
  obtain ⟨-, -, hshort⟩ := WritesBack.run X h false
  refine ⟨hu, fun i j hf hij hj => ?_, fun o ho hDo => ?_, fun o ho hDo hw => ?_⟩
  · have hlt := X.page_start_lt hj
    have hdiv : pgSize * j / pgSize = j := Nat.mul_div_cancel_left j (by decide)
    have hk := hq i hf.2.1 (pgSize * j) ((X.reach1_iff hf.2.1).2 ⟨hf, Nat.mul_le_mul_left _ hij, hlt⟩)
    rw [X.kbyte_isSome (by rw [hdiv]; exact hu j hj), hdiv] at hk
    exact hk
  · by_cases hw : X.Written (o / pgSize) ∧ o < X.whole
    · exact .inr hw
    · exact .inl ((hshort o ho).2 hw hDo)
  · rcases (hfull o ho).1 ⟨hw, ho⟩ with h1 | h1
    · exact absurd h1 hDo
    · exact h1

end MappedFile

/-- A file of one sector is mapped, its page is in frame 0 and all its bytes
have been set to 7. -/
def oneSectorSt : St :=
  { bootSt 1 1 (fun _ => ⟨512, fun _ => 0, 1, 0, by decide⟩) fun _ => none with
    frames := fun _ => some 0
    ram := fun _ _ => 7
    pages := fun _ => some ⟨0x4000000, false, 0, some 0, none, false, some 0, 0, 512⟩
    pagedirs := fun _ => some ⟨fun _ => true, fun _ => ⟨true, true, true, true, 0⟩⟩
    tables := fun _ => some ⟨true, [0]⟩
    procs := fun _ => { Proc.init with mappings := [0], maps := fun _ => some ⟨2, some 0, 0x4000000, 1⟩ }
    files := fun _ => some ⟨0, 0, false⟩ }

def oneSector : MappedFile oneSectorSt 0 0 where
  M := ⟨2, some 0, 0x4000000, 1⟩
  g := 0
  F := ⟨0, 0, false⟩
  elems := [0]
  page _ := 0
  rcd _ := ⟨0x4000000, false, 0, some 0, none, false, some 0, 0, 512⟩
  map := rfl
  file := rfl
  opened := rfl
  dir := rfl
  table := rfl
  aligned := by decide
  base_lt := by decide
  pageCnt := by decide
  mem := by simp
  pages := by intros; rfl
  addr := by decide
  thread := by decide
  rfile := by decide
  priv := by decide
  offset := by decide
  bytes := by decide
  uniq := by
    intro p hp q hq _ _ _ _ _
    exact (List.mem_singleton.1 hp).trans (List.mem_singleton.1 hq).symm
  present := by intros; rfl
  locks := by intro; rfl

/-- The bytes of the page are in the file after `unmap`. -/
theorem unmap_writes_back_oneSector : oneSector.WritesBack fun _ => True := by
  refine (MappedFile.unmap_writes_back_iff oneSector _).2 ⟨?_, ?_, ?_, ?_⟩
  · decide
  · intros; rfl
  · intro o ho _
    have hj := oneSector.page_lt ho
    refine .inr ⟨.inr ⟨rfl, ?_, rfl⟩, ho⟩
    obtain hj : o / pgSize = 0 := Nat.lt_one_iff.1 hj
    rw [hj]
    decide
  · intro o _ hn
    exact absurd trivial hn

/-- A machine with the program `"a"` and a file `"b"` of two pages. -/
def twoPageMachine : St :=
  bootSt 3 1 (fun i => if i = 0 then smallProgram else ⟨2 * pgSize, fun _ => 0, 0, 0, by decide⟩)
    fun name => if name = [0x61] then some 0 else if name = [0x62] then some 1 else none

/-- A process maps `"b"` at 64 MB and stores to its first page. When the
mapping is removed, the kernel faults on the second page. -/
theorem unmap_faults : ∃ s c, Boot s ∧ kernel.Reachable (kernel.idle s .init) c ∧ c.thr 0 = .ret () ∧
    42 ∈ (c.st.procs 0).mappings ∧ (c.st.pte 0 0x4001000).present = false ∧
    Runs (S := sig) 0 (unmap 42) c.st (.panic .kernelFault) := by
  obtain ⟨c, hc, hchk⟩ := exists_reachable twoPageMachine
    (startSmall 0 ++ script 0 (.openFile [0x62]) (fresh 30 3) ++ script 0 (.mmap 0 2 0x4000000) (fresh 40 19) ++
      script 0 (.access 0 0x4000000 (some 7)) (fresh 80 25) ++ script 0 (.access 0 0x4000000 (some 7)) [none])
    (fun c => idleThr (c.thr 0) && decide (42 ∈ (c.st.procs 0).mappings) && !(c.st.pte 0 0x4001000).present &&
      Prog.runIs (S := sig) 0 (unmap 42) (fresh 200 4) c.st (Res.panicsWith .kernelFault)) (by decide +kernel)
  simp only [Bool.and_eq_true, decide_eq_true_eq, Bool.not_eq_true'] at hchk
  obtain ⟨⟨⟨h1, h2⟩, h3⟩, h4⟩ := hchk
  exact ⟨_, c, bootSt_boot .., hc, idle_of_idleThr h1, h2, h3, runs_of_panicsWith h4⟩

end Pintos.Vm
