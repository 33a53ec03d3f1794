import Pintos.Core.HeapOrder
import Pintos.L2Code.Sort

/-!
# Sorting (lib/stdlib.c)

`element` reads the bytes of the array as its elements, with the 1-based indexes
of the source. Over it `do_swap` is an exchange of two elements and `heapify`
sinks a hole of `Core.HeapOrder`, as long as `2 * i + 1` does not wrap:

* `sort_iff`: `sort` and `qsort` sort every array of `cnt` elements of `size`
  bytes under every total preorder exactly if `cnt` is below 2^31.
* `sort_reads_before_array`: in an array of 2^31 bytes of which the last is the
  largest, `heapify` reaches the last element and takes the byte in front of the
  array for its left child.
-/
namespace Pintos.Sort

open Function
open Pintos.Core (TotalPreorder HeapFrom Hole Permuted Parted Tops IsChild)

/-- The element with a 1-based index. -/
def element (size : Nat) (m : Bytes) : Nat → Element size
  | 0 => Vector.replicate size 0
  | j + 1 => Vector.ofFn fun i => m (j * size + i)

def elements (size cnt : Nat) (m : Bytes) : List (Element size) := (List.range' 1 cnt).map (element size m)

/-- An array of `cnt` elements of `size` bytes, at `array` in the address space. -/
structure Fits (array cnt size : Nat) : Prop where
  size_pos : 1 ≤ size
  array_ne : array ≠ 0 ∨ cnt = 0
  inside : array + cnt * size ≤ 2 ^ 32

theorem Fits.bytes {array cnt size : Nat} (h : Fits array cnt size) : cnt * size < 2 ^ 32 := by
  have := h.inside
  rcases h.array_ne with hne | rfl
  · omega
  · omega

section
variable {A : Type} {cnt size : Nat}

/-! ## Elements -/

theorem idx_le_bytes (hs : 1 ≤ size) {idx : Nat} (hidx : idx ≤ cnt) : idx * 1 ≤ cnt * size := Nat.mul_le_mul hidx hs

theorem offset_eq (hs : 1 ≤ size) (hb : cnt * size < 2 ^ 32) {j : Nat} (hj : j + 1 ≤ cnt) :
    offset (j + 1) size = j * size ∧ j * size + size ≤ cnt * size := by
  have hle : j * size + size ≤ cnt * size := by rw [← Nat.succ_mul]; exact Nat.mul_le_mul_right size hj
  have hidx := idx_le_bytes hs hj
  have hwrap : (j + 1 + (2 ^ 32 - 1)) % 2 ^ 32 = j := by omega
  refine ⟨?_, hle⟩
  rw [offset, hwrap, Nat.mod_eq_of_lt (by omega)]

theorem readElement_eq (hs : 1 ≤ size) (hb : cnt * size < 2 ^ 32) (m : Bytes) {idx : Nat} (h1 : 1 ≤ idx)
    (hidx : idx ≤ cnt) : readElement (cnt * size) m (offset idx size) size = .ok (element size m idx) := by
  obtain ⟨j, rfl⟩ := Nat.exists_eq_add_of_le' h1
  obtain ⟨hofs, hle⟩ := offset_eq hs hb hidx
  rw [readElement, hofs, if_pos hle]
  rfl

theorem doCompare_eq (hs : 1 ≤ size) (hb : cnt * size < 2 ^ 32) (m : Bytes) {a b : Nat} (ha : 1 ≤ a) (hac : a ≤ cnt)
    (hb1 : 1 ≤ b) (hbc : b ≤ cnt) (compare : Compare size A) (aux : A) :
    doCompare (cnt * size) m a b size compare aux = .ok (compare (element size m a) (element size m b) aux) := by
  rw [doCompare, readElement_eq hs hb m ha hac, readElement_eq hs hb m hb1 hbc]
  rfl

/-- The bytes with the `n` bytes at `a` and at `b` exchanged. -/
def exchanged (m : Bytes) (a b n : Nat) : Bytes := fun x =>
  if a ≤ x ∧ x < a + n then m (x - a + b) else if b ≤ x ∧ x < b + n then m (x - b + a) else m x

/-- Exchanging the first bytes and then the rest. -/
theorem exchanged_succ (m : Bytes) {a b n : Nat} (hd : a + n + 1 ≤ b ∨ b + n + 1 ≤ a) :
    exchanged (update (update m a (m b)) b (m a)) (a + 1) (b + 1) n = exchanged m a b (n + 1) := by
  funext x
  simp only [exchanged, update_apply]
  by_cases hxa : x = a
  · subst hxa
    rw [if_neg (by omega), if_neg (by omega), if_neg (by omega), if_pos rfl, if_pos (by omega)]
    exact congrArg m (by omega)
  by_cases hxb : x = b
  · subst hxb
    rw [if_neg (by omega), if_neg (by omega), if_pos rfl, if_neg (by omega), if_pos (by omega)]
    exact congrArg m (by omega)
  by_cases hina : a + 1 ≤ x ∧ x < a + 1 + n
  · rw [if_pos hina, if_neg (by omega), if_neg (by omega), if_pos (by omega)]
    exact congrArg m (by omega)
  by_cases hinb : b + 1 ≤ x ∧ x < b + 1 + n
  · rw [if_neg hina, if_pos hinb, if_neg (by omega), if_neg (by omega), if_neg (by omega), if_pos (by omega)]
    exact congrArg m (by omega)
  rw [if_neg hina, if_neg hinb, if_neg hxb, if_neg hxa, if_neg (by omega), if_neg (by omega)]

theorem swapLoop_eq {len a b : Nat} (hlen : len < 2 ^ 32) (n i : Nat) (m : Bytes) (ha : a + i + n ≤ len)
    (hb : b + i + n ≤ len) (hd : a + i + n ≤ b + i ∨ b + i + n ≤ a + i) :
    swapLoop len a b n i m = .ok (exchanged m (a + i) (b + i) n) := by
  induction n generalizing i m with
  | zero =>
    rw [swapLoop]
    refine congrArg Except.ok (funext fun x => ?_)
    rw [exchanged, if_neg (by omega), if_neg (by omega)]
  | succ n ih =>
    have hma : (a + i) % 2 ^ 32 = a + i := Nat.mod_eq_of_lt (by omega)
    have hmb : (b + i) % 2 ^ 32 = b + i := Nat.mod_eq_of_lt (by omega)
    have hla : a + i < len := by omega
    have hlb : b + i < len := by omega
    rw [swapLoop, hma, hmb]
    simp only [load, store, if_pos hla, if_pos hlb, bind, Except.bind]
    rw [ih (i + 1) _ (by omega) (by omega) (by omega), ← exchanged_succ m (show a + i + n + 1 ≤ b + i ∨ _ by omega)]
    rfl

/-- A byte of one element is in no other. -/
theorem block_apart {j k i : Nat} (hne : j ≠ k) (hi : i < size) :
    ¬ (k * size ≤ j * size + i ∧ j * size + i < k * size + size) := by
  rcases Nat.lt_or_gt_of_ne hne with hlt | hlt
  · have : (j + 1) * size ≤ k * size := Nat.mul_le_mul_right size hlt
    rw [Nat.succ_mul] at this
    omega
  · have : (k + 1) * size ≤ j * size := Nat.mul_le_mul_right size hlt
    rw [Nat.succ_mul] at this
    omega

/-- `do_swap` exchanges two elements and leaves the bytes of all others. -/
theorem doSwap_ok (hs : 1 ≤ size) (hb : cnt * size < 2 ^ 32) (m : Bytes) {p q : Nat} (hp : 1 ≤ p) (hpc : p ≤ cnt)
    (hq : 1 ≤ q) (hqc : q ≤ cnt) (hpq : p ≠ q) :
    ∃ m', doSwap (cnt * size) m p q size = .ok m' ∧ element size m' = element size m ∘ Equiv.swap p q := by
  obtain ⟨j, rfl⟩ := Nat.exists_eq_add_of_le' hp
  obtain ⟨k, rfl⟩ := Nat.exists_eq_add_of_le' hq
  obtain ⟨hofsj, hlej⟩ := offset_eq hs hb hpc
  obtain ⟨hofsk, hlek⟩ := offset_eq hs hb hqc
  have hjk : j ≠ k := fun he => hpq (by rw [he])
  have hd : j * size + 0 + size ≤ k * size + 0 ∨ k * size + 0 + size ≤ j * size + 0 := by
    have := block_apart hjk (show 0 < size by omega)
    have := block_apart hjk.symm (show 0 < size by omega)
    omega
  refine ⟨exchanged m (j * size) (k * size) size, ?_, funext fun x => ?_⟩
  · rw [doSwap, hofsj, hofsk]
    exact swapLoop_eq hb size 0 m (by omega) (by omega) hd
  · cases x with
    | zero => rw [comp_apply, Equiv.swap_apply_of_ne_of_ne (by omega) (by omega)]; rfl
    | succ x =>
      by_cases hxj : x = j
      · subst hxj
        rw [comp_apply, Equiv.swap_apply_left]
        refine Vector.ext fun i hi => ?_
        simp only [element, Vector.getElem_ofFn, exchanged]
        rw [if_pos (by omega)]
        exact congrArg m (by omega)
      by_cases hxk : x = k
      · subst hxk
        rw [comp_apply, Equiv.swap_apply_right]
        refine Vector.ext fun i hi => ?_
        simp only [element, Vector.getElem_ofFn, exchanged]
        rw [if_neg (by omega), if_pos (by omega)]
        exact congrArg m (by omega)
      · rw [comp_apply, Equiv.swap_apply_of_ne_of_ne (by omega) (by omega)]
        refine Vector.ext fun i hi => ?_
        simp only [element, Vector.getElem_ofFn, exchanged]
        rw [if_neg (block_apart hxj hi), if_neg (block_apart hxk hi)]

/-! ## heapify -/

variable {compare : Compare size A} {aux : A}

/-- The order a comparison function stands for. -/
def Le (compare : Compare size A) (aux : A) (a b : Element size) : Prop := compare a b aux ≤ 0

instance : DecidableRel (Le compare aux) := fun a b => inferInstanceAs (Decidable (compare a b aux ≤ 0))

theorem larger_eq (hs : 1 ≤ size) (hb : cnt * size < 2 ^ 32) (m : Bytes) {child max n : Nat} (hc : 1 ≤ child)
    (hn : n ≤ cnt) (hmax : 1 ≤ max) (hmaxn : max ≤ cnt) :
    larger (cnt * size) m child max n size compare aux =
      .ok (Core.larger (Le compare aux) (element size m) n child max) := by
  unfold larger Core.larger
  by_cases hchild : child ≤ n
  · rw [if_pos hchild, doCompare_eq hs hb m hc (hchild.trans hn) hmax hmaxn]
    simp only [bind, Except.bind, Le, hchild, true_and, not_le]
    split <;> rfl
  · rw [if_neg hchild, if_neg fun h => hchild h.1]

/-- One round of the loop, while the indexes of the children do not wrap. -/
theorem heapify_step (hs : 1 ≤ size) (hb : cnt * size < 2 ^ 32) (m : Bytes) {n i max : Nat} (hn : n ≤ cnt)
    (hi : 1 ≤ i) (hin : i ≤ n) (hwrap : 2 * i + 1 < 2 ^ 32)
    (hmax : max = Core.larger (Le compare aux) (element size m) n (2 * i + 1)
      (Core.larger (Le compare aux) (element size m) n (2 * i) i)) (fuel : Nat) :
    heapify (cnt * size) n size compare aux (fuel + 1) i m =
      if max = i then .ok m
      else doSwap (cnt * size) m i max size >>= heapify (cnt * size) n size compare aux fuel max := by
  have hleft : 2 * i % 2 ^ 32 = 2 * i := Nat.mod_eq_of_lt (by omega)
  have hright : (2 * i + 1) % 2 ^ 32 = 2 * i + 1 := Nat.mod_eq_of_lt hwrap
  have hfirst : 1 ≤ Core.larger (Le compare aux) (element size m) n (2 * i) i ∧
      Core.larger (Le compare aux) (element size m) n (2 * i) i ≤ cnt := by
    unfold Core.larger
    split_ifs <;> omega
  rw [heapify]
  simp only [hleft, hright]
  rw [larger_eq hs hb m (by omega) hn hi (hin.trans hn)]
  simp only [bind, Except.bind]
  rw [larger_eq hs hb m (by omega) hn hfirst.1 hfirst.2, ← hmax]

/-- `heapify` sinks the hole until it is filled. The induction is on how far `i` is
from the last element. -/
theorem heapify_ok (hp : TotalPreorder (Le compare aux)) (hs : 1 ≤ size) (hb : cnt * size < 2 ^ 32)
    (hcnt : cnt < 2 ^ 31) {n k : Nat} (hn : n ≤ cnt) (hk : 1 ≤ k) (d i : Nat) (m : Bytes) (hd : n - i ≤ d)
    (hi : k ≤ i) (hin : i ≤ n) (hole : Hole (Le compare aux) (element size m) n k i) :
    ∃ m', (∀ fuel, d < fuel → heapify (cnt * size) n size compare aux fuel i m = .ok m') ∧
      HeapFrom (Le compare aux) (element size m') n k ∧ Permuted n (element size m) (element size m') := by
  induction d generalizing i m with
  | zero =>
    obtain rfl : i = n := by omega
    refine ⟨m, fun fuel hfuel => ?_, hole.filled fun c hc hcn => ?_, .refl _ _⟩
    · obtain ⟨fuel, rfl⟩ := Nat.exists_eq_add_of_lt hfuel
      rw [heapify_step hs hb m hn (by omega) le_rfl (by omega) rfl, if_pos]
      unfold Core.larger
      rw [if_neg (by omega), if_neg (by omega)]
    · unfold IsChild at hc
      omega
  | succ d ih =>
    obtain ⟨max, hmax⟩ : ∃ max, max = Core.larger (Le compare aux) (element size m) n (2 * i + 1)
      (Core.larger (Le compare aux) (element size m) n (2 * i) i) := ⟨_, rfl⟩
    have hstep := heapify_step hs hb m hn (by omega) hin (by omega) hmax
    obtain ⟨hup, hlargest, hcase⟩ := Core.larger_children hp (element size m) n i hmax
    by_cases hdone : max = i
    · rw [hdone] at hlargest
      refine ⟨m, fun fuel hfuel => ?_, hole.filled hlargest, .refl _ _⟩
      obtain ⟨fuel, rfl⟩ := Nat.exists_eq_add_of_lt hfuel
      rw [hstep, if_pos hdone]
    · obtain ⟨hchild, hmaxn⟩ := hcase.resolve_left hdone
      have hlt : i < max := by unfold IsChild at hchild; omega
      obtain ⟨m₁, hswap, helem⟩ := doSwap_ok hs hb m (show 1 ≤ i by omega) (by omega) (show 1 ≤ max by omega)
        (by omega) (Ne.symm hdone)
      have hsunk := hole.sink hk hi hchild hmaxn hup hlargest
      rw [← helem] at hsunk
      obtain ⟨m', hrun, hheap, hre⟩ := ih max m₁ (by omega) (by omega) hmaxn hsunk
      refine ⟨m', fun fuel hfuel => ?_, hheap, ?_⟩
      · obtain ⟨fuel, rfl⟩ := Nat.exists_eq_add_of_lt hfuel
        rw [hstep, if_neg hdone, hswap]
        exact hrun _ (by omega)
      · refine Permuted.trans ?_ hre
        rw [helem]
        exact .swap _ (by omega) hin (by omega) hmaxn

/-! ## sort -/

theorem buildLoop_ok (hp : TotalPreorder (Le compare aux)) (hs : 1 ≤ size) (hb : cnt * size < 2 ^ 32)
    (hcnt : cnt < 2 ^ 31) (i : Nat) (m : Bytes) (hi : i ≤ cnt)
    (hheap : HeapFrom (Le compare aux) (element size m) cnt (i + 1)) :
    ∃ m', (∀ fuel, cnt < fuel → buildLoop (cnt * size) cnt size compare aux fuel i m = .ok m') ∧
      HeapFrom (Le compare aux) (element size m') cnt 1 ∧ Permuted cnt (element size m) (element size m') := by
  induction i generalizing m with
  | zero => exact ⟨m, fun fuel _ => rfl, hheap, .refl _ _⟩
  | succ i ih =>
    obtain ⟨m₁, hrun, hheap₁, hre₁⟩ := heapify_ok hp hs hb hcnt le_rfl (show 1 ≤ i + 1 by omega) cnt (i + 1) m
      (by omega) le_rfl hi (.start (by omega) hheap)
    obtain ⟨m', hloop, hheap', hre'⟩ := ih m₁ (by omega) hheap₁
    refine ⟨m', fun fuel hfuel => ?_, hheap', hre₁.trans hre'⟩
    rw [buildLoop, hrun fuel hfuel]
    exact hloop fuel hfuel

theorem extractLoop_ok (hp : TotalPreorder (Le compare aux)) (hs : 1 ≤ size) (hb : cnt * size < 2 ^ 32)
    (hcnt : cnt < 2 ^ 31) (i : Nat) (m : Bytes) (hi : i ≤ cnt)
    (hheap : HeapFrom (Le compare aux) (element size m) i 1) (hpart : Parted (Le compare aux) (element size m) cnt i) :
    ∃ m', (∀ fuel, cnt < fuel → extractLoop (cnt * size) size compare aux fuel i m = .ok m') ∧
      (elements size cnt m').Pairwise (Le compare aux) ∧ Permuted cnt (element size m) (element size m') := by
  induction i generalizing m with
  | zero => exact ⟨m, fun fuel _ => rfl, hpart.pairwise (by omega), .refl _ _⟩
  | succ i ih =>
    cases i with
    | zero => exact ⟨m, fun fuel _ => rfl, hpart.pairwise le_rfl, .refl _ _⟩
    | succ i =>
      obtain ⟨m₁, hswap, helem⟩ := doSwap_ok hs hb m (le_refl 1) (by omega) (show 1 ≤ i + 2 by omega) hi (by omega)
      have hhole := hheap.take
      have hpart₁ := hpart.take hp hheap (by omega)
      rw [← helem] at hhole hpart₁
      obtain ⟨m₂, hrun, hheap₂, hre₂⟩ := heapify_ok hp hs hb hcnt (show i + 1 ≤ cnt by omega) le_rfl cnt 1 m₁
        (by omega) le_rfl (by omega) hhole
      obtain ⟨m', hloop, hsorted, hre'⟩ := ih m₂ (by omega) hheap₂ (hpart₁.rearrange hre₂)
      refine ⟨m', fun fuel hfuel => ?_, hsorted, ?_⟩
      · rw [extractLoop, hswap]
        simp only [bind, Except.bind]
        rw [hrun fuel hfuel]
        exact hloop fuel hfuel
      · refine Permuted.trans ?_ ((hre₂.mono (by omega)).trans hre')
        rw [helem]
        exact .swap _ le_rfl (by omega) (by omega) hi

/-- The runs of a sorting call, given enough rounds, all end with the same array,
which holds the elements of `m` in nondecreasing order. -/
def SortsTo (cnt : Nat) (le : Element size → Element size → Prop) (m : Bytes) (run : Nat → Except Fault Bytes) :
    Prop :=
  ∃ m', (∃ enough, ∀ fuel, enough ≤ fuel → run fuel = .ok m') ∧
    (elements size cnt m').Perm (elements size cnt m) ∧ (elements size cnt m').Pairwise le

theorem sort_sorts (hp : TotalPreorder (Le compare aux)) {array : Nat} (hfits : Fits array cnt size)
    (hcnt : cnt < 2 ^ 31) (m : Bytes) :
    SortsTo cnt (Le compare aux) m fun fuel => sort fuel array cnt size compare aux m := by
  have hs := hfits.size_pos
  -- The elements in the second half have no children.
  have hleaves : HeapFrom (Le compare aux) (element size m) cnt (cnt / 2 + 1) := by
    intro i hi c hc hcn
    unfold IsChild at hc
    omega
  obtain ⟨m₁, hbuild, hheap, hre₁⟩ := buildLoop_ok hp hs hfits.bytes hcnt (cnt / 2) m (by omega) hleaves
  obtain ⟨m', hextract, hsorted, hre'⟩ := extractLoop_ok hp hs hfits.bytes hcnt cnt m₁ le_rfl hheap (.all _ _ _)
  refine ⟨m', ⟨cnt + 1, fun fuel hfuel => ?_⟩, (hre₁.trans hre').perm, hsorted⟩
  simp only [sort, assert, if_pos hfits.array_ne, if_pos (show 0 < size from hs), bind, Except.bind]
  rw [hbuild fuel hfuel]
  exact hextract fuel hfuel

end

/-! ## Indexes that wrap

With 2^31 elements or more, elements are single bytes. The array below has one
byte that is larger than the others, at the first index whose children wrap. -/

/-- The order of unsigned bytes. -/
def byteOrder : Compare 1 Unit := fun a b _ => a[0].toNat - b[0].toNat

theorem byteOrder_total : TotalPreorder (Le byteOrder ()) := by
  unfold Le byteOrder
  exact ⟨fun a b => by omega, fun h₁ h₂ => by omega⟩

/-- Zeros, but for the byte with the 1-based index 2^31. -/
def lateByte : Bytes := fun x => if x + 1 = 2 ^ 31 then 1 else 0

theorem byteOrder_element (m : Bytes) (i j : Nat) :
    byteOrder (element 1 m (i + 1)) (element 1 m (j + 1)) () = (m i).toNat - (m j).toNat := by
  simp [byteOrder, element]

/-- Only the late byte is larger than any other. -/
theorem le_lateByte_iff {i j : Nat} (hi : 1 ≤ i) (hj : 1 ≤ j) :
    Le byteOrder () (element 1 lateByte i) (element 1 lateByte j) ↔ (i = 2 ^ 31 → j = 2 ^ 31) := by
  obtain ⟨i, rfl⟩ := Nat.exists_eq_add_of_le' hi
  obtain ⟨j, rfl⟩ := Nat.exists_eq_add_of_le' hj
  rw [Le, byteOrder_element, lateByte, lateByte]
  have hzero : (0 : UInt8).toNat = 0 := rfl
  have hone : (1 : UInt8).toNat = 1 := rfl
  split_ifs with h₁ h₂ h₂ <;> simp only [hzero, hone] <;> omega

section
variable {cnt : Nat}

/-- While the children are behind the late byte, nothing moves. -/
theorem heapify_stays (hcnt : cnt < 2 ^ 32) {i : Nat} (hi : 2 ^ 30 < i) (hic : i ≤ cnt / 2) (fuel : Nat) :
    heapify (cnt * 1) cnt 1 byteOrder () (fuel + 1) i lateByte = .ok lateByte := by
  have hstay : ∀ c, 2 ^ 31 < c → Core.larger (Le byteOrder ()) (element 1 lateByte) cnt c i = i := by
    intro c hc
    refine if_neg fun h => h.2 ((le_lateByte_iff (by omega) (by omega)).mpr fun he => ?_)
    omega
  have hmax : i = Core.larger (Le byteOrder ()) (element 1 lateByte) cnt (2 * i + 1)
      (Core.larger (Le byteOrder ()) (element 1 lateByte) cnt (2 * i) i) := by
    rw [hstay (2 * i) (by omega), hstay (2 * i + 1) (by omega)]
  rw [heapify_step le_rfl (by omega) lateByte le_rfl (by omega) (by omega) (by omega) hmax, if_pos rfl]

/-- The children of the element 2^31 are taken to be 0 and 1. -/
theorem heapify_wraps (hlo : 2 ^ 31 ≤ cnt) (hcnt : cnt < 2 ^ 32) (m : Bytes) (fuel : Nat) :
    heapify (cnt * 1) cnt 1 byteOrder () (fuel + 1) (2 ^ 31) m = .error .beyond := by
  have hleft : 2 * 2 ^ 31 % 2 ^ 32 = 0 := by decide
  have hofs : offset 0 1 = 2 ^ 32 - 1 := by decide
  have hread : readElement (cnt * 1) m (offset 0 1) 1 = .error .beyond := by
    rw [readElement, hofs, if_neg (by omega)]
  rw [heapify]
  simp only [hleft, larger, if_pos (Nat.zero_le cnt), doCompare, hread, bind, Except.bind]

/-- The late byte is the larger child of the element 2^30, and goes up. -/
theorem heapify_beyond (hlo : 2 ^ 31 ≤ cnt) (hcnt : cnt < 2 ^ 32) (fuel : Nat) :
    heapify (cnt * 1) cnt 1 byteOrder () (fuel + 2) (2 ^ 30) lateByte = .error .beyond := by
  have hb : cnt * 1 < 2 ^ 32 := by omega
  have hup : Core.larger (Le byteOrder ()) (element 1 lateByte) cnt (2 * 2 ^ 30) (2 ^ 30) = 2 ^ 31 := by
    refine if_pos ⟨by omega, fun hle => ?_⟩
    have := (le_lateByte_iff (by omega) (by omega)).mp hle (by omega)
    omega
  have hstay : Core.larger (Le byteOrder ()) (element 1 lateByte) cnt (2 * 2 ^ 30 + 1) (2 ^ 31) = 2 ^ 31 :=
    if_neg fun h => h.2 ((le_lateByte_iff (by omega) (by omega)).mpr fun _ => rfl)
  have hmax : 2 ^ 31 = Core.larger (Le byteOrder ()) (element 1 lateByte) cnt (2 * 2 ^ 30 + 1)
      (Core.larger (Le byteOrder ()) (element 1 lateByte) cnt (2 * 2 ^ 30) (2 ^ 30)) := by
    rw [hup, hstay]
  obtain ⟨m', hswap, -⟩ := doSwap_ok le_rfl hb lateByte (show 1 ≤ 2 ^ 30 by omega) (by omega)
    (show 1 ≤ 2 ^ 31 by omega) hlo (by omega)
  rw [heapify_step le_rfl hb lateByte le_rfl (by omega) (by omega) (by omega) hmax, if_neg (by omega), hswap]
  exact heapify_wraps hlo hcnt m' fuel

theorem buildLoop_beyond (hlo : 2 ^ 31 ≤ cnt) (hcnt : cnt < 2 ^ 32) (fuel i : Nat) (hi : 2 ^ 30 ≤ i)
    (hic : i ≤ cnt / 2) :
    buildLoop (cnt * 1) cnt 1 byteOrder () (fuel + 2) i lateByte = .error .beyond := by
  induction i with
  | zero => omega
  | succ i ih =>
    rw [buildLoop]
    by_cases hlast : i + 1 = 2 ^ 30
    · rw [hlast, heapify_beyond hlo hcnt]
      rfl
    · rw [heapify_stays hcnt (by omega) hic]
      exact ih (by omega) (by omega)

theorem sort_beyond (hlo : 2 ^ 31 ≤ cnt) (hcnt : cnt < 2 ^ 32) {array : Nat} (ha : array ≠ 0 ∨ cnt = 0)
    (fuel : Nat) : sort (fuel + 2) array cnt 1 byteOrder () lateByte = .error .beyond := by
  simp only [sort, assert, if_pos ha, if_pos Nat.one_pos, bind, Except.bind]
  rw [buildLoop_beyond hlo hcnt fuel (cnt / 2) (by omega) le_rfl]

theorem not_sortsTo (hlo : 2 ^ 31 ≤ cnt) (hcnt : cnt < 2 ^ 32) {array : Nat} (ha : array ≠ 0 ∨ cnt = 0) :
    ¬ SortsTo cnt (Le byteOrder ()) lateByte fun fuel => sort fuel array cnt 1 byteOrder () lateByte := by
  rintro ⟨m', ⟨enough, hrun⟩, -⟩
  have hret : sort (enough + 2) array cnt 1 byteOrder () lateByte = .ok m' := hrun (enough + 2) (by omega)
  rw [sort_beyond hlo hcnt ha] at hret
  cases hret

end

/-! ## The result -/

/-- Every array of `cnt` elements of `size` bytes is sorted, by `sort` and by `qsort`
and under every total preorder, exactly if there are fewer than 2^31 elements. -/
theorem sort_iff (array cnt size : Nat) (hfits : Fits array cnt size) :
    ((∀ (A : Type) (compare : Compare size A) (aux : A), TotalPreorder (Le compare aux) → ∀ m,
        SortsTo cnt (Le compare aux) m fun fuel => sort fuel array cnt size compare aux m) ∧
      ∀ compare : Element size → Element size → Int, TotalPreorder (fun a b => compare a b ≤ 0) → ∀ m,
        SortsTo cnt (fun a b => compare a b ≤ 0) m fun fuel => qsort fuel array cnt size compare m) ↔
    cnt < 2 ^ 31 := by
  constructor
  · rintro ⟨hsort, -⟩
    by_contra hlo
    have hbytes := hfits.bytes
    -- Elements of two bytes would not fit.
    have hone : size = 1 := by
      have hpos := hfits.size_pos
      by_contra hne
      have : cnt * 2 ≤ cnt * size := Nat.mul_le_mul_left cnt (by omega)
      omega
    subst hone
    exact not_sortsTo (by omega) (by omega) hfits.array_ne (hsort Unit byteOrder () byteOrder_total lateByte)
  · intro hcnt
    exact ⟨fun A compare aux hp m => sort_sorts hp hfits hcnt m, fun compare hp m => sort_sorts hp hfits hcnt m⟩

/-- Three elements of two bytes. -/
theorem sort_iff_three : Fits 0x1000 3 2 ∧
    ∀ compare : Element 2 → Element 2 → Int, TotalPreorder (fun a b => compare a b ≤ 0) → ∀ m,
      SortsTo 3 (fun a b => compare a b ≤ 0) m fun fuel => qsort fuel 0x1000 3 2 compare m :=
  have hfits : Fits 0x1000 3 2 := ⟨by decide, by decide, by decide⟩
  ⟨hfits, ((sort_iff 0x1000 3 2 hfits).mpr (by decide)).2⟩

/-- In an array of 2^31 bytes of which the last is the largest, `heapify` compares
the byte in front of the array, and no number of rounds ends with a sorted one. -/
theorem sort_reads_before_array :
    Fits 0x1000 (2 ^ 31) 1 ∧ TotalPreorder (Le byteOrder ()) ∧
      sort 2 0x1000 (2 ^ 31) 1 byteOrder () lateByte = .error .beyond ∧
      ¬ SortsTo (2 ^ 31) (Le byteOrder ()) lateByte
        fun fuel => sort fuel 0x1000 (2 ^ 31) 1 byteOrder () lateByte :=
  ⟨⟨by decide, by decide, by decide⟩, byteOrder_total, sort_beyond le_rfl (by decide) (by decide) 0,
    not_sortsTo le_rfl (by decide) (by decide)⟩

end Pintos.Sort
