import Pintos.L4Results.Heap

/-!
# The length of allocated blocks (threads/malloc.c)

`malloc` adds the size of the arena header and rounds up to pages in 32 bits,
and `calloc` multiplies in 32 bits. Which requests come back with too short a
block follows from the number of pages those sums give:

* `allocation_spans_iff`: a request is never answered by a block shorter than
  was asked, in any state of the heap, exactly if its size with the header does
  not pass 2^32, or, for `calloc`, if the wrapped product is rejected.
* `allocation_short`: `malloc (0xfffffff8)` and `calloc (65537, 65537)` return
  blocks of 4084 and of 135156 bytes.
-/
namespace Pintos.Malloc

open Pintos.Core Pintos.Vm
open Pintos.Palloc (pagesOf)

variable {s : St} {live : List Live}

/-- A request for a new block. -/
inductive Request
  | malloc (size : Nat)
  | calloc (a b : Nat)

namespace Request

def code (grant : Option Nat) : Request → M (Option Nat)
  | malloc size => Malloc.malloc size grant
  | calloc a b => Malloc.calloc a b grant

/-- The number of bytes asked for. -/
def asked : Request → Nat
  | malloc size => size
  | calloc a b => a * b

/-- The arguments are values of `size_t`. -/
def Words : Request → Prop
  | malloc size => size < 2 ^ 32
  | calloc a b => a < 2 ^ 32 ∧ b < 2 ^ 32

/-- The pages for the bytes asked and a header do not fit in 32 bits. -/
def TooBig (q : Request) : Prop := 2 ^ 32 ≤ pgSize * ((q.asked + arenaSize + (pgSize - 1)) / pgSize)

/-- The answer `r` is a null pointer, or a block in use in `s'` that is as long as
was asked; and a null pointer if the request cannot be met. -/
def Answered (q : Request) (live : List Live) (r : Option Nat) (s' : St) : Prop :=
  (∀ p, r = some p → q.asked ≤ s'.blockLen p ∧ s'.Sound (⟨p, q.asked⟩ :: live)) ∧ (q.TooBig → r = none)

/-- The call returns such an answer, whatever the page allocator grants. -/
def Honest (q : Request) (s : St) (live : List Live) : Prop := ∀ grant, Ok (q.code grant) s (q.Answered live)

/-- The sums and the product do not wrap to a size that is allocated. -/
def Safe : Request → Prop
  | malloc size => size + arenaSize ≤ 2 ^ 32
  | calloc a b => a * b + arenaSize ≤ 2 ^ 32 ∨ a * b % 2 ^ 32 < a ∨ a * b % 2 ^ 32 < b ∨
      (2 ^ 32 ≤ a * b % 2 ^ 32 + arenaSize + (pgSize - 1) ∧ a * b % 2 ^ 32 + arenaSize ≤ 2 ^ 32)

end Request

/-! ## Safe requests -/

variable {size a b : Nat}

theorem findDesc_none (h : 1024 < size) : findDesc size = none := by
  have hall : ∀ p ∈ descs.zipIdx, p.1.blockSize ≤ 1024 := by decide
  refine List.find?_eq_none.mpr fun p hp hle => ?_
  have := hall p hp
  have := of_decide_eq_true hle
  omega

/-- The sizes from 2^32 - 4107 to 2^32 - 12 are rounded up to no page at all. -/
theorem pageCntOf_zero (hlo : 2 ^ 32 ≤ size + arenaSize + (pgSize - 1)) (hhi : size + arenaSize ≤ 2 ^ 32) :
    pageCntOf size = 0 := by
  unfold pageCntOf
  unfold pgSize arenaSize at *
  omega

/-- A size that is rounded up to no page gets a null pointer. -/
theorem ok_malloc_null (hlo : 2 ^ 32 ≤ size + arenaSize + (pgSize - 1))
    (hhi : size + arenaSize ≤ 2 ^ 32) (grant : Option Nat) (s : St) :
    Ok (malloc size grant) s fun r _ => r = none := by
  have hbig : 1024 < size := by
    unfold pgSize arenaSize at hlo
    omega
  unfold malloc
  rw [if_neg (show size ≠ 0 by omega), findDesc_none hbig]
  refine ok_bind.mpr ((ok_pallocGetMultiple s grant (pageCntOf size)).mono ?_)
  rintro r s₁ (⟨rfl, -⟩ | ⟨a, -, -, -, hn, -⟩)
  · exact (ok_pure _).mpr rfl
  · rw [pageCntOf_zero hlo hhi] at hn
    omega

/-- A block of the size asked for is that long. -/
theorem Inv.spans {p : Live} (h : Inv s (p :: live)) (hfit : p.size + arenaSize < 2 ^ 32) :
    p.size ≤ s.blockLen p.addr ∧ s.Sound (p :: live) := by
  obtain ⟨K, hK⟩ := h
  obtain ⟨a, kd, ha, hb, -, hlen⟩ := hK.used p List.mem_cons_self
  refine ⟨?_, hK.sound⟩
  rw [(hK.len_eq ha hb).1]
  exact hlen hfit

variable {q : Request}

/-- Only a request in the last page before 2^32 is too big without passing 2^32. -/
theorem Request.TooBig.lo (h : q.TooBig) : 2 ^ 32 ≤ q.asked + arenaSize + (pgSize - 1) := by
  unfold TooBig at h
  unfold pgSize at *
  omega

/-- A null pointer is always honest. -/
theorem Request.honest_null {grant : Option Nat} (h : Ok (q.code grant) s fun r _ => r = none) :
    Ok (q.code grant) s (q.Answered live) := by
  refine h.mono ?_
  rintro r s' rfl
  exact ⟨fun p hp => absurd hp.symm (Option.some_ne_none p), fun _ => rfl⟩

/-- So is a block that the invariant knows with the size asked, if that fits. -/
theorem Request.honest_block {grant : Option Nat} (hfit : q.asked + arenaSize + (pgSize - 1) < 2 ^ 32)
    (h : Ok (q.code grant) s fun r s' =>
      (r = none ∧ s' = s) ∨ ∃ p, r = some p ∧ Inv s' (⟨p, q.asked⟩ :: live)) :
    Ok (q.code grant) s (q.Answered live) := by
  refine h.mono ?_
  rintro r s' hr
  refine ⟨fun p hp => ?_, fun hbig => absurd hbig.lo (not_le.mpr hfit)⟩
  rcases hr with ⟨rfl, -⟩ | ⟨p', rfl, hinv⟩
  · cases hp
  · cases hp
    exact hinv.spans (show q.asked + arenaSize < 2 ^ 32 by omega)

/-- `malloc` is honest unless the sum with the header passes 2^32. -/
theorem Inv.malloc_honest (h : Inv s live) (hsafe : size + arenaSize ≤ 2 ^ 32) :
    (Request.malloc size).Honest s live := by
  intro grant
  by_cases hlo : 2 ^ 32 ≤ size + arenaSize + (pgSize - 1)
  · exact Request.honest_null (ok_malloc_null hlo hsafe grant s)
  · exact Request.honest_block (not_le.mp hlo) (h.ok_malloc size grant)

/-- A product that is rejected gets a null pointer. -/
theorem ok_calloc_null (grant : Option Nat) (s : St)
    (h : a * b % 2 ^ 32 < a ∨ a * b % 2 ^ 32 < b ∨
      (2 ^ 32 ≤ a * b % 2 ^ 32 + arenaSize + (pgSize - 1) ∧ a * b % 2 ^ 32 + arenaSize ≤ 2 ^ 32)) :
    Ok (calloc a b grant) s fun r _ => r = none := by
  unfold calloc
  by_cases hcheck : a * b % 2 ^ 32 < a ∨ a * b % 2 ^ 32 < b
  · rw [if_pos hcheck]
    exact (ok_pure _).mpr rfl
  · have hrange := (or_assoc.mpr h).resolve_left hcheck
    rw [if_neg hcheck]
    refine ok_bind.mpr ((ok_malloc_null hrange.1 hrange.2 grant s).mono ?_)
    rintro r s' rfl
    exact (ok_pure _).mpr rfl

/-- `calloc` that does not wrap is honest as `malloc` is. -/
theorem Inv.calloc_honest (h : Inv s live) (hsafe : a * b + arenaSize ≤ 2 ^ 32) :
    (Request.calloc a b).Honest s live := by
  intro grant
  by_cases hlo : 2 ^ 32 ≤ a * b + arenaSize + (pgSize - 1)
  · have hmod : a * b % 2 ^ 32 = a * b := Nat.mod_eq_of_lt (by unfold arenaSize at hsafe; omega)
    refine Request.honest_null (ok_calloc_null grant s (.inr (.inr ?_)))
    rw [hmod]
    exact ⟨hlo, hsafe⟩
  · exact Request.honest_block (not_le.mp hlo) (h.ok_calloc (by unfold pgSize at hlo; omega) grant)

theorem Inv.honest_of_safe (h : Inv s live) (hsafe : q.Safe) : q.Honest s live := by
  cases q with
  | malloc size => exact h.malloc_honest hsafe
  | calloc a b =>
    rcases hsafe with hfit | hnull
    · exact h.calloc_honest hfit
    · exact fun grant => Request.honest_null (ok_calloc_null grant s hnull)

/-! ## The other requests

In the heap before the first call, with the pages from 4096 on free, a request
that is not safe gets a block whose length is the wrapped size, rounded up. -/

/-- A big block in the free pages at `pgSize`. -/
theorem ok_mallocBig_fresh (hn : 1 ≤ pageCntOf size) :
    Ok (mallocBig size (some pgSize)) fresh fun r s' => r = some (pgSize + arenaSize) ∧
      s'.word (pgSize + 4) = 0 ∧ s'.word (pgSize + 8) = pageCntOf size := by
  have hlt := pageCntOf_lt size
  have hdis : Disjoint (pagesOf pgSize (pageCntOf size)) fresh.pages := Finset.disjoint_empty_right _
  obtain ⟨-, hw4, hw8⟩ := headed_words (m := fresh.mem) (a := pgSize) arenaMagic_lt (show 0 < 2 ^ 32 by decide)
    (show pageCntOf size < 2 ^ 32 by omega)
  unfold mallocBig pallocGetMultiple
  rw [if_neg (show pageCntOf size ≠ 0 by omega)]
  refine ok_bind.mpr (ok_bind.mpr (ok_get.mpr ?_))
  rw [if_pos ⟨by decide, by decide, hdis⟩]
  exact ok_bind.mpr ((ok_modify _).mpr ((ok_pure _).mpr (ok_bind.mpr ((ok_modify _).mpr (ok_bind.mpr
    ((ok_modify _).mpr (ok_bind.mpr ((ok_modify _).mpr ((ok_pure _).mpr ⟨rfl, hw4, hw8⟩)))))))))

/-- The length of a big block at `pgSize`, from the words of its header. -/
theorem blockLen_big {n : Nat} (h4 : s.word (pgSize + 4) = 0) (h8 : s.word (pgSize + 8) = n) :
    s.blockLen (pgSize + arenaSize) = pgSize * n - arenaSize := by
  have hround : pgRoundDown (pgSize + arenaSize) = pgSize := by decide
  rw [St.blockLen, hround, if_pos h4, h8]

theorem malloc_fresh (hbig : 1024 < size) (hn : 1 ≤ pageCntOf size) :
    Ok (malloc size (some pgSize)) fresh fun r s' => r = some (pgSize + arenaSize) ∧
      s'.word (pgSize + 4) = 0 ∧ s'.word (pgSize + 8) = pageCntOf size := by
  unfold malloc
  rw [if_neg (show size ≠ 0 by omega), findDesc_none hbig]
  exact ok_mallocBig_fresh hn

/-- Clearing a block leaves the header in front of it. -/
theorem word_memset {o n : Nat} {f : Nat → UInt8} (ho : o + 4 ≤ pgSize + arenaSize) :
    ({ s with mem := patch s.mem (pgSize + arenaSize) n f } : St).word o = s.word o :=
  wordAt_congr fun i hi => patch_of_outside (.inl (by omega))

theorem calloc_fresh (hbig : 1024 < a * b % 2 ^ 32) (hn : 1 ≤ pageCntOf (a * b % 2 ^ 32))
    (hcheck : ¬ (a * b % 2 ^ 32 < a ∨ a * b % 2 ^ 32 < b)) :
    Ok (calloc a b (some pgSize)) fresh fun r s' => r = some (pgSize + arenaSize) ∧
      s'.word (pgSize + 4) = 0 ∧ s'.word (pgSize + 8) = pageCntOf (a * b % 2 ^ 32) := by
  unfold calloc
  rw [if_neg hcheck]
  refine ok_bind.mpr ((malloc_fresh hbig hn).mono ?_)
  rintro r s' ⟨rfl, h4, h8⟩
  refine ok_bind.mpr ((ok_modify _).mpr ((ok_pure _).mpr ⟨rfl, ?_, ?_⟩))
  · exact (word_memset (by decide)).trans h4
  · exact (word_memset (by decide)).trans h8

/-- A sum with the header that passes 2^32 is rounded up to one page. -/
theorem pageCntOf_one (hw : size < 2 ^ 32) (h : 2 ^ 32 < size + arenaSize) : pageCntOf size = 1 := by
  unfold pageCntOf
  unfold pgSize arenaSize at *
  omega

/-- What an unsafe request comes to: its block is shorter than was asked. -/
theorem Request.short_of_not_safe (hq : q.Words) (hsafe : ¬ q.Safe) :
    Ok (q.code (some pgSize)) fresh fun r s' => ∃ p, r = some p ∧ s'.blockLen p < q.asked := by
  cases q with
  | malloc size =>
    have hpass : 2 ^ 32 < size + arenaSize := not_le.mp hsafe
    have hone := pageCntOf_one hq hpass
    have hbig : 1024 < size := by unfold arenaSize at hpass; omega
    refine (malloc_fresh hbig hone.ge).mono ?_
    rintro r s' ⟨rfl, h4, h8⟩
    refine ⟨_, rfl, ?_⟩
    rw [blockLen_big h4 h8, hone, asked]
    unfold pgSize arenaSize at *
    omega
  | calloc a b =>
    simp only [Safe, not_or] at hsafe
    obtain ⟨hpass, ha, hb, hrange⟩ := hsafe
    -- The product that passed the check is at least as large as both factors.
    have hbig : 1024 < a * b % 2 ^ 32 := by
      by_contra hsmall
      have hle : a * b ≤ 1024 * 1024 := Nat.mul_le_mul (by omega) (by omega)
      unfold arenaSize at hpass
      omega
    have hn : 1 ≤ pageCntOf (a * b % 2 ^ 32) := by
      unfold pageCntOf
      unfold pgSize arenaSize at *
      omega
    refine (calloc_fresh hbig hn (by omega)).mono ?_
    rintro r s' ⟨rfl, h4, h8⟩
    refine ⟨_, rfl, ?_⟩
    rw [blockLen_big h4 h8]
    simp only [asked]
    by_cases hwrap : a * b < 2 ^ 32
    · rw [Nat.mod_eq_of_lt hwrap, pageCntOf_one hwrap (not_le.mp hpass)]
      unfold pgSize arenaSize at *
      omega
    · have := pageCntOf_lt (a * b % 2 ^ 32)
      unfold pgSize
      omega

/-! ## The result -/

/-- A request is answered by a null pointer or by a block as long as was asked, in
every state that calls and stores reach, exactly if it is safe. -/
theorem allocation_spans_iff (q : Request) (hq : q.Words) :
    (∀ s live, Run Call.Fits s live → q.Honest s live) ↔ q.Safe := by
  refine ⟨fun h => ?_, fun hsafe s live hr => hr.inv.honest_of_safe hsafe⟩
  by_contra hsafe
  obtain ⟨r, s', hrun, p, hp, hshort⟩ := q.short_of_not_safe hq hsafe
  have hhonest := (h fresh [] (.init _) (some pgSize)).post hrun
  have := (hhonest.1 p hp).1
  omega

theorem allocation_spans_iff_page : (Request.malloc 4096).Words ∧
    ∀ s live, Run Call.Fits s live → (Request.malloc 4096).Honest s live :=
  have hwords : (Request.malloc 4096).Words := show 4096 < 2 ^ 32 by decide
  ⟨hwords, (allocation_spans_iff (.malloc 4096) hwords).mpr (show 4096 + arenaSize ≤ 2 ^ 32 by decide)⟩

/-- The sum of 0xfffffff8 and the header wraps to 4, and the product of 65537 by
itself to 0x20001. -/
theorem allocation_short :
    (∃ p s', malloc 0xfffffff8 (some 0x10000) fresh = .ok (some p, s') ∧ s'.blockLen p = 4084) ∧
    ∃ p s', calloc 65537 65537 (some 0x10000) fresh = .ok (some p, s') ∧ s'.blockLen p = 135156 := by
  have hmalloc : (Call.malloc 0xfffffff8 (some 0x10000)).gives (some 0x1000c) fresh
      (fun s' => s'.blockLen 0x1000c = 4084) = true := by decide
  have hcalloc : (Call.calloc 65537 65537 (some 0x10000)).gives (some 0x1000c) fresh
      (fun s' => s'.blockLen 0x1000c = 135156) = true := by decide
  obtain ⟨s₁, h₁, hlen₁⟩ := Call.step_of_gives hmalloc
  obtain ⟨s₂, h₂, hlen₂⟩ := Call.step_of_gives hcalloc
  exact ⟨⟨_, s₁, h₁, of_decide_eq_true hlen₁⟩, _, s₂, h₂, of_decide_eq_true hlen₂⟩

end Pintos.Malloc
