import Pintos.L2Code.Strings

/-!
# Copying overlapping blocks, and splitting a string

* `memmove_iff`: `memmove` copies the bytes as they were before the call and
  changes no other, but what it returns is `dst` only if it copies downwards.
* `strtok_tokens`: repeated calls of `strtok_r` return the maximal pieces of
  the string without delimiters, and nothing beyond its terminator is touched.
-/
namespace Pintos.Lib
open Pintos.Core Function List

/-! ## `memmove` -/

/-- The memory in which the `size` bytes at `dst` are those at `src` of `m`. -/
def moved (m : Memory) (dst src : Ptr) (size : Nat) : Memory := fun a =>
  if (a - dst).toNat < size then m (src + (a - dst)) else m a

theorem moved_zero (m : Memory) (dst src : Ptr) : moved m dst src 0 = m := by
  funext a
  rw [moved, if_neg (Nat.not_lt_zero _)]

theorem toNat_sub_one {x : Ptr} (h : x ≠ 0) : (x - 1).toNat = x.toNat - 1 := by bv_omega

theorem toNat_neg_one : ((-1 : Ptr)).toNat = 2 ^ 32 - 1 := rfl

theorem ptr_ofNat_succ (k : Nat) : BitVec.ofNat 32 (k + 1) = BitVec.ofNat 32 k + (1 : Ptr) := BitVec.ofNat_add _ _

theorem ptr_add_ofNat_zero (p : Ptr) : p + BitVec.ofNat 32 0 = p := BitVec.add_zero p

/-- Two offsets that together stay in the address space do not cancel. -/
theorem add_ne_zero_of_lt {x y : Ptr} (hx : 0 < x.toNat) (hlt : x.toNat + y.toNat < 2 ^ 32) : x + y ≠ 0 := by
  intro h
  have := congrArg BitVec.toNat h
  rw [BitVec.toNat_add, Nat.mod_eq_of_lt hlt] at this
  have h0 : (0 : Ptr).toNat = 0 := rfl
  omega

variable {m : Memory} {dst src : Ptr} {k : Nat} {size : BitVec 32}

/-- The first byte is copied first: the rest of the source lies above it. -/
theorem moved_up (hne : 0 < (src - dst).toNat)
    (hfits : (src - dst).toNat + (k + 1) ≤ 2 ^ 32) :
    moved (update m dst (m src)) (dst + 1) (src + 1) k = moved m dst src (k + 1) := by
  funext a
  obtain ⟨x, rfl⟩ : ∃ x, a = dst + x := ⟨a - dst, by ring⟩
  have hoff : dst + x - dst = x := by ring
  have hoff' : dst + x - (dst + 1) = x - 1 := by ring
  rw [moved, moved, hoff, hoff']
  by_cases hx : x = 0
  · subst hx
    have hlast : ¬((0 : Ptr) - 1).toNat < k := by
      rw [zero_sub, toNat_neg_one]
      omega
    have hfirst : (0 : Ptr).toNat < k + 1 := Nat.succ_pos k
    rw [if_neg hlast, if_pos hfirst, add_zero, update_self, add_zero]
  · have hpos : 0 < x.toNat := Nat.pos_of_ne_zero fun h0 => hx (BitVec.eq_of_toNat_eq h0)
    have hself : dst + x ≠ dst := fun h => hx (add_eq_left.mp h)
    have hsrc : src + 1 + (x - 1) = src + x := by ring
    rw [toNat_sub_one hx, hsrc]
    by_cases hin : x.toNat < k + 1
    · have habove : src + x ≠ dst := by
        intro h
        refine add_ne_zero_of_lt (y := x) hne (by omega) ?_
        rw [← h]
        ring
      rw [if_pos (by omega), if_pos hin, update_of_ne habove]
    · rw [if_neg (by omega), if_neg hin, update_of_ne hself]

/-- The last byte is copied first: the rest of the source lies below it. -/
theorem moved_down (hfits : (dst - src).toNat + (k + 1) ≤ 2 ^ 32) :
    moved (update m (dst + BitVec.ofNat 32 k) (m (src + BitVec.ofNat 32 k))) dst src k =
      moved m dst src (k + 1) := by
  funext a
  obtain ⟨x, rfl⟩ : ∃ x, a = dst + x := ⟨a - dst, by ring⟩
  have hoff : dst + x - dst = x := by ring
  have hk : (BitVec.ofNat 32 k).toNat = k := by
    rw [BitVec.toNat_ofNat, Nat.mod_eq_of_lt (by omega)]
  rw [moved, moved, hoff]
  by_cases hx : x = BitVec.ofNat 32 k
  · have hxk : x.toNat = k := by rw [hx, hk]
    rw [if_neg (by omega), if_pos (by omega), hx, update_self]
  · have hxk : x.toNat ≠ k := fun h => hx (BitVec.eq_of_toNat_eq (h.trans hk.symm))
    have hself : dst + x ≠ dst + BitVec.ofNat 32 k := fun h => hx (add_left_cancel h)
    by_cases hin : x.toNat < k + 1
    · have hbelow : src + x ≠ dst + BitVec.ofNat 32 k := by
        intro h
        have hsum : x = dst - src + BitVec.ofNat 32 k := by
          rw [add_comm (dst - src), ← add_sub_assoc, add_comm _ dst, ← h]
          ring
        have := congrArg BitVec.toNat hsum
        rw [BitVec.toNat_add, hk, Nat.mod_eq_of_lt (by omega)] at this
        omega
      rw [if_pos (by omega), if_pos hin, update_of_ne hbelow]
    · rw [if_neg (by omega), if_neg hin, update_of_ne hself]

theorem copyUp_eq (k : Nat) : ∀ (m : Memory) (dst src : Ptr), 0 < (src - dst).toNat → (src - dst).toNat + k ≤ 2 ^ 32 →
    copyUp k dst src m = .ok (dst + BitVec.ofNat 32 k, moved m dst src k) := by
  induction k with
  | zero =>
    intro m dst src hne hfits
    rw [moved_zero, ptr_add_ofNat_zero]
    rfl
  | succ k ih =>
    intro m dst src hne hfits
    have hgap : src + 1 - (dst + 1) = src - dst := by ring
    have hend : dst + 1 + BitVec.ofNat 32 k = dst + BitVec.ofNat 32 (k + 1) := by
      rw [ptr_ofNat_succ]
      ring
    have hrest := ih (update m dst (m src)) (dst + 1) (src + 1)
      (by rw [hgap]; exact hne) (by rw [hgap]; omega)
    rw [moved_up hne hfits, hend] at hrest
    exact hrest

theorem copyDown_eq (k : Nat) : ∀ (m : Memory) (dst src : Ptr), (dst - src).toNat + k ≤ 2 ^ 32 →
    copyDown k (dst + BitVec.ofNat 32 k) (src + BitVec.ofNat 32 k) m = .ok (dst, moved m dst src k) := by
  induction k with
  | zero =>
    intro m dst src hfits
    rw [moved_zero, ptr_add_ofNat_zero, ptr_add_ofNat_zero]
    rfl
  | succ k ih =>
    intro m dst src hfits
    have hpred : ∀ p : Ptr, p + BitVec.ofNat 32 (k + 1) - 1 = p + BitVec.ofNat 32 k := by
      intro p
      rw [ptr_ofNat_succ]
      ring
    have hrest := ih (update m (dst + BitVec.ofNat 32 k) (m (src + BitVec.ofNat 32 k))) dst src (by omega)
    rw [moved_down hfits] at hrest
    rw [copyDown]
    refine Eq.trans (bind_of_ok rfl) ?_
    rw [hpred, hpred]
    exact hrest

/-- What `memmove` should do. -/
def MemmoveRight (m : Memory) (dst src : Ptr) (size : BitVec 32) : Prop :=
  memmove dst src size m = .ok (dst, moved m dst src size.toNat)

theorem memmove_null (hsize : size ≠ 0) (hnull : dst = 0 ∨ src = 0) :
    memmove dst src size m = .error .assertion := by
  by_cases hd : dst ≠ 0 ∨ size = 0
  · have hs : ¬(src ≠ 0 ∨ size = 0) := by
      rintro (h | h)
      · rcases hnull with rfl | rfl
        · rcases hd with hd | hd
          · exact hd rfl
          · exact hsize hd
        · exact h rfl
      · exact hsize h
    rw [memmove, assert, if_pos hd, assert, if_neg hs]
    rfl
  · rw [memmove, assert, if_neg hd]
    rfl

theorem memmove_nonnull (hd : dst ≠ 0 ∨ size = 0)
    (hs : src ≠ 0 ∨ size = 0) : memmove dst src size m =
      (if dst < src then copyUp size.toNat dst src else copyDown size.toNat (dst + size) (src + size)) m := by
  rw [memmove, assert, if_pos hd, assert, if_pos hs]
  rfl

/-- Upwards: the bytes are right, but the result is the end of the block. -/
theorem memmove_up (hd : dst ≠ 0 ∨ size = 0) (hs : src ≠ 0 ∨ size = 0)
    (hsrc : src.toNat + size.toNat ≤ 2 ^ 32) (hlt : dst < src) :
    memmove dst src size m = .ok (dst + size, moved m dst src size.toNat) := by
  have hlt' : dst.toNat < src.toNat := BitVec.lt_def.mp hlt
  have hgap : (src - dst).toNat = src.toNat - dst.toNat := BitVec.toNat_sub_of_le (BitVec.le_of_lt hlt)
  rw [memmove_nonnull hd hs, if_pos hlt, copyUp_eq size.toNat m dst src (by omega) (by omega), BitVec.ofNat_toNat,
    BitVec.setWidth_eq]

theorem memmove_down (hd : dst ≠ 0 ∨ size = 0)
    (hs : src ≠ 0 ∨ size = 0) (hdst : dst.toNat + size.toNat ≤ 2 ^ 32) (hle : src ≤ dst) :
    memmove dst src size m = .ok (dst, moved m dst src size.toNat) := by
  have hgap : (dst - src).toNat = dst.toNat - src.toNat := BitVec.toNat_sub_of_le hle
  have hdown := copyDown_eq size.toNat m dst src (by omega)
  rw [BitVec.ofNat_toNat, BitVec.setWidth_eq] at hdown
  rw [memmove_nonnull hd hs, if_neg (BitVec.not_lt.mpr hle), hdown]

/-- The bytes are always right. The result is `dst` exactly if nothing is
copied or the source does not lie above the destination. -/
theorem memmove_iff (m : Memory) (dst src : Ptr) (size : BitVec 32) (hdst : dst.toNat + size.toNat ≤ 2 ^ 32)
    (hsrc : src.toNat + size.toNat ≤ 2 ^ 32) :
    (MemmoveRight m dst src size ↔ size = 0 ∨ (0 < src ∧ src ≤ dst)) ∧
      (size = 0 ∨ (dst ≠ 0 ∧ src ≠ 0) → ∃ r, memmove dst src size m = .ok (r, moved m dst src size.toNat)) := by
  by_cases hnull : size ≠ 0 ∧ (dst = 0 ∨ src = 0)
  · obtain ⟨hsize, hnull⟩ := hnull
    refine ⟨⟨?_, ?_⟩, ?_⟩
    · intro h
      rw [MemmoveRight, memmove_null hsize hnull] at h
      cases h
    · rintro (h | ⟨hpos, hle⟩)
      · exact absurd h hsize
      · have hpos' : (0 : Ptr).toNat < src.toNat := BitVec.lt_def.mp hpos
        have hle' : src.toNat ≤ dst.toNat := BitVec.le_def.mp hle
        rcases hnull with rfl | rfl
        · omega
        · omega
    · rintro (h | ⟨hd, hs⟩)
      · exact absurd h hsize
      · rcases hnull with h | h
        · exact absurd h hd
        · exact absurd h hs
  · have hd : dst ≠ 0 ∨ size = 0 := by tauto
    have hs : src ≠ 0 ∨ size = 0 := by tauto
    by_cases hlt : dst < src
    · have hup := memmove_up (m := m) hd hs hsrc hlt
      refine ⟨⟨?_, ?_⟩, fun _ => ⟨_, hup⟩⟩
      · intro h
        rw [MemmoveRight, hup] at h
        injection h with h
        injection h with h _
        exact .inl (add_eq_left.mp h)
      · rintro (rfl | ⟨-, hle⟩)
        · rw [MemmoveRight, hup, add_zero]
        · exact absurd hlt (BitVec.not_lt.mpr hle)
    · have hle : src ≤ dst := BitVec.not_lt.mp hlt
      have hdown := memmove_down (m := m) hd hs hdst hle
      refine ⟨⟨fun _ => ?_, fun _ => hdown⟩, fun _ => ⟨_, hdown⟩⟩
      rcases hs with hs | hs
      · have hpos : 0 < src.toNat := Nat.pos_of_ne_zero fun h0 => hs (BitVec.eq_of_toNat_eq h0)
        exact .inr ⟨BitVec.lt_def.mpr hpos, hle⟩
      · exact .inl hs

/-- Every byte is the low byte of its address. -/
def lowBytes : Memory := fun p => .ofNat p.toNat

/-- A block moved up by one byte. -/
theorem memmove_iff_apart : MemmoveRight lowBytes 0x1001 0x1000 16 :=
  (memmove_iff lowBytes 0x1001 0x1000 16 (by decide) (by decide)).1.mpr (.inr ⟨by decide, by decide⟩)

/-- One byte moved down from 0x1001 to 0x1000: the result is 0x1001. -/
theorem memmove_returns_end : (∃ m, memmove 0x1000 0x1001 1 lowBytes = .ok (0x1001, m) ∧ m 0x1000 = 1) ∧
    ¬MemmoveRight lowBytes 0x1000 0x1001 1 := by
  have hup : memmove 0x1000 0x1001 1 lowBytes = .ok (0x1001, moved lowBytes 0x1000 0x1001 1) :=
    memmove_up (.inl (by decide)) (.inl (by decide)) (by decide) (by decide)
  refine ⟨⟨_, hup, by decide⟩, fun h => ?_⟩
  rw [MemmoveRight, hup] at h
  injection h with h
  injection h with h _
  exact absurd h (by decide)

/-! ## `strtok_r` -/

section
variable {ds : List UInt8} (hd : ∀ c ∈ ds, c ≠ 0)

theorem strchr_spec (c : UInt8) : ∀ {ds : List UInt8}, (∀ c ∈ ds, c ≠ 0) → ∀ string,
    ∃ p, strchr c (ds ++ [0]) string = .ok p ∧ (p ≠ none ↔ c ∈ ds ∨ c = 0) := by
  intro ds
  induction ds with
  | nil =>
    intro _ string
    by_cases hc : 0 = c
    · exact ⟨some string, by rw [nil_append, strchr, if_pos hc], by simp [hc.symm]⟩
    · exact ⟨none, by rw [nil_append, strchr, if_neg hc, if_pos rfl], by simp [Ne.symm hc]⟩
  | cons b rest ih =>
    intro hd string
    by_cases hb : b = c
    · exact ⟨some string, by rw [cons_append, strchr, if_pos hb], by simp [hb]⟩
    · obtain ⟨p, hp, hiff⟩ := ih (fun c hc => hd c (mem_cons_of_mem b hc)) (string + 1)
      refine ⟨p, ?_, ?_⟩
      · rw [cons_append, strchr, if_neg hb, if_neg (hd b mem_cons_self), hp]
      · rw [hiff, mem_cons, or_iff_right (Ne.symm hb)]

include hd

theorem skipDelimiters_cons (b : UInt8) (rest : List UInt8) (s : Nat) :
    skipDelimiters (ds ++ [0]) (b :: rest) s =
      if b ∈ ds ∨ b = 0 then if b = 0 then .ok (s, false) else skipDelimiters (ds ++ [0]) rest (s + 1)
      else .ok (s, true) := by
  obtain ⟨p, hp, hiff⟩ := strchr_spec b hd 0
  rw [skipDelimiters, hp]
  change (if p ≠ none then _ else _) = _
  simp only [hiff]

theorem skipToken_cons (b : UInt8) (rest : List UInt8) (s : Nat) :
    skipToken (ds ++ [0]) (b :: rest) s =
      if b ∈ ds ∨ b = 0 then .ok s else skipToken (ds ++ [0]) rest (s + 1) := by
  obtain ⟨p, hp, hiff⟩ := strchr_spec b hd 0
  rw [skipToken, hp]
  change (if p = none then _ else _) = _
  by_cases hb : b ∈ ds ∨ b = 0
  · rw [if_neg (hiff.mpr hb), if_pos hb]
  · rw [if_pos (not_not.mp (mt hiff.mp hb)), if_neg hb]

/-- The loop stops at the first byte that is no delimiter, or at the
terminator. -/
theorem skipDelimiters_eq (rest : List UInt8) (hs : ∀ c ∈ rest, c ≠ 0) : ∀ s,
    skipDelimiters (ds ++ [0]) (rest ++ [0]) s =
      .ok (s + rest.findIdx (· ∉ ds), decide (rest.findIdx (· ∉ ds) < rest.length)) := by
  induction rest with
  | nil =>
    intro s
    rw [nil_append, skipDelimiters_cons hd, if_pos (.inr rfl), if_pos rfl]
    rfl
  | cons b rest ih =>
    intro s
    have hb : b ≠ 0 := hs b mem_cons_self
    rw [cons_append, skipDelimiters_cons hd, findIdx_cons]
    by_cases hin : b ∈ ds
    · rw [if_pos (.inl hin), if_neg hb, ih (fun c hc => hs c (mem_cons_of_mem b hc)),
        decide_eq_false (not_not.mpr hin)]
      simp only [cond_false, length_cons, Nat.add_lt_add_iff_right]
      congr 2
      omega
    · rw [if_neg (not_or.mpr ⟨hin, hb⟩), decide_eq_true hin]
      simp

/-- The loop stops at the first delimiter, or at the terminator. -/
theorem skipToken_eq (rest : List UInt8) (hs : ∀ c ∈ rest, c ≠ 0) : ∀ s,
    skipToken (ds ++ [0]) (rest ++ [0]) s = .ok (s + rest.findIdx (· ∈ ds)) := by
  induction rest with
  | nil =>
    intro s
    rw [nil_append, skipToken_cons hd, if_pos (.inr rfl)]
    rfl
  | cons b rest ih =>
    intro s
    have hb : b ≠ 0 := hs b mem_cons_self
    rw [cons_append, skipToken_cons hd, findIdx_cons]
    by_cases hin : b ∈ ds
    · rw [if_pos (.inl hin), decide_eq_true hin]
      rfl
    · rw [if_neg (not_or.mpr ⟨hin, hb⟩), ih (fun c hc => hs c (mem_cons_of_mem b hc)), decide_eq_false hin]
      simp only [cond_false]
      congr 1
      omega

end

/-- The bytes from `i` to `j` are a maximal piece without delimiters. -/
structure IsToken (ds str : List UInt8) (i j : Nat) : Prop where
  nonempty : i < j
  within : j ≤ str.length
  free : ∀ (q : Nat) (c : UInt8), i ≤ q → q < j → str[q]? = some c → c ∉ ds
  starts : ∀ (q : Nat) (c : UInt8), q + 1 = i → str[q]? = some c → c ∈ ds
  ends : ∀ c : UInt8, str[j]? = some c → c ∈ ds

/-- The string after the calls that returned the tokens `toks`. -/
structure Tokenised (ds str : List UInt8) (toks : List (Nat × Nat)) (b : List UInt8) : Prop where
  length : b.length = str.length + 1
  /-- every token is terminated in place -/
  ends : ∀ t ∈ toks, b[t.2]? = some 0
  /-- bytes that are no delimiters stay, so those of tokens do -/
  kept : ∀ (q : Nat) (c : UInt8), str[q]? = some c → c ∉ ds → b[q]? = some c
  /-- bytes after which no token was cut stay -/
  other : ∀ q : Nat, (∀ t ∈ toks, t.2 ≠ q) → b[q]? = (str ++ [0])[q]?

/-- `k` calls, the first with `s` and the others with `NULL`. -/
def strtokCalls (delimiters : List UInt8) : Nat → Option Nat → Option Nat → Code (List UInt8) Stop (List (Option Nat))
  | 0, _, _ => pure []
  | k + 1, s, savePtr => do
    let (token, savePtr) ← strtokR s delimiters savePtr
    let rest ← strtokCalls delimiters k none savePtr
    pure (token :: rest)

/-! ### One call -/

theorem of_lt_findIdx {P : UInt8 → Bool} {l : List UInt8} {q : Nat} {c : UInt8} (hq : q < l.findIdx P)
    (hc : l[q]? = some c) : P c = false := by
  obtain ⟨hlt, rfl⟩ := List.getElem?_eq_some_iff.mp hc
  exact List.not_of_lt_findIdx hq

theorem of_findIdx {P : UInt8 → Bool} {l : List UInt8} {c : UInt8} (hc : l[l.findIdx P]? = some c) : P c = true := by
  obtain ⟨hlt, rfl⟩ := List.getElem?_eq_some_iff.mp hc
  exact List.findIdx_getElem

/-- The first byte from `p` on that is no delimiter. -/
def tokenStart (ds str : List UInt8) (p : Nat) : Nat := p + (str.drop p).findIdx (· ∉ ds)

/-- The first delimiter from `i` on. -/
def tokenEnd (ds str : List UInt8) (i : Nat) : Nat := i + (str.drop i).findIdx (· ∈ ds)

section
variable {ds str : List UInt8} {p i : Nat}

theorem tokenStart_le (hp : p ≤ str.length) : tokenStart ds str p ≤ str.length := by
  have : (str.drop p).findIdx (· ∉ ds) ≤ (str.drop p).length := findIdx_le_length
  rw [length_drop] at this
  unfold tokenStart
  omega

variable (ds) in
theorem tokenEnd_le (hi : i ≤ str.length) : tokenEnd ds str i ≤ str.length := by
  have : (str.drop i).findIdx (· ∈ ds) ≤ (str.drop i).length := findIdx_le_length
  rw [length_drop] at this
  unfold tokenEnd
  omega

variable {c : UInt8}

theorem mem_of_lt_tokenStart {q : Nat} (hp : p ≤ q) (hq : q < tokenStart ds str p)
    (hc : str[q]? = some c) : c ∈ ds := by
  unfold tokenStart at hq
  have h := of_lt_findIdx (q := q - p) (c := c) (show q - p < (str.drop p).findIdx (· ∉ ds) by omega)
    (by rw [List.getElem?_drop, show p + (q - p) = q by omega]; exact hc)
  exact not_not.mp (of_decide_eq_false h)

theorem not_mem_tokenStart (hc : str[tokenStart ds str p]? = some c) : c ∉ ds := by
  have h := of_findIdx (P := fun c => decide (c ∉ ds)) (l := str.drop p) (c := c)
    (by rw [List.getElem?_drop]; exact hc)
  exact of_decide_eq_true h

theorem not_mem_of_lt_tokenEnd {q : Nat} (hi : i ≤ q) (hq : q < tokenEnd ds str i)
    (hc : str[q]? = some c) : c ∉ ds := by
  unfold tokenEnd at hq
  have h := of_lt_findIdx (q := q - i) (c := c) (show q - i < (str.drop i).findIdx (· ∈ ds) by omega)
    (by rw [List.getElem?_drop, show i + (q - i) = q by omega]; exact hc)
  exact of_decide_eq_false h

theorem mem_tokenEnd (hc : str[tokenEnd ds str i]? = some c) : c ∈ ds := by
  have h := of_findIdx (P := fun c => decide (c ∈ ds)) (l := str.drop i) (c := c)
    (by rw [List.getElem?_drop]; exact hc)
  exact of_decide_eq_true h

theorem lt_tokenEnd (hi : tokenStart ds str p < str.length) :
    tokenStart ds str p < tokenEnd ds str (tokenStart ds str p) := by
  by_contra hno
  have heq : tokenEnd ds str (tokenStart ds str p) = tokenStart ds str p := by
    unfold tokenEnd at hno ⊢
    omega
  obtain ⟨c, hc⟩ : ∃ c, str[tokenStart ds str p]? = some c := ⟨_, List.getElem?_eq_getElem hi⟩
  exact not_mem_tokenStart hc (mem_tokenEnd (i := tokenStart ds str p) (by rw [heq]; exact hc))

/-- The tokens from `p` on: the first one, and those after it. -/
theorem isToken_iff (hi : tokenStart ds str p < str.length)
    (hbound : ∀ (q : Nat) (c : UInt8), q + 1 = p → str[q]? = some c → c ∈ ds) (a z : Nat) :
    p ≤ a ∧ IsToken ds str a z ↔
      (a = tokenStart ds str p ∧ z = tokenEnd ds str (tokenStart ds str p)) ∨
        tokenEnd ds str (tokenStart ds str p) < a ∧ IsToken ds str a z := by
  have hle : tokenEnd ds str (tokenStart ds str p) ≤ str.length := tokenEnd_le ds (Nat.le_of_lt hi)
  have hlt := lt_tokenEnd hi
  have hget : ∀ q, q < str.length → ∃ c, str[q]? = some c := fun q hq => ⟨_, List.getElem?_eq_getElem hq⟩
  refine ⟨?_, ?_⟩
  · rintro ⟨hp, ht⟩
    obtain ⟨hne, hin, hfree, hstarts, hends⟩ := ht
    have hge : tokenStart ds str p ≤ a := by
      by_contra hno
      obtain ⟨c, hc⟩ := hget a (by omega)
      exact hfree a c (Nat.le_refl a) hne hc (mem_of_lt_tokenStart hp (by omega) hc)
    rcases Nat.lt_trichotomy a (tokenEnd ds str (tokenStart ds str p)) with h | h | h
    · have ha : a = tokenStart ds str p := by
        by_contra hno
        obtain ⟨c, hc⟩ := hget (a - 1) (by omega)
        exact not_mem_of_lt_tokenEnd (i := tokenStart ds str p) (by omega) (by omega) hc
          (hstarts (a - 1) c (by omega) hc)
      refine .inl ⟨ha, Nat.le_antisymm ?_ ?_⟩
      · by_contra hno
        obtain ⟨c, hc⟩ := hget _ (show tokenEnd ds str (tokenStart ds str p) < str.length by omega)
        exact hfree _ c (by omega) (by omega) hc (mem_tokenEnd hc)
      · by_contra hno
        obtain ⟨c, hc⟩ := hget z (by omega)
        exact not_mem_of_lt_tokenEnd (i := tokenStart ds str p) (by omega) (by omega) hc (hends c hc)
    · -- a token does not start at a delimiter
      obtain ⟨c, hc⟩ := hget a (by omega)
      exact absurd (mem_tokenEnd (i := tokenStart ds str p) (by rw [← h]; exact hc))
        (hfree a c (Nat.le_refl a) hne hc)
    · exact .inr ⟨h, hne, hin, hfree, hstarts, hends⟩
  · have hp : p ≤ tokenStart ds str p := Nat.le_add_right _ _
    rintro (⟨rfl, rfl⟩ | ⟨h, ht⟩)
    · refine ⟨hp, hlt, hle, fun q c h1 h2 hc => not_mem_of_lt_tokenEnd h1 h2 hc, ?_, fun c hc => mem_tokenEnd hc⟩
      intro q c hq hc
      by_cases hqp : p ≤ q
      · exact mem_of_lt_tokenStart hqp (by omega) hc
      · exact hbound q c (by omega) hc
    · exact ⟨by omega, ht⟩

end

section
variable {ds str b : List UInt8} {p : Nat}

theorem reading_eq {α : Type} {f : List UInt8 → Except Stop α} {a : α} (h : f b = .ok a) :
    reading f b = .ok (a, b) := by
  rw [reading, h]

theorem strtokR_eq (delimiters : List UInt8) (p : Nat) : strtokR none delimiters (some p) = (do
    let (token, found) ← reading fun b => skipDelimiters delimiters (b.drop p) p
    if found = false then pure (none, some token)
    else do
      let s ← reading fun b => skipToken delimiters (b.drop token) token
      let c ← load s
      if c ≠ 0 then do
        store s 0
        pure (some token, some (s + 1))
      else pure (some token, some s)) := rfl

theorem drop_of_le {q : Nat} (hb : b.drop p = str.drop p ++ [0]) (hq : p ≤ q) (hlen : q ≤ str.length) :
    b.drop q = str.drop q ++ [0] := by
  obtain ⟨k, rfl⟩ := Nat.exists_eq_add_of_le hq
  rw [← drop_drop, hb, drop_append_of_le_length, drop_drop]
  rw [length_drop]
  omega

theorem length_of_drop (hb : b.drop p = str.drop p ++ [0]) (hp : p ≤ str.length) : b.length = str.length + 1 := by
  have hlen := congrArg length hb
  simp only [length_drop, length_append, length_singleton] at hlen
  omega

variable (hs : ∀ c ∈ str, c ≠ 0) (hd : ∀ c ∈ ds, c ≠ 0) (hb : b.drop p = str.drop p ++ [0]) (hp : p ≤ str.length)
include hs hd hb hp

theorem strtokR_none (hi : tokenStart ds str p = str.length) :
    strtokR none (ds ++ [0]) (some p) b = .ok ((none, some str.length), b) := by
  have hskip := skipDelimiters_eq hd (str.drop p) (fun c hc => hs c (mem_of_mem_drop hc)) p
  have hdone : ¬(str.drop p).findIdx (· ∉ ds) < (str.drop p).length := by
    rw [length_drop]
    unfold tokenStart at hi
    omega
  rw [← hb, decide_eq_false hdone] at hskip
  rw [strtokR_eq, bind_of_ok (reading_eq hskip)]
  change (if false = false then _ else _ : Code _ _ _) b = _
  rw [if_pos rfl]
  change Except.ok _ = _
  rw [← hi]
  rfl

/-- The byte at `j` is the terminator, or is made one. -/
theorem strtokR_some (hi : tokenStart ds str p < str.length) :
    ∃ next, strtokR none (ds ++ [0]) (some p) b =
        .ok ((some (tokenStart ds str p), some next), b.set (tokenEnd ds str (tokenStart ds str p)) 0) ∧
      next = min (tokenEnd ds str (tokenStart ds str p) + 1) str.length := by
  have hpi : p ≤ tokenStart ds str p := Nat.le_add_right _ _
  have hlen := length_of_drop hb hp
  have hdrop := drop_of_le hb hpi (Nat.le_of_lt hi)
  have hskip := skipDelimiters_eq hd (str.drop p) (fun c hc => hs c (mem_of_mem_drop hc)) p
  have hmore : (str.drop p).findIdx (· ∉ ds) < (str.drop p).length := by
    rw [length_drop]
    unfold tokenStart at hi
    omega
  have htoken := skipToken_eq hd (str.drop (tokenStart ds str p)) (fun c hc => hs c (mem_of_mem_drop hc))
    (tokenStart ds str p)
  rw [← hdrop] at htoken
  rw [← hb, decide_eq_true hmore] at hskip
  change skipDelimiters _ _ _ = .ok (tokenStart ds str p, true) at hskip
  change skipToken _ _ _ = .ok (tokenEnd ds str (tokenStart ds str p)) at htoken
  have hle := tokenEnd_le ds (Nat.le_of_lt hi)
  have hij := lt_tokenEnd hi
  generalize tokenStart ds str p = i at *
  generalize tokenEnd ds str i = j at *
  have hget : b[j]? = (str ++ [0])[j]? := by
    have h1 : (b.drop p)[j - p]? = (str.drop p ++ [0])[j - p]? := by rw [hb]
    rw [← drop_append_of_le_length hp, List.getElem?_drop, List.getElem?_drop, show p + (j - p) = j by omega] at h1
    exact h1
  obtain ⟨c, hc⟩ : ∃ c, b[j]? = some c := ⟨_, List.getElem?_eq_getElem (by omega)⟩
  have hload : load j b = .ok (c, b) := reading_eq (by rw [hc])
  rw [strtokR_eq, bind_of_ok (reading_eq hskip)]
  change ∃ next, (if true = false then _ else _ : Code _ _ _) b = _ ∧ _
  rw [if_neg (by decide), bind_of_ok (reading_eq htoken), bind_of_ok hload]
  by_cases hj : j < str.length
  · have hc0 : c ≠ 0 := by
      rw [hget, List.getElem?_append_left hj] at hc
      exact hs c (mem_of_getElem? hc)
    refine ⟨j + 1, ?_, by omega⟩
    rw [if_pos hc0]
    have hstore : store j 0 b = .ok ((), b.set j 0) := if_pos (by omega)
    rw [bind_of_ok hstore]
    rfl
  · obtain rfl : j = str.length := by omega
    have hc0 : c = 0 := by
      rw [hget, List.getElem?_append_right (Nat.le_refl _), Nat.sub_self] at hc
      exact (Option.some.inj hc).symm
    refine ⟨str.length, ?_, by omega⟩
    rw [if_neg (not_not.mpr hc0)]
    have hset : b.set str.length 0 = b := by
      rw [← hc0]
      obtain ⟨hlt, rfl⟩ := List.getElem?_eq_some_iff.mp hc
      exact List.set_getElem_self hlt
    rw [hset]
    rfl

end

/-! ### Repeated calls -/

/-- The string with a terminator after each token. -/
def cut (b : List UInt8) (toks : List (Nat × Nat)) : List UInt8 := toks.foldl (fun b t => b.set t.2 0) b

theorem strtokCalls_succ {delimiters b b' b'' : List UInt8} {s savePtr token next : Option Nat}
    {rest : List (Option Nat)} (h : strtokR s delimiters savePtr b = .ok ((token, next), b'))
    (hrest : strtokCalls delimiters k none next b' = .ok (rest, b'')) :
    strtokCalls delimiters (k + 1) s savePtr b = .ok (token :: rest, b'') := by
  rw [strtokCalls, bind_of_ok h]
  exact bind_of_ok hrest

theorem range_map_succ {α : Type} (f : Nat → α) (k : Nat) :
    (range (k + 1)).map f = f 0 :: (range k).map fun n => f (n + 1) := by
  rw [range_succ_eq_map, map_cons, map_map]
  rfl

section
variable {ds str : List UInt8} (hs : ∀ c ∈ str, c ≠ 0) (hd : ∀ c ∈ ds, c ≠ 0)
include hs hd

/-- Once no token is left every call returns `NULL`. -/
theorem strtokCalls_done (k : Nat) : ∀ {p : Nat} {b : List UInt8}, p ≤ str.length → b.drop p = str.drop p ++ [0] →
    tokenStart ds str p = str.length →
    strtokCalls (ds ++ [0]) k none (some p) b = .ok ((range k).map fun _ => none, b) := by
  induction k with
  | zero =>
    intro p b hp hb hi
    rfl
  | succ k ih =>
    intro p b hp hb hi
    have hend : tokenStart ds str str.length = str.length := by
      rw [tokenStart, drop_length]
      rfl
    rw [range_map_succ]
    exact strtokCalls_succ (strtokR_none hs hd hb hp hi)
      (ih (Nat.le_refl _) (drop_of_le hb hp (Nat.le_refl _)) hend)

/-- The calls from the position `p` on. The induction is on what is left of
the string. -/
theorem strtokCalls_from (p : Nat) (hp : p ≤ str.length)
    (hbound : p < str.length → ∀ (q : Nat) (c : UInt8), q + 1 = p → str[q]? = some c → c ∈ ds) :
    ∃ toks : List (Nat × Nat), (∀ i j, (i, j) ∈ toks ↔ p ≤ i ∧ IsToken ds str i j) ∧
      toks.Pairwise (fun t u => t.2 < u.1) ∧
      ∀ b : List UInt8, b.drop p = str.drop p ++ [0] → ∀ k,
        strtokCalls (ds ++ [0]) k none (some p) b =
          .ok ((range k).map fun n => toks[n]?.map Prod.fst, cut b (toks.take k)) := by
  induction hn : str.length - p using Nat.strong_induction_on generalizing p with
  | _ n ih =>
    have hpi : p ≤ tokenStart ds str p := Nat.le_add_right _ _
    by_cases hi : tokenStart ds str p < str.length
    · have htoken := isToken_iff hi (hbound (by omega))
      have hij := lt_tokenEnd hi
      have hj := tokenEnd_le ds (Nat.le_of_lt hi)
      have hcall : ∀ b : List UInt8, b.drop p = str.drop p ++ [0] → _ := fun b hb => strtokR_some hs hd hb hp hi
      have hends : ∀ c, str[tokenEnd ds str (tokenStart ds str p)]? = some c → c ∈ ds := fun c hc => mem_tokenEnd hc
      generalize tokenStart ds str p = i at *
      generalize tokenEnd ds str i = j at *
      obtain ⟨toks, hmem, hpair, hrun⟩ := ih (str.length - min (j + 1) str.length) (by omega) (min (j + 1) str.length)
        (by omega) (fun hlt q c hq hc => hends c (by rw [show j = q by omega]; exact hc)) rfl
      -- a token starts after `j` if and only if it starts at the next position or later
      have hnext : ∀ a z, IsToken ds str a z → (min (j + 1) str.length ≤ a ↔ j < a) := by
        intro a z ht
        have := ht.nonempty
        have := ht.within
        omega
      refine ⟨(i, j) :: toks, ?_, ?_, ?_⟩
      · intro a z
        rw [mem_cons, Prod.mk.injEq, hmem, htoken]
        refine or_congr_right (and_congr_left fun ht => hnext a z ht)
      · refine pairwise_cons.mpr ⟨?_, hpair⟩
        intro t ht
        obtain ⟨hge, ht'⟩ := (hmem t.1 t.2).mp ht
        exact (hnext _ _ ht').mp hge
      · intro b hb k
        cases k with
        | zero => rfl
        | succ k =>
          obtain ⟨next, hstep, rfl⟩ := hcall b hb
          have hb' : (b.set j 0).drop (min (j + 1) str.length) = str.drop (min (j + 1) str.length) ++ [0] := by
            have hrest := drop_of_le hb (show p ≤ min (j + 1) str.length by omega) (Nat.min_le_right _ _)
            rw [drop_set, hrest]
            by_cases hlt : j < min (j + 1) str.length
            · rw [if_pos hlt]
            · have hmin : min (j + 1) str.length = str.length := by omega
              rw [if_neg hlt, hmin, drop_length, show j - str.length = 0 by omega]
              rfl
          rw [range_map_succ]
          exact strtokCalls_succ hstep (hrun _ hb' k)
    · have hend : tokenStart ds str p = str.length := Nat.le_antisymm (tokenStart_le hp) (by omega)
      refine ⟨[], ?_, Pairwise.nil, ?_⟩
      · intro a z
        refine ⟨fun h => absurd h not_mem_nil, ?_⟩
        rintro ⟨hpa, hne, hin, hfree, -, -⟩
        obtain ⟨c, hc⟩ : ∃ c, str[a]? = some c := ⟨_, List.getElem?_eq_getElem (by omega)⟩
        exact absurd (mem_of_lt_tokenStart hpa (by omega) hc) (hfree a c (Nat.le_refl a) hne hc)
      · intro b hb k
        rw [take_nil]
        exact strtokCalls_done hs hd k hp hb hend

end

theorem getElem?_cut (toks : List (Nat × Nat)) : ∀ (b : List UInt8) (q : Nat),
    (cut b toks)[q]? = if q < b.length ∧ ∃ t ∈ toks, t.2 = q then some 0 else b[q]? := by
  induction toks with
  | nil =>
    intro b q
    rw [if_neg (by simp)]
    rfl
  | cons t toks ih =>
    intro b q
    change (cut (b.set t.2 0) toks)[q]? = _
    have hex : (∃ u ∈ t :: toks, u.2 = q) ↔ t.2 = q ∨ ∃ u ∈ toks, u.2 = q := exists_mem_cons_iff _ _ _
    rw [ih, length_set, List.getElem?_set]
    simp only [hex]
    by_cases ht : t.2 = q
    · by_cases hq : q < b.length
      · simp [hq, ht]
      · simp [hq, ht]
    · simp only [if_neg ht, or_iff_right ht]

theorem length_cut (toks : List (Nat × Nat)) : ∀ b : List UInt8, (cut b toks).length = b.length := by
  induction toks with
  | nil => exact fun b => rfl
  | cons t toks ih => exact fun b => (ih _).trans length_set

/-- The bytes after the calls: tokens end at delimiters, and only there bytes
change. -/
theorem tokenised_cut {ds str : List UInt8} {toks : List (Nat × Nat)} (h : ∀ t ∈ toks, IsToken ds str t.1 t.2) :
    Tokenised ds str toks (cut (str ++ [0]) toks) := by
  have hlen : (str ++ [0]).length = str.length + 1 := length_append
  refine ⟨by rw [length_cut, hlen], ?_, ?_, ?_⟩
  · intro t ht
    have := (h t ht).within
    rw [getElem?_cut, if_pos ⟨by omega, t, ht, rfl⟩]
  · intro q c hc hno
    have hq : q < str.length := (List.getElem?_eq_some_iff.mp hc).1
    have hnot : ¬∃ t ∈ toks, t.2 = q := by
      rintro ⟨t, ht, rfl⟩
      exact hno ((h t ht).ends c hc)
    rw [getElem?_cut, if_neg (fun hboth => hnot hboth.2), List.getElem?_append_left hq, hc]
  · intro q hq
    have hnot : ¬∃ t ∈ toks, t.2 = q := by
      rintro ⟨t, ht, heq⟩
      exact hq t ht heq
    rw [getElem?_cut, if_neg (fun hboth => hnot hboth.2)]

/-- The calls return the maximal pieces without delimiters, in order, and then
`NULL` for ever. No call reads or writes beyond the string's terminator, and
only delimiters are overwritten. -/
theorem strtok_tokens (str ds : List UInt8) (hs : ∀ c ∈ str, c ≠ 0) (hd : ∀ c ∈ ds, c ≠ 0) (savePtr : Option Nat) :
    ∃ toks : List (Nat × Nat), (∀ i j, (i, j) ∈ toks ↔ IsToken ds str i j) ∧
      toks.Pairwise (fun t u => t.2 < u.1) ∧
      ∀ k, ∃ b, strtokCalls (ds ++ [0]) k (some 0) savePtr (str ++ [0]) =
          .ok ((range k).map fun n => toks[n]?.map Prod.fst, b) ∧ Tokenised ds str (toks.take k) b := by
  obtain ⟨toks, hmem, hpair, hrun⟩ := strtokCalls_from hs hd 0 (Nat.zero_le _) (fun _ q c hq => absurd hq (by omega))
  have hmem' : ∀ i j, (i, j) ∈ toks ↔ IsToken ds str i j := by
    intro i j
    rw [hmem]
    exact and_iff_right (Nat.zero_le i)
  refine ⟨toks, hmem', hpair, fun k => ⟨cut (str ++ [0]) (toks.take k), ?_, ?_⟩⟩
  · have hfrom := hrun (str ++ [0]) rfl k
    cases k with
    | zero => rfl
    | succ k => exact hfrom
  · exact tokenised_cut fun t ht => (hmem' t.1 t.2).mp (mem_of_mem_take ht)

/-- The string `" ab  c"` with spaces as delimiters. -/
theorem strtok_tokens_spaces : ∃ toks : List (Nat × Nat),
    (∀ i j, (i, j) ∈ toks ↔ IsToken [0x20] [0x20, 0x61, 0x62, 0x20, 0x20, 0x63] i j) ∧
      strtokCalls [0x20, 0] 3 (some 0) none [0x20, 0x61, 0x62, 0x20, 0x20, 0x63, 0] =
        .ok ([some 1, some 5, none], [0x20, 0x61, 0x62, 0, 0x20, 0x63, 0]) := by
  obtain ⟨toks, hmem, -, -⟩ := strtok_tokens [0x20, 0x61, 0x62, 0x20, 0x20, 0x63] [0x20] (by simp) (by simp) none
  exact ⟨toks, hmem, by decide⟩

end Pintos.Lib
