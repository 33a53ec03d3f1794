import Pintos.L2Code.Ustar
import Pintos.L3Proof.Printf

/-!
# Headers read back

The octal fields are the digits of a number with zeros in front, and
`parse_octal_field` reads the number back (`parseOctal_digits`). A header is
read field by field; `fillHeader_fields` says what is in the fields that the
parser looks at.
-/
namespace Pintos.Ustar

open Pintos.Core Pintos.Stdio Function List
open Pintos.Printf hiding St

/-! ## Octal fields -/

def digitChar (d : Nat) : UInt8 := UInt8.ofNat (0x30 + d)

variable {w v n : Nat}

/-- The digits, filled up with zeros to the width. -/
def octalDigits (w v : Nat) : List Nat := (Nat.digitsAppend 8 w v).reverse

theorem octalDigits_length (hv : v < 8 ^ w) : (octalDigits w v).length = w := by
  unfold octalDigits
  rw [length_reverse, Nat.length_digitsAppend (by decide) w hv]

/-- A field of `w` octal digits and the terminator. -/
def octalField (w v : Nat) : List UInt8 := (octalDigits w v).map digitChar ++ [0]

theorem octalField_length (hv : v < 8 ^ w) : (octalField w v).length = w + 1 := by
  rw [octalField, length_append, length_map, octalDigits_length hv]
  rfl

/-- The conversion `%0<w>o`. -/
def octalConversion (w : Nat) : Conversion := ⟨{ noFlags with zero := true }, w, -1, .int⟩

theorem lowDigits_octal (v : Nat) : lowDigits baseO v = (Nat.digits 8 v).map digitChar := by
  have hdigit : ∀ d < 8, baseO.digits.getD d 0 = digitChar d := by decide
  exact map_congr_left fun d hd => hdigit d (Nat.digits_lt_base (by decide) hd)

theorem integerText_octal (hw : 1 ≤ w) (hw' : w < 2 ^ 31) (hv : v < 8 ^ w) :
    integerText v false false baseO (octalConversion w) = (octalDigits w v).map digitChar := by
  have hlen : (Nat.digits 8 v).length ≤ w := (Nat.digits_length_le_iff (by decide) v).mpr hv
  have hpad : (int32 (w - (max 1 (Nat.digits 8 v).length : Nat))).toNat = w - max 1 (Nat.digits 8 v).length := by
    rw [int32, Int.bmod_eq_of_le (by omega) (by omega)]
    omega
  have hzeros : zeroCnt baseO false (-1) (Nat.digits 8 v).length = 1 - (Nat.digits 8 v).length := by
    simp [zeroCnt]
  have hnum : (numeral baseO (octalConversion w).flags (octalConversion w).precision v) =
      replicate (1 - (Nat.digits 8 v).length) 0x30 ++ ((Nat.digits 8 v).map digitChar).reverse := by
    simp only [numeral, octalConversion, noFlags, marks_false, lowDigits_octal, length_map, hzeros]
  have hcnt : 1 - (Nat.digits 8 v).length + (Nat.digits 8 v).length = max 1 (Nat.digits 8 v).length := by omega
  have hadd : w - (Nat.digits 8 v).length =
      w - max 1 (Nat.digits 8 v).length + (1 - (Nat.digits 8 v).length) := by omega
  rw [integerText, hnum]
  simp only [octalConversion, noFlags, hexMark, signChar, length_append, length_replicate, length_reverse, length_map,
    hcnt, Bool.false_eq_true, false_and, if_false, if_true, or_true, length_nil, Nat.cast_zero, sub_zero, nil_append,
    append_nil, hpad]
  rw [octalDigits, Nat.digitsAppend, reverse_append, reverse_replicate, map_append, map_replicate, map_reverse, hadd,
    replicate_add, append_assoc]
  rfl

/-- `snprintf` with the format `%0<w>o`. -/
theorem snprintf_octal {format : List UInt8} {x : BitVec 32}
    (hf : vprintf format ⟨[.word x], []⟩ =
      .ok ((), ⟨[], integerText x.toNat false false baseO (octalConversion w)⟩))
    (hw : 1 ≤ w) (hw' : w < 2 ^ 31) (hx : x.toNat < 8 ^ w) :
    snprintf (w + 1) format [.word x] = octalField w x.toNat := by
  simp only [snprintf, hf, if_neg (Nat.succ_ne_zero w), integerText_octal hw hw' hx, Nat.add_sub_cancel]
  rw [take_of_length_le, octalField]
  rw [length_map, octalDigits_length hx]

theorem snprintf_octal7 {x : BitVec 32} (hx : x.toNat < 8 ^ 7) :
    snprintf 8 (ascii "%07o") [.word x] = octalField 7 x.toNat :=
  snprintf_octal (bind_of_ok (formatUnsigned_eq isBase_O (c := octalConversion 7) (a := .word x) rfl [] []))
    (by decide) (by decide) hx

theorem snprintf_octal11 (x : BitVec 32) : snprintf 12 (ascii "%011o") [.word x] = octalField 11 x.toNat :=
  snprintf_octal (bind_of_ok (formatUnsigned_eq isBase_O (c := octalConversion 11) (a := .word x) rfl [] []))
    (by decide) (by decide) (x.isLt.trans (by decide))

theorem digitChar_bounds : ∀ d < 8, 0x30 ≤ digitChar d ∧ digitChar d ≤ 0x37 ∧ (digitChar d).toNat - 0x30 = d := by
  decide

/-- The value only grows while digits are read. -/
theorem le_foldl_digits (l : List Nat) (a : Nat) : a ≤ l.foldl (fun a d => d + a * 8) a := by
  induction l generalizing a with
  | nil => exact Nat.le_refl a
  | cons d l ih =>
    have hnext := ih (d + a * 8)
    rw [foldl_cons]
    omega

theorem parseOctal_digits {l : List Nat} {rest : List UInt8} {ofs a : Nat} (hl : ∀ d ∈ l, d < 8)
    (hmax : l.foldl (fun a d => d + a * 8) a ≤ ulongMax) (hofs : 0 < ofs + l.length) :
    parseOctal (l.map digitChar ++ 0 :: rest) ofs a = some (l.foldl (fun a d => d + a * 8) a) := by
  induction l generalizing ofs a with
  | nil =>
    have hpos : ofs > 0 := by simpa using hofs
    simp [parseOctal, hpos]
  | cons d l ih =>
    obtain ⟨hlo, hhi, hval⟩ := digitChar_bounds d (hl d mem_cons_self)
    rw [foldl_cons] at hmax ⊢
    have hle : ¬ a > ulongMax / 8 := by
      have := le_foldl_digits l (d + a * 8)
      unfold ulongMax at hmax ⊢
      omega
    rw [map_cons, cons_append, parseOctal, if_pos ⟨hlo, hhi⟩, if_neg hle, hval]
    exact ih (fun x hx => hl x (mem_cons_of_mem _ hx)) hmax (by omega)

theorem octalDigits_lt {d : Nat} (hd : d ∈ octalDigits w v) : d < 8 :=
  Nat.lt_of_mem_digitsAppend (by decide) w d (mem_reverse.mp hd)

theorem foldl_octalDigits : (octalDigits w v).foldl (fun a d => d + a * 8) 0 = v := by
  unfold octalDigits Nat.digitsAppend
  rw [foldl_reverse]
  have h := Nat.ofDigits_append_replicate_zero (b := 8) (l := Nat.digits 8 v) (k := w - (Nat.digits 8 v).length)
  rw [Nat.ofDigits_digits, Nat.ofDigits_eq_foldr] at h
  simpa [Nat.mul_comm] using h

theorem parseOctal_octalField (hw : 1 ≤ w) (hv : v < 8 ^ w) (hmax : v ≤ ulongMax) :
    parseOctal (octalField w v) 0 0 = some v := by
  rw [octalField, parseOctal_digits fun d hd => octalDigits_lt hd]
  · rw [foldl_octalDigits]
  · rw [foldl_octalDigits]
    exact hmax
  · rw [octalDigits_length hv]
    omega

/-! ## Names -/

variable {s : List UInt8}

theorem antisocial_mem (h : antisocial s = true) : slash ∈ s := by
  unfold antisocial at h
  simp only [Bool.or_eq_true, beq_iff_eq] at h
  rcases h with (h | h) | h
  · exact mem_of_mem_take (show slash ∈ s.take 1 by rw [h]; decide)
  · exact mem_of_mem_take (show slash ∈ s.take 2 by rw [h]; decide)
  · exact mem_of_mem_take (show slash ∈ s.take 3 by rw [h]; decide)

theorem dropWhile_tail_length (h : slash ∈ s) : (s.dropWhile (· ≠ slash)).tail.length < s.length := by
  have hle := (dropWhile_suffix (fun c => decide (c ≠ slash)) (l := s)).length_le
  have hpos : 0 < s.length := length_pos_of_mem h
  rw [length_tail]
  omega

/-- The loop ends. -/
theorem stripLoop_social (h : s.length ≤ fuel) : antisocial (stripLoop fuel s) = false := by
  induction fuel generalizing s with
  | zero =>
    obtain rfl : s = [] := length_eq_zero_iff.mp (Nat.le_zero.mp h)
    rfl
  | succ fuel ih =>
    unfold stripLoop
    split
    next ha =>
      have hlt := dropWhile_tail_length (antisocial_mem ha)
      exact ih (by omega)
    next ha => exact Bool.eq_false_of_not_eq_true ha

theorem stripLoop_eq (h : antisocial s = false) : stripLoop fuel s = s := by
  cases fuel with
  | zero => rfl
  | succ fuel => rw [stripLoop, if_neg (by rw [h]; nofun)]

theorem strip_idem (s : List UInt8) :
    stripAntisocialPrefixes (stripAntisocialPrefixes s) = stripAntisocialPrefixes s := by
  have hsocial := stripLoop_social (s := s) (Nat.le_refl s.length)
  by_cases hs : stripLoop s.length s = [] ∨ stripLoop s.length s = [dot, dot]
  · have hdot : stripAntisocialPrefixes s = [dot] := if_pos hs
    rw [hdot]
    decide
  · have hname : stripAntisocialPrefixes s = stripLoop s.length s := if_neg hs
    rw [hname]
    generalize stripLoop s.length s = u at hs hsocial
    unfold stripAntisocialPrefixes
    rw [stripLoop_eq hsocial]
    exact if_neg hs

theorem stripLoop_suffix (fuel : Nat) (s : List UInt8) : stripLoop fuel s <:+ s := by
  induction fuel generalizing s with
  | zero => exact suffix_refl s
  | succ fuel ih =>
    unfold stripLoop
    split
    · exact (ih _).trans ((tail_suffix _).trans (dropWhile_suffix _))
    · exact suffix_refl s

theorem strip_no_nul (h : 0 ∉ s) : 0 ∉ stripAntisocialPrefixes s := by
  unfold stripAntisocialPrefixes
  dsimp only
  split
  · decide
  · exact fun h0 => h ((stripLoop_suffix _ _).subset h0)

/-! ## Reading a name -/

section
open Pintos.Lib (memcmp strcmp strchr)
variable {s t : List UInt8}

/-- A comparison with a text that has no null byte stops at the terminator. -/
theorem memcmp_spec (hs : 0 ∉ s) (ht : 0 ∉ t) :
    ∃ cmp, memcmp (s ++ [0]) (t ++ [0]) t.length = .ok cmp ∧ (cmp = 0 ↔ t <+: s) := by
  induction t generalizing s with
  | nil => exact ⟨0, by simp [memcmp], by simp⟩
  | cons b t ih =>
    simp only [mem_cons, not_or] at ht
    cases s with
    | nil => exact ⟨-1, by simp [memcmp, ht.1], by simp⟩
    | cons a s =>
      simp only [mem_cons, not_or] at hs
      by_cases hab : a = b
      · obtain ⟨cmp, hcmp, hiff⟩ := ih hs.2 ht.2
        exact ⟨cmp, by simpa [memcmp, hab] using hcmp, by simp [hiff, hab, cons_prefix_cons]⟩
      · refine ⟨if a > b then 1 else -1, by simp [memcmp, hab], ?_⟩
        simp only [cons_prefix_cons, Ne.symm hab, false_and, iff_false]
        split <;> decide

theorem strcmp_spec (hs : 0 ∉ s) (ht : 0 ∉ t) :
    ∃ cmp, strcmp (s ++ [0]) (t ++ [0]) = .ok cmp ∧ (cmp = 0 ↔ s = t) := by
  induction t generalizing s with
  | nil =>
    cases s with
    | nil => exact ⟨0, by simp [strcmp], by simp⟩
    | cons a s =>
      simp only [mem_cons, not_or] at hs
      refine ⟨_, if_neg (fun he => hs.1 he.2.symm), ?_⟩
      have hpos : 0 < a := UInt8.pos_iff_ne_zero.mpr (Ne.symm hs.1)
      simp [hpos]
  | cons b t ih =>
    simp only [mem_cons, not_or] at ht
    cases s with
    | nil => 
      refine ⟨_, if_neg (fun he => he.1 rfl), ?_⟩
      have hpos : 0 < b := UInt8.pos_iff_ne_zero.mpr (Ne.symm ht.1)
      simp [hpos]
    | cons a s =>
      simp only [mem_cons, not_or] at hs
      by_cases hab : a = b
      · obtain ⟨cmp, hcmp, hiff⟩ := ih hs.2 ht.2
        exact ⟨cmp, by simpa [strcmp, hab, Ne.symm ht.1] using hcmp, by simp [hiff, hab]⟩
      · refine ⟨_, if_neg (fun he => hab he.2), ?_⟩
        rcases UInt8.lt_or_lt_of_ne hab with h | h
        · simp [h, hab]
        · simp [h, hab, UInt8.lt_asymm h]

theorem antisocial_iff : antisocial s = true ↔ [slash] <+: s ∨ [dot, slash] <+: s ∨ [dot, dot, slash] <+: s := by
  have htake : ∀ t : List UInt8, t <+: s ↔ s.take t.length = t := fun t => prefix_iff_eq_take.trans eq_comm
  simp [antisocial, htake, or_assoc]

theorem antisocialAt_eq (h : 0 ∉ s) : antisocialAt (s ++ [0]) = .ok (antisocial s) := by
  obtain ⟨c₁, h₁, hz₁⟩ := memcmp_spec h (t := ascii "./") (by decide)
  obtain ⟨c₂, h₂, hz₂⟩ := memcmp_spec h (t := ascii "../") (by decide)
  change memcmp _ _ 2 = _ at h₁
  change memcmp _ _ 3 = _ at h₂
  cases s with
  | nil => rfl
  | cons a s =>
    simp only [cons_append] at h₁ h₂ ⊢
    have hslash : [slash] <+: a :: s ↔ a = slash := by simp [cons_prefix_cons, eq_comm]
    change c₁ = 0 ↔ [dot, slash] <+: a :: s at hz₁
    change c₂ = 0 ↔ [dot, dot, slash] <+: a :: s at hz₂
    rw [antisocialAt, h₁, h₂]
    by_cases ha : a = slash
    · rw [if_pos ha, (antisocial_iff).mpr (.inl (hslash.mpr ha))]
    · rw [if_neg ha]
      by_cases hc : c₁ = 0
      · rw [antisocial_iff.mpr (.inr (.inl (hz₁.mp hc)))]
        simp [bind, Except.bind, hc]
      · have : antisocial (a :: s) = decide (c₂ = 0) := by
          rw [Bool.eq_iff_iff, antisocial_iff, decide_eq_true_eq, hslash, ← hz₁, ← hz₂]
          simp [ha, hc]
        simp [bind, Except.bind, hc, this]

/-- The loop finds a slash, and goes on behind it. -/
theorem strchr_slash (h : 0 ∉ s) (hm : slash ∈ s) (k : Nat) : ∃ p, strchr slash (s ++ [0]) k = .ok (some (k + p)) ∧
    (s ++ [0]).drop (p + 1) = (s.dropWhile (· ≠ slash)).tail ++ [0] := by
  induction s generalizing k with
  | nil => cases hm
  | cons a s ih =>
    simp only [mem_cons, not_or] at h
    by_cases ha : a = slash
    · exact ⟨0, by simp [strchr, ha], by simp [ha]⟩
    · obtain ⟨p, hp, hdrop⟩ := ih h.2 ((mem_cons.mp hm).resolve_left (Ne.symm ha)) (k + 1)
      refine ⟨p + 1, ?_, by simpa [ha] using hdrop⟩
      rw [cons_append, strchr, if_neg ha, if_neg (Ne.symm h.1), hp, Nat.add_right_comm k 1 p]
      rfl

theorem stripAt_eq (h : 0 ∉ s) (hf : s.length ≤ fuel) : stripAt (s ++ [0]) = .ok (stripLoop fuel s ++ [0]) := by
  induction fuel generalizing s with
  | zero =>
    obtain rfl : s = [] := length_eq_zero_iff.mp (Nat.le_zero.mp hf)
    rw [stripAt.eq_def, antisocialAt_eq h]
    rfl
  | succ fuel ih =>
    rw [stripAt.eq_def, antisocialAt_eq h, stripLoop]
    cases ha : antisocial s with
    | false => rfl
    | true =>
      obtain ⟨p, hp, hdrop⟩ := strchr_slash h (antisocial_mem ha) 0
      have hlt := dropWhile_tail_length (antisocial_mem ha)
      rw [Nat.zero_add] at hp
      have hnul : 0 ∉ (s.dropWhile (· ≠ slash)).tail := fun h0 =>
        h (((tail_suffix _).trans (dropWhile_suffix _)).subset h0)
      simp only [hp, hdrop]
      exact ih hnul (by omega)

/-- Every read is of the name or of its terminator. -/
theorem stripAntisocialPrefixesAt_eq (h : 0 ∉ s) :
    stripAntisocialPrefixesAt (s ++ [0]) = .ok (stripAntisocialPrefixes s ++ [0]) := by
  have hnul : 0 ∉ stripLoop s.length s := fun h0 => h ((stripLoop_suffix _ _).subset h0)
  unfold stripAntisocialPrefixesAt stripAntisocialPrefixes
  rw [stripAt_eq h (Nat.le_refl _)]
  generalize stripLoop s.length s = u at hnul
  obtain ⟨cmp, hcmp, hiff⟩ := strcmp_spec hnul (t := [dot, dot]) (by decide)
  cases u with
  | nil => rfl
  | cons c u =>
    have hc : c ≠ 0 := fun h0 => hnul (h0 ▸ mem_cons_self)
    change strcmp (c :: (u ++ [0])) [dot, dot, 0] = _ at hcmp
    simp only [bind, Except.bind, cons_append, hc, if_false, hcmp, hiff, reduceCtorEq, false_or]
    split <;> rfl

end

/-! ## Fields -/

def Field.Apart (f g : Field) : Prop := f.ofs + f.size ≤ g.ofs ∨ g.ofs + g.size ≤ f.ofs

instance (f g : Field) : Decidable (f.Apart g) := inferInstanceAs (Decidable (_ ∨ _))

variable {h : Header} {f g : Field} {bs : List UInt8} {l : List (Field × List UInt8)}

theorem load_store_apart (hlen : bs.length ≤ f.size) (hd : f.Apart g) : load (store h f bs) g = load h g := by
  refine map_congr_left fun i hi => ?_
  have hi := mem_range.mp hi
  unfold Field.Apart at hd
  exact patch_of_outside (by omega)

theorem load_storeAll_apart (hlen : ∀ x ∈ l, x.2.length ≤ x.1.size) (hd : ∀ x ∈ l, x.1.Apart g) :
    load (storeAll h l) g = load h g := by
  induction l generalizing h with
  | nil => rfl
  | cons x l ih =>
    refine (ih (fun y hy => hlen y (mem_cons_of_mem _ hy)) fun y hy => hd y (mem_cons_of_mem _ hy)).trans ?_
    exact load_store_apart (hlen x mem_cons_self) (hd x mem_cons_self)

theorem load_store (hlen : bs.length = f.size) : load (store h f bs) f = bs := by
  refine ext_getElem (by simp [load, hlen]) fun i hi hi' => ?_
  simp only [load, getElem_map, getElem_range, store, patch]
  rw [if_pos (by omega), Nat.add_sub_cancel_left, getD_eq_getElem?_getD, getElem?_eq_getElem hi']
  rfl

/-- A store leaves the zeros behind it. -/
theorem load_store_self (hlen : bs.length ≤ f.size) (h0 : load h f = replicate f.size 0) :
    load (store h f bs) f = bs ++ replicate (f.size - bs.length) 0 := by
  refine ext_getElem? fun i => ?_
  by_cases hi : i < f.size
  · have hzero : h (f.ofs + i) = 0 := by
      have hget : (load h f)[i]? = some (h (f.ofs + i)) := by simp [load, hi]
      rw [h0, getElem?_replicate, if_pos hi] at hget
      exact (Option.some.inj hget).symm
    have hget : (load (store h f bs) f)[i]? = some (store h f bs (f.ofs + i)) := by simp [load, hi]
    rw [hget, store, patch, hzero, Nat.add_sub_cancel_left]
    by_cases hib : i < bs.length
    · rw [if_pos (by omega), getElem?_append_left hib, getD_eq_getElem?_getD, getElem?_eq_getElem hib]
      rfl
    · rw [if_neg (by omega), getElem?_append_right (by omega), getElem?_replicate, if_pos (by omega)]
  · rw [getElem?_eq_none (by simpa [load] using hi), getElem?_eq_none (by simp; omega)]

/-- The stores into a cleared header do not disturb each other. -/
theorem load_storeAll (hlen : ∀ x ∈ l, x.2.length ≤ x.1.size) (hd : l.Pairwise fun x y => x.1.Apart y.1)
    (hmem : (f, bs) ∈ l) : load (storeAll (fun _ => 0) l) f = bs ++ replicate (f.size - bs.length) 0 := by
  obtain ⟨l₁, l₂, rfl⟩ := append_of_mem hmem
  obtain ⟨-, hd₂, hcross⟩ := pairwise_append.mp hd
  have hcomm : ∀ x y : Field, x.Apart y → y.Apart x := fun x y h => Or.symm h
  have hsplit : storeAll (fun _ => 0) (l₁ ++ (f, bs) :: l₂) = storeAll (store (storeAll (fun _ => 0) l₁) f bs) l₂ := by
    simp [storeAll]
  rw [hsplit, load_storeAll_apart]
  · refine load_store_self (hlen _ hmem) ?_
    rw [load_storeAll_apart]
    · simp [load]
    · exact fun x hx => hlen x (mem_append_left _ hx)
    · exact fun x hx => hcross x hx _ mem_cons_self
  · exact fun x hx => hlen x (mem_append_right _ (mem_cons_of_mem _ hx))
  · exact fun x hx => hcomm _ _ ((pairwise_cons.mp hd₂).1 x hx)

theorem strlcpy_length (src : List UInt8) (size : Nat) : (strlcpy src size).length ≤ size := by
  unfold strlcpy
  split
  · exact Nat.zero_le _
  · rw [length_append, length_take, length_singleton]
    omega

theorem snprintf_length (bufSize : Nat) (format : List UInt8) (args : List Arg) :
    (snprintf bufSize format args).length ≤ bufSize := by
  unfold snprintf
  split
  · split
    · exact Nat.zero_le _
    · rw [length_append, length_take, length_singleton]
      omega
  · exact Nat.zero_le _

/-! ## Headers -/

/-- What the parser finds in a header before the checksum is there. -/
structure Fields (h : Header) (name : List UInt8) (type : UstarType) (size : Nat) : Prop where
  name : load h nameField = name ++ replicate (nameField.size - name.length) 0
  size : load h sizeField = octalField 11 size
  typeflag : load h typeflagField = [type.code]
  magic : load h magicField = ascii "ustar" ++ [0]
  version : load h versionField = [0x30, 0x30]
  pre : load h prefixField = replicate prefixField.size 0

variable {name : List UInt8} {type : UstarType} {size : Int}

theorem headerStores_length : ∀ x ∈ headerStores name type size, x.2.length ≤ x.1.size := by
  have hstr := strlcpy_length
  have hoct := snprintf_length
  unfold headerStores
  simp only [forall_mem_cons, not_mem_nil, false_imp_iff, implies_true, and_true]
  exact ⟨hstr _ _, hoct _ _ _, hstr _ _, hstr _ _, hoct _ _ _, hoct _ _ _, Nat.le_refl 1, hstr _ _, Nat.le_refl 2,
    hstr _ _, hstr _ _⟩

theorem headerStores_apart : (headerStores name type size).Pairwise fun x y => x.1.Apart y.1 := by
  have h : ((headerStores name type size).map Prod.fst).Pairwise Field.Apart := by
    change [nameField, modeField, uidField, gidField, sizeField, mtimeField, typeflagField, magicField, versionField,
      gnameField, unameField].Pairwise Field.Apart
    decide
  exact pairwise_map.mp h

theorem fillHeader_fields (hname : name.length ≤ 99) :
    Fields (fillHeader name type size) name type (BitVec.ofInt 32 size).toNat := by
  have hload : ∀ f bs, (f, bs) ∈ headerStores name type size → bs.length = f.size →
      load (fillHeader name type size) f = bs := fun f bs hmem hlen => by
    refine (load_storeAll headerStores_length headerStores_apart hmem).trans ?_
    rw [hlen, Nat.sub_self, replicate_zero, append_nil]
  refine ⟨?_, ?_, ?_, ?_, ?_, ?_⟩
  · have hcopy : strlcpy name nameField.size = name ++ [0] := by
      unfold strlcpy
      rw [if_neg (by decide), take_of_length_le (show name.length ≤ nameField.size - 1 from hname)]
    have hmem : (nameField, strlcpy name nameField.size) ∈ headerStores name type size := by simp [headerStores]
    refine (load_storeAll headerStores_length headerStores_apart hmem).trans ?_
    rw [hcopy, length_append, length_singleton, append_assoc, singleton_append,
      ← replicate_succ, ← Nat.sub_sub, Nat.sub_add_cancel]
    unfold nameField
    dsimp only
    omega
  · have hoct := snprintf_octal11 (.ofInt 32 size)
    have hlen := octalField_length (w := 11) ((BitVec.ofInt 32 size).isLt.trans (by decide))
    rw [← hoct] at hlen ⊢
    exact hload _ _ (by simp [headerStores, sizeField]) hlen
  · exact hload _ _ (by simp [headerStores]) rfl
  · exact (hload magicField (strlcpy (ascii "ustar") magicField.size) (by simp [headerStores]) rfl).trans (by decide)
  · exact hload _ _ (by simp [headerStores]) rfl
  · unfold fillHeader
    rw [load_storeAll_apart headerStores_length]
    · rfl
    · unfold headerStores
      simp only [forall_mem_cons, not_mem_nil, false_imp_iff, implies_true, and_true]
      decide

/-- The checksum does not depend on its own field. -/
theorem calculateChksum_store (hlen : bs.length ≤ chksumField.size) :
    calculateChksum (store h chksumField bs) = calculateChksum h := by
  unfold calculateChksum
  refine congrArg (fun l : List Nat => l.sum % 2 ^ 32) (map_congr_left fun i _ => ?_)
  by_cases hi : chksumField.ofs ≤ i ∧ i < chksumField.ofs + chksumField.size
  · rw [if_pos hi, if_pos hi]
  · rw [if_neg hi, if_neg hi, store, patch_of_outside (by omega)]

/-- What byte `i` adds to the checksum. -/
def chksumByte (h : Header) (i : Nat) : Nat :=
  if chksumField.ofs ≤ i ∧ i < chksumField.ofs + chksumField.size then 0x20 else (h i).toNat

theorem sum_chksumByte_lt (h : Header) : ∑ i ∈ Finset.range headerSize, chksumByte h i < 8 ^ 7 := by
  apply Nat.lt_of_le_of_lt (Finset.sum_le_card_nsmul _ _ 255 fun i _ => ?_)
  · rw [Finset.card_range]
    decide
  · have hbyte := (h i).toNat_lt
    unfold chksumByte
    split <;> omega

/-- The sum does not wrap. -/
theorem calculateChksum_eq (h : Header) : calculateChksum h = ∑ i ∈ Finset.range headerSize, chksumByte h i :=
  Nat.mod_eq_of_lt ((sum_chksumByte_lt h).trans (by decide))

theorem calculateChksum_lt (h : Header) : calculateChksum h < 8 ^ 7 := by
  rw [calculateChksum_eq]
  exact sum_chksumByte_lt h

theorem load_head (hsize : 0 < f.size) : (load h f)[0]? = some (h f.ofs) := by
  simp [load, hsize]

theorem ustarParseHeader_of_fields (hf : Fields h name type size.toNat) (htype : type ≠ .eof) (h0 : 0 ≤ size)
    (hmax : size ≤ intMax) (hname : name.length ≤ 99) (hnul : 0 ∉ name)
    (hchk : parseOctalField h chksumField = some (calculateChksum h)) :
    ustarParseHeader h =
      .ok ⟨some (stripAntisocialPrefixes name), type, if type = .regular then size else 0⟩ := by
  have hzero : isAllZeros h = false := by
    refine Bool.eq_false_iff.mpr fun hall => ?_
    have hu : h magicField.ofs = 0x75 := by
      have hget := load_head (h := h) (f := magicField) (by decide)
      rw [hf.magic] at hget
      exact (Option.some.inj hget).symm
    have hz := all_eq_true.mp hall magicField.ofs (mem_range.mpr (by decide))
    rw [hu] at hz
    cases hz
  have hlast : h (nameField.ofs + nameField.size - 1) = 0 := by
    have hget : (load h nameField)[99]? = some (h (nameField.ofs + nameField.size - 1)) := by simp [load, nameField]
    rw [hf.name, getElem?_append_right hname, getElem?_replicate, if_pos] at hget
    · exact (Option.some.inj hget).symm
    · unfold nameField
      dsimp only
      omega
  have hpre : h prefixField.ofs = 0 := by
    have hget := load_head (h := h) (f := prefixField) (by decide)
    rw [hf.pre] at hget
    exact (Option.some.inj hget).symm
  have hflag : h typeflagField.ofs = type.code := by
    have hget := load_head (h := h) (f := typeflagField) (by decide)
    rw [hf.typeflag] at hget
    exact (Option.some.inj hget).symm
  have hne : ∀ c ∈ name, decide (c ≠ 0) = true := fun c hc => decide_eq_true fun h0 => hnul (h0 ▸ hc)
  have hstr : (load h nameField).takeWhile (· ≠ 0) = name := by
    rw [hf.name, takeWhile_append_of_pos hne, takeWhile_replicate_eq_filter]
    simp
  unfold ustarParseHeader
  rw [hzero, hf.magic, hf.version, hchk, hlast, hpre, hstr, hflag]
  simp only [Bool.false_eq_true, if_false, ne_eq, not_true_eq_false, or_self]
  cases type with
  | eof => exact absurd rfl htype
  | directory => rfl
  | regular =>
    unfold intMax at hmax
    have hparse : parseOctalField h sizeField = some size.toNat := by
      unfold parseOctalField
      rw [hf.size]
      refine parseOctal_octalField (by decide) ?_ ?_
      · have : (8 : Nat) ^ 11 = 8589934592 := by decide
        omega
      · unfold ulongMax
        omega
    rw [hparse]
    simp only [if_true]
    rw [if_neg (by unfold intMax; omega), Int.toNat_of_nonneg h0]

/-- A header that was made is read back. -/
theorem parse_make {fileName : List UInt8} (hnul : 0 ∉ fileName)
    (hlen : (stripAntisocialPrefixes fileName).length ≤ 99) (htype : type ≠ .eof) (h0 : 0 ≤ size)
    (hmax : size ≤ intMax) :
    ∃ h, ustarMakeHeader fileName type size = .ok h ∧ ustarParseHeader h =
      .ok ⟨some (stripAntisocialPrefixes fileName), type, if type = .regular then size else 0⟩ := by
  have hmod : (BitVec.ofInt 32 size).toNat = size.toNat := by
    unfold intMax at hmax
    rw [BitVec.toNat_ofInt]
    omega
  have hfields : Fields (fillHeader (stripAntisocialPrefixes fileName) type size) _ type _ := fillHeader_fields hlen
  rw [hmod] at hfields
  generalize hfill : fillHeader (stripAntisocialPrefixes fileName) type size = h at hfields
  have hchk := calculateChksum_lt h
  have hsum : (BitVec.ofNat 32 (calculateChksum h)).toNat = calculateChksum h :=
    (BitVec.toNat_ofNat ..).trans (Nat.mod_eq_of_lt (hchk.trans (by decide)))
  have hfull : (octalField 7 (calculateChksum h)).length = chksumField.size := octalField_length hchk
  refine ⟨store h chksumField (octalField 7 (calculateChksum h)), ?_, ?_⟩
  · unfold ustarMakeHeader
    rw [if_neg htype]
    dsimp only
    have hoct := snprintf_octal7 (x := .ofNat 32 (calculateChksum h)) (by rw [hsum]; exact hchk)
    rw [hsum] at hoct
    rw [if_neg (Nat.not_lt.mpr hlen), hfill, ← hoct]
    rfl
  · have hkeep : ∀ g : Field, chksumField.Apart g →
        load (store h chksumField (octalField 7 (calculateChksum h))) g = load h g := fun g hg =>
      load_store_apart hfull.le hg
    have hkept : Fields (store h chksumField (octalField 7 (calculateChksum h)))
        (stripAntisocialPrefixes fileName) type size.toNat :=
      ⟨(hkeep _ (by decide)).trans hfields.name, (hkeep _ (by decide)).trans hfields.size,
        (hkeep _ (by decide)).trans hfields.typeflag, (hkeep _ (by decide)).trans hfields.magic,
        (hkeep _ (by decide)).trans hfields.version, (hkeep _ (by decide)).trans hfields.pre⟩
    have hparse := ustarParseHeader_of_fields hkept htype h0 hmax hlen (strip_no_nul hnul) ?_
    · rw [hparse, strip_idem]
    · rw [calculateChksum_store hfull.le, parseOctalField, load_store hfull]
      refine parseOctal_octalField (by decide) hchk ?_
      have : (8 : Nat) ^ 7 = 2097152 := by decide
      unfold ulongMax
      omega

/-! ## What is accepted -/

/-- What the parser has checked when it returns a result. -/
inductive Accepted (h : Header) : Parsed → Prop
  | eof (hz : isAllZeros h = true) : Accepted h ⟨none, .eof, 0⟩
  | entry {type : UstarType} {size : Int} (htype : type = .regular ∨ type = .directory) (h0 : 0 ≤ size)
      (hmax : size ≤ intMax) (hmagic : load h magicField = ascii "ustar" ++ [0])
      (hsum : parseOctalField h chksumField = some (calculateChksum h)) :
      Accepted h ⟨some (stripAntisocialPrefixes ((load h nameField).takeWhile (· ≠ 0))), type, size⟩

theorem accepted {p : Parsed} (hp : ustarParseHeader h = .ok p) : Accepted h p := by
  unfold ustarParseHeader at hp
  split at hp
  next hz =>
    cases hp
    exact .eof hz
  next =>
    split at hp
    · cases hp
    next hmagic =>
      split at hp
      · cases hp
      split at hp
      · cases hp
      next chksum hsum =>
        split at hp
        · cases hp
        next heq =>
          rw [not_not.mp heq] at hsum
          split at hp
          · cases hp
          dsimp only at hp
          split at hp
          · split at hp
            · cases hp
            · split at hp
              · cases hp
              next hle =>
                cases hp
                exact .entry (.inl rfl) (by omega) (by omega) (not_not.mp hmagic) hsum
          · split at hp
            · cases hp
              exact .entry (.inr rfl) (by omega) (by decide) (not_not.mp hmagic) hsum
            · cases hp

/-! ## A damaged byte -/

section
variable {i : Nat} {v : UInt8}

/-- A change of one byte that counts changes the sum. -/
theorem calculateChksum_update (hi : i < headerSize)
    (hout : i < chksumField.ofs ∨ chksumField.ofs + chksumField.size ≤ i) (hv : v ≠ h i) :
    calculateChksum (update h i v) ≠ calculateChksum h := by
  have hmem : i ∈ Finset.range headerSize := Finset.mem_range.mpr hi
  have hrest : ∀ k ∈ (Finset.range headerSize).erase i, chksumByte (update h i v) k = chksumByte h k := by
    intro k hk
    simp [chksumByte, update_of_ne (Finset.ne_of_mem_erase hk)]
  have hne : chksumByte (update h i v) i ≠ chksumByte h i := by
    have hnot : ¬ (chksumField.ofs ≤ i ∧ i < chksumField.ofs + chksumField.size) := by omega
    simp [chksumByte, hnot, UInt8.toNat_inj, hv]
  rw [calculateChksum_eq, calculateChksum_eq, ← Finset.add_sum_erase _ _ hmem, ← Finset.add_sum_erase _ _ hmem,
    Finset.sum_congr rfl hrest]
  exact fun he => hne (Nat.add_right_cancel he)

theorem load_update (hi : i < f.ofs ∨ f.ofs + f.size ≤ i) :
    load (update h i v) f = load h f := by
  apply map_congr_left
  intro k hk
  have hk := mem_range.mp hk
  exact update_of_ne (by omega) _ _

/-- Two bytes of the magic are not zero, and one of them stays. -/
theorem isAllZeros_update (hmagic : load h magicField = ascii "ustar" ++ [0]) :
    isAllZeros (update h i v) = false := by
  have hload : [h 257, h 258, h 259, h 260, h 261, h 262] = [0x75, 0x73, 0x74, 0x61, 0x72, 0] := hmagic
  simp only [cons.injEq] at hload
  apply Bool.eq_false_iff.mpr
  intro hall
  have hz : ∀ k < headerSize, k ≠ i → h k = 0 := by
    intro k hk hki
    simpa [hki] using all_eq_true.mp hall k (mem_range.mpr hk)
  by_cases hi : i = 257
  · have := hz 258 (by decide) (by omega)
    simp [hload.2.1] at this
  · have := hz 257 (by decide) (Ne.symm hi)
    simp [hload.1] at this

end

end Pintos.Ustar
