import Pintos.L3Proof.Printf

/-!
# The text of integer conversions

**Specifications.** A `Spec` is a conversion as it stands in a format: any
flags, a width, a precision (each left out, in digits or as `*`), a length
modifier and one of `d`, `i`, `u`, `o`, `x`, `X`.

**Results.**
* `value_numeral`, `marks_comma`: the numeral denotes the magnitude of the
  value, and its commas separate groups from the right.
* `integer_text_iff`: the text is sign, mark and numeral, padded to exactly the
  width, unless a negative `*` width comes with the flag `0` alone: then both
  zeros and spaces are added. The zeros in front are not grouped, so that the
  first group must have room for them.
* `digit_buffer_bound`: what `format_integer` writes stays in its buffer, and the
  count of the padding does not overflow.
-/
namespace Pintos.Printf
open Pintos.Core Pintos.Stdio List
open Pintos.Lib (isdigit)

/-! ## Numerals -/

/-- The value of a numeral in the base `b`; commas do not count. -/
def valueOf (b : IntegerBase) (text : List UInt8) : Nat :=
  (text.filter (· ≠ 0x2c)).foldl (fun v c => v * b.base + b.digits.idxOf c) 0

section
variable {b : IntegerBase} (hb : IsBase b)
include hb

theorem idxOf_digit {d : Nat} (hd : d < b.base) : b.digits.idxOf (b.digits.getD d 0) = d := by
  have hlt : d < b.digits.length := by rw [hb.length]; exact hd
  rw [getD_eq_getElem _ _ hlt]
  exact hb.nodup.idxOf_getElem d hlt

theorem lowDigits_ne_comma {value : Nat} {c : UInt8} (hc : c ∈ lowDigits b value) : c ≠ 0x2c := by
  obtain ⟨d, hd, rfl⟩ := mem_map.mp hc
  have hlt : d < b.base := Nat.digits_lt_base (by have := hb.ge; omega) hd
  exact fun h => hb.comma (h ▸ hb.digit_mem hlt)

omit hb in
theorem filter_marks (group : Bool) {ds : List UInt8} (h : ∀ c ∈ ds, c ≠ 0x2c) : ∀ n,
    (marks b group n ds).filter (· ≠ 0x2c) = ds := by
  induction ds with
  | nil => exact fun n => rfl
  | cons d ds ih =>
    intro n
    have hd : decide (d ≠ 0x2c) = true := decide_eq_true (h d mem_cons_self)
    have hcomma : ∀ p : Prop, ∀ [Decidable p], (if p then [(0x2c : UInt8)] else []).filter (· ≠ 0x2c) = [] := by
      intro p _
      by_cases hp : p
      · rw [if_pos hp]
        rfl
      · rw [if_neg hp]
        rfl
    rw [marks, filter_append, hcomma, nil_append, filter_cons, if_pos hd,
      ih (fun c hc => h c (mem_cons_of_mem d hc))]

theorem value_lowDigits (value : Nat) :
    (lowDigits b value).foldr (fun c v => v * b.base + b.digits.idxOf c) 0 = value := by
  have hdigits : ∀ ds : List Nat, (∀ d ∈ ds, d < b.base) →
      (ds.map fun d => b.digits.getD d 0).foldr (fun c v => v * b.base + b.digits.idxOf c) 0 =
        Nat.ofDigits b.base ds := by
    intro ds
    induction ds with
    | nil => exact fun _ => rfl
    | cons d ds ih =>
      intro h
      rw [map_cons, foldr_cons, ih (fun e he => h e (mem_cons_of_mem d he)),
        idxOf_digit hb (h d mem_cons_self), Nat.ofDigits_cons]
      ring
  rw [lowDigits, hdigits _ fun d hd => Nat.digits_lt_base (by have := hb.ge; omega) hd, Nat.ofDigits_digits]

theorem foldl_zeros (n : Nat) :
    (replicate n (0x30 : UInt8)).foldl (fun v c => v * b.base + b.digits.idxOf c) 0 = 0 := by
  have hzero : b.digits.idxOf 0x30 = 0 := by
    rw [← hb.zero]
    exact idxOf_digit hb (by have := hb.ge; omega)
  induction n with
  | zero => rfl
  | succ n ih =>
    rw [replicate_succ, foldl_cons, hzero, Nat.zero_mul]
    exact ih

/-- A numeral with any zeros before it denotes the value. -/
theorem value_numeral (f : Flags) (precision : Int) (value zeros : Nat) :
    valueOf b (replicate zeros 0x30 ++ numeral b f precision value) = value := by
  have hzeros : ∀ n, (replicate n (0x30 : UInt8)).filter (· ≠ 0x2c) = replicate n 0x30 := by
    intro n
    rw [filter_replicate, if_pos (by decide)]
  rw [valueOf, numeral, ← append_assoc, replicate_append_replicate, filter_append, hzeros,
    filter_reverse, filter_marks _ fun c hc => lowDigits_ne_comma hb hc, foldl_append, foldl_zeros hb,
    foldl_reverse]
  exact value_lowDigits hb value

end

/-- The next digit completes a group, or goes on with one. -/
theorem mod_succ_cases {n g : Nat} (hg : 0 < g) (hn : 0 < n) :
    (n % g = 0 ∧ (n - 1) % g + 1 = g) ∨ (n % g = (n - 1) % g + 1 ∧ (n - 1) % g + 1 < g) := by
  have hr : (n - 1) % g < g := Nat.mod_lt _ hg
  have hn' : n = g * ((n - 1) / g) + ((n - 1) % g + 1) := by
    have := Nat.div_add_mod (n - 1) g
    omega
  rcases Nat.lt_or_eq_of_le (show (n - 1) % g + 1 ≤ g from hr) with hlt | heq
  · refine .inr ⟨?_, hlt⟩
    conv_lhs => rw [hn']
    rw [Nat.mul_add_mod, Nat.mod_eq_of_lt hlt]
  · refine .inl ⟨?_, heq⟩
    rw [hn', heq, Nat.mul_add_mod, Nat.mod_self]

/-- Counted from the right, every place after a whole group is a comma, and no
other is; `n` digits came before. -/
theorem marks_comma_from {b : IntegerBase} (hg : 0 < b.group) {ds : List UInt8} (h : ∀ c ∈ ds, c ≠ 0x2c) :
    ∀ (n i : Nat) (c : UInt8), 0 < n → (marks b true n ds)[i]? = some c →
      (c = 0x2c ↔ (i + ((n - 1) % b.group + 1)) % (b.group + 1) = b.group) := by
  induction ds with
  | nil =>
    intro n i c hn hc
    cases hc
  | cons d ds ih =>
    intro n i c hn hc
    have hd : d ≠ 0x2c := h d mem_cons_self
    have hrest := fun j => ih (fun e he => h e (mem_cons_of_mem d he)) (n + 1) j c (Nat.succ_pos n)
    rw [Nat.add_sub_cancel] at hrest
    rw [marks] at hc
    rcases mod_succ_cases hg hn with ⟨hzero, hfull⟩ | ⟨hmod, hlt⟩
    · rw [hzero] at hrest
      rw [if_pos ⟨rfl, hn, hzero⟩] at hc
      rw [hfull]
      rcases i with _ | _ | j
      · obtain rfl : 0x2c = c := Option.some.inj hc
        rw [Nat.zero_add, Nat.mod_eq_of_lt (Nat.lt_succ_self _)]
        exact iff_of_true rfl rfl
      · obtain rfl : d = c := Option.some.inj hc
        rw [Nat.zero_add, Nat.add_comm, Nat.mod_self]
        exact iff_of_false hd (by omega)
      · rw [hrest j hc, show j + 1 + 1 + b.group = j + (0 + 1) + (b.group + 1) by omega, Nat.add_mod_right]
    · rw [hmod] at hrest
      rw [if_neg (fun hall => by omega)] at hc
      rcases i with _ | j
      · obtain rfl : d = c := Option.some.inj hc
        rw [Nat.zero_add, Nat.mod_eq_of_lt (by omega)]
        exact iff_of_false hd (by omega)
      · rw [hrest j hc, show j + 1 + ((n - 1) % b.group + 1) = j + ((n - 1) % b.group + 1 + 1) by omega]

/-- In the digits of a value the places of the commas are those after each
group of `b.group` digits. -/
theorem marks_comma {b : IntegerBase} (hb : IsBase b) (value i : Nat) (c : UInt8)
    (hc : (marks b true 0 (lowDigits b value))[i]? = some c) :
    c = 0x2c ↔ i % (b.group + 1) = b.group := by
  have hds : ∀ d ∈ lowDigits b value, d ≠ 0x2c := fun d hd => lowDigits_ne_comma hb hd
  have hg := hb.group
  generalize lowDigits b value = ds at hc hds
  cases ds with
  | nil => cases hc
  | cons d ds =>
    rw [marks, if_neg (fun hall => by omega), nil_append] at hc
    rcases i with _ | j
    · obtain rfl : d = c := Option.some.inj hc
      rw [Nat.zero_mod]
      exact iff_of_false (hds d mem_cons_self) (by omega)
    · have hrest := marks_comma_from hg (fun e he => hds e (mem_cons_of_mem d he)) 1 j c Nat.one_pos hc
      rw [Nat.sub_self, Nat.zero_mod, Nat.zero_add] at hrest
      exact hrest

/-- Counted from the right, the commas of `text` are where whole groups end. -/
def Grouped (b : IntegerBase) (group : Bool) (text : List UInt8) : Prop :=
  ∀ i c, text.reverse[i]? = some c → (c = 0x2c ↔ group = true ∧ i % (b.group + 1) = b.group)

/-- Zeros before the digits have to fit in the first group. -/
theorem grouped_iff {b : IntegerBase} (hb : IsBase b) (group : Bool) (value zeros : Nat) :
    let digits := marks b group 0 (lowDigits b value)
    Grouped b group (replicate zeros 0x30 ++ digits.reverse) ↔
      ¬(group = true ∧ b.group < digits.length % (b.group + 1) + zeros) := by
  intro digits
  have hdigit : ∀ i c, digits[i]? = some c → (c = 0x2c ↔ group = true ∧ i % (b.group + 1) = b.group) := by
    intro i c hc
    cases group with
    | true => rw [marks_comma hb value i c hc, and_iff_right rfl]
    | false =>
      rw [show digits = lowDigits b value from marks_false b _ 0] at hc
      exact iff_of_false (lowDigits_ne_comma hb (mem_of_getElem? hc)) fun h => by cases h.1
  have hdiv := Nat.div_add_mod digits.length (b.group + 1)
  have hmod : digits.length % (b.group + 1) < b.group + 1 := Nat.mod_lt _ (Nat.succ_pos b.group)
  -- the place of a zero, by its distance from the last whole group
  have hplace : ∀ j, digits.length % (b.group + 1) + j < b.group + 1 →
      (digits.length + j) % (b.group + 1) = digits.length % (b.group + 1) + j := by
    intro j hj
    conv_lhs => rw [← hdiv]
    rw [Nat.add_assoc, Nat.mul_add_mod, Nat.mod_eq_of_lt hj]
  rw [Grouped, reverse_append, reverse_reverse, reverse_replicate]
  constructor
  · rintro h ⟨hg, hlong⟩
    have hi := h (digits.length + (b.group - digits.length % (b.group + 1))) 0x30 (by
      rw [getElem?_append_right (Nat.le_add_right ..), getElem?_replicate, if_pos (by omega)])
    rw [hplace _ (by omega)] at hi
    exact absurd (hi.2 ⟨hg, by omega⟩) (by decide)
  · intro h i c hc
    by_cases hi : i < digits.length
    · rw [getElem?_append_left hi] at hc
      exact hdigit i c hc
    · rw [getElem?_append_right (by omega), getElem?_replicate, Option.ite_none_right_eq_some] at hc
      obtain ⟨hlt, rfl⟩ : i - digits.length < zeros ∧ 0x30 = c := ⟨hc.1, Option.some.inj hc.2⟩
      refine iff_of_false (by decide) ?_
      rintro ⟨hg, hmod'⟩
      have hroom := Nat.not_lt.1 fun hlong => h ⟨hg, hlong⟩
      rw [show i = digits.length + (i - digits.length) by omega, hplace _ (by omega)] at hmod'
      omega

/-! ## Specifications -/

/-- A width or a precision in a format: left out, in digits, or `*` with its
argument. -/
inductive Number where
  | none
  | digits (ds : List UInt8)
  | star (v : BitVec 32)

/-- An integer conversion as it stands in a format. -/
structure Spec where
  flags : List UInt8
  width : Number
  precision : Number
  type : ArgType
  conv : IntConv

def Number.text : Number → List UInt8
  | .none => []
  | .digits ds => ds
  | .star _ => [0x2a]

def Number.args : Number → List Arg
  | .star v => [.word v]
  | _ => []

/-- The text of a length modifier. -/
def ArgType.text : ArgType → List UInt8
  | .char => [0x68, 0x68]
  | .short => [0x68]
  | .int => []
  | .intmax => [0x6a]
  | .long => [0x6c]
  | .longlong => [0x6c, 0x6c]
  | .ptrdifft => [0x74]
  | .sizet => [0x7a]

def precisionText : Number → List UInt8
  | .none => []
  | n => 0x2e :: n.text

/-- The text after the flags. -/
def Spec.tail (s : Spec) : List UInt8 := s.width.text ++ (precisionText s.precision ++ (s.type.text ++ [s.conv.char]))

/-- The format that is the one conversion. -/
def Spec.format (s : Spec) : List UInt8 := 0x25 :: (s.flags ++ s.tail)

/-- The number that digits denote. -/
def decimalValue (ds : List UInt8) : Nat := ds.foldl (fun v c => v * 10 + (c.toNat - 0x30)) 0

def Number.value : Number → Int
  | .none => 0
  | .digits ds => decimalValue ds
  | .star v => v.toInt

/-- The precision: a negative one counts as left out. -/
def Spec.prec (s : Spec) : Option Nat :=
  match s.precision with
  | .none => .none
  | n => if n.value < 0 then .none else some n.value.toNat

/-- The digits of a width do not start with `0`, which is a flag, and a width
is a number of type `int`. Precisions go up to 63. -/
structure Spec.WellFormed (s : Spec) : Prop where
  flags : ∀ c ∈ s.flags, isFlag c = true
  width : ∀ ds, s.width = .digits ds → (∀ c ∈ ds, isdigit c = true) ∧ ds.head? ≠ some 0x30 ∧ decimalValue ds < 2 ^ 31
  precision : ∀ ds, s.precision = .digits ds → ∀ c ∈ ds, isdigit c = true
  le : s.precision.value ≤ 63

/-! ## Parsing a specification -/

theorem int32_of_lt {x : Int} (h1 : -2 ^ 31 ≤ x) (h2 : x < 2 ^ 31) : int32 x = x :=
  Int.bmod_eq_of_le (by omega) (by omega)

theorem isdigit_iff {c : UInt8} : isdigit c = true ↔ 0x30 ≤ c.toNat ∧ c.toNat ≤ 0x39 := by
  rw [isdigit, decide_eq_true_iff, UInt8.le_iff_toNat_le, UInt8.le_iff_toNat_le]
  rfl

/-- Of the digits only `0` is a flag. -/
theorem isFlag_digit {c : UInt8} (hc : isdigit c = true) (h0 : c ≠ 0x30) : isFlag c = false := by
  cases hflag : isFlag c with
  | false => rfl
  | true =>
    simp only [isFlag, mem_cons, not_mem_nil, or_false, decide_eq_true_eq] at hflag
    rcases hflag with rfl | rfl | rfl | rfl | rfl | rfl
    · exact absurd hc (by decide)
    · exact absurd hc (by decide)
    · exact absurd hc (by decide)
    · exact absurd hc (by decide)
    · exact absurd rfl h0
    · exact absurd hc (by decide)

/-- A number is not less than what its first digits denote. -/
theorem le_foldl_decimal (ds : List UInt8) : ∀ v : Nat, v ≤ ds.foldl (fun v c => v * 10 + (c.toNat - 0x30)) v := by
  induction ds with
  | nil => exact fun v => Nat.le_refl v
  | cons c ds ih =>
    intro v
    have := ih (v * 10 + (c.toNat - 0x30))
    rw [foldl_cons]
    omega

/-- No step overflows if the number fits. The induction is on the digits, for
any number read so far. -/
theorem digitsValue_eq {ds : List UInt8} (hds : ∀ c ∈ ds, isdigit c = true) : ∀ v : Nat,
    ds.foldl (fun v c => v * 10 + (c.toNat - 0x30)) v < 2 ^ 31 →
    digitsValue v ds = (ds.foldl (fun v c => v * 10 + (c.toNat - 0x30)) v : Nat) := by
  induction ds with
  | nil => exact fun v _ => rfl
  | cons c ds ih =>
    intro v hv
    obtain ⟨hlo, hhi⟩ := isdigit_iff.mp (hds c mem_cons_self)
    rw [foldl_cons] at hv ⊢
    have hstep : int32 (v * 10 + c.toNat - 0x30) = (v * 10 + (c.toNat - 0x30) : Nat) := by
      have := le_foldl_decimal ds (v * 10 + (c.toNat - 0x30))
      rw [int32_of_lt (by omega) (by omega)]
      omega
    rw [digitsValue, foldl_cons, hstep]
    exact ih (fun e he => hds e (mem_cons_of_mem c he)) _ hv

theorem takeWhile_of_head {p : UInt8 → Bool} {ds l : List UInt8} {c : UInt8} (hds : ∀ c ∈ ds, p c = true)
    (hc : p c = false) : (ds ++ c :: l).takeWhile p = ds ∧ (ds ++ c :: l).dropWhile p = c :: l := by
  have hneg : ¬p c = true := by rw [hc]; decide
  rw [takeWhile_append_of_pos hds, dropWhile_append_of_pos hds, takeWhile_cons_of_neg hneg,
    dropWhile_cons_of_neg hneg, append_nil]
  exact ⟨rfl, rfl⟩

/-- A character that can start neither a width nor a precision. -/
structure Plain (c : UInt8) : Prop where
  percent : c ≠ 0x25
  flag : isFlag c = false
  digit : isdigit c = false
  star : c ≠ 0x2a
  dot : c ≠ 0x2e

theorem exists_plain (t : ArgType) (k : IntConv) : ∃ c l, t.text ++ [k.char] = c :: l ∧ Plain c := by
  cases t with
  | int =>
    refine ⟨k.char, [], rfl, ?_⟩
    cases k <;> constructor <;> decide
  | _ => exact ⟨_, _, rfl, by constructor <;> decide⟩

theorem lengthModifier_text (t : ArgType) (k : IntConv) : lengthModifier (t.text ++ [k.char]) = (t, [k.char]) := by
  cases t <;> cases k <;> rfl

theorem parseNumber_text {n : Number}
    (hn : ∀ ds, n = .digits ds → (∀ c ∈ ds, isdigit c = true) ∧ decimalValue ds < 2 ^ 31)
    {c : UInt8} {l : List UInt8} (hdigit : isdigit c = false) (hstar : c ≠ 0x2a) (args : List Arg) (out : List UInt8) :
    parseNumber (n.text ++ c :: l ++ [0]) ⟨n.args ++ args, out⟩ = .ok ((n.value, c :: l ++ [0]), ⟨args, out⟩) := by
  have hdigits : ∀ ds : List UInt8, (∀ c ∈ ds, isdigit c = true) → decimalValue ds < 2 ^ 31 →
      parseNumber (ds ++ c :: l ++ [0]) ⟨args, out⟩ = .ok (((decimalValue ds : Int), c :: l ++ [0]), ⟨args, out⟩) := by
    intro ds hds hlt
    obtain ⟨htake, hdrop⟩ := takeWhile_of_head (l := l) hds hdigit
    have hhead : (ds ++ c :: l).head? ≠ some 0x2a := by
      cases ds with
      | nil => exact fun h => hstar (Option.some.inj h)
      | cons d ds =>
        intro h
        obtain rfl : d = 0x2a := Option.some.inj h
        exact absurd (hds _ mem_cons_self) (by decide)
    have hval : digitsValue 0 ds = decimalValue ds := digitsValue_eq hds 0 hlt
    rw [parseNumber_digits hhead, htake, hdrop, hval]
  cases n with
  | none => exact hdigits [] (fun _ h => absurd h not_mem_nil) (by decide)
  | digits ds => exact hdigits ds (hn ds rfl).1 (hn ds rfl).2
  | star v => rfl

/-- The precision as `parse_conversion` stores it. -/
def precInt : Option Nat → Int
  | none => -1
  | some p => p

section
variable {s : Spec} (hs : s.WellFormed)
include hs

theorem parsePrecision_text (args : List Arg) (out : List UInt8) :
    parsePrecision (precisionText s.precision ++ (s.type.text ++ [s.conv.char]) ++ [0])
        ⟨s.precision.args ++ args, out⟩ =
      .ok ((precInt s.prec, s.type.text ++ [s.conv.char] ++ [0]), ⟨args, out⟩) := by
  obtain ⟨c, l, htail, hplain⟩ := exists_plain s.type s.conv
  have hle := hs.le
  have hds := hs.precision
  rw [htail, Spec.prec]
  generalize s.precision = n at *
  have hnumber : parseNumber (n.text ++ c :: l ++ [0]) ⟨n.args ++ args, out⟩ =
      .ok ((n.value, c :: l ++ [0]), ⟨args, out⟩) := by
    refine parseNumber_text ?_ hplain.digit hplain.star args out
    rintro ds rfl
    refine ⟨hds ds rfl, ?_⟩
    have : (decimalValue ds : Int) ≤ 63 := hle
    omega
  have hvalue : precInt (if n.value < 0 then none else some n.value.toNat) =
      if n.value < 0 then -1 else n.value := by
    by_cases hneg : n.value < 0
    · rw [if_pos hneg, if_pos hneg]
      rfl
    · rw [if_neg hneg, if_neg hneg, precInt]
      omega
  cases n with
  | none =>
    change parsePrecision (c :: (l ++ [0])) _ = _
    rw [parsePrecision, if_neg hplain.dot]
    rfl
  | digits ds =>
    change parsePrecision (0x2e :: (ds ++ c :: l ++ [0])) _ = _
    rw [parsePrecision, if_pos rfl, hvalue]
    exact bind_of_ok hnumber
  | star v =>
    change parsePrecision (0x2e :: (Number.text (.star v) ++ c :: l ++ [0])) _ = _
    rw [parsePrecision, if_pos rfl, hvalue]
    exact bind_of_ok hnumber

omit hs in
theorem exists_head_precision (s : Spec) : ∃ c l, precisionText s.precision ++ (s.type.text ++ [s.conv.char]) = c :: l ∧
    c ≠ 0x25 ∧ isFlag c = false ∧ isdigit c = false ∧ c ≠ 0x2a := by
  obtain ⟨c, l, htail, hplain⟩ := exists_plain s.type s.conv
  rw [htail]
  cases s.precision with
  | none => exact ⟨c, l, rfl, hplain.percent, hplain.flag, hplain.digit, hplain.star⟩
  | digits ds => exact ⟨0x2e, _, rfl, by decide, by decide, by decide, by decide⟩
  | star v => exact ⟨0x2e, _, rfl, by decide, by decide, by decide, by decide⟩

theorem exists_head_tail : ∃ c l, s.tail = c :: l ∧ c ≠ 0x25 ∧ isFlag c = false := by
  obtain ⟨c, l, hhead, hpercent, hflag, -, -⟩ := exists_head_precision s
  rw [Spec.tail, hhead]
  cases hw : s.width with
  | none => exact ⟨c, l, rfl, hpercent, hflag⟩
  | star v => exact ⟨0x2a, _, rfl, by decide, by decide⟩
  | digits ds =>
    obtain ⟨hdigits, hzero, -⟩ := hs.width ds hw
    cases ds with
    | nil => exact ⟨c, l, rfl, hpercent, hflag⟩
    | cons d ds =>
      have hd : isdigit d = true := hdigits d mem_cons_self
      refine ⟨d, _, rfl, ?_, isFlag_digit hd fun h => hzero (by rw [h]; rfl)⟩
      rintro rfl
      exact absurd hd (by decide)

/-- `parse_conversion` reads a specification as it is meant. -/
theorem parseConversion_spec (args : List Arg) (out : List UInt8) :
    parseConversion (s.flags ++ s.tail ++ [0]) ⟨s.width.args ++ (s.precision.args ++ args), out⟩ =
      .ok ((conversionOf s.flags s.width.value (precInt s.prec) s.type, [s.conv.char, 0]), ⟨args, out⟩) := by
  obtain ⟨c, l, hhead, -, -, hdigit, hstar⟩ := exists_head_precision s
  have hwidth : parseNumber (s.tail ++ [0]) ⟨s.width.args ++ (s.precision.args ++ args), out⟩ =
      .ok ((s.width.value, c :: l ++ [0]), ⟨s.precision.args ++ args, out⟩) := by
    rw [Spec.tail, hhead]
    refine parseNumber_text ?_ hdigit hstar _ out
    intro ds hds
    exact ⟨(hs.width ds hds).1, (hs.width ds hds).2.2⟩
  obtain ⟨d, l', htail, -, hd⟩ := exists_head_tail hs
  obtain ⟨htake, hdrop⟩ := takeWhile_of_head (l := l') hs.flags hd
  rw [← htail] at htake hdrop
  rw [← hdrop] at hwidth
  have hprec := parsePrecision_text hs args out
  rw [hhead] at hprec
  have hparse := parseConversion_eq hwidth hprec
  rw [htake, lengthModifier_text] at hparse
  exact hparse

/-- The conversion of one specification. -/
theorem vprintf_spec {a : Arg} (ha : a.kind = s.type.kind) (out : List UInt8) :
    vprintf s.format ⟨s.width.args ++ (s.precision.args ++ [a]), out⟩ =
      .ok ((), ⟨[], out ++ integerText (s.conv.value s.type a).natAbs s.conv.isSigned (s.conv.value s.type a < 0)
        s.conv.base (conversionOf s.flags s.width.value (precInt s.prec) s.type)⟩) := by
  have hparse := parseConversion_spec hs [a] out
  obtain ⟨d, l, hd, hpercent⟩ : ∃ d l, s.flags ++ s.tail ++ [0] = d :: l ∧ d ≠ 0x25 := by
    obtain ⟨d, l, htail, hpercent, -⟩ := exists_head_tail hs
    rw [htail]
    cases hf : s.flags with
    | nil => exact ⟨d, _, rfl, hpercent⟩
    | cons f fs =>
      refine ⟨f, _, rfl, ?_⟩
      rintro rfl
      exact absurd (hs.flags 0x25 (by rw [hf]; exact mem_cons_self)) (by decide)
  rw [hd] at hparse
  rw [vprintf, Spec.format, cons_append, hd, length_cons, vprintfLoop, if_neg (by decide), if_neg (by decide),
    if_neg hpercent]
  refine Eq.trans (bind_of_ok hparse) ?_
  refine Eq.trans (bind_of_ok (convert_int s.conv ha [] out)) ?_
  rfl

end

/-! ## What the text should be -/

/-- The flags that are given. -/
def given (fs : List UInt8) : Flags :=
  ⟨decide (0x2d ∈ fs), decide (0x2b ∈ fs), decide (0x20 ∈ fs), decide (0x23 ∈ fs), decide (0x30 ∈ fs),
    decide (0x27 ∈ fs)⟩

/-- The sign of a signed conversion. -/
def signText (k : IntConv) (f : Flags) (v : Int) : List UInt8 :=
  if k.isSigned = false then []
  else if v < 0 then [0x2d]
  else if f.plus then [0x2b]
  else if f.space then [0x20]
  else []

/-- `0x` and `0X`. -/
def IntConv.mark : IntConv → List UInt8
  | .x => [0x30, 0x78]
  | .upperX => [0x30, 0x58]
  | _ => []

/-- The mark of a hexadecimal number that is not zero. -/
def markText (k : IntConv) (f : Flags) (v : Int) : List UInt8 := if f.pound = true ∧ v ≠ 0 then k.mark else []

section
variable (s : Spec) (a : Arg)

/-- The value that is printed. -/
def Spec.value : Int := s.conv.value s.type a

def Spec.sign : List UInt8 := signText s.conv (given s.flags) (s.value a)

def Spec.mark : List UInt8 := markText s.conv (given s.flags) (s.value a)

def Spec.numeral : List UInt8 :=
  Printf.numeral s.conv.base (given s.flags) (precInt s.prec) (s.value a).natAbs

/-- The digits of the magnitude and their commas, from the right. -/
def Spec.digits : List UInt8 :=
  marks s.conv.base (given s.flags).group 0 (lowDigits s.conv.base (s.value a).natAbs)

/-- The length without padding. -/
def Spec.plainLength : Nat := (s.numeral a).length + (s.mark a).length + (s.sign a).length

/-- The numeral denotes the magnitude, has at least as many digits and commas as
the precision asks for, no zero more than needed, and commas between groups. -/
structure Spec.NumeralRight : Prop where
  value : ∀ zeros, valueOf s.conv.base (replicate zeros 0x30 ++ s.numeral a) = (s.value a).natAbs
  digits : ∃ zeros text, s.numeral a = replicate zeros 0x30 ++ text ∧
    zeros = max (s.prec.getD 1 - text.length) (if 0x23 ∈ s.flags ∧ s.conv = .o then 1 else 0) ∧
    (∀ c, text.head? = some c → c ≠ 0x30 ∧ c ≠ 0x2c) ∧ Grouped s.conv.base (given s.flags).group text

/-- Sign, mark and numeral with padding up to the width and no further; the
zeros in front count for the groups. -/
structure Spec.TextRight (text : List UInt8) : Prop where
  shape : ∃ before zeros after, text = replicate before 0x20 ++ s.sign a ++ s.mark a ++
    replicate zeros 0x30 ++ s.numeral a ++ replicate after 0x20 ∧
    Grouped s.conv.base (given s.flags).group (replicate zeros 0x30 ++ s.numeral a)
  length : text.length = max s.width.value.natAbs (s.plainLength a)

end

/-! ## The flags of a conversion -/

theorem foldl_addFlag {fs : List UInt8} (h : ∀ c ∈ fs, isFlag c = true) : ∀ f : Flags, fs.foldl addFlag f =
    ⟨f.minus || (given fs).minus, f.plus || (given fs).plus, f.space || (given fs).space,
      f.pound || (given fs).pound, f.zero || (given fs).zero, f.group || (given fs).group⟩ := by
  induction fs with
  | nil =>
    intro f
    simp [given]
  | cons c fs ih =>
    intro f
    have hc := h c mem_cons_self
    rw [foldl_cons, ih (fun e he => h e (mem_cons_of_mem c he))]
    simp only [isFlag, mem_cons, not_mem_nil, or_false, decide_eq_true_eq] at hc
    rcases hc with rfl | rfl | rfl | rfl | rfl | rfl <;> simp [given, addFlag, setFlag]

/-- The conversion that `parse_conversion` makes of a specification. -/
theorem conversionOf_eq {fs : List UInt8} (h : ∀ c ∈ fs, isFlag c = true) (w p : Int) (t : ArgType) :
    conversionOf fs w p t =
      ⟨⟨(given fs).minus || decide (w < 0), (given fs).plus, (given fs).space && !(given fs).plus, (given fs).pound,
        (given fs).zero && !(given fs).minus && decide (p < 0), (given fs).group⟩,
        if w < 0 then int32 (-w) else w, p, t⟩ := by
  have hflags := foldl_addFlag h noFlags
  simp only [noFlags, Bool.false_or] at hflags
  rw [conversionOf, noFlags, hflags]
  generalize given fs = g
  obtain ⟨minus, plus, space, pound, zero, group⟩ := g
  by_cases hw : w < 0 <;> by_cases hp : p < 0 <;> cases minus <;> cases plus <;>
    simp [setWidth, overrideFlags, hw, hp, not_le.mpr, not_lt.mp]

theorem signChar_eq (k : IntConv) (v : Int) {f g : Flags} (hplus : f.plus = g.plus)
    (hspace : f.space = (g.space && !g.plus)) : signChar k.isSigned (v < 0) f = signText k g v := by
  rw [signChar, signText, hplus, hspace]
  by_cases hv : v < 0 <;> cases k.isSigned <;> cases g.plus <;> cases g.space <;> simp [hv]

theorem hexMark_eq (k : IntConv) (v : Int) {f g : Flags} (hpound : f.pound = g.pound) :
    hexMark k.base f v.natAbs = markText k g v := by
  rw [hexMark, markText, hpound]
  by_cases hv : v = 0
  · simp [hv]
  · cases g.pound <;> cases k <;> simp [IntConv.base, IntConv.mark, baseD, baseO, baseX, baseUpperX, hv]

/-! ## The text -/

section
variable {s : Spec} (hs : s.WellFormed)
include hs

theorem width_range : -2 ^ 31 ≤ s.width.value ∧ s.width.value < 2 ^ 31 := by
  cases hw : s.width with
  | none => exact ⟨by decide, by decide⟩
  | digits ds =>
    have hlt := (hs.width ds hw).2.2
    change -2 ^ 31 ≤ (decimalValue ds : Int) ∧ (decimalValue ds : Int) < 2 ^ 31
    omega
  | star v =>
    have h1 := BitVec.le_toInt v
    have h2 : v.toInt < 2 ^ 31 := BitVec.toInt_lt
    exact ⟨h1, h2⟩

theorem prec_le : s.prec.getD 1 ≤ 63 := by
  have hle := hs.le
  rw [Spec.prec]
  cases hp : s.precision with
  | none => decide
  | digits ds =>
    rw [hp] at hle
    dsimp only
    split
    · decide
    · rw [Option.getD_some]
      omega
  | star v =>
    rw [hp] at hle
    dsimp only
    split
    · decide
    · rw [Option.getD_some]
      omega

theorem min_precInt : (min (if precInt s.prec < 0 then 1 else precInt s.prec) 63).toNat = s.prec.getD 1 := by
  have hle := prec_le hs
  cases hp : s.prec with
  | none => decide
  | some p =>
    rw [hp, Option.getD_some] at hle
    have hnn : ¬precInt (some p) < 0 := by
      rw [precInt]
      omega
    rw [if_neg hnn, precInt, Option.getD_some]
    omega

/-- The numeral, as zeros and the digits with their commas. -/
theorem numeral_eq (a : Arg) :
    s.numeral a = replicate (max (s.prec.getD 1 - (s.digits a).length)
      (if 0x23 ∈ s.flags ∧ s.conv = .o then 1 else 0)) 0x30 ++ (s.digits a).reverse := by
  have hoct : ((given s.flags).pound = true ∧ s.conv.base.base = 8) ↔ (0x23 ∈ s.flags ∧ s.conv = .o) := by
    have hbase : s.conv.base.base = 8 ↔ s.conv = .o := by
      cases s.conv <;> simp [IntConv.base, baseD, baseO, baseX, baseUpperX]
    rw [hbase, given, decide_eq_true_iff]
  rw [Spec.numeral, numeral, zeroCnt, min_precInt hs]
  simp only [hoct]
  rfl

theorem numeralRight {a : Arg} : s.NumeralRight a := by
  refine ⟨fun zeros => value_numeral s.conv.isBase _ _ _ zeros, ?_⟩
  refine ⟨_, _, numeral_eq hs a, by rw [length_reverse], ?_, ?_⟩
  · intro c hc
    rw [head?_reverse, Spec.digits, getLast?_marks] at hc
    refine ⟨?_, lowDigits_ne_comma s.conv.isBase (mem_of_getLast? hc)⟩
    rintro rfl
    exact getLast?_lowDigits s.conv.isBase _ hc
  · refine (grouped_iff s.conv.isBase _ _ 0).2 ?_
    rintro ⟨-, hlong⟩
    exact absurd (Nat.mod_lt _ (Nat.succ_pos _)) (Nat.not_lt.2 hlong)

theorem plainLength_le (a : Arg) : s.plainLength a ≤ 110 := by
  have hv : (s.value a).natAbs < 2 ^ 64 := by
    rw [Spec.value, IntConv.value]
    split
    · exact signedValue_natAbs_lt _ _
    · rw [Int.natAbs_natCast]
      exact unsignedValue_lt _ _
  have hdigits := length_lowDigits_le s.conv.isBase.ge hv
  have hmarks : (s.digits a).length ≤ _ := length_marks_le _ _ _ 0
  have hprec := prec_le hs
  have hnum : (s.numeral a).length ≤ 63 + 44 := by
    rw [numeral_eq hs a, length_append, length_replicate, length_reverse]
    have hone : (if 0x23 ∈ s.flags ∧ s.conv = .o then 1 else 0) ≤ 1 := by split <;> omega
    omega
  have hmark : (s.mark a).length ≤ 2 := by
    rw [Spec.mark, markText]
    split
    · cases s.conv <;> decide
    · decide
  have hsign : (s.sign a).length ≤ 1 := by
    rw [Spec.sign, signText]
    split_ifs <;> decide
  rw [Spec.plainLength]
  omega

/-- The number of pad characters. The smallest width has no absolute value of
type `int`, but the subtraction wraps too. -/
theorem padCnt_eq (a : Arg) :
    (int32 ((if s.width.value < 0 then int32 (-s.width.value) else s.width.value) - (s.numeral a).length -
        (s.mark a).length - (s.sign a).length)).toNat =
      if s.width.value = -2 ^ 31 ∧ s.plainLength a = 0 then 0 else s.width.value.natAbs - s.plainLength a := by
  obtain ⟨hlo, hhi⟩ := width_range hs
  have hlen := plainLength_le hs a
  have hsub : ∀ x : Int, x - (s.numeral a).length - (s.mark a).length - (s.sign a).length = x - s.plainLength a := by
    intro x
    rw [Spec.plainLength]
    omega
  rw [hsub]
  generalize s.plainLength a = len at *
  generalize s.width.value = w at *
  by_cases hmin : w = -2 ^ 31
  · subst hmin
    have hwidth : (if (-2 ^ 31 : Int) < 0 then int32 (-(-2 ^ 31)) else -2 ^ 31) = -2 ^ 31 := by decide
    rw [hwidth]
    by_cases h0 : len = 0
    · subst h0
      decide
    · have hwrap : int32 (-2 ^ 31 - len) = 2 ^ 31 - len := by
        have hself : int32 (-2 ^ 31 - len + 2 ^ 32) = int32 (-2 ^ 31 - len) := Int.add_bmod_right _ _
        rw [← hself, int32_of_lt (by omega) (by omega)]
        omega
      rw [hwrap, if_neg (fun h => h0 h.2)]
      omega
  · have hwidth : (if w < 0 then int32 (-w) else w) = w.natAbs := by
      by_cases hneg : w < 0
      · rw [if_pos hneg, int32_of_lt (by omega) (by omega)]
        omega
      · rw [if_neg hneg]
        omega
    rw [hwidth, int32_of_lt (by omega) (by omega), if_neg (fun h => hmin h.1)]
    omega

end

/-- Spaces go to the right. -/
def Spec.Left (s : Spec) : Prop := 0x2d ∈ s.flags ∨ s.width.value < 0

/-- Zeros are added. -/
def Spec.Zeros (s : Spec) : Prop := 0x30 ∈ s.flags ∧ 0x2d ∉ s.flags ∧ s.prec = none

instance (s : Spec) : Decidable s.Left := inferInstanceAs (Decidable (_ ∨ _))
instance (s : Spec) : Decidable s.Zeros := inferInstanceAs (Decidable (_ ∧ _))

def Spec.padCnt (s : Spec) (a : Arg) : Nat :=
  if s.width.value = -2 ^ 31 ∧ s.plainLength a = 0 then 0 else s.width.value.natAbs - s.plainLength a

/-- The zeros before the digits: from the flag `0`, the precision and `#`. -/
def Spec.zeroCnt (s : Spec) (a : Arg) : Nat :=
  (if s.Zeros then s.padCnt a else 0) +
    max (s.prec.getD 1 - (s.digits a).length) (if 0x23 ∈ s.flags ∧ s.conv = .o then 1 else 0)

/-- With them the first group is too long. -/
def Spec.LongGroup (s : Spec) (a : Arg) : Prop :=
  0x27 ∈ s.flags ∧ s.conv.base.group < (s.digits a).length % (s.conv.base.group + 1) + s.zeroCnt a

theorem grouped_text_iff {s : Spec} (hs : s.WellFormed) (a : Arg) :
    Grouped s.conv.base (given s.flags).group (replicate (if s.Zeros then s.padCnt a else 0) 0x30 ++ s.numeral a) ↔
      ¬s.LongGroup a := by
  rw [numeral_eq hs a, ← append_assoc, replicate_append_replicate]
  refine (grouped_iff s.conv.isBase _ _ _).trans (not_congr (and_congr_left fun _ => ?_))
  rw [given, decide_eq_true_iff]

theorem precInt_neg {p : Option Nat} : precInt p < 0 ↔ p = none := by
  cases p with
  | none => exact iff_of_true (by decide) rfl
  | some p =>
    refine iff_of_false ?_ (fun h => by cases h)
    rw [precInt]
    omega

/-- The text of a specification: padding goes to one side, unless zeros and
spaces are both added. -/
theorem integerText_spec {s : Spec} (hs : s.WellFormed) (a : Arg) :
    integerText (s.value a).natAbs s.conv.isSigned (s.value a < 0) s.conv.base
        (conversionOf s.flags s.width.value (precInt s.prec) s.type) =
      replicate (if s.Left ∨ s.Zeros then 0 else s.padCnt a) 0x20 ++ s.sign a ++ s.mark a ++
        replicate (if s.Zeros then s.padCnt a else 0) 0x30 ++ s.numeral a ++
        replicate (if s.Left then s.padCnt a else 0) 0x20 := by
  have hpad : _ = s.padCnt a := padCnt_eq hs a
  have hleft : ((given s.flags).minus || decide (s.width.value < 0)) = decide s.Left := by
    rw [Bool.eq_iff_iff, decide_eq_true_iff (p := s.Left)]
    simp only [given, Spec.Left, Bool.or_eq_true, decide_eq_true_eq]
  have hzeros : ((given s.flags).zero && !(given s.flags).minus && decide (precInt s.prec < 0)) = decide s.Zeros := by
    rw [Bool.eq_iff_iff, decide_eq_true_iff (p := s.Zeros)]
    simp only [given, Spec.Zeros, precInt_neg, Bool.and_eq_true, Bool.not_eq_true', decide_eq_true_eq,
      decide_eq_false_iff_not, and_assoc]
  rw [conversionOf_eq hs.flags, hleft, hzeros]
  generalize hf : (⟨decide s.Left, (given s.flags).plus, (given s.flags).space && !(given s.flags).plus,
    (given s.flags).pound, decide s.Zeros, (given s.flags).group⟩ : Flags) = f
  have hsign : signChar s.conv.isSigned (s.value a < 0) f = s.sign a :=
    signChar_eq s.conv (s.value a) (by rw [← hf]) (by rw [← hf])
  have hmark : hexMark s.conv.base f (s.value a).natAbs = s.mark a := hexMark_eq s.conv (s.value a) (by rw [← hf])
  have hnum : numeral s.conv.base f (precInt s.prec) (s.value a).natAbs = s.numeral a := by
    rw [← hf]
    rfl
  have hminus : f.minus = decide s.Left := by rw [← hf]
  have hzero : f.zero = decide s.Zeros := by rw [← hf]
  rw [integerText]
  dsimp only
  rw [hsign, hmark, hnum, hpad, hminus, hzero]
  by_cases h1 : s.Left <;> by_cases h2 : s.Zeros <;> simp [h1, h2]

/-- The flag `0` without `-`, and a negative width from an argument: both
zeros and spaces are added. -/
def Spec.PadsTwice (s : Spec) : Prop := 0x30 ∈ s.flags ∧ 0x2d ∉ s.flags ∧ s.width.value < 0 ∧ s.prec = none

/-- The length of the text, and when it is the one that is asked for. -/
theorem length_text_iff (s : Spec) (a : Arg) :
    s.plainLength a + (if s.Left ∨ s.Zeros then 0 else s.padCnt a) + (if s.Zeros then s.padCnt a else 0) +
        (if s.Left then s.padCnt a else 0) = max s.width.value.natAbs (s.plainLength a) ↔
      ¬(s.PadsTwice ∧ s.plainLength a < s.width.value.natAbs) ∧
        ¬(s.width.value = -2 ^ 31 ∧ s.plainLength a = 0) := by
  by_cases hmin : s.width.value = -2 ^ 31 ∧ s.plainLength a = 0
  · have hpad : s.padCnt a = 0 := if_pos hmin
    refine iff_of_false ?_ (fun h => h.2 hmin)
    rw [hpad, hmin.2, hmin.1]
    simp
  have hpad : s.padCnt a = s.width.value.natAbs - s.plainLength a := if_neg hmin
  rw [and_iff_left hmin, hpad]
  by_cases htwice : s.PadsTwice
  · obtain ⟨hzero, hminus, hneg, hprec⟩ := htwice
    have h1 : s.Left := .inr hneg
    have h2 : s.Zeros := ⟨hzero, hminus, hprec⟩
    rw [if_pos (.inl h1), if_pos h2, if_pos h1, and_iff_right ⟨hzero, hminus, hneg, hprec⟩]
    omega
  · refine iff_of_true ?_ (fun h => htwice h.1)
    by_cases h1 : s.Left
    · have h2 : ¬s.Zeros := by
        rintro ⟨hzero, hminus, hprec⟩
        rcases h1 with h1 | h1
        · exact hminus h1
        · exact htwice ⟨hzero, hminus, h1, hprec⟩
      rw [if_pos (.inl h1), if_neg h2, if_pos h1]
      omega
    · by_cases h2 : s.Zeros
      · rw [if_pos (.inr h2), if_pos h2, if_neg h1]
        omega
      · rw [if_neg (not_or.mpr ⟨h1, h2⟩), if_neg h2, if_neg h1]
        omega

/-- The text is right exactly if the conversion does not pad twice, or has
nothing to pad, and the zeros in front of grouped digits fit in the first
group; the smallest width of all also fails for the empty numeral. -/
theorem integer_text_iff (s : Spec) (hs : s.WellFormed) (a : Arg) (ha : a.kind = s.type.kind) (out : List UInt8) :
    s.NumeralRight a ∧
      ((∃ text, vprintf s.format ⟨s.width.args ++ (s.precision.args ++ [a]), out⟩ = .ok ((), ⟨[], out ++ text⟩) ∧
          s.TextRight a text) ↔
        (¬(s.PadsTwice ∧ s.plainLength a < s.width.value.natAbs) ∧
          ¬(s.width.value = -2 ^ 31 ∧ s.plainLength a = 0)) ∧ ¬s.LongGroup a) := by
  refine ⟨numeralRight hs, ?_⟩
  have hrun := vprintf_spec hs ha out
  have hspec := integerText_spec hs a
  rw [Spec.value] at hspec
  generalize integerText _ _ _ _ _ = text at hspec hrun
  have hlen : text.length = s.plainLength a + (if s.Left ∨ s.Zeros then 0 else s.padCnt a) +
      (if s.Zeros then s.padCnt a else 0) + (if s.Left then s.padCnt a else 0) := by
    rw [hspec, Spec.plainLength]
    simp only [length_append, length_replicate]
    omega
  rw [← length_text_iff s a, ← hlen, ← grouped_text_iff hs a]
  refine ⟨?_, fun h => ⟨text, hrun, ⟨_, _, _, hspec, h.2⟩, h.1⟩⟩
  rintro ⟨t, ht, ⟨before, zeros, after, hshape, hgroups⟩, hlength⟩
  have heq := ht.symm.trans hrun
  injection heq with heq
  injection heq with _ heq
  injection heq with _ heq
  obtain rfl := append_cancel_left heq
  -- the text has only one number of zeros in front of the numeral
  have hzeros := congrArg (count 0x30) (hshape.symm.trans hspec)
  simp only [count_append, count_replicate_self, count_replicate, show ((0x20 : UInt8) == 0x30) = false from rfl,
    Bool.false_eq_true, if_false] at hzeros
  rw [show zeros = if s.Zeros then s.padCnt a else 0 by omega] at hgroups
  exact ⟨hlength, hgroups⟩

/-- `%5d` of 42. -/
theorem integer_text_iff_five : ∃ text, vprintf (ascii "%5d") ⟨[.word 42], []⟩ = .ok ((), ⟨[], [] ++ text⟩) ∧
    Spec.TextRight ⟨[], .digits [0x35], .none, .int, .d⟩ (.word 42) text := by
  have hwf : Spec.WellFormed ⟨[], .digits [0x35], .none, .int, .d⟩ := by
    constructor
    · exact fun c hc => absurd hc not_mem_nil
    · rintro ds h
      cases h
      refine ⟨fun c hc => ?_, by decide, by decide⟩
      rw [mem_singleton.mp hc]
      decide
    · intro ds h
      cases h
    · decide
  refine (integer_text_iff ⟨[], .digits [0x35], .none, .int, .d⟩ hwf (.word 42) rfl []).2.mpr ⟨⟨?_, ?_⟩, ?_⟩
  · rintro ⟨⟨h, -⟩, -⟩
    exact absurd h not_mem_nil
  · rintro ⟨h, -⟩
    exact absurd h (by decide)
  · rintro ⟨h, -⟩
    exact absurd h not_mem_nil

-- the zeros of the flag `0` make the first group too long
example : vprintf (ascii "%'012d") ⟨[.word 1234567], []⟩ = .ok ((), ⟨[], ascii "0001,234,567"⟩) := by decide

/-- `%0*d` with the width -5: the text of 42 has eight characters. -/
theorem star_width_pads_twice :
    vprintf (ascii "%0*d") ⟨[.word (-5), .word 42], []⟩ = .ok ((), ⟨[], ascii "00042   "⟩) ∧
      ¬Spec.TextRight ⟨[0x30], .star (-5), .none, .int, .d⟩ (.word 42) (ascii "00042   ") := by
  refine ⟨by decide, fun h => ?_⟩
  have hlen : (ascii "00042   ").length = max (Number.value (.star (-5))).natAbs
      (Spec.plainLength ⟨[0x30], .star (-5), .none, .int, .d⟩ (.word 42)) := h.length
  have hplain : Spec.plainLength ⟨[0x30], .star (-5), .none, .int, .d⟩ (.word 42) ≤ 5 := by
    have hvalue : Spec.value ⟨[0x30], .star (-5), .none, .int, .d⟩ (.word 42) = 42 := by decide
    have hdigits : lowDigits baseD 42 = [0x32, 0x34] := by
      rw [lowDigits, show Nat.digits baseD.base 42 = [2, 4] by norm_num [baseD]]
      decide
    rw [Spec.plainLength, Spec.numeral, Spec.mark, Spec.sign, hvalue, numeral]
    change (replicate _ _ ++ reverse (marks baseD _ 0 (lowDigits baseD 42))).length + _ + _ ≤ 5
    rw [hdigits]
    decide
  rw [show (ascii "00042   ").length = 8 by decide] at hlen
  have hwidth : (Number.value (.star (-5))).natAbs = 5 := by decide
  rw [hwidth] at hlen
  omega

/-! ## The buffer -/

/-- `c->width - (cp - buf) - (x ? 2 : 0) - (sign != 0)`, one subtraction of type
`int` after the other.
mirrors lib/stdio.c:527 -/
def padCount (width : Int) (len x sign : Nat) : Except Pintos.Lib.Stop Int := do
  let pad ← Pintos.Lib.int (width - len)
  let pad ← Pintos.Lib.int (pad - x)
  Pintos.Lib.int (pad - sign)

theorem padCount_eq {width : Int} {len x sign : Nat} (h0 : 0 ≤ width) (hmax : width ≤ 2 ^ 31 - 1) (hlen : len ≤ 64)
    (hx : x ≤ 2) (hsign : sign ≤ 1) : padCount width len x sign = .ok (width - len - x - sign) := by
  have hint : ∀ v : Int, -67 ≤ v → v ≤ 2 ^ 31 - 1 → Pintos.Lib.int v = .ok v := fun v h1 h2 => if_pos (by omega)
  rw [padCount, hint (width - len) (by omega) (by omega)]
  change (Pintos.Lib.int (width - len - x) >>= fun pad => Pintos.Lib.int (pad - sign)) = _
  rw [hint (width - len - x) (by omega) (by omega)]
  exact hint _ (by omega) (by omega)

theorem length_signChar_le (isSigned negative : Bool) (f : Flags) : (signChar isSigned negative f).length ≤ 1 := by
  cases isSigned <;> cases negative <;> cases hp : f.plus <;> cases hs : f.space <;> simp [signChar, hp, hs]

/-- For each value, base, flags and precision `format_integer` returns, with at
most 64 characters in `buf`; the width may be any that is not negative. -/
theorem digit_buffer_bound (value : BitVec 64) (isSigned negative : Bool) (b : IntegerBase)
    (hb : b ∈ [baseD, baseO, baseX, baseUpperX]) (c : Conversion) (hwidth : 0 ≤ c.width ∧ c.width ≤ 2 ^ 31 - 1)
    (s : St) : ∃ buf pad text, fillBuffer value.toNat b c s = .ok (buf, s) ∧ buf.length ≤ 64 ∧
      padCount c.width buf.length (hexMark b c.flags value.toNat).length
        (signChar isSigned negative c.flags).length = .ok pad ∧
      formatInteger value.toNat isSigned negative b c s = .ok ((), { s with out := s.out ++ text }) := by
  have hbase : IsBase b := by
    simp only [mem_cons, not_mem_nil, or_false] at hb
    rcases hb with rfl | rfl | rfl | rfl
    · exact isBase_D
    · exact isBase_O
    · exact isBase_X
    · exact isBase_upperX
  have hdigits := length_digits_le hbase c.flags.group value.isLt
  have hlen : ∀ n : Nat, n ≤ 44 → n + zeroCnt b c.flags.pound c.precision n ≤ 64 := fun n hn => by
    have hone : (if c.flags.pound = true ∧ b.base = 8 then 1 else 0) ≤ 1 := by split <;> omega
    rw [zeroCnt]
    omega
  have hx : (hexMark b c.flags value.toNat).length ≤ 2 := by
    rw [hexMark]
    split <;> simp
  refine ⟨_, _, _, fillBuffer_eq hbase value.isLt c s, ?_, padCount_eq hwidth.1 hwidth.2 ?_ hx
    (length_signChar_le _ _ _), formatInteger_eq hbase value.isLt isSigned negative c s⟩
  · rw [length_append, length_replicate]
    exact hlen _ hdigits
  · rw [length_append, length_replicate]
    exact hlen _ hdigits

/-- The largest value in octal, with the largest width and precision. -/
theorem digit_buffer_bound_octal : baseO ∈ [baseD, baseO, baseX, baseUpperX] ∧ ∃ buf pad text,
    fillBuffer (2 ^ 64 - 1) baseO ⟨noFlags, 2 ^ 31 - 1, 2 ^ 31 - 1, .intmax⟩ ⟨[], []⟩ = .ok (buf, ⟨[], []⟩) ∧
      buf.length ≤ 64 ∧ padCount (2 ^ 31 - 1) buf.length 0 0 = .ok pad ∧
      formatInteger (2 ^ 64 - 1) false false baseO ⟨noFlags, 2 ^ 31 - 1, 2 ^ 31 - 1, .intmax⟩ ⟨[], []⟩ =
        .ok ((), ⟨[], text⟩) :=
  have hb : baseO ∈ [baseD, baseO, baseX, baseUpperX] := by simp
  ⟨hb, digit_buffer_bound (BitVec.allOnes 64) false false baseO hb _ (by decide) ⟨[], []⟩⟩

end Pintos.Printf
