import Pintos.L2Code.Printf

/-!
# What the parts of `__vprintf` do

* `formatInteger_eq`: the characters that `format_integer` outputs, as one
  list; `buf` is large enough for every value.
* `parseConversion_eq`: `parse_conversion` never reads beyond the terminator.
  What it consumes of the format and of the arguments is said by functions of
  the format alone.
-/
namespace Pintos.Printf
open Pintos.Core Pintos.Stdio List
open Pintos.Lib (isdigit)

/-! ## Digits -/

/-- The digits of a value, the lowest first. -/
def lowDigits (b : IntegerBase) (value : Nat) : List UInt8 :=
  (Nat.digits b.base value).map fun d => b.digits.getD d 0

/-- Digits with a comma before each group but the first; `n` digits came
before. -/
def marks (b : IntegerBase) (group : Bool) : Nat → List UInt8 → List UInt8
  | _, [] => []
  | n, d :: ds => (if group = true ∧ n > 0 ∧ n % b.group = 0 then [0x2c] else []) ++ d :: marks b group (n + 1) ds

theorem length_marks_le (b : IntegerBase) (group : Bool) (ds : List UInt8) : ∀ n,
    (marks b group n ds).length ≤ 2 * ds.length := by
  induction ds with
  | nil => exact fun n => Nat.le_refl _
  | cons d ds ih =>
    intro n
    have hrest := ih (n + 1)
    rw [marks, length_append, length_cons, length_cons]
    by_cases h : group = true ∧ n > 0 ∧ n % b.group = 0
    · rw [if_pos h, length_singleton]
      omega
    · rw [if_neg h, length_nil]
      omega

/-- Without the flag there are no commas. -/
theorem marks_false (b : IntegerBase) (ds : List UInt8) : ∀ n, marks b false n ds = ds := by
  induction ds with
  | nil => exact fun n => rfl
  | cons d ds ih =>
    intro n
    rw [marks, if_neg (fun hall => by cases hall.1), ih (n + 1), nil_append]

theorem put_eq {buf : List UInt8} (h : buf.length < 64) (c : UInt8) (s : St) : put buf c s = .ok (buf ++ [c], s) := by
  rw [put, if_pos h]
  rfl

theorem putComma_eq {b : IntegerBase} {group : Bool} {n : Nat} {buf : List UInt8} (h : buf.length < 64) (s : St) :
    putComma b group n buf s = .ok (buf ++ if group = true ∧ n > 0 ∧ n % b.group = 0 then [0x2c] else [], s) := by
  rw [putComma]
  by_cases hc : group = true ∧ n > 0 ∧ n % b.group = 0
  · rw [if_pos hc, if_pos hc, put_eq h]
  · rw [if_neg hc, if_neg hc, append_nil]
    rfl

/-- The loop writes the digits of `value`. The induction is on the steps; the
room in `buf` is enough for two characters a digit. -/
theorem digitLoop_eq {b : IntegerBase} (hb : 1 < b.base) (group : Bool) (m : Nat) : ∀ (n value : Nat) (buf : List UInt8)
    (s : St), (lowDigits b value).length < m → buf.length + 2 * (lowDigits b value).length < 64 →
    digitLoop b group m n value buf s = .ok (buf ++ marks b group n (lowDigits b value), s) := by
  induction m with
  | zero =>
    intro n value buf s hm
    exact absurd hm (Nat.not_lt_zero _)
  | succ m ih =>
    intro n value buf s hm hroom
    rw [digitLoop]
    by_cases hv : value > 0
    · have hdigits : lowDigits b value = b.digits.getD (value % b.base) 0 :: lowDigits b (value / b.base) := by
        rw [lowDigits, Nat.digits_def' hb hv]
        rfl
      rw [hdigits, length_cons] at hm hroom
      rw [if_pos hv, bind_of_ok (putComma_eq (by omega) s), hdigits, marks]
      have hlen : (buf ++ if group = true ∧ n > 0 ∧ n % b.group = 0 then [0x2c] else []).length ≤ buf.length + 1 := by
        rw [length_append]
        by_cases hc : group = true ∧ n > 0 ∧ n % b.group = 0
        · rw [if_pos hc, length_singleton]
        · rw [if_neg hc, length_nil]
          omega
      generalize (if group = true ∧ n > 0 ∧ n % b.group = 0 then [(0x2c : UInt8)] else []) = comma at *
      rw [bind_of_ok (put_eq (by omega) _ s), ih _ _ _ _ (by omega) (by
        rw [length_append, length_singleton]
        omega)]
      simp only [append_assoc, cons_append, nil_append]
    · have h0 : value = 0 := by omega
      rw [if_neg hv, h0, lowDigits, Nat.digits_zero]
      simp only [map_nil, marks, append_nil]
      rfl

/-- A 64-bit value has at most 22 digits. -/
theorem length_lowDigits_le {b : IntegerBase} (hb : 8 ≤ b.base) {value : Nat} (hv : value < 2 ^ 64) :
    (lowDigits b value).length ≤ 22 := by
  rw [lowDigits, length_map]
  refine (Nat.digits_length_le_iff (by omega) value).mpr (Nat.lt_of_lt_of_le hv ?_)
  calc 2 ^ 64 ≤ 8 ^ 22 := by decide
    _ ≤ b.base ^ 22 := Nat.pow_le_pow_left hb 22

/-! ## `format_integer` -/

/-- What the four bases have in common. -/
structure IsBase (b : IntegerBase) : Prop where
  ge : 8 ≤ b.base
  length : b.digits.length = b.base
  nodup : b.digits.Nodup
  zero : b.digits.getD 0 0 = 0x30
  comma : 0x2c ∉ b.digits
  group : 0 < b.group

theorem isBase_D : IsBase baseD := by constructor <;> decide
theorem isBase_O : IsBase baseO := by constructor <;> decide
theorem isBase_X : IsBase baseX := by constructor <;> decide
theorem isBase_upperX : IsBase baseUpperX := by constructor <;> decide

theorem IsBase.digit_mem {b : IntegerBase} (hb : IsBase b) {d : Nat} (hd : d < b.base) :
    b.digits.getD d 0 ∈ b.digits := by
  have hlt : d < b.digits.length := by rw [hb.length]; exact hd
  rw [getD_eq_getElem _ _ hlt]
  exact getElem_mem hlt

/-- Only the digit zero is written as one. -/
theorem IsBase.digit_zero {b : IntegerBase} (hb : IsBase b) {d : Nat} (hd : d < b.base)
    (h : b.digits.getD d 0 = 0x30) : d = 0 := by
  have hlt : d < b.digits.length := by rw [hb.length]; exact hd
  have h0 : 0 < b.digits.length := by omega
  have hz := hb.zero
  rw [getD_eq_getElem _ _ h0] at hz
  rw [getD_eq_getElem _ _ hlt] at h
  exact (Nodup.getElem_inj_iff hb.nodup).mp (h.trans hz.symm)

theorem getLast?_marks (b : IntegerBase) (group : Bool) (ds : List UInt8) : ∀ n,
    (marks b group n ds).getLast? = ds.getLast? := by
  induction ds with
  | nil => exact fun n => rfl
  | cons d ds ih =>
    intro n
    rw [marks, getLast?_append, getLast?_cons, getLast?_cons, ih (n + 1), Option.some_or]

/-- The last of the digits, which is the highest, is not zero. -/
theorem getLast?_lowDigits {b : IntegerBase} (hb : IsBase b) (value : Nat) :
    (lowDigits b value).getLast? ≠ some 0x30 := by
  intro h
  rw [lowDigits, getLast?_map] at h
  obtain ⟨d, hd, hzero⟩ := Option.map_eq_some_iff.mp h
  have hmem : d ∈ Nat.digits b.base value := mem_of_getLast? hd
  have hlt : d < b.base := Nat.digits_lt_base (by have := hb.ge; omega) hmem
  obtain rfl := hb.digit_zero hlt hzero
  have hne : Nat.digits b.base value ≠ [] := ne_nil_of_mem hmem
  have hlast := Nat.getLast_digit_ne_zero b.base (m := value) (by
    rintro rfl
    exact hne (Nat.digits_zero _))
  rw [getLast?_eq_some_getLast hne] at hd
  exact hlast (Option.some.inj hd)

/-- How many zeros stand before the digits, if there are `len` characters of
digits and commas. -/
def zeroCnt (b : IntegerBase) (pound : Bool) (precision : Int) (len : Nat) : Nat :=
  max ((min (if precision < 0 then 1 else precision) 63).toNat - len) (if pound = true ∧ b.base = 8 then 1 else 0)

/-- The numeral: zeros, then digits and commas. -/
def numeral (b : IntegerBase) (f : Flags) (precision : Int) (value : Nat) : List UInt8 :=
  let digits := marks b f.group 0 (lowDigits b value)
  replicate (zeroCnt b f.pound precision digits.length) 0x30 ++ digits.reverse

/-- `0x` or `0X`. -/
def hexMark (b : IntegerBase) (f : Flags) (value : Nat) : List UInt8 :=
  if f.pound ∧ value ≠ 0 ∧ b.x ≠ 0 then [0x30, b.x] else []

/-- The output of `format_integer`. -/
def integerText (value : Nat) (isSigned negative : Bool) (b : IntegerBase) (c : Conversion) : List UInt8 :=
  let sign := signChar isSigned negative c.flags
  let x := hexMark b c.flags value
  let num := numeral b c.flags c.precision value
  let padCnt := (int32 (c.width - num.length - x.length - sign.length)).toNat
  (if c.flags.minus ∨ c.flags.zero then [] else replicate padCnt 0x20) ++ sign ++ x ++
    (if c.flags.zero then replicate padCnt 0x30 else []) ++ num ++
    (if c.flags.minus then replicate padCnt 0x20 else [])

theorem length_digits_le {b : IntegerBase} (hb : IsBase b) (group : Bool) {value : Nat} (hv : value < 2 ^ 64) :
    (marks b group 0 (lowDigits b value)).length ≤ 44 :=
  (length_marks_le b group _ 0).trans (Nat.mul_le_mul_left 2 (length_lowDigits_le hb.ge hv))

theorem precisionLoop_eq (precision : Int) (s : St) (n : Nat) {buf : List UInt8} (hlen : buf.length ≤ 63)
    (hn : 64 ≤ buf.length + n) : precisionLoop precision n buf s =
      .ok (buf ++ replicate ((min precision 63).toNat - buf.length) 0x30, s) := by
  induction n generalizing buf with
  | zero => omega
  | succ n ih =>
    rw [precisionLoop]
    by_cases hmore : buf.length < precision ∧ buf.length < 64 - 1
    · have hput : (buf ++ [(0x30 : UInt8)]).length = buf.length + 1 := by simp
      have hcnt : (min precision 63).toNat - buf.length = (min precision 63).toNat - (buf.length + 1) + 1 := by omega
      rw [if_pos hmore, bind_of_ok (put_eq (by omega) _ s), ih (by omega) (by omega), hput, hcnt, replicate_succ,
        append_assoc, singleton_append]
    · have hcnt : (min precision 63).toNat - buf.length = 0 := by omega
      rw [if_neg hmore, hcnt, replicate_zero, append_nil]
      rfl

theorem putOctal_eq {b : IntegerBase} (hb : IsBase b) (pound : Bool) (precision : Int) (group : Bool) {value : Nat}
    (hv : value < 2 ^ 64) (s : St) :
    let digits := marks b group 0 (lowDigits b value)
    putOctal b pound (digits ++
        replicate ((min (if precision < 0 then 1 else precision) 63).toNat - digits.length) 0x30) s =
      .ok (digits ++ replicate (zeroCnt b pound precision digits.length) 0x30, s) := by
  intro digits
  have hlen : digits.length ≤ 44 := length_digits_le hb group hv
  have hlast : digits.getLast? ≠ some 0x30 := by
    rw [getLast?_marks]
    exact getLast?_lowDigits hb value
  generalize digits = buf at *
  rw [zeroCnt]
  generalize hn : (min (if precision < 0 then 1 else precision) 63).toNat - buf.length = n
  have hn63 : buf.length + n < 64 := by omega
  by_cases hoct : pound = true ∧ b.base = 8
  · rw [if_pos hoct, putOctal]
    cases n with
    | zero =>
      rw [replicate_zero, append_nil, if_pos ⟨hoct.1, hoct.2, hlast⟩, put_eq (by omega)]
      rfl
    | succ n =>
      have hz : (buf ++ replicate (n + 1) 0x30).getLast? = some 0x30 := by
        rw [replicate_succ', ← append_assoc, getLast?_concat]
      rw [if_neg (fun h => h.2.2 hz), Nat.max_eq_left (by omega)]
      rfl
  · rw [if_neg hoct, putOctal, if_neg (fun h => hoct ⟨h.1, h.2.1⟩), Nat.max_eq_left (Nat.zero_le n)]
    rfl

theorem emit_eq (cs : List UInt8) (s : St) : emit cs s = .ok ((), { s with out := s.out ++ cs }) := rfl

theorem fillBuffer_eq {b : IntegerBase} (hb : IsBase b) {value : Nat} (hv : value < 2 ^ 64) (c : Conversion) (s : St) :
    let digits := marks b c.flags.group 0 (lowDigits b value)
    fillBuffer value b c s = .ok (digits ++ replicate (zeroCnt b c.flags.pound c.precision digits.length) 0x30, s) := by
  have hge := hb.ge
  have hdigits := length_lowDigits_le hge hv
  have hbase : 1 < b.base := by omega
  have hloop := digitLoop_eq hbase c.flags.group 65 0 value [] s (by omega) (by
    rw [length_nil]
    omega)
  rw [nil_append] at hloop
  have hlen := length_digits_le hb c.flags.group hv
  rw [fillBuffer, bind_of_ok hloop]
  have hzeros := precisionLoop_eq (if c.precision < 0 then 1 else c.precision) s 64
    (hlen.trans (by decide)) (Nat.le_add_left _ _)
  rw [bind_of_ok hzeros]
  exact putOctal_eq hb c.flags.pound c.precision c.flags.group hv s

/-- `format_integer` returns and outputs `integerText`. -/
theorem formatInteger_eq {b : IntegerBase} (hb : IsBase b) {value : Nat} (hv : value < 2 ^ 64)
    (isSigned negative : Bool) (c : Conversion) (s : St) :
    formatInteger value isSigned negative b c s =
      .ok ((), { s with out := s.out ++ integerText value isSigned negative b c }) := by
  rw [formatInteger]
  simp only [bind_of_ok (fillBuffer_eq hb hv c s), bind_of_ok (emit_eq _ _), emit_eq]
  have hrev : ∀ (l : List UInt8) (n : Nat),
      (l ++ replicate n 0x30).reverse = replicate n 0x30 ++ l.reverse := by
    intro l n
    rw [reverse_append, reverse_replicate]
  have hlen : ∀ (l : List UInt8) (n : Nat),
      (l ++ replicate n (0x30 : UInt8)).length = (replicate n (0x30 : UInt8) ++ l.reverse).length := by
    intro l n
    simp only [length_append, length_replicate, length_reverse]
    omega
  rw [integerText, numeral, hexMark, hrev, hlen]
  simp only [append_assoc]

/-! ## The options of a conversion -/

/-- The flag characters. -/
def isFlag (c : UInt8) : Bool := c ∈ [0x2d, 0x2b, 0x20, 0x23, 0x30, 0x27]

def addFlag (f : Flags) (c : UInt8) : Flags := (setFlag c f).getD f

theorem setFlag_of_isFlag {c : UInt8} (h : isFlag c = true) (f : Flags) : setFlag c f = some (addFlag f c) := by
  simp only [isFlag, mem_cons, not_mem_nil, or_false, decide_eq_true_eq] at h
  rcases h with rfl | rfl | rfl | rfl | rfl | rfl <;> rfl

theorem setFlag_of_not {c : UInt8} (h : isFlag c = false) (f : Flags) : setFlag c f = none := by
  simp only [isFlag, mem_cons, not_mem_nil, or_false, decide_eq_false_iff_not, not_or] at h
  obtain ⟨h1, h2, h3, h4, h5, h6⟩ := h
  rw [setFlag, if_neg h1, if_neg h2, if_neg h3, if_neg h4, if_neg h5, if_neg h6]

theorem parseFlags_eq (l : List UInt8) (s : St) : ∀ f,
    parseFlags f (l ++ [0]) s = .ok (((l.takeWhile isFlag).foldl addFlag f, l.dropWhile isFlag ++ [0]), s) := by
  induction l with
  | nil => exact fun f => rfl
  | cons c l ih =>
    intro f
    rw [cons_append, parseFlags]
    cases hc : isFlag c with
    | true =>
      rw [setFlag_of_isFlag hc, takeWhile_cons_of_pos hc, dropWhile_cons_of_pos hc]
      exact ih (addFlag f c)
    | false =>
      rw [setFlag_of_not hc, takeWhile_cons_of_neg (by rw [hc]; decide),
        dropWhile_cons_of_neg (by rw [hc]; decide)]
      rfl

def digitsValue (v : Int) (ds : List UInt8) : Int := ds.foldl (fun v c => int32 (v * 10 + c.toNat - 0x30)) v

theorem parseDigits_eq (l : List UInt8) (s : St) : ∀ v,
    parseDigits v (l ++ [0]) s = .ok ((digitsValue v (l.takeWhile isdigit), l.dropWhile isdigit ++ [0]), s) := by
  induction l with
  | nil => exact fun v => rfl
  | cons c l ih =>
    intro v
    rw [cons_append, parseDigits]
    cases hc : isdigit c with
    | true =>
      rw [if_pos rfl, takeWhile_cons_of_pos hc, dropWhile_cons_of_pos hc]
      exact ih _
    | false =>
      rw [if_neg (by decide), takeWhile_cons_of_neg (by rw [hc]; decide),
        dropWhile_cons_of_neg (by rw [hc]; decide)]
      rfl

/-- The kinds of arguments. -/
inductive Kind where
  | word
  | wide
  | string
deriving DecidableEq, Repr

def Arg.kind : Arg → Kind
  | .word _ => .word
  | .wide _ => .wide
  | .string _ => .string

/-- What follows a width or a precision: `*` or digits. -/
def skipNumber (l : List UInt8) : List UInt8 := if l.head? = some 0x2a then l.tail else l.dropWhile isdigit

def numberArgs (l : List UInt8) : List Kind := if l.head? = some 0x2a then [.word] else []

def skipPrecision (l : List UInt8) : List UInt8 := if l.head? = some 0x2e then skipNumber l.tail else l

def precisionArgs (l : List UInt8) : List Kind := if l.head? = some 0x2e then numberArgs l.tail else []

/-- A second `h` or `l`. -/
def secondLetter (c : UInt8) (twice once : ArgType) (l : List UInt8) : ArgType × List UInt8 :=
  if l.head? = some c then (twice, l.tail) else (once, l)

/-- The length modifier: `hh`, `h`, `j`, `ll`, `l`, `t`, `z` or none. -/
def lengthModifier : List UInt8 → ArgType × List UInt8
  | [] => (.int, [])
  | c :: l =>
    if c = 0x68 then secondLetter 0x68 .char .short l
    else if c = 0x6a then (.intmax, l)
    else if c = 0x6c then secondLetter 0x6c .longlong .long l
    else if c = 0x74 then (.ptrdifft, l)
    else if c = 0x7a then (.sizet, l)
    else (.int, c :: l)

/-- The flags, the width and the precision. -/
def beforeLength (l : List UInt8) : List UInt8 := skipPrecision (skipNumber (l.dropWhile isFlag))

/-- What follows the options of a conversion. -/
def afterOptions (l : List UInt8) : List UInt8 := (lengthModifier (beforeLength l)).2

/-- The arguments that the options consume. -/
def optionArgs (l : List UInt8) : List Kind :=
  numberArgs (l.dropWhile isFlag) ++ precisionArgs (skipNumber (l.dropWhile isFlag))

theorem args_of_kind_word {as : List Arg} (h : as.map Arg.kind = [.word]) : ∃ v, as = [.word v] := by
  obtain ⟨a, rfl, ha⟩ := map_eq_singleton_iff.mp h
  cases a with
  | word v => exact ⟨v, rfl⟩
  | _ => cases ha

theorem args_of_kind_string {as : List Arg} (h : as.map Arg.kind = [.string]) : ∃ v, as = [.string v] := by
  obtain ⟨a, rfl, ha⟩ := map_eq_singleton_iff.mp h
  cases a with
  | string v => exact ⟨v, rfl⟩
  | _ => cases ha

theorem parseNumber_digits {l : List UInt8} (h : l.head? ≠ some 0x2a) (s : St) :
    parseNumber (l ++ [0]) s = .ok ((digitsValue 0 (l.takeWhile isdigit), l.dropWhile isdigit ++ [0]), s) := by
  cases l with
  | nil => rfl
  | cons c l =>
    have hc : c ≠ 0x2a := fun h0 => h (by rw [h0]; rfl)
    rw [cons_append, parseNumber, if_neg hc]
    exact parseDigits_eq (c :: l) s 0

theorem parseNumber_ok {l : List UInt8} {as : List Arg} (has : as.map Arg.kind = numberArgs l) (args : List Arg)
    (out : List UInt8) :
    ∃ v, parseNumber (l ++ [0]) ⟨as ++ args, out⟩ = .ok ((v, skipNumber l ++ [0]), ⟨args, out⟩) := by
  rw [numberArgs] at has
  rw [skipNumber]
  by_cases hstar : l.head? = some 0x2a
  · rw [if_pos hstar] at has ⊢
    obtain ⟨v, rfl⟩ := args_of_kind_word has
    obtain ⟨rest, rfl⟩ : ∃ rest, l = 0x2a :: rest := ⟨l.tail, eq_cons_of_mem_head? hstar⟩
    exact ⟨v.toInt, rfl⟩
  · rw [if_neg hstar] at has ⊢
    obtain rfl := map_eq_nil_iff.mp has
    exact ⟨_, parseNumber_digits hstar _⟩

theorem parsePrecision_ok {l : List UInt8} {as : List Arg} (has : as.map Arg.kind = precisionArgs l) (args : List Arg)
    (out : List UInt8) :
    ∃ v, parsePrecision (l ++ [0]) ⟨as ++ args, out⟩ = .ok ((v, skipPrecision l ++ [0]), ⟨args, out⟩) := by
  rw [precisionArgs] at has
  rw [skipPrecision]
  by_cases hdot : l.head? = some 0x2e
  · rw [if_pos hdot] at has ⊢
    obtain ⟨v, hv⟩ := parseNumber_ok has args out
    obtain ⟨rest, rfl⟩ : ∃ rest, l = 0x2e :: rest := ⟨l.tail, eq_cons_of_mem_head? hdot⟩
    refine ⟨if v < 0 then -1 else v, ?_⟩
    rw [cons_append, parsePrecision, if_pos rfl]
    exact bind_of_ok hv
  · rw [if_neg hdot] at has ⊢
    obtain rfl := map_eq_nil_iff.mp has
    refine ⟨-1, ?_⟩
    cases l with
    | nil => rfl
    | cons c l =>
      have hc : c ≠ 0x2e := fun h0 => hdot (by rw [h0]; rfl)
      rw [cons_append, parsePrecision, if_neg hc]
      rfl

theorem parseTwice_eq {c : UInt8} (hc : c ≠ 0) (twice once : ArgType) (l : List UInt8) (s : St) :
    parseTwice c twice once (l ++ [0]) s =
      .ok (((secondLetter c twice once l).1, (secondLetter c twice once l).2 ++ [0]), s) := by
  cases l with
  | nil =>
    rw [nil_append, parseTwice, if_neg (Ne.symm hc)]
    rfl
  | cons d l =>
    rw [cons_append, parseTwice, secondLetter, head?_cons]
    by_cases hd : d = c
    · rw [if_pos hd, if_pos (congrArg some hd)]
      rfl
    · rw [if_neg hd, if_neg (fun h => hd (Option.some.inj h))]
      rfl

theorem parseType_eq (l : List UInt8) (s : St) :
    parseType (l ++ [0]) s = .ok (((lengthModifier l).1, (lengthModifier l).2 ++ [0]), s) := by
  cases l with
  | nil => rfl
  | cons c l =>
    rw [cons_append, parseType, lengthModifier]
    by_cases h1 : c = 0x68
    · rw [if_pos h1, if_pos h1, parseTwice_eq (by decide)]
    by_cases h2 : c = 0x6a
    · rw [if_neg h1, if_neg h1, if_pos h2, if_pos h2]
      rfl
    by_cases h3 : c = 0x6c
    · rw [if_neg h1, if_neg h1, if_neg h2, if_neg h2, if_pos h3, if_pos h3, parseTwice_eq (by decide)]
    rw [if_neg h1, if_neg h1, if_neg h2, if_neg h2, if_neg h3, if_neg h3]
    by_cases h4 : c = 0x74
    · rw [if_pos h4, if_pos h4]
      rfl
    rw [if_neg h4, if_neg h4]
    by_cases h5 : c = 0x7a
    · rw [if_pos h5, if_pos h5]
      rfl
    · rw [if_neg h5, if_neg h5]
      rfl

/-- The conversion with the flag characters `fs`, the width `w` and the
precision `p`. -/
def conversionOf (fs : List UInt8) (w p : Int) (type : ArgType) : Conversion :=
  let (flags, width) := setWidth (overrideFlags (fs.foldl addFlag noFlags)) w
  ⟨if p ≥ 0 then { flags with zero := false } else flags, width, p, type⟩

theorem parseConversion_eq {l l1 l2 : List UInt8} {s s1 s2 : St} {w p : Int}
    (hw : parseNumber (l.dropWhile isFlag ++ [0]) s = .ok ((w, l1 ++ [0]), s1))
    (hp : parsePrecision (l1 ++ [0]) s1 = .ok ((p, l2 ++ [0]), s2)) :
    parseConversion (l ++ [0]) s =
      .ok ((conversionOf (l.takeWhile isFlag) w p (lengthModifier l2).1, (lengthModifier l2).2 ++ [0]), s2) := by
  rw [parseConversion, bind_of_ok (parseFlags_eq l _ noFlags)]
  refine Eq.trans (bind_of_ok hw) ?_
  refine Eq.trans (bind_of_ok hp) ?_
  exact bind_of_ok (parseType_eq _ _)

/-- `parse_conversion` returns for every format, at the first character after
the options. -/
theorem parseConversion_ok {l : List UInt8} {as : List Arg} (has : as.map Arg.kind = optionArgs l) (args : List Arg)
    (out : List UInt8) :
    ∃ c, parseConversion (l ++ [0]) ⟨as ++ args, out⟩ = .ok ((c, afterOptions l ++ [0]), ⟨args, out⟩) ∧
      c.type = (lengthModifier (beforeLength l)).1 := by
  rw [optionArgs] at has
  obtain ⟨as1, as2, rfl, h1, h2⟩ := map_eq_append_iff.mp has
  obtain ⟨w, hw⟩ := parseNumber_ok h1 (as2 ++ args) out
  obtain ⟨p, hp⟩ := parsePrecision_ok h2 args out
  rw [append_assoc]
  exact ⟨_, parseConversion_eq hw hp, rfl⟩

/-! ## Conversions of integers -/

/-- The kind of argument of an integer conversion. -/
def ArgType.kind : ArgType → Kind
  | .intmax | .longlong => .wide
  | _ => .word

/-- The value of an argument as a signed integer of the type `t`. -/
def signedValue (t : ArgType) : Arg → Int
  | .word v =>
    match t with
    | .char => (v.setWidth 8).toInt
    | .short => (v.setWidth 16).toInt
    | _ => v.toInt
  | .wide v => v.toInt
  | .string _ => 0

/-- The value of an argument as an unsigned integer of the type `t`. -/
def unsignedValue (t : ArgType) : Arg → Nat
  | .word v =>
    match t with
    | .char => v.toNat % 2 ^ 8
    | .short => v.toNat % 2 ^ 16
    | _ => v.toNat
  | .wide v => v.toNat
  | .string _ => 0

theorem sizet_toInt (v : BitVec 32) :
    (if (v.setWidth 64).toInt > 2 ^ 31 - 1 then v.setWidth 64 - 0xFFFFFFFF - 1 else v.setWidth 64).toInt = v.toInt := by
  have hv : v.toNat < 2 ^ 32 := v.isLt
  have hval : (v.setWidth 64).toNat = v.toNat := by rw [BitVec.toNat_setWidth, Nat.mod_eq_of_lt (by omega)]
  have hint : (v.setWidth 64).toInt = v.toNat := by rw [BitVec.toInt_eq_toNat_of_lt (by omega), hval]
  rw [hint, BitVec.toInt_eq_toNat_cond v]
  by_cases hbig : (v.toNat : Int) > 2 ^ 31 - 1
  · have h1 : (0xFFFFFFFF : BitVec 64).toNat = 2 ^ 32 - 1 := rfl
    have h2 : (1 : BitVec 64).toNat = 1 := rfl
    have hsub : (v.setWidth 64 - 0xFFFFFFFF - 1).toNat = v.toNat + 2 ^ 64 - 2 ^ 32 := by
      rw [BitVec.toNat_sub, BitVec.toNat_sub, h1, h2, hval]
      omega
    rw [if_pos hbig, if_neg (by omega), BitVec.toInt_eq_toNat_cond, hsub, if_neg (by omega)]
    omega
  · rw [if_neg hbig, if_pos (by omega), hint]

theorem ptrdifft_toNat (v : BitVec 32) : (v.signExtend 64 &&& 0xFFFFFFFF).toNat = v.toNat := by
  have hv : v.toNat < 2 ^ 32 := v.isLt
  have hmask : (0xFFFFFFFF : BitVec 64).toNat = 2 ^ 32 - 1 := rfl
  rw [BitVec.toNat_and, hmask, Nat.and_two_pow_sub_one_eq_mod, BitVec.toNat_signExtend, BitVec.toNat_setWidth]
  by_cases hmsb : v.msb = true
  · rw [if_pos hmsb]
    omega
  · rw [if_neg hmsb]
    omega

theorem signedArg_eq {t : ArgType} {a : Arg} (h : a.kind = t.kind) (args : List Arg) (out : List UInt8) :
    ∃ v, signedArg t ⟨a :: args, out⟩ = .ok (v, ⟨args, out⟩) ∧ v.toInt = signedValue t a := by
  cases a with
  | word v =>
    cases t with
    | char => exact ⟨_, rfl, BitVec.toInt_signExtend_of_le (by decide)⟩
    | short => exact ⟨_, rfl, BitVec.toInt_signExtend_of_le (by decide)⟩
    | int => exact ⟨_, rfl, BitVec.toInt_signExtend_of_le (by decide)⟩
    | long => exact ⟨_, rfl, BitVec.toInt_signExtend_of_le (by decide)⟩
    | ptrdifft => exact ⟨_, rfl, BitVec.toInt_signExtend_of_le (by decide)⟩
    | sizet => exact ⟨_, rfl, sizet_toInt v⟩
    | intmax => cases h
    | longlong => cases h
  | wide v =>
    cases t with
    | intmax => exact ⟨v, rfl, rfl⟩
    | longlong => exact ⟨v, rfl, rfl⟩
    | _ => cases h
  | string v => cases t <;> cases h

theorem unsignedArg_eq {t : ArgType} {a : Arg} (h : a.kind = t.kind) (args : List Arg) (out : List UInt8) :
    ∃ v, unsignedArg t ⟨a :: args, out⟩ = .ok (v, ⟨args, out⟩) ∧ v.toNat = unsignedValue t a := by
  cases a with
  | word v =>
    have hv : v.toNat < 2 ^ 32 := v.isLt
    have hword : (v.setWidth 64).toNat = v.toNat := by rw [BitVec.toNat_setWidth, Nat.mod_eq_of_lt (by omega)]
    cases t with
    | char =>
      refine ⟨_, rfl, ?_⟩
      rw [BitVec.toNat_setWidth, BitVec.toNat_setWidth, Nat.mod_eq_of_lt (by omega)]
      rfl
    | short =>
      refine ⟨_, rfl, ?_⟩
      rw [BitVec.toNat_setWidth, BitVec.toNat_setWidth, Nat.mod_eq_of_lt (by omega)]
      rfl
    | int => exact ⟨_, rfl, hword⟩
    | long => exact ⟨_, rfl, hword⟩
    | ptrdifft => exact ⟨_, rfl, ptrdifft_toNat v⟩
    | sizet => exact ⟨_, rfl, hword⟩
    | intmax => cases h
    | longlong => cases h
  | wide v =>
    cases t with
    | intmax => exact ⟨v, rfl, rfl⟩
    | longlong => exact ⟨v, rfl, rfl⟩
    | _ => cases h
  | string v => cases t <;> cases h

theorem toNat_magnitude (v : BitVec 64) : (if v.toInt < 0 then -v else v).toNat = v.toInt.natAbs := by
  have hv : v.toNat < 2 ^ 64 := v.isLt
  have hint := BitVec.toInt_eq_toNat_cond v
  by_cases hneg : v.toInt < 0
  · rw [if_pos hneg, BitVec.toNat_neg]
    split at hint <;> omega
  · rw [if_neg hneg]
    split at hint <;> omega

theorem signedValue_natAbs_lt (t : ArgType) (a : Arg) : (signedValue t a).natAbs < 2 ^ 64 := by
  have hbound : ∀ {w : Nat} (v : BitVec w), w ≤ 64 → v.toInt.natAbs < 2 ^ 64 := by
    intro w v hw
    have h1 := BitVec.toInt_lt (x := v)
    have h2 := BitVec.le_toInt v
    have h3 : 2 ^ (w - 1) ≤ 2 ^ 63 := Nat.pow_le_pow_right (by decide) (by omega)
    zify at h3
    omega
  cases a with
  | word v =>
    cases t with
    | char => exact hbound (v.setWidth 8) (by decide)
    | short => exact hbound (v.setWidth 16) (by decide)
    | _ => exact hbound v (by decide)
  | wide v => exact hbound v (by decide)
  | string v => exact Nat.two_pow_pos 64

theorem unsignedValue_lt (t : ArgType) (a : Arg) : unsignedValue t a < 2 ^ 64 := by
  cases a with
  | word v =>
    have hv : v.toNat < 2 ^ 32 := v.isLt
    cases t with
    | char => exact Nat.lt_of_lt_of_le (Nat.mod_lt _ (by decide)) (by decide)
    | short => exact Nat.lt_of_lt_of_le (Nat.mod_lt _ (by decide)) (by decide)
    | _ => exact Nat.lt_of_lt_of_le hv (by decide)
  | wide v => exact v.isLt
  | string v => exact Nat.two_pow_pos 64

theorem formatSigned_eq {c : Conversion} {a : Arg} (h : a.kind = c.type.kind) (args : List Arg) (out : List UInt8) :
    formatSigned c ⟨a :: args, out⟩ =
      .ok ((), ⟨args, out ++ integerText (signedValue c.type a).natAbs true (signedValue c.type a < 0) baseD c⟩) := by
  obtain ⟨v, hv, hval⟩ := signedArg_eq h args out
  rw [formatSigned, bind_of_ok hv, toNat_magnitude, hval]
  exact formatInteger_eq isBase_D (signedValue_natAbs_lt c.type a) _ _ c _

theorem formatUnsigned_eq {b : IntegerBase} (hb : IsBase b) {c : Conversion} {a : Arg} (h : a.kind = c.type.kind)
    (args : List Arg) (out : List UInt8) :
    formatUnsigned b c ⟨a :: args, out⟩ =
      .ok ((), ⟨args, out ++ integerText (unsignedValue c.type a) false false b c⟩) := by
  obtain ⟨v, hv, hval⟩ := unsignedArg_eq h args out
  rw [formatUnsigned, bind_of_ok hv, hval]
  exact formatInteger_eq hb (unsignedValue_lt c.type a) _ _ c _

/-- The integer conversions. -/
inductive IntConv where
  | d
  | i
  | u
  | o
  | x
  | upperX
deriving DecidableEq, Repr

def IntConv.char : IntConv → UInt8
  | .d => 0x64
  | .i => 0x69
  | .u => 0x75
  | .o => 0x6f
  | .x => 0x78
  | .upperX => 0x58

def IntConv.isSigned : IntConv → Bool
  | .d | .i => true
  | _ => false

def IntConv.base : IntConv → IntegerBase
  | .d | .i | .u => baseD
  | .o => baseO
  | .x => baseX
  | .upperX => baseUpperX

/-- The value that an integer conversion prints. -/
def IntConv.value (k : IntConv) (t : ArgType) (a : Arg) : Int :=
  if k.isSigned then signedValue t a else unsignedValue t a

theorem IntConv.isBase (k : IntConv) : IsBase k.base := by
  cases k with
  | o => exact isBase_O
  | x => exact isBase_X
  | upperX => exact isBase_upperX
  | _ => exact isBase_D

theorem convert_int (k : IntConv) {c : Conversion} {a : Arg} (h : a.kind = c.type.kind) (args : List Arg)
    (out : List UInt8) :
    convert k.char c ⟨a :: args, out⟩ = .ok ((), ⟨args, out ++
      integerText (k.value c.type a).natAbs k.isSigned (k.value c.type a < 0) k.base c⟩) := by
  cases k with
  | d => exact formatSigned_eq h args out
  | i => exact formatSigned_eq h args out
  | u => exact formatUnsigned_eq isBase_D h args out
  | o => exact formatUnsigned_eq isBase_O h args out
  | x => exact formatUnsigned_eq isBase_X h args out
  | upperX => exact formatUnsigned_eq isBase_upperX h args out

/-! ## Every conversion returns -/

/-- The arguments that a conversion consumes, its options apart. -/
def valueArgs (t : ArgType) (ch : UInt8) : List Kind :=
  if ch ∈ ascii "diouxX" then [t.kind]
  else if ch = 0x63 ∨ ch = 0x70 then [.word]
  else if ch = 0x73 then [.string]
  else []

theorem formatString_ok (string : List UInt8) (length : Int) (c : Conversion) (args : List Arg) (out : List UInt8) :
    ∃ text, formatString string length c ⟨args, out⟩ = .ok ((), ⟨args, out ++ text⟩) := by
  rw [formatString]
  simp only [bind_of_ok (emit_eq _ _), emit_eq, append_assoc]
  exact ⟨_, rfl⟩

theorem mem_integer_chars {ch : UInt8} : ch ∈ ascii "diouxX" ↔ ∃ k : IntConv, ch = k.char := by
  have hlist : ascii "diouxX" = [0x64, 0x69, 0x6f, 0x75, 0x78, 0x58] := by decide
  simp only [hlist, mem_cons, not_mem_nil, or_false]
  constructor
  · rintro (h | h | h | h | h | h)
    · exact ⟨.d, h⟩
    · exact ⟨.i, h⟩
    · exact ⟨.o, h⟩
    · exact ⟨.u, h⟩
    · exact ⟨.x, h⟩
    · exact ⟨.upperX, h⟩
  · rintro ⟨k, rfl⟩
    cases k <;> decide

theorem convert_ok {ch : UInt8} {c : Conversion} {as : List Arg} (has : as.map Arg.kind = valueArgs c.type ch)
    (args : List Arg) (out : List UInt8) :
    ∃ text, convert ch c ⟨as ++ args, out⟩ = .ok ((), ⟨args, out ++ text⟩) := by
  rw [valueArgs] at has
  by_cases hint : ch ∈ ascii "diouxX"
  · rw [if_pos hint] at has
    obtain ⟨k, rfl⟩ := mem_integer_chars.mp hint
    obtain ⟨a, rfl, ha⟩ := map_eq_singleton_iff.mp has
    exact ⟨_, convert_int k ha args out⟩
  rw [if_neg hint] at has
  have hne : ∀ k : IntConv, ch ≠ k.char := fun k h => hint (mem_integer_chars.mpr ⟨k, h⟩)
  have hd : ¬(ch = 0x64 ∨ ch = 0x69) := not_or.mpr ⟨hne .d, hne .i⟩
  have ho : ch ≠ 0x6f := hne .o
  have hu : ch ≠ 0x75 := hne .u
  have hx : ch ≠ 0x78 := hne .x
  have hX : ch ≠ 0x58 := hne .upperX
  rw [convert, if_neg hd, if_neg ho, if_neg hu, if_neg hx, if_neg hX]
  by_cases hc : ch = 0x63
  · rw [if_pos (.inl hc)] at has
    obtain ⟨v, rfl⟩ := args_of_kind_word has
    rw [if_pos hc]
    exact formatString_ok _ _ c args out
  rw [if_neg hc]
  by_cases hs : ch = 0x73
  · subst hs
    obtain ⟨v, rfl⟩ := args_of_kind_string has
    rw [if_pos rfl]
    exact formatString_ok _ _ c args out
  rw [if_neg hs]
  by_cases hp : ch = 0x70
  · rw [if_pos (.inr hp)] at has
    obtain ⟨v, rfl⟩ := args_of_kind_word has
    rw [if_pos hp]
    exact ⟨_, formatInteger_eq isBase_X (Nat.lt_trans v.isLt (by decide)) false false _ _⟩
  rw [if_neg (not_or.mpr ⟨hc, hp⟩), if_neg hs] at has
  obtain rfl := map_eq_nil_iff.mp has
  rw [if_neg hp]
  by_cases hf : ch ∈ ascii "feEgGn"
  · rw [if_pos hf]
    exact ⟨_, rfl⟩
  · rw [if_neg hf]
    exact ⟨_, rfl⟩

end Pintos.Printf
