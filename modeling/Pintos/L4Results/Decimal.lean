import Pintos.L4Results.IntegerText

/-!
# Reading decimal numbers

`atoi` collects the number with a negative sign, so that the smallest `int` can
be read too. Every `int` computation of the model stops if it overflows.

* `atoi_reads`: `atoi` returns the number that white space, a sign and digits
  denote, if it is an `int`, and reads back what `%d` prints.
-/
namespace Pintos.Lib
open Pintos.Core Pintos.Stdio Pintos.Printf List

/-- An optional sign. -/
inductive Sign where
  | none
  | plus
  | minus

def Sign.text : Sign → List UInt8
  | .none => []
  | .plus => [0x2b]
  | .minus => [0x2d]

def Sign.apply : Sign → Nat → Int
  | .minus, n => -n
  | _, n => n

theorem int_of_range {x : Int} (h1 : -2 ^ 31 ≤ x) (h2 : x < 2 ^ 31) : int x = .ok x := if_pos ⟨h1, h2⟩

variable {c : UInt8} {ds : List UInt8}

theorem skipSpace_eq {ws : List UInt8} (hws : ∀ c ∈ ws, isspace c = true) (hc : isspace c = false)
    (l : List UInt8) : skipSpace (ws ++ c :: l) = .ok (c :: l) := by
  induction ws with
  | nil =>
    rw [nil_append, skipSpace, hc]
    rfl
  | cons w ws ih =>
    rw [cons_append, skipSpace, if_pos (hws w mem_cons_self)]
    exact ih fun d hd => hws d (mem_cons_of_mem w hd)

/-- The digits are read into a negative number: no prefix is below the whole.
The induction is on the digits, for any number read so far. -/
theorem parseDigits_eq (hds : ∀ c ∈ ds, isdigit c = true) (hc : isdigit c = false)
    (l : List UInt8) : ∀ v : Nat, ds.foldl (fun v c => v * 10 + (c.toNat - 0x30)) v ≤ 2 ^ 31 →
    parseDigits (-v) (ds ++ c :: l) = .ok (-(ds.foldl (fun v c => v * 10 + (c.toNat - 0x30)) v : Nat)) := by
  induction ds with
  | nil =>
    intro v _
    rw [nil_append, parseDigits, hc]
    rfl
  | cons d ds ih =>
    intro v hv
    obtain ⟨hlo, hhi⟩ := isdigit_iff.mp (hds d mem_cons_self)
    have hle := le_foldl_decimal ds (v * 10 + (d.toNat - 0x30))
    rw [foldl_cons] at hv ⊢
    have htens : int (-v * 10) = .ok (-v * 10) := int_of_range (by omega) (by omega)
    have hnext : int (-v * 10 - (d.toNat - 0x30)) = .ok (-(v * 10 + (d.toNat - 0x30) : Nat)) := by
      rw [int_of_range (by omega) (by omega)]
      congr 1
      omega
    rw [cons_append, parseDigits, if_pos (hds d mem_cons_self), htens]
    change (int (-v * 10 - (d.toNat - 0x30)) >>= fun value => parseDigits value (ds ++ c :: l)) = _
    rw [hnext]
    exact ih (fun e he => hds e (mem_cons_of_mem d he)) _ hv

theorem isspace_of_digit (hc : isdigit c = true) : isspace c = false := by
  cases hspace : isspace c with
  | false => rfl
  | true =>
    simp only [isspace, mem_cons, not_mem_nil, or_false, decide_eq_true_eq] at hspace
    rcases hspace with rfl | rfl | rfl | rfl | rfl | rfl <;> exact absurd hc (by decide)

/-- After the white space: the sign and the digits. -/
theorem atoi_of_skip {s rest : List UInt8} (h : skipSpace s = .ok (c :: rest)) {n : Int}
    (hn : parseDigits 0 (if c = 0x2b ∨ c = 0x2d then rest else c :: rest) = .ok n) :
    atoi s = if c = 0x2d then .ok n else int (-n) := by
  rw [atoi, h]
  change (parseDigits 0 (if c = 0x2b ∨ c = 0x2d then rest else c :: rest) >>= fun value =>
    if decide (c = 0x2d) = true then .ok value else int (-value)) = _
  rw [hn]
  change (if decide (c = 0x2d) = true then .ok n else int (-n)) = _
  simp only [decide_eq_true_eq]

/-- `atoi` on white space, a sign and digits. -/
theorem atoi_eq {ws : List UInt8} (sign : Sign) (hws : ∀ c ∈ ws, isspace c = true)
    (hds : ∀ c ∈ ds, isdigit c = true) (hne : ds ≠ []) (hc : isdigit c = false) (l : List UInt8)
    (hlo : -2 ^ 31 ≤ sign.apply (decimalValue ds)) (hhi : sign.apply (decimalValue ds) < 2 ^ 31) :
    atoi (ws ++ (sign.text ++ (ds ++ c :: l))) = .ok (sign.apply (decimalValue ds)) := by
  have hle : decimalValue ds ≤ 2 ^ 31 := by
    cases sign with
    | minus =>
      change -2 ^ 31 ≤ -(decimalValue ds : Int) at hlo
      omega
    | none =>
      change (decimalValue ds : Int) < 2 ^ 31 at hhi
      omega
    | plus =>
      change (decimalValue ds : Int) < 2 ^ 31 at hhi
      omega
  have hparse : parseDigits 0 (ds ++ c :: l) = .ok (-(decimalValue ds : Nat)) := parseDigits_eq hds hc l 0 hle
  obtain ⟨d, ds', rfl⟩ := exists_cons_of_ne_nil hne
  have hd : isdigit d = true := hds d mem_cons_self
  have hsign : ¬(d = 0x2b ∨ d = 0x2d) := by
    rintro (rfl | rfl)
    · exact absurd hd (by decide)
    · exact absurd hd (by decide)
  generalize decimalValue (d :: ds') = n at *
  have hneg : int (-(-(n : Int))) = int n := by rw [Int.neg_neg]
  cases sign with
  | none =>
    have hskip : skipSpace (ws ++ (d :: (ds' ++ c :: l))) = .ok (d :: (ds' ++ c :: l)) :=
      skipSpace_eq hws (isspace_of_digit hd) _
    change atoi (ws ++ (d :: (ds' ++ c :: l))) = _
    rw [atoi_of_skip hskip (by rw [if_neg hsign]; exact hparse), if_neg (fun h => hsign (.inr h)), hneg]
    exact int_of_range hlo hhi
  | plus =>
    have hskip : skipSpace (ws ++ (0x2b :: (d :: ds' ++ c :: l))) = .ok (0x2b :: (d :: ds' ++ c :: l)) :=
      skipSpace_eq hws (by decide) _
    change atoi (ws ++ (0x2b :: (d :: ds' ++ c :: l))) = _
    rw [atoi_of_skip hskip (by rw [if_pos (.inl rfl)]; exact hparse), if_neg (by decide), hneg]
    exact int_of_range hlo hhi
  | minus =>
    have hskip : skipSpace (ws ++ (0x2d :: (d :: ds' ++ c :: l))) = .ok (0x2d :: (d :: ds' ++ c :: l)) :=
      skipSpace_eq hws (by decide) _
    change atoi (ws ++ (0x2d :: (d :: ds' ++ c :: l))) = _
    rw [atoi_of_skip hskip (by rw [if_pos (.inr rfl)]; exact hparse), if_pos rfl]
    rfl

/-! ## What `%d` prints -/

/-- The specification `%d`. -/
def specD : Spec := ⟨[], .none, .none, .int, .d⟩

theorem specD_wellFormed : specD.WellFormed := by
  constructor
  · exact fun c hc => absurd hc not_mem_nil
  · exact fun ds h => by cases h
  · exact fun ds h => by cases h
  · decide

theorem baseD_digit (hc : c ∈ baseD.digits) : isdigit c = true ∧ baseD.digits.idxOf c = c.toNat - 0x30 := by
  have hlist : baseD.digits = [0x30, 0x31, 0x32, 0x33, 0x34, 0x35, 0x36, 0x37, 0x38, 0x39] := by decide
  rw [hlist] at hc ⊢
  simp only [mem_cons, not_mem_nil, or_false] at hc
  rcases hc with rfl | rfl | rfl | rfl | rfl | rfl | rfl | rfl | rfl | rfl <;> decide

/-- In base ten the value of a numeral is what its digits denote. -/
theorem valueOf_decimal (hds : ∀ c ∈ ds, c ∈ baseD.digits) : valueOf baseD ds = decimalValue ds := by
  have hfilter : ds.filter (· ≠ 0x2c) = ds := by
    refine filter_eq_self.mpr fun c hc => decide_eq_true ?_
    rintro rfl
    exact absurd (baseD_digit (hds _ hc)).1 (by decide)
  rw [valueOf, hfilter, decimalValue]
  refine foldl_ext _ _ 0 fun v c hc => ?_
  rw [(baseD_digit (hds c hc)).2]
  rfl

theorem specD_numeral (a : Arg) : specD.numeral a ≠ [] ∧ ∀ c ∈ specD.numeral a, c ∈ baseD.digits := by
  have hnum := numeral_eq specD_wellFormed a
  have hgroup : (given specD.flags).group = false := by decide
  have hprec : specD.prec.getD 1 = 1 := rfl
  rw [Spec.digits, hgroup, marks_false, hprec] at hnum
  refine ⟨?_, ?_⟩
  · intro hnil
    have hlen := congrArg length (hnum.symm.trans hnil)
    rw [length_append, length_replicate, length_reverse, length_nil] at hlen
    omega
  · intro c hc
    rw [hnum] at hc
    rcases mem_append.mp hc with hc | hc
    · rw [(mem_replicate.mp hc).2]
      decide
    · obtain ⟨d, hd, rfl⟩ := mem_map.mp (mem_reverse.mp hc)
      exact isBase_D.digit_mem (Nat.digits_lt_base (by decide) hd)

/-- `%d` prints a minus sign for negative numbers, and the digits. -/
theorem vprintf_d (v : BitVec 32) : vprintf (ascii "%d") ⟨[.word v], []⟩ =
    .ok ((), ⟨[], (if v.toInt < 0 then [0x2d] else []) ++ specD.numeral (.word v)⟩) := by
  have hrun := vprintf_spec specD_wellFormed (a := .word v) rfl []
  have htext := integerText_spec specD_wellFormed (.word v)
  have hpad : specD.padCnt (.word v) = 0 := by
    have hwidth : specD.width.value = 0 := rfl
    rw [Spec.padCnt, hwidth]
    split <;> simp
  have hsign : specD.sign (.word v) = if v.toInt < 0 then [0x2d] else [] := rfl
  have hmark : specD.mark (.word v) = [] := rfl
  rw [hpad, hsign, hmark] at htext
  simp only [ite_self, replicate_zero, nil_append, append_nil] at htext
  have hformat : specD.format = ascii "%d" := by decide
  have hargs : specD.width.args ++ (specD.precision.args ++ [Arg.word v]) = [.word v] := rfl
  rw [Spec.value] at htext
  rw [hformat, hargs, nil_append, htext] at hrun
  exact hrun

/-- `atoi` returns the number that white space, a sign and digits denote, if it
is an `int`, whatever follows the digits; and it reads back what `%d` prints.
No computation leaves the range of `int`. -/
theorem atoi_reads :
    (∀ (ws ds l : List UInt8) (sign : Sign) (c : UInt8), (∀ c ∈ ws, isspace c = true) → (∀ c ∈ ds, isdigit c = true) →
        ds ≠ [] → isdigit c = false → -2 ^ 31 ≤ sign.apply (decimalValue ds) → sign.apply (decimalValue ds) < 2 ^ 31 →
        atoi (ws ++ (sign.text ++ (ds ++ c :: l))) = .ok (sign.apply (decimalValue ds))) ∧
      ∀ (v : BitVec 32) (c : UInt8) (l : List UInt8), isdigit c = false →
        ∃ text, vprintf (ascii "%d") ⟨[.word v], []⟩ = .ok ((), ⟨[], text⟩) ∧ atoi (text ++ c :: l) = .ok v.toInt := by
  refine ⟨fun ws ds l sign c hws hds hne hc hlo hhi => atoi_eq sign hws hds hne hc l hlo hhi, ?_⟩
  intro v c l hc
  refine ⟨_, vprintf_d v, ?_⟩
  obtain ⟨hne, hdigits⟩ := specD_numeral (.word v)
  have hvalue : decimalValue (specD.numeral (.word v)) = v.toInt.natAbs := by
    have hzeros := (numeralRight specD_wellFormed (a := .word v)).value 0
    rw [replicate_zero, nil_append] at hzeros
    have hword : specD.value (.word v) = v.toInt := rfl
    rw [← valueOf_decimal hdigits, ← hword]
    exact hzeros
  have hlo : -2 ^ 31 ≤ v.toInt := BitVec.le_toInt v
  have hhi : v.toInt < 2 ^ 31 := BitVec.toInt_lt
  have hds : ∀ d ∈ specD.numeral (.word v), isdigit d = true := fun d hd => (baseD_digit (hdigits d hd)).1
  have hnone : ∀ d ∈ ([] : List UInt8), isspace d = true := fun d hd => absurd hd not_mem_nil
  rw [append_assoc]
  by_cases hneg : v.toInt < 0
  · have happly : Sign.apply .minus (decimalValue (specD.numeral (.word v))) = v.toInt := by
      rw [hvalue, Sign.apply]
      omega
    have hread := atoi_eq .minus hnone hds hne hc l (by rw [happly]; exact hlo) (by rw [happly]; exact hhi)
    rw [happly] at hread
    rw [if_pos hneg]
    exact hread
  · have happly : Sign.apply .none (decimalValue (specD.numeral (.word v))) = v.toInt := by
      rw [hvalue]
      change (v.toInt.natAbs : Int) = v.toInt
      omega
    have hread := atoi_eq .none hnone hds hne hc l (by rw [happly]; exact hlo) (by rw [happly]; exact hhi)
    have hnosign : Sign.text .none = [] := rfl
    rw [happly, hnosign, nil_append, nil_append] at hread
    rw [if_neg hneg, nil_append]
    exact hread

/-- `" -007x"` and the smallest `int`. -/
theorem atoi_reads_zeros : atoi (ascii " -007x") = .ok (-7) ∧
    ∃ text, vprintf (ascii "%d") ⟨[.word 0x80000000], []⟩ = .ok ((), ⟨[], text⟩) ∧
      atoi (text ++ [0]) = .ok (-2 ^ 31) := by
  have hmin : (0x80000000 : BitVec 32).toInt = -2 ^ 31 := by decide
  refine ⟨?_, by rw [← hmin]; exact atoi_reads.2 0x80000000 0 [] (by decide)⟩
  have htext : ascii " -007x" = [0x20] ++ (Sign.text .minus ++ ([0x30, 0x30, 0x37] ++ 0x78 :: [])) := by decide
  rw [htext]
  refine atoi_reads.1 [0x20] [0x30, 0x30, 0x37] [] .minus 0x78 ?_ ?_ ?_ ?_ ?_ ?_
  · simp [isspace]
  · simp [isdigit]
  · simp
  · decide
  · decide
  · decide

end Pintos.Lib
