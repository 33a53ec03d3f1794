import Pintos.Core.Substring
import Pintos.L2Code.CommonSubstring

/-!
# `lcs_dynamic` and the blocks of lines

`Filled` is the invariant of the two loops: the cells before the current one
hold the lengths of the longest matches that end there, and `max_length` is
the largest of them. `Agree` says that nothing depends on what was in the
allocated table.
-/
namespace Pintos.Lcs

open Pintos.Core Function List

/-! ## The table -/

/-- The cell is before cell `(i, j)`. -/
def Done (bSize i j x y : Nat) : Prop := x < i ∧ y < bSize ∨ x = i ∧ y < j

structure Filled (a b : List UInt8) (i j : Nat) (s : Table) : Prop where
  cells : ∀ x y, Done b.length i j x y →
    EndsAt a b x y (s.substringLengths x y) ∧ ¬ EndsAt a b x y (s.substringLengths x y + 1)
  le : ∀ x y, Done b.length i j x y → s.substringLengths x y ≤ s.maxLength
  max : s.maxLength = 0 ∨ s.aIdxMax < a.length
  maxRow : 0 < s.maxLength → s.aIdxMax ≤ i
  found : EndsAt a b s.aIdxMax s.bIdxMax s.maxLength
  first : ∀ x y, Done b.length i j x y → 0 < s.maxLength → s.substringLengths x y = s.maxLength → s.aIdxMax ≤ x

structure Agree (bSize i j : Nat) (s t : Table) : Prop where
  cells : ∀ x y, Done bSize i j x y → s.substringLengths x y = t.substringLengths x y
  aIdxMax : s.aIdxMax = t.aIdxMax
  bIdxMax : s.bIdxMax = t.bIdxMax
  maxLength : s.maxLength = t.maxLength

variable {a b : Nat → UInt8} {m n i j : Nat} {s t : Table}

theorem done_succ {bSize x y : Nat} : Done bSize i (j + 1) x y ↔ Done bSize i j x y ∨ x = i ∧ y = j := by
  unfold Done
  omega

theorem done_row {bSize x y : Nat} : Done bSize (i + 1) 0 x y ↔ Done bSize i bSize x y := by
  unfold Done
  omega

/-- The value that a comparison stores. -/
def cellValue (a b : Nat → UInt8) (s : Table) (i j : Nat) : Nat :=
  if a i = b j then if i = 0 ∨ j = 0 then 1 else s.substringLengths (i - 1) (j - 1) + 1 else 0

theorem compare_cells : (compare a b s i j).substringLengths =
    update s.substringLengths i (update (s.substringLengths i) j (cellValue a b s i j)) := by
  unfold compare cellValue
  by_cases hc : a i = b j
  · simp only [if_pos hc]
    generalize (if i = 0 ∨ j = 0 then 1 else s.substringLengths (i - 1) (j - 1) + 1) = len
    split <;> rfl
  · simp only [if_neg hc]

theorem compare_cell_self : (compare a b s i j).substringLengths i j = cellValue a b s i j := by
  rw [compare_cells, update_self, update_self]

theorem compare_cell_ne {x y : Nat} (h : ¬ (x = i ∧ y = j)) :
    (compare a b s i j).substringLengths x y = s.substringLengths x y := by
  rw [compare_cells]
  by_cases hx : x = i
  · subst hx
    rw [update_self, update_of_ne fun hy => h ⟨rfl, hy⟩]
  · rw [update_of_ne hx]

/-- A comparison either raises the maximum to the new cell, or keeps it. -/
theorem compare_max : let s' := compare a b s i j
    s.maxLength < cellValue a b s i j ∧ s'.maxLength = cellValue a b s i j ∧ s'.aIdxMax = i ∧ s'.bIdxMax = j ∨
    cellValue a b s i j ≤ s.maxLength ∧ s'.maxLength = s.maxLength ∧ s'.aIdxMax = s.aIdxMax ∧
      s'.bIdxMax = s.bIdxMax := by
  unfold compare cellValue
  by_cases hc : a i = b j
  · simp only [if_pos hc]
    generalize (if i = 0 ∨ j = 0 then 1 else s.substringLengths (i - 1) (j - 1) + 1) = len
    split
    next h => exact .inl ⟨h, rfl, rfl, rfl⟩
    next h => exact .inr ⟨Nat.le_of_not_lt h, rfl, rfl, rfl⟩
  · rw [if_neg hc, if_neg hc]
    exact .inr ⟨Nat.zero_le _, rfl, rfl, rfl⟩

theorem getElem?_chars (f : Nat → UInt8) (h : i < n) : ((range n).map f)[i]? = some (f i) := by
  simp [h]

/-- The recurrence. -/
theorem Filled.cell (h : Filled ((range m).map a) ((range n).map b) i j s) (hi : i < m) (hj : j < n) :
    EndsAt ((range m).map a) ((range n).map b) i j (cellValue a b s i j) ∧
      ¬ EndsAt ((range m).map a) ((range n).map b) i j (cellValue a b s i j + 1) := by
  have hmatch : (∃ c, ((range m).map a)[i]? = some c ∧ ((range n).map b)[j]? = some c) ↔ a i = b j := by
    rw [getElem?_chars a hi, getElem?_chars b hj]
    simp [eq_comm]
  unfold cellValue
  by_cases hc : a i = b j
  · rw [if_pos hc]
    by_cases hz : i = 0 ∨ j = 0
    · rw [if_pos hz]
      refine ⟨endsAt_succ.mpr ⟨hmatch.mpr hc, .inl rfl⟩, fun he => ?_⟩
      rcases (endsAt_succ.mp he).2 with h0 | ⟨hip, hjp, -⟩ <;> omega
    · rw [if_neg hz]
      have hprev : Done ((range n).map b).length i j (i - 1) (j - 1) := by
        unfold Done
        rw [length_map, length_range]
        omega
      obtain ⟨hyes, hno⟩ := h.cells _ _ hprev
      refine ⟨endsAt_succ.mpr ⟨hmatch.mpr hc, .inr ⟨by omega, by omega, hyes⟩⟩, fun he => ?_⟩
      rcases (endsAt_succ.mp he).2 with h0 | ⟨-, -, hmore⟩
      · omega
      · exact hno hmore
  · rw [if_neg hc]
    exact ⟨endsAt_zero, fun he => hc (hmatch.mp (endsAt_succ.mp he).1)⟩

theorem Filled.compare (h : Filled ((range m).map a) ((range n).map b) i j s) (hi : i < m) (hj : j < n) :
    Filled ((range m).map a) ((range n).map b) i (j + 1) (compare a b s i j) := by
  have hcell := h.cell hi hj
  have hmax := compare_max (a := a) (b := b) (s := s) (i := i) (j := j)
  refine ⟨fun x y hd => ?_, fun x y hd => ?_, ?_, fun hpos => ?_, ?_, fun x y hd hpos hx => ?_⟩
  · by_cases hxy : x = i ∧ y = j
    · rw [hxy.1, hxy.2, compare_cell_self]
      exact hcell
    · rw [compare_cell_ne hxy]
      exact h.cells x y ((done_succ.mp hd).resolve_right hxy)
  · have hle : s.maxLength ≤ (Lcs.compare a b s i j).maxLength ∧
        cellValue a b s i j ≤ (Lcs.compare a b s i j).maxLength := by
      rcases hmax with ⟨h₁, h₂, -⟩ | ⟨h₁, h₂, -⟩ <;> omega
    by_cases hxy : x = i ∧ y = j
    · rw [hxy.1, hxy.2, compare_cell_self]
      exact hle.2
    · rw [compare_cell_ne hxy]
      exact (h.le x y ((done_succ.mp hd).resolve_right hxy)).trans hle.1
  · rcases hmax with ⟨-, -, ha, -⟩ | ⟨-, hm, ha, -⟩
    · rw [ha, length_map, length_range]
      exact .inr hi
    · rw [hm, ha]
      exact h.max
  · rcases hmax with ⟨-, -, ha, -⟩ | ⟨-, hm, ha, -⟩
    · exact ha.le
    · rw [ha]
      rw [hm] at hpos
      exact h.maxRow hpos
  · rcases hmax with ⟨-, hm, ha, hb⟩ | ⟨-, hm, ha, hb⟩
    · rw [hm, ha, hb]
      exact hcell.1
    · rw [hm, ha, hb]
      exact h.found
  · -- a new maximum is larger than every cell before it; an old one was found in a row before
    by_cases hxy : x = i ∧ y = j
    · rw [hxy.1]
      rcases hmax with ⟨-, -, ha, -⟩ | ⟨-, hm, ha, -⟩
      · exact ha.le
      · rw [ha]
        rw [hm] at hpos
        exact h.maxRow hpos
    · rw [compare_cell_ne hxy] at hx
      have hdone := (done_succ.mp hd).resolve_right hxy
      rcases hmax with ⟨hlt, hm, -, -⟩ | ⟨-, hm, ha, -⟩
      · have := h.le x y hdone
        omega
      · rw [ha]
        rw [hm] at hpos hx
        exact h.first x y hdone hpos hx

theorem Agree.compare {bSize : Nat} (h : Agree bSize i j s t) (hj : j < bSize) :
    Agree bSize i (j + 1) (compare a b s i j) (compare a b t i j) := by
  have hvalue : cellValue a b s i j = cellValue a b t i j := by
    unfold cellValue
    by_cases hz : i = 0 ∨ j = 0
    · rw [if_pos hz, if_pos hz]
    · rw [if_neg hz, if_neg hz, h.cells (i - 1) (j - 1) (by unfold Done; omega)]
  have hs := compare_max (a := a) (b := b) (s := s) (i := i) (j := j)
  have ht := compare_max (a := a) (b := b) (s := t) (i := i) (j := j)
  rw [hvalue, h.maxLength, h.aIdxMax, h.bIdxMax] at hs
  have hmax : (Lcs.compare a b s i j).maxLength = (Lcs.compare a b t i j).maxLength ∧
      (Lcs.compare a b s i j).aIdxMax = (Lcs.compare a b t i j).aIdxMax ∧
      (Lcs.compare a b s i j).bIdxMax = (Lcs.compare a b t i j).bIdxMax := by
    rcases hs with ⟨h₁, h₂, h₃, h₄⟩ | ⟨h₁, h₂, h₃, h₄⟩ <;> rcases ht with ⟨k₁, k₂, k₃, k₄⟩ | ⟨k₁, k₂, k₃, k₄⟩ <;> omega
  refine ⟨fun x y hd => ?_, hmax.2.1, hmax.2.2, hmax.1⟩
  by_cases hxy : x = i ∧ y = j
  · rw [hxy.1, hxy.2, compare_cell_self, compare_cell_self, hvalue]
  · rw [compare_cell_ne hxy, compare_cell_ne hxy]
    exact h.cells x y ((done_succ.mp hd).resolve_right hxy)

/-- The table after both loops. -/
def fill (junk : Nat → Nat → Nat) (a : Nat → UInt8) (m : Nat) (b : Nat → UInt8) (n : Nat) : Table :=
  forLoop 0 m (fun s i => forLoop 0 n (fun s j => compare a b s i j) s) ⟨junk, 0, 0, 0⟩

theorem Filled.init {a b : List UInt8} (junk : Nat → Nat → Nat) : Filled a b 0 0 ⟨junk, 0, 0, 0⟩ := by
  refine ⟨fun x y hd => ?_, fun x y hd => ?_, .inl rfl, fun _ => Nat.le_refl 0, endsAt_zero, fun x y hd => ?_⟩ <;>
    unfold Done at hd <;> omega

/-- The next row. -/
theorem Filled.row {a b : List UInt8} (h : Filled a b i b.length s) : Filled a b (i + 1) 0 s where
  cells x y hd := h.cells x y (done_row.mp hd)
  le x y hd := h.le x y (done_row.mp hd)
  max := h.max
  maxRow hpos := Nat.le_succ_of_le (h.maxRow hpos)
  found := h.found
  first x y hd := h.first x y (done_row.mp hd)

theorem fill_filled (junk : Nat → Nat → Nat) :
    Filled ((range m).map a) ((range n).map b) m 0 (fill junk a m b n) := by
  have hlen : ((range n).map b).length = n := by rw [length_map, length_range]
  refine forLoop_inv (P := fun i s => Filled ((range m).map a) ((range n).map b) i 0 s) (Nat.zero_le m)
    (.init junk) fun i s _ hi h => ?_
  have hrow := forLoop_inv (P := fun j s => Filled ((range m).map a) ((range n).map b) i j s)
    (Nat.zero_le n) h fun j s _ hj h => h.compare hi hj
  exact Filled.row (hlen.symm ▸ hrow)

theorem fill_agree (junk junk' : Nat → Nat → Nat) : Agree n m 0 (fill junk a m b n) (fill junk' a m b n) := by
  refine forLoop_rel (R := fun i s t => Agree n i 0 s t) (Nat.zero_le m) ?_ ?_
  · exact ⟨fun x y hd => by unfold Done at hd; omega, rfl, rfl, rfl⟩
  · intro i s t _ _ h
    have hrow := forLoop_rel (R := fun j s t => Agree n i j s t) (Nat.zero_le n) h fun j s t _ hj h =>
      h.compare (a := a) (b := b) hj
    exact ⟨fun x y hd => hrow.cells x y (done_row.mp hd), hrow.aIdxMax, hrow.bIdxMax, hrow.maxLength⟩

/-- The substring that `a_idx_max` and `max_length` describe. -/
def Table.found (a : List UInt8) (s : Table) : List UInt8 := (a.drop (s.aIdxMax + 1 - s.maxLength)).take s.maxLength

section
variable {a b : List UInt8}

theorem Filled.length_found (h : Filled a b i j s) : (s.found a).length = s.maxLength := by
  have hk := h.found.1
  have hm := h.max
  unfold Table.found
  rw [length_take, length_drop]
  omega

/-- A match is no longer than the cell of its last characters. -/
theorem Filled.le_cell (h : Filled a b a.length 0 s) {x y k : Nat} (hk : 0 < k) (he : EndsAt a b x y k) :
    Done b.length a.length 0 x y ∧ k ≤ s.substringLengths x y := by
  obtain ⟨c, ha, hb⟩ := he.2.2 0 hk
  have hd : Done b.length a.length 0 x y :=
    .inl ⟨(List.getElem?_eq_some_iff.mp ha).1, (List.getElem?_eq_some_iff.mp hb).1⟩
  exact ⟨hd, Nat.le_of_not_lt fun hlt => (h.cells x y hd).2 (he.mono hlt)⟩

theorem Filled.longest (h : Filled a b a.length 0 s) : LongestCommon a b (s.found a) := by
  refine longest_of_endsAt h.found h.max fun x y he => ?_
  obtain ⟨hd, hle⟩ := h.le_cell (Nat.succ_pos _) he
  have := h.le x y hd
  omega

/-- No longest common substring ends earlier in `a`. -/
theorem Filled.earliest (h : Filled a b a.length 0 s) {q : Nat} (hpos : 0 < s.maxLength)
    (hlen : ((a.drop q).take s.maxLength).length = s.maxLength) (hb : (a.drop q).take s.maxLength <:+: b) :
    s.aIdxMax + 1 - s.maxLength ≤ q := by
  obtain ⟨y, he⟩ := endsAt_of_slice hlen hb
  obtain ⟨hd, hle⟩ := h.le_cell hpos he
  have := h.first _ _ hd hpos (Nat.le_antisymm (h.le _ _ hd) hle)
  omega

end

/-- `lcs_dynamic` returns a longest common substring and its length. -/
theorem lcsDynamic_spec (junk : Nat → Nat → Nat) : ∃ r,
    LongestCommon ((range m).map a) ((range n).map b) r ∧ lcsDynamic junk a m b n = (r.length, r ++ [0]) := by
  have h := fill_filled (a := a) (b := b) (m := m) (n := n) junk
  have hm : ((range m).map a).length = m := by rw [length_map, length_range]
  generalize hs : fill junk a m b n = s at h
  have hfull : Filled ((range m).map a) ((range n).map b) ((range m).map a).length 0 s := by
    rw [hm]
    exact h
  refine ⟨_, hfull.longest, ?_⟩
  rw [h.length_found]
  unfold lcsDynamic
  rw [show forLoop 0 m (fun s i => forLoop 0 n (fun s j => compare a b s i j) s) ⟨junk, 0, 0, 0⟩ = s from hs]
  refine Prod.ext rfl (congrArg (· ++ [0]) (ext_getElem? fun k => ?_))
  by_cases hk : k < s.maxLength
  · have hle := h.found.1
    have hin : s.aIdxMax + 1 - s.maxLength + k < m := by
      have := h.max
      omega
    rw [getElem?_chars _ hk, Table.found, List.getElem?_take, if_pos hk, List.getElem?_drop, getElem?_chars _ hin]
    congr 2
    omega
  · rw [List.getElem?_eq_none (by simpa using hk), List.getElem?_eq_none (by rw [h.length_found]; omega)]

theorem lcsDynamic_junk (junk junk' : Nat → Nat → Nat) : lcsDynamic junk a m b n = lcsDynamic junk' a m b n := by
  have h := fill_agree (a := a) (b := b) (m := m) (n := n) junk junk'
  unfold fill at h
  unfold lcsDynamic
  simp only [h.maxLength, h.aIdxMax]

/-! ## Lines -/

/-- The string of a line ends at its first null byte. -/
def chars (line : List UInt8) : List UInt8 := line.takeWhile (· ≠ 0)

theorem cString_eq {row : Nat → UInt8} {line : List UInt8} (h : ∀ k, row (j + k) = line.getD k 0)
    (hn : line.length < n) :
    cString row j n = chars line := by
  induction line generalizing j n with
  | nil =>
    cases n with
    | zero => exact absurd hn (Nat.not_lt_zero _)
    | succ n =>
      have h₀ : row j = 0 := h 0
      rw [cString, if_pos h₀]
      rfl
  | cons c l ih =>
    cases n with
    | zero => exact absurd hn (Nat.not_lt_zero _)
    | succ n =>
      have h₀ : row j = c := h 0
      unfold chars at ih ⊢
      rw [cString, takeWhile_cons, h₀]
      by_cases hc : c = 0
      · simp [hc]
      · have hrest := ih (j := j + 1) (n := n) (fun k => by
          rw [Nat.add_assoc, Nat.add_comm 1 k]
          exact h (k + 1)) (Nat.lt_of_succ_lt_succ hn)
        rw [if_neg hc, hrest]
        simp [hc]

theorem chars_eq_map (line : List UInt8) : (range (chars line).length).map (fun k => line.getD k 0) = chars line := by
  refine ext_getElem? fun k => ?_
  by_cases hk : k < (chars line).length
  · have hpre : chars line <+: line := takeWhile_prefix _
    rw [getElem?_chars _ hk, getD_eq_getElem?_getD, prefix_iff_getElem?.mp hpre k hk,
      List.getElem?_eq_getElem hk]
    rfl
  · rw [List.getElem?_eq_none (by simpa using hk), List.getElem?_eq_none (Nat.le_of_not_lt hk)]

theorem noCommon_ne_nil : noCommon ≠ [] := by decide

/-- What is stored for two neighbouring lines. -/
theorem lineResult_spec {data : Data} {l l' : List UInt8} (hl : ∀ k, data i k = l.getD k 0)
    (hl' : ∀ k, data (i + 1) k = l'.getD k 0) (hlen : l.length < lineLength) (hlen' : l'.length < lineLength) :
    ∃ r, LongestCommon (chars l) (chars l') r ∧
      ∀ junk, lineResult junk data i = some (if r = [] then noCommon else r) := by
  have hstr : strlen (data i) = (chars l).length := by
    unfold strlen
    rw [cString_eq (fun k => (congrArg (data i) (Nat.zero_add k)).trans (hl k)) hlen]
  have hstr' : strlen (data (i + 1)) = (chars l').length := by
    unfold strlen
    rw [cString_eq (fun k => (congrArg (data (i + 1)) (Nat.zero_add k)).trans (hl' k)) hlen']
  have hrow : (range (strlen (data i))).map (data i) = chars l := by
    rw [hstr, funext hl]
    exact chars_eq_map l
  have hrow' : (range (strlen (data (i + 1)))).map (data (i + 1)) = chars l' := by
    rw [hstr', funext hl']
    exact chars_eq_map l'
  obtain ⟨r, hr, heq⟩ := lcsDynamic_spec (a := data i) (m := strlen (data i)) (b := data (i + 1))
    (n := strlen (data (i + 1))) fun _ _ => 0
  rw [hrow, hrow'] at hr
  refine ⟨r, hr, fun junk => ?_⟩
  have hfits : (r ++ [0]).length ≤ lineLength := by
    have h₁ := hr.left.length_le
    have h₂ : (chars l).length ≤ l.length := IsPrefix.length_le <| takeWhile_prefix _
    rw [length_append, length_singleton]
    omega
  have hne : ∀ c ∈ r, (decide (c ≠ 0)) = true := fun c hc =>
    mem_takeWhile_imp (p := fun c => decide (c ≠ 0)) (hr.left.subset hc)
  have hcopy : (r ++ [0]).takeWhile (· ≠ 0) = r := by
    rw [takeWhile_append_of_pos hne]
    simp
  unfold lineResult
  rw [lcsDynamic_junk junk fun _ _ => 0, heq]
  simp only [if_pos hfits, hcopy]
  by_cases hnil : r = []
  · simp [hnil]
  · simp [hnil, length_pos_of_ne_nil hnil]

/-- The file fits into `data`. -/
structure Input (v : Version) (lines : List (List UInt8)) : Prop where
  pos : 1 ≤ lines.length
  le : lines.length ≤ v.numLines
  short : ∀ l ∈ lines, l.length < lineLength

variable {v : Version} {lines : List (List UInt8)}

theorem openFile_eq (hle : lines.length ≤ v.numLines) :
    openFile v lines = (lines.length, fun i j => (lines.getD i []).getD j 0) := by
  unfold openFile
  rw [take_of_length_le hle]

/-- The entry for line `i`. -/
def entry (lines : List (List UInt8)) (i : Nat) : List UInt8 :=
  (lineResult (fun _ _ => 0) (fun i j => (lines.getD i []).getD j 0) i).getD []

theorem entry_spec (hshort : ∀ l ∈ lines, l.length < lineLength) (hi : i + 1 < lines.length) :
    (∀ junk, lineResult junk (fun i j => (lines.getD i []).getD j 0) i = some (entry lines i)) ∧
    ∃ r, LongestCommon (chars (lines.getD i [])) (chars (lines.getD (i + 1) [])) r ∧
      entry lines i = if r = [] then noCommon else r := by
  have hmem : ∀ k, k < lines.length → lines.getD k [] ∈ lines := fun k hk => by
    rw [getD_eq_getElem?_getD, List.getElem?_eq_getElem hk]
    exact getElem_mem hk
  let data : Data := fun i j => (lines.getD i []).getD j 0
  have hrow : ∀ i k, data i k = (lines.getD i []).getD k 0 := fun _ _ => rfl
  obtain ⟨r, hr, heq⟩ := lineResult_spec (hrow i) (hrow (i + 1))
    (hshort _ (hmem i (Nat.lt_of_succ_lt hi))) (hshort _ (hmem (i + 1) hi))
  have hentry : entry lines i = if r = [] then noCommon else r := by
    unfold entry
    rw [heq]
    rfl
  exact ⟨fun junk => by rw [heq, hentry], r, hr, hentry⟩

theorem entry_ne_nil (hshort : ∀ l ∈ lines, l.length < lineLength) (hi : i + 1 < lines.length) :
    entry lines i ≠ [] := by
  obtain ⟨-, r, -, he⟩ := entry_spec hshort hi
  rw [he]
  split
  · exact noCommon_ne_nil
  · assumption

/-- The loop of one thread over a range of lines. -/
theorem lineLoop_eq {data : Data} {junk : Nat → Nat → Nat → Nat} {start stop : Nat}
    (hres : ∀ i, start ≤ i → i < stop → lineResult (junk i) data i = some (entry lines i)) :
    lineLoop data junk start stop = some fun i => if start ≤ i ∧ i < stop then entry lines i else [] := by
  by_cases hle : start ≤ stop
  · refine forLoop_inv (P := fun k r => r = some fun i => if start ≤ i ∧ i < k then entry lines i else []) hle ?_ ?_
    · refine congrArg some (funext fun i => (if_neg ?_).symm)
      omega
    · rintro k r hk hks rfl
      rw [Option.bind_some, hres k hk hks, Option.map_some]
      refine congrArg some (funext fun i => ?_)
      by_cases hik : i = k
      · subst hik
        rw [update_self, if_pos ⟨hk, Nat.lt_succ_self i⟩]
      · rw [update_of_ne hik]
        congr 1
        exact propext (by omega)
  · unfold lineLoop
    rw [forLoop_of_le (Nat.le_of_not_le hle)]
    refine congrArg some (funext fun i => (if_neg ?_).symm)
    omega

/-! ## Blocks -/

theorem lastLine_eq (hn : 1 ≤ n) (hw : n < 2 ^ v.width) : lastLine v n = n - 1 := by
  unfold lastLine
  have hsum : n + (2 ^ v.width - 1) = n - 1 + 2 ^ v.width := by omega
  rw [hsum, Nat.add_mod_right, Nat.mod_eq_of_lt (by omega)]

theorem blockEnd_eq (per last tid : Nat) : blockEnd per last tid = min (tid * per + per) last := by
  unfold blockEnd blockStart
  dsimp only
  split <;> omega

/-- The rank whose block a line is in. -/
theorem block_iff {per tid : Nat} (hper : 0 < per) : tid * per ≤ i ∧ i < tid * per + per ↔ tid = i / per := by
  rw [eq_comm, Nat.div_eq_iff hper]
  omega

end Pintos.Lcs
