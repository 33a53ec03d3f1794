import Pintos.L3Proof.LcsSpec

/-!
# What the programs of project4 read and write

* `lcs_dynamic_correct`: with every access checked, `lcs_dynamic` returns the
  length of the longest common substring and stores the one that ends first in
  `a`. The checked table is compared with the table of `lcsDynamic` cell by
  cell (`Sim`); that no number wraps around follows from where the strings and
  the blocks lie in memory (`Placed`).
* `workers_inside_iff`: the workers and the loop that prints stay inside the
  tables and the lines that have been read exactly if there is a line.
-/
namespace Pintos.Lcs

open Pintos.Core Function List

/-! ## The table -/

/-- The characters of `a` as a function. -/
def charAt (a : List UInt8) (i : Nat) : UInt8 := a.getD i 0

theorem range_charAt (a : List UInt8) : (range a.length).map (charAt a) = a := by
  refine ext_getElem (by simp) fun i hi hi' => ?_
  simp [charAt, hi']

/-- Nothing wraps around with strings of these lengths. -/
structure Small (a b : List UInt8) : Prop where
  left : a.length < 2 ^ 60
  right : b.length < 2 ^ 60
  table : min a.length b.length < 2 ^ 32

variable {a b : List UInt8} {i j : Nat} {s : Cells} {t : Table}

theorem Small.allocated (h : Small a b) (hi : i < a.length) (hj : j < b.length) :
    Allocated a.length b.length i j := by
  have := h.left
  have := h.right
  unfold Allocated request
  omega

/-- The checked table `s` has the cells of `t` that are done. -/
structure Sim (a b : List UInt8) (i j : Nat) (s : Cells) (t : Table) : Prop where
  cells : ∀ x y, Done b.length i j x y → s.cell x y = some (t.substringLengths x y)
  aIdxMax : s.aIdxMax = t.aIdxMax
  bIdxMax : s.bIdxMax = t.bIdxMax
  maxLength : s.maxLength = t.maxLength
  filled : Filled a b i j t

/-- The length that the checked code computes for two equal characters. -/
theorem Sim.length (h : Sim a b i j s t) (hs : Small a b) (hi : i < a.length) (hj : j < b.length)
    (hc : charAt a i = charAt b j) :
    newLength a.length b.length s i j = some (cellValue (charAt a) (charAt b) t i j) := by
  unfold newLength cellValue
  rw [if_pos hc]
  by_cases hz : i = 0 ∨ j = 0
  · rw [if_pos hz, if_pos hz]
  · have hdone : Done b.length i j (i - 1) (j - 1) := by unfold Done; omega
    have hends := (h.filled.cells _ _ hdone).1
    have hsmall := hs.table
    have hle := hends.1
    have hle' := hends.2.1
    rw [if_neg hz, if_neg hz, Cells.read, if_pos (hs.allocated (by omega) (by omega)), h.cells _ _ hdone,
      Option.map_some, Nat.mod_eq_of_lt (by omega)]

/-- The checked table after a cell has been stored. -/
theorem Sim.update (h : Sim a b i j s t) (hi : i < a.length) (hj : j < b.length) {s' : Cells}
    (hcell : s'.cell = Function.update s.cell i
      (Function.update (s.cell i) j (some (cellValue (charAt a) (charAt b) t i j))))
    (hmax : s'.maxLength = (compare (charAt a) (charAt b) t i j).maxLength)
    (hamax : s'.aIdxMax = (compare (charAt a) (charAt b) t i j).aIdxMax)
    (hbmax : s'.bIdxMax = (compare (charAt a) (charAt b) t i j).bIdxMax) :
    Sim a b i (j + 1) s' (compare (charAt a) (charAt b) t i j) := by
  refine ⟨fun x y hd => ?_, hamax, hbmax, hmax, ?_⟩
  · rw [hcell]
    by_cases hxy : x = i ∧ y = j
    · rw [hxy.1, hxy.2, compare_cell_self, update_self, update_self]
    · rw [compare_cell_ne hxy, ← h.cells x y ((done_succ.mp hd).resolve_right hxy)]
      by_cases hx : x = i
      · subst hx
        rw [update_self, update_of_ne fun hy => hxy ⟨rfl, hy⟩]
      · rw [update_of_ne hx]
  · have hf := Filled.compare (a := charAt a) (b := charAt b) (m := a.length) (n := b.length) (s := t) (i := i) (j := j)
    rw [range_charAt, range_charAt] at hf
    exact hf h.filled hi hj

/-- One iteration of the inner loop makes no access that is not allowed. -/
theorem Sim.compareIn (h : Sim a b i j s t) (hs : Small a b) (hi : i < a.length) (hj : j < b.length) :
    ∃ s', compareIn a b s i j = some s' ∧ Sim a b i (j + 1) s' (compare (charAt a) (charAt b) t i j) := by
  have ha : a[i]? = some (charAt a i) := by simp [charAt, hi]
  have hb : b[j]? = some (charAt b j) := by simp [charAt, hj]
  have hwrite : ∀ len, s.write a.length b.length i j len =
      some { s with cell := Function.update s.cell i (Function.update (s.cell i) j (some len)) } :=
    fun len => if_pos (hs.allocated hi hj)
  have hmax := compare_max (a := charAt a) (b := charAt b) (s := t) (i := i) (j := j)
  unfold Lcs.compareIn
  rw [ha, hb]
  simp only [Option.bind_eq_bind, Option.bind_some]
  by_cases hc : charAt a i = charAt b j
  · rw [if_pos hc, h.length hs hi hj hc, Option.bind_some, hwrite, Option.bind_some]
    dsimp only
    rcases hmax with ⟨hlt, hm, ham, hbm⟩ | ⟨hle, hm, ham, hbm⟩
    · rw [← h.maxLength] at hlt
      rw [if_pos hlt]
      exact ⟨_, rfl, h.update hi hj rfl hm.symm ham.symm hbm.symm⟩
    · rw [← h.maxLength] at hle
      rw [if_neg (Nat.not_lt.mpr hle)]
      exact ⟨_, rfl, h.update hi hj rfl (h.maxLength.trans hm.symm) (h.aIdxMax.trans ham.symm)
        (h.bIdxMax.trans hbm.symm)⟩
  · have hzero : cellValue (charAt a) (charAt b) t i j = 0 := if_neg hc
    rw [if_neg hc, hwrite]
    rcases hmax with ⟨hlt, -⟩ | ⟨-, hm, ham, hbm⟩
    · omega
    · exact ⟨_, rfl, h.update hi hj (by rw [hzero]) (h.maxLength.trans hm.symm) (h.aIdxMax.trans ham.symm)
        (h.bIdxMax.trans hbm.symm)⟩

/-- Both loops. -/
theorem fillIn_sim (hs : Small a b) : ∃ s, fillIn a b = some s ∧
    Sim a b a.length 0 s (fill (fun _ _ => 0) (charAt a) a.length (charAt b) b.length) := by
  refine forLoop_rel (R := fun i r t => ∃ s, r = some s ∧ Sim a b i 0 s t) (Nat.zero_le _) ?_ ?_
  · refine ⟨_, rfl, fun x y hd => ?_, rfl, rfl, rfl, .init _⟩
    unfold Done at hd
    omega
  · rintro i r t - hi ⟨s, rfl, h⟩
    obtain ⟨s', hs', hrow⟩ := forLoop_rel (R := fun j r t => ∃ s, r = some s ∧ Sim a b i j s t) (Nat.zero_le b.length)
      ⟨s, rfl, h⟩ (f := fun s j => s.bind (Lcs.compareIn a b · i j))
      (g := fun s j => compare (charAt a) (charAt b) s i j) <| by
        rintro j r t - hj ⟨s, rfl, h⟩
        exact h.compareIn hs hi hj
    refine ⟨s', hs', fun x y hd => hrow.cells x y (done_row.mp hd), hrow.aIdxMax, hrow.bIdxMax, hrow.maxLength, ?_⟩
    exact hrow.filled.row

theorem storeRows_eq (h : a.length < 2 ^ 60) : storeRows a.length = some () := by
  refine forLoop_inv (P := fun _ r => r = some ()) (Nat.zero_le _) rfl fun i r _ hi hr => ?_
  have : 8 * (i + 1) ≤ request 8 a.length := by
    unfold request
    omega
  rw [if_pos this, hr]

/-- What the loop has copied and the terminating null. -/
theorem copyOut_eq (h : Filled a b i j t) (hs : Small a b) (hmax : s.maxLength = t.maxLength)
    (hidx : s.aIdxMax = t.aIdxMax) :
    ∃ ret, copyOut a s = some ret ∧ ∀ k, ret k = (t.found a ++ [0])[k]? := by
  have hlen := h.length_found
  have hk := h.found.1
  have hm := h.max
  have hsmall := hs.left
  have hloop : ∃ ret, forLoop 0 s.maxLength (fun r i => r.bind fun ret =>
      (a[copyIndex s.aIdxMax s.maxLength i]?).map fun c => Function.update ret i (some c)) (some fun _ => none) =
        some ret ∧ ∀ k, ret k = ((t.found a).take s.maxLength)[k]? := by
    refine forLoop_inv (P := fun i (r : Option (Nat → Option UInt8)) =>
      ∃ ret, r = some ret ∧ ∀ k, ret k = ((t.found a).take i)[k]?) (Nat.zero_le _) ⟨_, rfl, fun k => by simp⟩ ?_
    rintro i r - hi ⟨ret, rfl, hret⟩
    rw [hmax] at hi
    have hcopy : copyIndex s.aIdxMax s.maxLength i = t.aIdxMax + 1 - t.maxLength + i := by
      rw [hmax, hidx]
      unfold copyIndex
      omega
    have hin : t.aIdxMax + 1 - t.maxLength + i < a.length := by omega
    have hget : (t.found a)[i]? = some (a[t.aIdxMax + 1 - t.maxLength + i]) := by
      rw [Table.found, getElem?_take, if_pos hi, getElem?_drop, getElem?_eq_getElem hin]
    rw [hcopy, getElem?_eq_getElem hin]
    refine ⟨Function.update ret i (some (a[t.aIdxMax + 1 - t.maxLength + i])), rfl, fun k => ?_⟩
    by_cases hki : k = i
    · subst hki
      rw [update_self, getElem?_take, if_pos (Nat.lt_succ_self k), hget]
    · rw [update_of_ne hki, hret k, getElem?_take, getElem?_take]
      split_ifs <;> first | rfl | omega
  obtain ⟨ret, hret, hbytes⟩ := hloop
  refine ⟨Function.update ret s.maxLength (some 0), by rw [copyOut, hret]; rfl, fun k => ?_⟩
  by_cases hke : k = s.maxLength
  · subst hke
    rw [update_self, hmax, ← hlen, getElem?_concat_length]
  · rw [update_of_ne hke, hbytes k, take_of_length_le (by omega)]
    by_cases hlt : k < (t.found a).length
    · rw [getElem?_append_left hlt]
    · have hend : (t.found a ++ [0]).length ≤ k := by
        rw [length_append, length_singleton]
        omega
      rw [getElem?_eq_none (by omega), getElem?_eq_none hend]

/-! ## Where the strings and the table lie -/

/-- The addresses of the strings and of the blocks that `malloc` has returned. -/
structure Places where
  left : Nat
  right : Nat
  table : Nat
  rows : Nat → Nat

/-- The blocks are as large as requested, they do not overlap, and all of it
lies below 2^47, where the addresses of a program end. -/
structure Placed (a b : List UInt8) (p : Places) : Prop where
  left : p.left + a.length ≤ 2 ^ 47
  right : p.right + b.length ≤ 2 ^ 47
  table : p.table + request 8 a.length ≤ 2 ^ 47
  rows : ∀ i < a.length, p.rows i + request 4 b.length ≤ 2 ^ 47
  apart : ∀ i < a.length, ∀ j < a.length, i ≠ j →
    p.rows i + request 4 b.length ≤ p.rows j ∨ p.rows j + request 4 b.length ≤ p.rows i

/-- Blocks of one size that do not overlap have room for all of them. -/
theorem card_blocks {n size top : Nat} {addr : Nat → Nat} (hin : ∀ i < n, addr i + size ≤ top)
    (hne : ∀ i < n, ∀ j < n, i ≠ j → addr i + size ≤ addr j ∨ addr j + size ≤ addr i) : n * size ≤ top := by
  have hdisj : Set.PairwiseDisjoint (↑(Finset.range n)) fun i => Finset.Ico (addr i) (addr i + size) := by
    intro i hi j hj hij
    refine Finset.disjoint_left.mpr fun x hx hx' => ?_
    have h := hne i (Finset.mem_range.mp hi) j (Finset.mem_range.mp hj) hij
    rw [Finset.mem_Ico] at hx hx'
    omega
  have hsub : (Finset.range n).biUnion (fun i => Finset.Ico (addr i) (addr i + size)) ⊆ Finset.range top := by
    intro x hx
    obtain ⟨i, hi, hx⟩ := Finset.mem_biUnion.mp hx
    have h := hin i (Finset.mem_range.mp hi)
    rw [Finset.mem_Ico] at hx
    exact Finset.mem_range.mpr (by omega)
  have hcard := Finset.card_le_card hsub
  rw [Finset.card_biUnion hdisj, Finset.card_range] at hcard
  simpa using hcard

theorem Placed.small {p : Places} (h : Placed a b p) : Small a b := by
  have hleft := h.left
  have hright := h.right
  refine ⟨by omega, by omega, ?_⟩
  have hsize : request 4 b.length = 4 * b.length := by
    unfold request
    omega
  have hcard := card_blocks h.rows h.apart
  rw [hsize] at hcard
  by_contra hge
  have hmul : 2 ^ 32 * (4 * 2 ^ 32) ≤ a.length * (4 * b.length) := Nat.mul_le_mul (by omega) (by omega)
  omega

/-! ## The function -/

/-- For strings and blocks anywhere in memory `lcs_dynamic` makes no access that
is not allowed. It returns the length of a longest common substring, the first
one in `a`, and writes that substring and a null byte to `ret`, no further. -/
theorem lcs_dynamic_correct (a b : List UInt8) (p : Places) (h : Placed a b p) :
    ∃ r ret start, lcsDynamicIn a b = some (r.length, ret) ∧ LongestCommon a b r ∧
      (∀ k, ret k = (r ++ [0])[k]?) ∧ r.length ≤ min a.length b.length ∧ r = (a.drop start).take r.length ∧
        ∀ q, ((a.drop q).take r.length).length = r.length → (a.drop q).take r.length <:+: b → start ≤ q := by
  have hs := h.small
  obtain ⟨s, hfill, hsim⟩ := fillIn_sim hs
  generalize fill (fun _ _ => 0) (charAt a) a.length (charAt b) b.length = t at hsim
  obtain ⟨ret, hcopy, hret⟩ := copyOut_eq hsim.filled hs hsim.maxLength hsim.aIdxMax
  have hlen := hsim.filled.length_found
  have hlongest := hsim.filled.longest
  refine ⟨t.found a, ret, if t.maxLength = 0 then 0 else t.aIdxMax + 1 - t.maxLength, ?_, hlongest, hret,
    le_min hlongest.left.length_le hlongest.right.length_le, ?_, fun q hq hb => ?_⟩
  · rw [lcsDynamicIn, storeRows_eq hs.left, hfill, hlen]
    simp only [Option.bind_eq_bind, Option.bind_some, hcopy, hsim.maxLength]
  · rw [hlen]
    by_cases hz : t.maxLength = 0
    · rw [Table.found, hz, take_zero, take_zero]
    · rw [if_neg hz, Table.found]
  · rw [hlen] at hq hb
    by_cases hz : t.maxLength = 0
    · rw [if_pos hz]
      exact Nat.zero_le q
    · rw [if_neg hz]
      exact hsim.filled.earliest (Nat.pos_of_ne_zero hz) hq hb

/-- "abcd" and "xbc". -/
theorem lcs_dynamic_correct_bc : ∃ r ret, lcsDynamicIn [97, 98, 99, 100] [120, 98, 99] = some (r.length, ret) ∧
    LongestCommon [97, 98, 99, 100] [120, 98, 99] r ∧ ∀ k, ret k = (r ++ [0])[k]? := by
  obtain ⟨r, ret, -, hrun, hlongest, hret, -⟩ := lcs_dynamic_correct [97, 98, 99, 100] [120, 98, 99]
    ⟨0, 16, 32, fun i => 64 + 16 * i⟩ ⟨by decide, by decide, by decide, by decide, by decide⟩
  exact ⟨r, ret, hrun, hlongest, hret⟩

/-! ## Lines and tables -/

theorem mem_accesses {start stop i : Nat} :
    (i ∈ (accesses start stop).data ↔ ∃ l, start ≤ l ∧ l < stop ∧ (i = l ∨ i = l + 1)) ∧
      (i ∈ (accesses start stop).lcsData ↔ start ≤ i ∧ i < stop) := by
  rcases Nat.le_total stop start with hle | hle
  · have hempty : accesses start stop = ⟨[], []⟩ := forLoop_of_le hle
    rw [hempty]
    refine ⟨⟨fun h => absurd h not_mem_nil, ?_⟩, ⟨fun h => absurd h not_mem_nil, ?_⟩⟩
    · rintro ⟨l, h₁, h₂, -⟩
      omega
    · omega
  · refine forLoop_inv (P := fun stop (r : Accesses) =>
      (i ∈ r.data ↔ ∃ l, start ≤ l ∧ l < stop ∧ (i = l ∨ i = l + 1)) ∧
        (i ∈ r.lcsData ↔ start ≤ i ∧ i < stop)) hle ?_ ?_
    · refine ⟨⟨fun h => absurd h not_mem_nil, ?_⟩, ⟨fun h => absurd h not_mem_nil, by omega⟩⟩
      rintro ⟨l, h₁, h₂, -⟩
      omega
    · rintro n r hn - ⟨hd, hl⟩
      dsimp only
      rw [mem_append, mem_append, hd, hl]
      constructor
      · constructor
        · rintro (⟨l, h₁, h₂, h₃⟩ | h)
          · exact ⟨l, h₁, by omega, h₃⟩
          · exact ⟨n, hn, by omega, by simpa using h⟩
        · rintro ⟨l, h₁, h₂, h₃⟩
          by_cases hln : l = n
          · subst hln
            exact .inr (by simpa using h₃)
          · exact .inl ⟨l, h₁, by omega, h₃⟩
      · rw [mem_singleton]
        omega

/-- With `n` lines worker `tid` stays in the tables and in the lines, and so
does the loop that prints. -/
structure Inside (v : Version) (n tid : Nat) : Prop where
  data : ∀ i ∈ (workerAccesses v n tid).data, i < v.numLines
  lcsData : ∀ i ∈ (workerAccesses v n tid).lcsData, i < v.numLines - 1
  lines : ∀ i ∈ (workerAccesses v n tid).data, i < n
  printed : ∀ i ∈ printIndexes v n, (i : Int) < (n : Int) - 1

theorem Inside.of_pos {v : Version} {n tid : Nat} (hv : v = pthread ∨ v = openmp) (hpos : 0 < n)
    (hn : n ≤ v.numLines) : Inside v n tid := by
  have hlast : lastLine v n = n - 1 := by
    refine lastLine_eq hpos ?_
    rcases hv with rfl | rfl <;> simp only [pthread, openmp] at * <;> omega
  have hend : blockEnd (numLinesPerThread v) (n - 1) tid ≤ n - 1 := by
    rw [blockEnd_eq]
    omega
  have hdata : ∀ i ∈ (workerAccesses v n tid).data, i < n := by
    intro i hi
    rw [workerAccesses, hlast] at hi
    obtain ⟨l, h₁, h₂, h₃⟩ := mem_accesses.1.mp hi
    omega
  refine ⟨fun i hi => Nat.lt_of_lt_of_le (hdata i hi) hn, fun i hi => ?_, hdata, fun i hi => ?_⟩
  · rw [workerAccesses, hlast] at hi
    have := mem_accesses.2.mp hi
    omega
  · rw [printIndexes, hlast, mem_range] at hi
    omega

/-- Without a line `actual_num_lines - 1` is the largest number there is: a
worker goes through its whole block. -/
theorem mem_accesses_zero {v : Version} {i tid : Nat} (hv : v = pthread ∨ v = openmp) (htid : tid < numThreads)
    (hi : i < numLinesPerThread v) :
    tid * numLinesPerThread v + i + 1 ∈ (workerAccesses v 0 tid).data ∧
      tid * numLinesPerThread v + i ∈ (workerAccesses v 0 tid).lcsData := by
  have hend : blockEnd (numLinesPerThread v) (lastLine v 0) tid = tid * numLinesPerThread v + numLinesPerThread v := by
    rw [blockEnd_eq]
    unfold numThreads at htid
    rcases hv with rfl | rfl <;> simp only [numLinesPerThread, lastLine, pthread, openmp, numThreads] <;> omega
  unfold workerAccesses
  rw [hend]
  unfold blockStart
  exact ⟨mem_accesses.1.mpr ⟨_, Nat.le_add_right .., by omega, .inr rfl⟩,
    mem_accesses.2.mpr ⟨Nat.le_add_right .., by omega⟩⟩

/-- Both versions, any file or none, and any worker: all indexes are inside the
tables and the lines that were read exactly if a line was read. -/
theorem workers_inside_iff (v : Version) (hv : v = pthread ∨ v = openmp) (file : Option (List (List UInt8)))
    (tid : Nat) (htid : tid < numThreads) :
    Inside v (readFile v file).1 tid ↔ ∃ line lines, file = some (line :: lines) := by
  have hper : 0 < numLinesPerThread v := by rcases hv with rfl | rfl <;> decide
  have hnone : ¬ Inside v 0 tid := fun h => absurd (h.lines _ (mem_accesses_zero hv htid hper).1) (Nat.not_lt_zero _)
  have hlines : 0 < v.numLines := by rcases hv with rfl | rfl <;> decide
  constructor
  · intro h
    cases file with
    | none => exact absurd h hnone
    | some l =>
      cases l with
      | nil => exact absurd (by simpa [readFile, openFile] using h) hnone
      | cons line lines => exact ⟨line, lines, rfl⟩
  · rintro ⟨line, lines, rfl⟩
    refine .of_pos hv ?_ ?_ <;> simp only [readFile, openFile, length_take, length_cons] <;> omega

theorem workers_inside_iff_line : Inside pthread (readFile pthread (some [[97]])).1 15 :=
  (workers_inside_iff pthread (.inl rfl) (some [[97]]) 15 (by decide)).mpr ⟨[97], [], rfl⟩

/-- An empty file or none: the last worker leaves both tables, and the loop that
prints begins although there is nothing to print. -/
theorem workers_leave_tables :
    10000 ∈ (workerAccesses pthread (readFile pthread none).1 15).data ∧
      9999 ∈ (workerAccesses pthread (readFile pthread none).1 15).lcsData ∧
      0 ∈ printIndexes pthread (readFile pthread none).1 := by
  have h := @mem_accesses_zero pthread 624 15 (.inl rfl) (by decide) (by decide)
  have hper : numLinesPerThread pthread = 625 := rfl
  rw [hper] at h
  refine ⟨h.1, h.2, mem_range.mpr ?_⟩
  have hlast : lastLine pthread 0 = 2 ^ 32 - 1 := by decide
  rw [show (readFile pthread none).1 = 0 from rfl, hlast]
  omega

end Pintos.Lcs
