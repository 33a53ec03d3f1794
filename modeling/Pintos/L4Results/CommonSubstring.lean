import Pintos.L3Proof.LcsSpec

/-!
# Results about the three programs

* `schedule_independent`: with pthreads and OpenMP every schedule stores what
  the loop in one thread stores, a longest common substring for each line, and
  each entry is stored once.
* `rank_partition_iff`: the blocks of the MPI ranks are disjoint, and cover all
  lines exactly if no line is left over by the division.
* `mpi_output_iff`: rank 0 prints what the other programs print exactly if its
  own block has all the lines; nothing is sent to it.
-/
namespace Pintos.Lcs

open Pintos.Core Function

variable {v : Version} {lines : List (List UInt8)} {s s' : St} {i tid : Nat}

/-! ## Threads -/

/-- The first line of its block that a worker has not done. -/
def progress (v : Version) (lines : List (List UInt8)) (s : St) (tid : Nat) : Nat :=
  match s.pc tid with
  | .new => blockStart (numLinesPerThread v) tid
  | .loop i => i
  | .done => max (blockStart (numLinesPerThread v) tid) (stop v lines tid)

/-- Line `i` is in the block of worker `i / per`, and it is done when that
worker has passed it. -/
structure Inv (v : Version) (lines : List (List UInt8)) (s : St) : Prop where
  range : ∀ tid i, s.pc tid = .loop i → blockStart (numLinesPerThread v) tid ≤ i ∧
    (i ≤ stop v lines tid ∨ i = blockStart (numLinesPerThread v) tid)
  log : ∀ i, s.log.filter (·.2 = i) =
    if i < progress v lines s (i / numLinesPerThread v) then [(i / numLinesPerThread v, i)] else []
  stored : ∀ i, s.lcsData i = if i < progress v lines s (i / numLinesPerThread v) then entry lines i else []
  outside : ∀ tid, numThreads ≤ tid → s.pc tid = .new

theorem per_pos (hv : v = pthread ∨ v = openmp) : 0 < numLinesPerThread v := by
  rcases hv with rfl | rfl <;> decide

theorem not_lt_blockStart (hper : 0 < numLinesPerThread v) :
    ¬ i < blockStart (numLinesPerThread v) (i / numLinesPerThread v) := by
  have h := ((block_iff (i := i) hper).mpr rfl).1
  unfold blockStart
  omega

theorem Inv.init (hper : 0 < numLinesPerThread v) : Inv v lines ⟨fun _ => [], fun _ => .new, []⟩ where
  range := nofun
  log _ := (if_neg (not_lt_blockStart hper)).symm
  stored _ := (if_neg (not_lt_blockStart hper)).symm
  outside _ _ := rfl

/-- A worker moves without storing anything. -/
theorem Inv.move {p : Pc} (h : Inv v lines s) (htid : tid < numThreads)
    (hp : progress v lines { s with pc := update s.pc tid p } tid = progress v lines s tid)
    (hrange : ∀ i, p = .loop i → i = blockStart (numLinesPerThread v) tid) :
    Inv v lines { s with pc := update s.pc tid p } := by
  have hprog : ∀ u, progress v lines { s with pc := update s.pc tid p } u = progress v lines s u := by
    intro u
    by_cases hu : u = tid
    · rw [hu, hp]
    · unfold progress
      dsimp only
      rw [update_of_ne hu]
  refine ⟨fun u i hu => ?_, fun i => ?_, fun i => ?_, fun u hu => ?_⟩
  · by_cases hut : u = tid
    · subst hut
      change update s.pc u p u = .loop i at hu
      rw [update_self] at hu
      have hi := hrange i hu
      exact ⟨hi.ge, .inr hi⟩
    · change update s.pc tid p u = .loop i at hu
      rw [update_of_ne hut] at hu
      exact h.range u i hu
  · rw [hprog]
    exact h.log i
  · rw [hprog]
    exact h.stored i
  · change update s.pc tid p u = .new
    rw [update_of_ne (by omega)]
    exact h.outside u hu

/-- A worker does a line. -/
theorem Inv.store (h : Inv v lines s) (hper : 0 < numLinesPerThread v) (hpc : s.pc tid = .loop i)
    (hi : i < stop v lines tid) :
    Inv v lines { lcsData := update s.lcsData i (entry lines i)
                  pc := update s.pc tid (.loop (i + 1)), log := s.log ++ [(tid, i)] } := by
  have htid : tid < numThreads := by
    by_contra hge
    rw [h.outside tid (Nat.le_of_not_lt hge)] at hpc
    cases hpc
  have hstart := (h.range tid i hpc).1
  have howner : tid = i / numLinesPerThread v := by
    refine (block_iff hper).mp ⟨hstart, ?_⟩
    have hle : stop v lines tid ≤ tid * numLinesPerThread v + numLinesPerThread v := by
      unfold stop
      rw [blockEnd_eq]
      omega
    omega
  have hbefore : progress v lines s tid = i := by
    unfold progress
    rw [hpc]
  -- the line itself is new, and nothing changes for the others
  have hprog : ∀ k, k ≠ i → (k < progress v lines
      { lcsData := update s.lcsData i (entry lines i)
        pc := update s.pc tid (.loop (i + 1)), log := s.log ++ [(tid, i)] } (k / numLinesPerThread v) ↔
      k < progress v lines s (k / numLinesPerThread v)) := by
    intro k hk
    by_cases hkt : k / numLinesPerThread v = tid
    · rw [hkt, hbefore]
      unfold progress
      dsimp only
      rw [update_self]
      dsimp only
      omega
    · unfold progress
      dsimp only
      rw [update_of_ne hkt]
  have hself : i < progress v lines
      { lcsData := update s.lcsData i (entry lines i)
        pc := update s.pc tid (.loop (i + 1)), log := s.log ++ [(tid, i)] } (i / numLinesPerThread v) := by
    rw [← howner]
    unfold progress
    dsimp only
    rw [update_self]
    exact Nat.lt_succ_self i
  have hold : ¬ i < progress v lines s (i / numLinesPerThread v) := by
    rw [← howner, hbefore]
    exact Nat.lt_irrefl i
  refine ⟨fun u k hu => ?_, fun k => ?_, fun k => ?_, fun u hu => ?_⟩
  · change update s.pc tid (.loop (i + 1)) u = .loop k at hu
    by_cases hut : u = tid
    · subst hut
      rw [update_self] at hu
      obtain rfl : i + 1 = k := Pc.loop.inj hu
      exact ⟨Nat.le_succ_of_le hstart, .inl hi⟩
    · rw [update_of_ne hut] at hu
      exact h.range u k hu
  · rw [List.filter_append, h.log k]
    by_cases hk : k = i
    · subst hk
      rw [if_neg hold, if_pos hself, ← howner]
      simp
    · simp only [hprog k hk]
      have hik : ¬ i = k := fun he => hk he.symm
      simp [hik]
  · change update s.lcsData i (entry lines i) k = _
    by_cases hk : k = i
    · subst hk
      rw [update_self, if_pos hself]
    · rw [update_of_ne hk, h.stored k]
      simp only [hprog k hk]
  · change update s.pc tid (.loop (i + 1)) u = .new
    rw [update_of_ne (by omega)]
    exact h.outside u hu

/-- The facts about the input that the workers use. -/
theorem Input.result (hin : Input v lines) (hw : lines.length < 2 ^ v.width) (hi : i < stop v lines tid)
    (junk : Nat → Nat → Nat) : lineResult junk (openFile v lines).2 i = some (entry lines i) := by
  have hlast : stop v lines tid ≤ lines.length - 1 := by
    unfold stop
    rw [blockEnd_eq, openFile_eq hin.le, lastLine_eq hin.pos hw]
    omega
  rw [openFile_eq hin.le]
  exact (entry_spec hin.short (by omega)).1 junk

theorem Inv.step {a : Act} (h : Inv v lines s) (hper : 0 < numLinesPerThread v) (hin : Input v lines)
    (hw : lines.length < 2 ^ v.width) (hs : Lcs.step v lines s a = some s') : Inv v lines s' := by
  cases a with
  | start tid =>
    obtain ⟨⟨htid, hnew⟩, hs⟩ := Option.ite_none_right_eq_some.mp hs
    cases hs
    refine h.move htid ?_ fun i hi => (Pc.loop.inj hi).symm
    unfold progress
    dsimp only
    rw [update_self, hnew]
  | run tid junk =>
    dsimp only [Lcs.step] at hs
    cases hpc : s.pc tid <;> rw [hpc] at hs <;> dsimp only at hs
    case new => cases hs
    case done => cases hs
    case loop i =>
      by_cases hi : i < stop v lines tid
      · rw [if_pos hi, hin.result hw hi junk] at hs
        cases hs
        exact h.store hper hpc hi
      · rw [if_neg hi] at hs
        cases hs
        have htid : tid < numThreads := by
          by_contra hge
          rw [h.outside tid (Nat.le_of_not_lt hge)] at hpc
          cases hpc
        refine h.move htid ?_ nofun
        obtain ⟨hstart, hend⟩ := h.range tid i hpc
        unfold progress
        dsimp only
        rw [update_self, hpc]
        dsimp only
        omega

theorem reach_inv (hv : v = pthread ∨ v = openmp) (hin : Input v lines) (hr : (machine v lines).Reachable s) :
    Inv v lines s := by
  have hw : lines.length < 2 ^ v.width := by
    refine Nat.lt_of_le_of_lt hin.le ?_
    rcases hv with rfl | rfl <;> decide
  refine hr.invariant (I := Inv v lines) ?_ fun s a s' h _ hs => h.step (per_pos hv) hin hw hs
  rintro s rfl
  exact .init (per_pos hv)

/-- Every line but the last has been done. -/
theorem Inv.finished (h : Inv v lines s) (hv : v = pthread ∨ v = openmp) (hin : Input v lines) (hf : Finished s)
    (hi : i < lines.length - 1) :
    i / numLinesPerThread v < numThreads ∧ i < progress v lines s (i / numLinesPerThread v) := by
  have hblock := (block_iff (i := i) (per_pos hv)).mpr rfl
  have hall : v.numLines = numThreads * numLinesPerThread v ∧ lines.length < 2 ^ v.width := by
    refine ⟨?_, Nat.lt_of_le_of_lt hin.le ?_⟩ <;> rcases hv with rfl | rfl <;> decide
  have htid : i / numLinesPerThread v < numThreads := by
    rw [Nat.div_lt_iff_lt_mul (per_pos hv), ← hall.1]
    have := hin.le
    omega
  refine ⟨htid, ?_⟩
  unfold progress
  rw [hf _ htid]
  dsimp only
  unfold stop
  rw [blockEnd_eq, openFile_eq hin.le, lastLine_eq hin.pos hall.2]
  unfold blockStart
  omega

theorem sequential_eq (hin : Input v lines) (hw : lines.length < 2 ^ v.width) (junk : Nat → Nat → Nat → Nat) :
    sequential v lines junk = some fun i => if 0 ≤ i ∧ i < lines.length - 1 then entry lines i else [] := by
  unfold sequential
  rw [openFile_eq hin.le, lastLine_eq hin.pos hw]
  exact lineLoop_eq fun i _ hi => (entry_spec hin.short (by omega)).1 (junk i)

theorem schedule_independent (v : Version) (hv : v = pthread ∨ v = openmp) (lines : List (List UInt8))
    (hin : Input v lines) (s : St) (hr : (machine v lines).Reachable s) :
    (∀ tid i junk, s.pc tid = .loop i → ∃ s', step v lines s (.run tid junk) = some s') ∧
    (Finished s → ∀ junk, ∃ d, sequential v lines junk = some d ∧ ∀ i < lines.length - 1, s.lcsData i = d i ∧
      (∃ tid < numThreads, s.log.filter (·.2 = i) = [(tid, i)]) ∧
      ∃ r, LongestCommon (chars (lines.getD i [])) (chars (lines.getD (i + 1) [])) r ∧
        d i = if r = [] then noCommon else r) := by
  have h := reach_inv hv hin hr
  have hw : lines.length < 2 ^ v.width := by
    refine Nat.lt_of_le_of_lt hin.le ?_
    rcases hv with rfl | rfl <;> decide
  refine ⟨fun tid i junk hpc => ?_, fun hf junk => ⟨_, sequential_eq hin hw junk, fun i hi => ?_⟩⟩
  · dsimp only [step]
    rw [hpc]
    dsimp only
    by_cases hi : i < stop v lines tid
    · rw [if_pos hi, hin.result hw hi junk]
      exact ⟨_, rfl⟩
    · rw [if_neg hi]
      exact ⟨_, rfl⟩
  · obtain ⟨htid, hdone⟩ := h.finished hv hin hf hi
    have hstored := h.stored i
    have hlog := h.log i
    rw [if_pos hdone] at hstored hlog
    rw [if_pos ⟨Nat.zero_le i, hi⟩]
    exact ⟨hstored, ⟨_, htid, hlog⟩, (entry_spec hin.short (by omega)).2⟩

/-- "ab" and "bc": worker 0 does the one pair of lines, and the others have nothing to do. -/
def oneRun : List Act :=
  let junk := fun _ _ => 7
  (List.range 16).map .start ++ (List.range 16).reverse.map (.run · junk) ++ [.run 0 junk]

theorem schedule_independent_two_lines : ∃ s,
    (machine pthread [[97, 98], [98, 99]]).exec ⟨fun _ => [], fun _ => .new, []⟩ oneRun = some s ∧
    Finished s ∧ s.lcsData 0 = [98] ∧ ∃ tid < numThreads, s.log.filter (·.2 = 0) = [(tid, 0)] := by
  obtain ⟨s, hs, hf, h₀⟩ : ∃ s,
      (machine pthread [[97, 98], [98, 99]]).exec ⟨fun _ => [], fun _ => .new, []⟩ oneRun = some s ∧
      Finished s ∧ s.lcsData 0 = [98] := ⟨_, rfl, by decide, by decide⟩
  have hin : Input pthread [[97, 98], [98, 99]] := ⟨by decide, by decide, by decide⟩
  have hr : (machine pthread [[97, 98], [98, 99]]).Reachable s :=
    Machine.reach_exec (fun _ _ => trivial) (.init rfl) hs
  obtain ⟨d, -, hd⟩ := (schedule_independent pthread (.inl rfl) _ hin s hr).2 hf fun _ _ _ => 0
  exact ⟨s, hs, hf, h₀, (hd 0 (by decide)).2.1⟩

/-! ## Ranks -/

/-- Line `i` is in the range `[start, end)` of a rank. -/
def InBlock (processNum n rank i : Nat) : Prop :=
  blockStart (mpi.numLines / processNum) rank ≤ i ∧
    i < blockEnd (mpi.numLines / processNum) (lastLine mpi n) rank

theorem rank_partition_iff (processNum n : Nat) (hn : 1 ≤ n) (hle : n ≤ mpi.numLines) :
    ((∀ r r' i, r < processNum → r' < processNum → InBlock processNum n r i → InBlock processNum n r' i → r = r') ∧
      ∀ i, (∃ r < processNum, InBlock processNum n r i) ↔ i < n - 1) ↔
    n - 1 ≤ processNum * (mpi.numLines / processNum) := by
  have hw : n < 2 ^ mpi.width := Nat.lt_of_le_of_lt hle (by decide)
  have hin : ∀ r i, InBlock processNum n r i ↔ r * (mpi.numLines / processNum) ≤ i ∧
      i < r * (mpi.numLines / processNum) + mpi.numLines / processNum ∧ i < n - 1 := by
    intro r i
    unfold InBlock
    rw [blockEnd_eq, lastLine_eq hn hw, Nat.lt_min]
    rfl
  generalize mpi.numLines / processNum = per at hin
  constructor
  · rintro ⟨-, hcover⟩
    by_contra hgap
    -- the first line behind the last block
    obtain ⟨r, hr, hb⟩ := (hcover (processNum * per)).mpr (Nat.lt_of_not_le hgap)
    have hlast : r * per + per ≤ processNum * per := by
      rw [← Nat.succ_mul]
      exact Nat.mul_le_mul_right per hr
    have := ((hin _ _).mp hb).2.1
    omega
  · intro hall
    refine ⟨fun r r' i _ _ hr hr' => ?_, fun i => ⟨?_, fun hi => ?_⟩⟩
    · obtain ⟨h₁, h₂, -⟩ := (hin r i).mp hr
      obtain ⟨h₁', h₂', -⟩ := (hin r' i).mp hr'
      have hper : 0 < per := by omega
      rw [(block_iff hper).mp ⟨h₁, h₂⟩, (block_iff hper).mp ⟨h₁', h₂'⟩]
    · rintro ⟨r, -, hb⟩
      exact ((hin r i).mp hb).2.2
    · have hper : 0 < per := Nat.pos_of_ne_zero fun h0 => by
        rw [h0, Nat.mul_zero] at hall
        omega
      obtain ⟨h₁, h₂⟩ := (block_iff (i := i) hper).mpr rfl
      refine ⟨i / per, ?_, (hin _ _).mpr ⟨h₁, h₂, hi⟩⟩
      rw [Nat.div_lt_iff_lt_mul hper]
      omega

theorem rank_partition_iff_four : 1000000 - 1 ≤ 4 * (mpi.numLines / 4) ∧
    ∀ i, (∃ r < 4, InBlock 4 1000000 r i) ↔ i < 1000000 - 1 :=
  ⟨by decide, ((rank_partition_iff 4 1000000 (by decide) (by decide)).mpr (by decide)).2⟩

/-- Six ranks do 166666 lines each, and the last three pairs of 1000000 lines are in no block. -/
theorem rank_partition_gap : 999998 < 1000000 - 1 ∧ ¬ ∃ r < 6, InBlock 6 1000000 r 999998 := by
  unfold InBlock
  decide

/-- The entries of rank 0. -/
theorem rankResult_zero (hin : Input mpi lines) (junk : Nat → Nat → Nat → Nat) (processNum : Nat) :
    rankResult lines junk processNum 0 = some fun i =>
      if i < min (mpi.numLines / processNum) (lines.length - 1) then entry lines i else [] := by
  have hw : lines.length < 2 ^ mpi.width := Nat.lt_of_le_of_lt hin.le (by decide)
  have hbcast : ∀ count data, bcast count data data = data := fun count data =>
    funext fun i => funext fun j => ite_self _
  unfold rankResult
  rw [openFile_eq hin.le]
  dsimp only
  rw [hbcast, blockEnd_eq, lastLine_eq hin.pos hw,
    lineLoop_eq fun i _ hi => (entry_spec hin.short (by omega)).1 (junk i)]
  refine congrArg some (funext fun i => ?_)
  unfold blockStart
  congr 1
  rw [Nat.zero_mul, Nat.zero_add]
  exact propext (and_iff_right (Nat.zero_le i))

theorem mpi_output_iff (processNum : Nat) (lines : List (List UInt8)) (hin : Input pthread lines)
    (junk : Nat → Nat → Nat → Nat) (v : Version) (hv : v = pthread ∨ v = openmp) (s : St)
    (hr : (machine v lines).Reachable s) (hf : Finished s) :
    rankPrinted lines junk processNum 0 = some (printed v (openFile v lines).1 s.lcsData) ↔
      lines.length - 1 ≤ mpi.numLines / processNum := by
  have hle : lines.length ≤ 10000 := hin.le
  have hinv : Input v lines := by
    refine ⟨hin.pos, hle.trans ?_, hin.short⟩
    rcases hv with rfl | rfl <;> decide
  have hinm : Input mpi lines := ⟨hin.pos, hle.trans (by decide), hin.short⟩
  have h := reach_inv hv hinv hr
  have hdata : ∀ i < lines.length - 1, s.lcsData i = entry lines i := fun i hi => by
    rw [h.stored i, if_pos (h.finished hv hinv hf hi).2]
  have hlast : lastLine v lines.length = lines.length - 1 ∧ lastLine mpi lines.length = lines.length - 1 := by
    refine ⟨lastLine_eq hin.pos (Nat.lt_of_le_of_lt hle ?_), lastLine_eq hin.pos (Nat.lt_of_le_of_lt hle (by decide))⟩
    rcases hv with rfl | rfl <;> decide
  unfold rankPrinted printed
  rw [rankResult_zero hinm, openFile_eq hinv.le, openFile_eq hinm.le, hlast.1, hlast.2, Option.map_some,
    Option.some_inj,
    List.map_inj_left]
  constructor
  · intro heq
    by_contra hgap
    -- the first line behind the block of rank 0
    have hi : mpi.numLines / processNum < lines.length - 1 := Nat.lt_of_not_le hgap
    have hentry := heq _ (List.mem_range.mpr hi)
    simp only [Prod.mk.injEq, true_and] at hentry
    have hnot : ¬ mpi.numLines / processNum < min (mpi.numLines / processNum) (lines.length - 1) := by omega
    rw [if_neg hnot, hdata _ hi] at hentry
    exact entry_ne_nil hin.short (Nat.add_lt_of_lt_sub hi) hentry.symm
  · intro hall i hi
    have hi := List.mem_range.mp hi
    rw [hdata i hi]
    exact congrArg (fun e => (i, i + 1, e)) (if_pos (by omega))

/-- Three lines "a" with the newlines that `fgets` keeps. -/
def threeLines : List (List UInt8) := [[97, 10], [97, 10], [97, 10]]

/-- The schedule in which worker 0 does both pairs. -/
def threeRun : List Act :=
  let junk := fun _ _ => 7
  (List.range 16).map .start ++ (List.range 16).map (.run · junk) ++ [.run 0 junk, .run 0 junk]

theorem mpi_output_iff_one_process : ∃ s,
    (machine openmp threeLines).exec ⟨fun _ => [], fun _ => .new, []⟩ threeRun = some s ∧
    rankPrinted threeLines (fun _ _ _ => 0) 1 0 =
      some (printed openmp (openFile openmp threeLines).1 s.lcsData) := by
  obtain ⟨s, hs, hf⟩ : ∃ s,
      (machine openmp threeLines).exec ⟨fun _ => [], fun _ => .new, []⟩ threeRun = some s ∧ Finished s :=
    ⟨_, rfl, by decide⟩
  have hr : (machine openmp threeLines).Reachable s := Machine.reach_exec (fun _ _ => trivial) (.init rfl) hs
  exact ⟨s, hs, (mpi_output_iff 1 _ ⟨by decide, by decide, by decide⟩ _ openmp (.inr rfl) s hr hf).mpr (by decide)⟩

/-- With a million processes the block of rank 0 is one line: it prints an
empty string for the second pair, where the other programs print the line. -/
theorem mpi_output_lost : ∃ s,
    (machine openmp threeLines).exec ⟨fun _ => [], fun _ => .new, []⟩ threeRun = some s ∧ Finished s ∧
    rankPrinted threeLines (fun _ _ _ => 0) 1000000 0 = some [(0, 1, [97, 10]), (1, 2, [])] ∧
    printed openmp (openFile openmp threeLines).1 s.lcsData = [(0, 1, [97, 10]), (1, 2, [97, 10])] :=
  ⟨_, rfl, by decide, by decide, by decide⟩

end Pintos.Lcs
