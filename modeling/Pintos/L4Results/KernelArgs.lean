import Pintos.L2Code.KernelArgs

/-!
# The kernel command line read back

* `command_line_round_trip_iff`: the kernel reads back the arguments that were
  packed, and stores inside `argv` exactly if there are at most 64 of them.
* `many_empty_arguments`: 65 empty arguments fit into the area; the kernel
  stores the null pointer behind the end of `argv`.
-/
namespace Pintos.Boot

open Pintos.Core List

/-- `argv` holds the arguments and then a null pointer. -/
def Holds (bytes : List UInt8) (args : List (List UInt8)) (stores : List Store) : Prop :=
  ∃ ptrs : List Nat, ptrs.map (fun p => stringAt bytes p (loaderArgsLen - p)) = args ∧
    stores = ptrs.mapIdx (fun i p => ((i : Int), some p)) ++ [((args.length : Int), none)]

/-- All stores are inside `argv`. -/
def Inside (stores : List Store) : Prop := ∀ x ∈ stores, 0 ≤ x.1 ∧ x.1 < argvLen

variable {bytes pre post a : List UInt8} {args : List (List UInt8)}

theorem stringAt_append (ha : 0 ∉ a) {n : Nat} (hn : a.length < n) :
    stringAt (pre ++ (a ++ [0]) ++ post) pre.length n = a := by
  have hne : ∀ c ∈ a, decide (c ≠ 0) = true := fun c hc => decide_eq_true fun h0 => ha (h0 ▸ hc)
  obtain ⟨m, rfl⟩ : ∃ m, n = a.length + (m + 1) := ⟨n - a.length - 1, by omega⟩
  unfold stringAt
  rw [append_assoc, drop_left, append_assoc, take_length_add_append, takeWhile_append_of_pos hne]
  simp

/-- The loop reads the arguments that are left. -/
theorem readArgs_spec (hargs : ∀ a ∈ args, 0 ∉ a) (i : Nat)
    (hlen : (pre ++ args.flatMap (· ++ [0]) ++ post).length = loaderArgsLen) :
    ∃ ptrs : List Nat, ptrs.map (fun p =>
        stringAt (pre ++ args.flatMap (· ++ [0]) ++ post) p (loaderArgsLen - p)) = args ∧
      readArgs (pre ++ args.flatMap (· ++ [0]) ++ post) args.length i pre.length =
        some (ptrs.mapIdx fun k p => (((i + k : Nat) : Int), some p)) := by
  induction args generalizing pre i with
  | nil => exact ⟨[], rfl, rfl⟩
  | cons a args ih =>
    have hbytes : pre ++ (a :: args).flatMap (· ++ [0]) ++ post =
        (pre ++ (a ++ [0])) ++ args.flatMap (· ++ [0]) ++ post := by simp
    have hsplit : pre ++ (a :: args).flatMap (· ++ [0]) ++ post =
        pre ++ (a ++ [0]) ++ (args.flatMap (· ++ [0]) ++ post) := by simp
    have hlong := hlen
    rw [hsplit] at hlong
    simp only [length_append, length_singleton] at hlong
    have hstr : stringAt (pre ++ (a :: args).flatMap (· ++ [0]) ++ post) pre.length (loaderArgsLen - pre.length) =
        a := by
      rw [hsplit]
      exact stringAt_append (hargs a mem_cons_self) (by omega)
    rw [hbytes] at hlen
    obtain ⟨ptrs, hstrs, hread⟩ := ih (fun x hx => hargs x (mem_cons_of_mem _ hx)) (i + 1) hlen
    have hnext : (pre ++ (a ++ [0])).length = pre.length + a.length + 1 := by
      simp only [length_append, length_singleton]
      omega
    rw [← hbytes] at hstrs hread
    refine ⟨pre.length :: ptrs, ?_, ?_⟩
    · rw [map_cons, hstr, hstrs]
    · rw [length_cons, readArgs, if_neg (by omega), hstr, ← hnext, hread, Option.map_some, mapIdx_cons]
      simp only [Nat.add_zero, Nat.add_assoc, Nat.add_comm 1]

/-- The count and the bytes of a packed command line. -/
theorem makeKernelCommandLine_some {area : List UInt8} (h : makeKernelCommandLine args = some area) :
    args.length ≤ loaderArgsLen ∧ argCnt area = args.length ∧ ∃ post,
      area.drop loaderArgCntLen = [] ++ args.flatMap (· ++ [0]) ++ post ∧
      ([] ++ args.flatMap (· ++ [0]) ++ post).length = loaderArgsLen := by
  obtain ⟨hle, h⟩ := Option.ite_none_left_eq_some.mp h
  obtain rfl := Option.some.inj h
  have hcnt : args.length ≤ (args.flatMap (· ++ [0])).length := by simp [length_flatMap]
  have hargs : args.length ≤ loaderArgsLen := by
    unfold loaderArgsLen
    omega
  refine ⟨hargs, ?_, replicate (128 - (args.flatMap (· ++ [0])).length) 0, ?_, ?_⟩
  · have hword : wordAt (fun i => ((range 4).map (byteAt args.length) ++ (args.flatMap (· ++ [0]) ++
        replicate (128 - (args.flatMap (· ++ [0])).length) 0)).getD i 0) 0 = args.length := by
      refine wordAt_of_byteAt (by unfold loaderArgsLen at hargs; omega) fun i hi => ?_
      rw [getD_eq_getElem?_getD, getElem?_append_left (by simpa using hi)]
      simp [hi]
    unfold argCnt
    rw [hword]
    dsimp only
    rw [if_pos (by unfold loaderArgsLen at hargs; omega)]
  · have hfour : ((range 4).map (byteAt args.length)).length = loaderArgCntLen := by simp [loaderArgCntLen]
    rw [← hfour, drop_left]
    rfl
  · simp only [nil_append, length_append, length_replicate, loaderArgsLen]
    omega

theorem inside_iff (ptrs : List Nat) (n : Nat) (hn : ptrs.length = n) :
    Inside (ptrs.mapIdx (fun i p => ((i : Int), some p)) ++ [((n : Int), none)]) ↔ n ≤ 64 := by
  constructor
  · intro h
    have hlast := (h ((n : Int), none) (by simp)).2
    unfold argvLen loaderArgsLen at hlast
    dsimp only at hlast
    omega
  · intro hle x hx
    unfold argvLen loaderArgsLen
    rcases mem_append.mp hx with hx | hx
    · obtain ⟨i, hi, rfl⟩ := mem_mapIdx.mp hx
      dsimp only
      omega
    · cases mem_singleton.mp hx
      dsimp only
      omega

theorem command_line_round_trip_iff (args : List (List UInt8)) (hargs : ∀ a ∈ args, 0 ∉ a) (area : List UInt8)
    (h : makeKernelCommandLine args = some area) :
    (∃ r, readCommandLine area = some r ∧ Holds (area.drop loaderArgCntLen) args r.stores ∧ Inside r.stores) ↔
      args.length ≤ 64 := by
  obtain ⟨-, hargc, post, hbytes, hlen⟩ := makeKernelCommandLine_some h
  obtain ⟨ptrs, hstrs, hread⟩ := readArgs_spec hargs 0 hlen
  rw [← hbytes] at hstrs hread
  simp only [Nat.zero_add, length_nil] at hread
  have hptrs : ptrs.length = args.length := by rw [← hstrs, length_map]
  have hline : readCommandLine area = some
      ⟨ptrs.mapIdx (fun i p => ((i : Int), some p)) ++ [((args.length : Int), none)],
        (ptrs.mapIdx fun i p => ((i : Int), some p)).flatMap (printArg (area.drop loaderArgCntLen))⟩ := by
    unfold readCommandLine
    dsimp only
    rw [hargc, Int.toNat_natCast, hread]
    rfl
  rw [hline]
  constructor
  · rintro ⟨r, hr, -, hin⟩
    cases hr
    exact (inside_iff ptrs _ hptrs).mp hin
  · intro hle
    exact ⟨_, rfl, ⟨ptrs, hstrs, rfl⟩, (inside_iff ptrs _ hptrs).mpr hle⟩

/-- "run 'a b'" -/
def twoArgs : List (List UInt8) := [[0x72, 0x75, 0x6e], [0x61, 0x20, 0x62]]

theorem command_line_round_trip_iff_run : ∃ area, makeKernelCommandLine twoArgs = some area ∧
    ∃ r, readCommandLine area = some r ∧ Holds (area.drop loaderArgCntLen) twoArgs r.stores ∧ Inside r.stores := by
  obtain ⟨area, h⟩ : ∃ area, makeKernelCommandLine twoArgs = some area :=
    Option.isSome_iff_exists.mp (by decide)
  exact ⟨area, h, (command_line_round_trip_iff twoArgs (by decide) area h).mpr (by decide)⟩

theorem many_empty_arguments : ∃ r, (makeKernelCommandLine (replicate 65 [])).bind readCommandLine = some r ∧
    argvLen = 65 ∧ (65, none) ∈ r.stores := by
  have hany : ((makeKernelCommandLine (replicate 65 [])).bind readCommandLine).any
      (fun r => decide ((65, none) ∈ r.stores)) = true := by decide
  obtain ⟨r, hr⟩ := Option.isSome_iff_exists.mp (Option.isSome_of_any hany)
  rw [hr] at hany
  exact ⟨r, hr, rfl, of_decide_eq_true hany⟩

end Pintos.Boot
