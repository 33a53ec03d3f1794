import Pintos.L3Proof.ListSort

/-!
# lib/kernel/list.c acts on sequences

`Op` are the functions that change a list, with the pointers that a caller
passes. `Acts hdr seq op r seq'` is what a call means for the sequences of a
family of lists: which calls are allowed, what is returned and what the
sequences are afterwards.

* `list_operations_refine`: on any family of lists, every allowed call returns
  without a failed assertion and leaves the family with the sequences that the
  call means; no list changes but those it names.
* `list_sort_correct`: for every strict weak order, `list_sort` of any list of
  a family ends, no assertion fails, and the sequence is a stable sort of what
  it was.
-/
namespace Pintos.KernelList

open Pintos.Core Function

variable {ι : Type}

inductive Op (ι : Type)
  | insert (before elem : Nat)
  | splice (before first last : Nat)
  | pushFront (i : ι) (elem : Nat)
  | pushBack (i : ι) (elem : Nat)
  | remove (elem : Nat)
  | popFront (i : ι)
  | popBack (i : ι)
  | reverse (i : ι)

/-- A call, with a bound for the loop of `list_reverse`. -/
def Op.call (hdr : ι → Hdr) (n : Nat) : Op ι → M (Option Nat)
  | .insert before elem => do
    listInsert before elem
    pure none
  | .splice before first last => do
    listSplice before first last
    pure none
  | .pushFront i elem => do
    listPushFront (hdr i) elem
    pure none
  | .pushBack i elem => do
    listPushBack (hdr i) elem
    pure none
  | .remove elem => do
    pure (some (← listRemove elem))
  | .popFront i => do
    pure (some (← listPopFront (hdr i)))
  | .popBack i => do
    pure (some (← listPopBack (hdr i)))
  | .reverse i => do
    listReverse n (hdr i)
    pure none

/-- An element that is in no list, nor a header. -/
def Free (hdr : ι → Hdr) (seq : ι → List Nat) (e : Nat) : Prop := e ≠ 0 ∧ ∀ i, e ∉ (hdr i).nodes (seq i)

/-- A pointer before which something is inserted is an element of a list or its
end, `(hdr i).at b`. The range of `list_splice` is `m` in list `j`, from its
first element to the place behind its last one; the target is a place in what
is left of the lists without `m`. -/
inductive Acts [DecidableEq ι] (hdr : ι → Hdr) (seq : ι → List Nat) : Op ι → Option Nat → (ι → List Nat) → Prop
  | insert {i : ι} {a b : List Nat} {e : Nat} (hi : seq i = a ++ b) (he : Free hdr seq e) :
      Acts hdr seq (.insert ((hdr i).at b) e) none (update seq i (a ++ e :: b))
  | splice {i j : ι} {a m b c d : List Nat} (hj : seq j = a ++ (m ++ b))
      (hi : update seq j (a ++ b) i = c ++ d) :
      Acts hdr seq (.splice ((hdr i).at d) ((hdr j).at (m ++ b)) ((hdr j).at b)) none
        (update (update seq j (a ++ b)) i (c ++ (m ++ d)))
  | pushFront {i : ι} {e : Nat} (he : Free hdr seq e) :
      Acts hdr seq (.pushFront i e) none (update seq i (e :: seq i))
  | pushBack {i : ι} {e : Nat} (he : Free hdr seq e) :
      Acts hdr seq (.pushBack i e) none (update seq i (seq i ++ [e]))
  | remove {i : ι} {a b : List Nat} {e : Nat} (hi : seq i = a ++ e :: b) :
      Acts hdr seq (.remove e) (some ((hdr i).at b)) (update seq i (a ++ b))
  | popFront {i : ι} {b : List Nat} {e : Nat} (hi : seq i = e :: b) :
      Acts hdr seq (.popFront i) (some e) (update seq i b)
  | popBack {i : ι} {a : List Nat} {e : Nat} (hi : seq i = a ++ [e]) :
      Acts hdr seq (.popBack i) (some e) (update seq i a)
  | reverse {i : ι} : Acts hdr seq (.reverse i) none (update seq i (seq i).reverse)

theorem Free.loose {hdr : ι → Hdr} {seq : ι → List Nat} {e : Nat} (h : Free hdr seq e) (k : Links Nat) :
    Loose k hdr seq [e] := by
  refine ⟨⟨.singleton e, .singleton e⟩, ?_, List.nodup_singleton e, fun i n hn => ?_⟩
  · rw [List.mem_singleton]
    exact h.1.symm
  · rw [List.mem_singleton.mp hn]
    exact h.2 i

/-- A call keeps every list well formed and acts on the sequences as it says. -/
theorem list_operations_refine [DecidableEq ι] {k : Links Nat} {hdr : ι → Hdr} {seq seq' : ι → List Nat} {op : Op ι}
    {r : Option Nat} {n : Nat} (h : Family k hdr seq) (hop : Acts hdr seq op r seq')
    (hn : ∀ i, op = .reverse i → (seq i).length < n) :
    Ok (op.call hdr n) k fun r' k' => r' = r ∧ Family k' hdr seq' := by
  cases hop with
  | insert hi he =>
    rw [Op.call, ok_bind]
    exact (h.ok_listInsert hi (he.loose k)).mono fun _ _ hfam => (ok_pure _).mpr ⟨rfl, hfam⟩
  | splice hj hi =>
    rw [Op.call, ok_bind]
    exact (h.ok_listSplice hj hi).mono fun _ _ hfam => (ok_pure _).mpr ⟨rfl, hfam⟩
  | @pushFront i e he =>
    rw [Op.call, ok_bind]
    exact (h.ok_listPushFront i (he.loose k)).mono fun _ _ hfam => (ok_pure _).mpr ⟨rfl, hfam⟩
  | @pushBack i e he =>
    rw [Op.call, ok_bind]
    exact (h.ok_listPushBack i (he.loose k)).mono fun _ _ hfam => (ok_pure _).mpr ⟨rfl, hfam⟩
  | remove hi =>
    rw [Op.call, ok_bind]
    exact (h.ok_listRemove hi).mono fun _ _ hfam => (ok_pure _).mpr ⟨congrArg some hfam.1, hfam.2⟩
  | popFront hi =>
    rw [Op.call, ok_bind]
    exact (h.ok_listPopFront hi).mono fun _ _ hfam => (ok_pure _).mpr ⟨congrArg some hfam.1, hfam.2⟩
  | popBack hi =>
    rw [Op.call, ok_bind]
    exact (h.ok_listPopBack hi).mono fun _ _ hfam => (ok_pure _).mpr ⟨congrArg some hfam.1, hfam.2⟩
  | @reverse i =>
    rw [Op.call, ok_bind]
    exact (h.ok_listReverse i (hn i rfl)).mono fun _ _ hfam => (ok_pure _).mpr ⟨rfl, hfam⟩

/-- Two lists: elements 5, 6, 7 between the headers 1 and 2, none between 3 and 4. -/
def twoLists : Links Nat where
  next n := if n = 1 then 5 else if n = 5 then 6 else if n = 6 then 7 else if n = 7 then 2 else if n = 3 then 4 else 0
  prev n := if n = 2 then 7 else if n = 7 then 6 else if n = 6 then 5 else if n = 5 then 1 else if n = 4 then 3 else 0

def twoHeaders : Bool → Hdr
  | true => ⟨1, 2⟩
  | false => ⟨3, 4⟩

def twoSequences : Bool → List Nat
  | true => [5, 6, 7]
  | false => []

theorem family_twoLists : Family twoLists twoHeaders twoSequences where
  linked i := by
    cases i <;> simp [Links.Linked, Links.Fwd, Links.Bwd, Hdr.nodes, twoHeaders, twoSequences, twoLists]
  first i := by cases i <;> rfl
  last i := by cases i <;> rfl
  nonnull i := by cases i <;> decide
  nodup i := by cases i <;> decide
  apart i j hij := by
    cases i <;> cases j
    · exact absurd rfl hij
    · decide
    · decide
    · exact absurd rfl hij

/-- Elements 6 and 7 are spliced to the other list. -/
theorem list_operations_refine_splice :
    Ok ((.splice 4 6 2 : Op Bool).call twoHeaders 4) twoLists fun r k =>
      r = none ∧ Family k twoHeaders (update (update twoSequences true [5]) false [6, 7]) := by
  refine list_operations_refine family_twoLists ?_ fun i hi => by cases hi
  exact Acts.splice (i := false) (j := true) (a := [5]) (m := [6, 7]) (b := []) (c := []) (d := []) rfl rfl

/-! ## Sorting -/

/-- The list is in nondecreasing order, and the elements that are like `x`, for any `x`, are those they were in the
order they were in. -/
theorem list_sort_correct [DecidableEq ι] {k : Links Nat} {hdr : ι → Hdr} {seq : ι → List Nat} {n : Nat}
    (less : Nat → Nat → Bool) [IsStrictWeakOrder Nat fun a b => less a b = true] (h : Family k hdr seq) (i : ι)
    (hn : (seq i).length < n) :
    Ok (listSort less n (hdr i)) k fun _ k' => ∃ l, Family k' hdr (update seq i l) ∧ l.Perm (seq i) ∧
      (l.Pairwise fun a b => ¬ less b a = true) ∧
      ∀ x, l.filter (fun y => !less x y && !less y x) = (seq i).filter fun y => !less x y && !less y x := by
  refine (h.ok_listSort less i hn).mono ?_
  rintro _ k' ⟨l, hl, hord, hfam⟩
  exact ⟨l, hfam, hl.perm, hord.imp inOrder_iff.mp, hl.stable⟩

/-- Even numbers before odd ones. -/
def evenFirst (a b : Nat) : Bool := a % 2 < b % 2

theorem weakOrder_evenFirst : IsStrictWeakOrder Nat fun a b => evenFirst a b = true where
  irrefl a := by simp [evenFirst]
  trans a b c hab hbc := by
    simp only [evenFirst, decide_eq_true_eq] at hab hbc ⊢
    omega
  incomp_trans a b c hab hbc := by
    simp only [evenFirst, decide_eq_true_eq] at hab hbc ⊢
    omega

theorem list_sort_correct_evenFirst : Ok (listSort evenFirst 4 (twoHeaders true)) twoLists fun _ k' =>
    ∃ l, Family k' twoHeaders (update twoSequences true l) ∧ l.Perm [5, 6, 7] ∧
      (l.Pairwise fun a b => ¬ evenFirst b a = true) ∧
      ∀ x, l.filter (fun y => !evenFirst x y && !evenFirst y x) =
        [5, 6, 7].filter fun y => !evenFirst x y && !evenFirst y x :=
  haveI := weakOrder_evenFirst
  list_sort_correct evenFirst family_twoLists true (by decide)

end Pintos.KernelList
