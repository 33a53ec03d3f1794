import Mathlib

/-!
# Natural merge sort

The runs of a list are its longest pieces in which no element comes before the
one to its left. A pass merges the runs in pairs; the next pass has at most as
many runs as this one has left, so that passes end with one run. A merge of two
sorted lists takes from the right one only an element that comes before the
next of the left one: elements that are alike stay in order (`Rearranged`).
-/
namespace Pintos.Core

open List

section
variable {α : Type} (less : α → α → Bool)

/-- The second element does not come before the first. -/
def inOrder (a b : α) : Bool := !less b a

/-- Neither element comes before the other. -/
def alike (a b : α) : Bool := !less a b && !less b a

def Ordered (l : List α) : Prop := l.Pairwise fun a b => inOrder less a b = true

def runs (l : List α) : List (List α) := l.splitBy (inOrder less)

def mergePairs : List (List α) → List (List α)
  | a :: b :: l => a.merge b (inOrder less) :: mergePairs l
  | l => l

/-- The list after one pass. -/
def pass (l : List α) : List α := (mergePairs less (runs less l)).flatten

/-- The same elements, those that are alike in the same order. -/
structure Rearranged (l l' : List α) : Prop where
  perm : l'.Perm l
  stable : ∀ x, l'.filter (alike less x) = l.filter (alike less x)

end

variable {α : Type} {less : α → α → Bool} {a b l l₁ l₂ l₃ : List α} {L : List (List α)}

theorem Rearranged.refl (l : List α) : Rearranged less l l := ⟨.refl l, fun _ => rfl⟩

theorem Rearranged.trans (h : Rearranged less l₁ l₂) (h' : Rearranged less l₂ l₃) : Rearranged less l₁ l₃ :=
  ⟨h'.perm.trans h.perm, fun x => (h'.stable x).trans (h.stable x)⟩

theorem Rearranged.append {m₁ m₂ : List α} (h : Rearranged less l₁ l₂) (h' : Rearranged less m₁ m₂) :
    Rearranged less (l₁ ++ m₁) (l₂ ++ m₂) := by
  refine ⟨h.perm.append h'.perm, fun x => ?_⟩
  rw [filter_append, filter_append, h.stable, h'.stable]

/-! ## Runs -/

theorem flatten_runs (less : α → α → Bool) (l : List α) : (runs less l).flatten = l := flatten_splitBy ..

/-- The first run ends where an element comes before the one to its left. -/
theorem runs_append (ha : a ≠ []) (hrun : a.IsChain fun x y => inOrder less x y = true)
    (hend : ∀ x ∈ a.getLast?, ∀ y ∈ l.head?, inOrder less x y = false) : runs less (a ++ l) = a :: runs less l := by
  rw [runs, splitBy_append hend, splitBy_of_isChain ha hrun]
  rfl

/-- The first run and what follows it. -/
theorem exists_first_run (less : α → α → Bool) (hl : l ≠ []) : ∃ r l', l = r ++ l' ∧ r ≠ [] ∧
    r.IsChain (fun x y => inOrder less x y = true) ∧ ∀ x ∈ r.getLast?, ∀ y ∈ l'.head?, inOrder less x y = false := by
  obtain ⟨r, L, hL⟩ := exists_cons_of_ne_nil (splitBy_ne_nil (r := inOrder less).mpr hl)
  have hmem : r ∈ l.splitBy (inOrder less) := hL ▸ mem_cons_self
  have hr : r ≠ [] := ne_nil_of_mem_splitBy hmem
  refine ⟨r, L.flatten, ?_, hr, isChain_of_mem_splitBy hmem, fun x hx y hy => ?_⟩
  · rw [← flatten_cons, ← hL, flatten_splitBy]
  · have hbreaks := isChain_getLast_head_splitBy (inOrder less) l
    rw [hL] at hbreaks
    cases L with
    | nil => cases hy
    | cons r' L =>
      obtain ⟨⟨_, hr', hbreak⟩, -⟩ := isChain_cons_cons.mp hbreaks
      rw [flatten_cons, head?_append, head?_eq_some_head hr'] at hy
      rw [getLast?_eq_some_getLast hr] at hx
      cases hx
      cases hy
      exact hbreak

theorem length_runs_append_le (less : α → α → Bool) (hrun : a.IsChain fun x y => inOrder less x y = true) (l : List α) :
    (runs less (a ++ l)).length ≤ (runs less l).length + 1 := by
  by_cases ha : a = []
  · rw [ha, nil_append]
    omega
  by_cases hend : ∀ x ∈ a.getLast?, ∀ y ∈ l.head?, inOrder less x y = false
  · rw [runs_append ha hrun hend, length_cons]
  -- the piece goes on into the first run of the rest
  have hl : l ≠ [] := by
    rintro rfl
    exact hend fun _ _ _ hy => by cases hy
  obtain ⟨r, l', rfl, hr, hchain, hbreak⟩ := exists_first_run less hl
  have hjoin : (a ++ r).IsChain fun x y => inOrder less x y = true := by
    refine isChain_append.mpr ⟨hrun, hchain, fun x hx y hy => ?_⟩
    push Not at hend
    obtain ⟨x', hx', y', hy', hxy⟩ := hend
    rw [head?_append_of_ne_nil _ hr] at hy'
    cases Option.mem_unique hx hx'
    cases Option.mem_unique hy hy'
    simpa using hxy
  have hend' : ∀ x ∈ (a ++ r).getLast?, ∀ y ∈ l'.head?, inOrder less x y = false := by
    rw [getLast?_append_of_ne_nil _ hr]
    exact hbreak
  rw [← append_assoc, runs_append (by simp [ha]) hjoin hend', runs_append hr hchain hbreak]
  simp

/-- A list has no more runs than pieces in order it is made of. -/
theorem length_runs_flatten_le (hL : ∀ m ∈ L, m.IsChain fun x y => inOrder less x y = true) :
    (runs less L.flatten).length ≤ L.length := by
  induction L with
  | nil => simp [runs]
  | cons a L ih =>
    have hrest := ih fun m hm => hL m (mem_cons_of_mem a hm)
    have hfirst := length_runs_append_le less (hL a mem_cons_self) L.flatten
    rw [flatten_cons, length_cons]
    omega

theorem length_runs_le (less : α → α → Bool) (l : List α) : (runs less l).length ≤ l.length := by
  induction l with
  | nil => simp [runs]
  | cons x l ih =>
    have hone := length_runs_append_le less (.singleton x) l
    rw [singleton_append] at hone
    rw [length_cons]
    omega

theorem length_mergePairs (less : α → α → Bool) (L : List (List α)) :
    (mergePairs less L).length = (L.length + 1) / 2 := by
  fun_induction mergePairs less L with
  | case1 a b L ih =>
    rw [length_cons, ih, length_cons, length_cons]
    omega
  | case2 L hL =>
    rcases L with - | ⟨a, - | ⟨b, L⟩⟩
    · simp
    · simp
    · exact absurd rfl (hL a b L)

/-! ## Merging -/

theorem inOrder_iff {x y : α} : inOrder less x y = true ↔ ¬ less y x = true := by
  simp [inOrder]

theorem alike_iff {x y : α} : alike less x y = true ↔ ¬ less x y = true ∧ ¬ less y x = true := by
  simp [alike]

section
variable [hord : IsStrictWeakOrder α fun a b => less a b = true]
include hord

theorem inOrder_trans {x y z : α} (hxy : inOrder less x y = true) (hyz : inOrder less y z = true) :
    inOrder less x z = true := by
  rw [inOrder_iff] at hxy hyz ⊢
  intro hzx
  by_cases h₁ : less x y = true
  · exact hyz (hord.trans z x y hzx h₁)
  by_cases h₂ : less y z = true
  · exact hxy (hord.trans y z x h₂ hzx)
  exact (hord.incomp_trans x y z ⟨h₁, hxy⟩ ⟨h₂, hyz⟩).2 hzx

variable (less) in
theorem inOrder_total (x y : α) : (inOrder less x y || inOrder less y x) = true := by
  rw [Bool.or_eq_true, inOrder_iff, inOrder_iff]
  by_cases hyx : less y x = true
  · exact .inr fun hxy => hord.irrefl x (hord.trans x y x hxy hyx)
  · exact .inl hyx

theorem ordered_iff_isChain : Ordered less l ↔ l.IsChain fun x y => inOrder less x y = true := by
  have : Trans (fun x y => inOrder less x y = true) (fun x y => inOrder less x y = true)
    fun x y => inOrder less x y = true := ⟨inOrder_trans⟩
  exact isChain_iff_pairwise.symm

theorem Ordered.merge (ha : Ordered less a) (hb : Ordered less b) : Ordered less (a.merge b (inOrder less)) :=
  pairwise_merge (fun _ _ _ => inOrder_trans) (inOrder_total less) a b ha hb

/-- An element that comes before all of a list is like none of it. -/
theorem filter_alike_eq_nil {x y z : α} (ha : Ordered less (x :: a)) (hyx : less y x = true)
    (hzy : alike less z y = true) : (x :: a).filter (alike less z) = [] := by
  rw [filter_eq_nil_iff]
  intro w hw hzw
  have hxw : inOrder less x w = true := by
    rcases mem_cons.mp hw with rfl | hw
    · simpa using inOrder_total less w w
    · exact (pairwise_cons.mp ha).1 w hw
  rw [alike_iff] at hzy hzw
  -- `y` and `w` are both like `z`, so they are alike, and `x` would not come behind `y`
  have hyw : inOrder less w y = true := inOrder_iff.mpr (hord.incomp_trans y z w hzy.symm hzw).1
  exact inOrder_iff.mp (inOrder_trans hxw hyw) hyx

theorem rearranged_merge (ha : Ordered less a) (hb : Ordered less b) :
    Rearranged less (a ++ b) (a.merge b (inOrder less)) := by
  refine ⟨merge_perm_append _, fun z => ?_⟩
  induction a generalizing b with
  | nil => rw [nil_merge, nil_append]
  | cons x a iha =>
    induction b with
    | nil => rw [merge_right, append_nil]
    | cons y b ihb =>
      rw [cons_merge_cons]
      split
      case isTrue hxy =>
        rw [filter_cons, iha (pairwise_cons.mp ha).2 hb, cons_append, filter_cons]
      case isFalse hxy =>
        have hyx : less y x = true := by
          rw [inOrder_iff] at hxy
          exact not_not.mp hxy
        rw [filter_append]
        by_cases hzy : alike less z y = true
        · rw [filter_cons_of_pos hzy, ihb (pairwise_cons.mp hb).2, filter_append,
            filter_alike_eq_nil ha hyx hzy, filter_cons_of_pos hzy]
          rfl
        · rw [filter_cons_of_neg hzy, ihb (pairwise_cons.mp hb).2, filter_append,
            filter_cons_of_neg hzy]

/-! ## Passes -/

theorem mergePairs_rearranged (hL : ∀ m ∈ L, Ordered less m) :
    (∀ m ∈ mergePairs less L, Ordered less m) ∧ Rearranged less L.flatten (mergePairs less L).flatten := by
  fun_induction mergePairs less L with
  | case1 a b L ih =>
    have ha := hL a mem_cons_self
    have hb := hL b (mem_cons_of_mem a mem_cons_self)
    obtain ⟨hord, hrest⟩ := ih fun m hm => hL m (mem_cons_of_mem a (mem_cons_of_mem b hm))
    refine ⟨fun m hm => ?_, ?_⟩
    · rcases mem_cons.mp hm with rfl | hm
      · exact ha.merge hb
      · exact hord m hm
    · rw [flatten_cons, flatten_cons, flatten_cons, ← append_assoc]
      exact (rearranged_merge ha hb).append hrest
  | case2 L hL' => exact ⟨hL, .refl _⟩

theorem ordered_of_mem_runs {m : List α} (hm : m ∈ runs less l) : Ordered less m :=
  ordered_iff_isChain.mpr (isChain_of_mem_splitBy hm)

variable (less) in
theorem rearranged_pass (l : List α) : Rearranged less l (pass less l) := by
  have h := (mergePairs_rearranged (L := runs less l) fun _ => ordered_of_mem_runs).2
  rwa [flatten_runs] at h

variable (less) in
/-- The next pass has at most as many runs as this one has left. -/
theorem length_runs_pass_le (l : List α) : (runs less (pass less l)).length ≤ (mergePairs less (runs less l)).length :=
  length_runs_flatten_le fun m hm =>
    ordered_iff_isChain.mp ((mergePairs_rearranged fun _ => ordered_of_mem_runs).1 m hm)

/-- A pass that leaves one run has sorted the list. -/
theorem ordered_pass (h : (mergePairs less (runs less l)).length ≤ 1) : Ordered less (pass less l) := by
  have hord := (mergePairs_rearranged (L := runs less l) fun _ => ordered_of_mem_runs).1
  unfold pass
  rcases hL : mergePairs less (runs less l) with - | ⟨m, - | ⟨m', L⟩⟩
  · exact Pairwise.nil
  · rw [flatten_singleton]
    exact hord m (hL ▸ mem_cons_self)
  · rw [hL] at h
    simp at h

end

end Pintos.Core
