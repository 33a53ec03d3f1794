import Pintos.Core.NaturalMerge
import Pintos.L3Proof.ListSpec

/-!
# list_sort is a natural merge sort

One lemma for each function of the sort, over a family of lists with one list
in focus. `find_end_of_run` finds the first run of what is left of the list,
`inplace_merge` replaces two neighbouring runs by their merge, and a pass is
`pass` of the sequence. Every loop has ended within a number of iterations that
is above the length of the list.
-/
namespace Pintos.KernelList

open Pintos.Core Function List

variable {ι : Type} {k : Links Nat} {hdr : ι → Hdr} {seq : ι → List Nat} {i : ι} {less : Nat → Nat → Bool}
variable {a b l m : List Nat} {e x n : Nat}

namespace Family

/-! ## Runs -/

/-- The segment `a` is in order, and what follows begins with an element that is not. -/
def IsRun (less : Nat → Nat → Bool) (a l : List Nat) : Prop :=
  a ≠ [] ∧ a.IsChain (fun x y => inOrder less x y = true) ∧ ∀ x ∈ a.getLast?, ∀ y ∈ l.head?, inOrder less x y = false

section
variable (h : Family k hdr seq)
include h

theorem ok_sortedLoop {Q : Bool → Links Nat → Prop} (hi : seq i = a ++ (x :: m ++ b))
    (hm : (x :: m).IsChain fun x y => inOrder less x y = true) (hn : m.length < n) (hQ : Q true k) :
    Ok (sortedLoop less ((hdr i).at b) n x) k Q := by
  induction m generalizing a x n with
  | nil =>
    obtain ⟨n, rfl⟩ : ∃ n', n = n' + 1 := ⟨n - 1, by simp at hn; omega⟩
    have hnext : seq i = (a ++ [x]) ++ b := by simp [hi]
    have hx : (hdr i).before (a ++ [x]) = x := Hdr.before_concat ..
    rw [sortedLoop, ok_bind, ← hx, h.ok_listNext hnext, if_pos rfl, ok_pure]
    exact hQ
  | cons y m ih =>
    obtain ⟨n, rfl⟩ : ∃ n', n = n' + 1 := ⟨n - 1, by simp at hn; omega⟩
    have hnext : seq i = (a ++ [x]) ++ (y :: m ++ b) := by simp [hi]
    have hx : (hdr i).before (a ++ [x]) = x := Hdr.before_concat ..
    have hy : (hdr i).at (y :: m ++ b) = y := Hdr.at_cons ..
    have hne : y ≠ (hdr i).at b := by
      intro he
      have := (h.at_eq_at hnext).mp (hy.trans he)
      cases this
    obtain ⟨hxy, hrest⟩ := isChain_cons_cons.mp hm
    rw [sortedLoop, ok_bind]
    nth_rewrite 1 [← hx]
    rw [h.ok_listNext hnext, hy, if_neg hne, ok_bind]
    nth_rewrite 1 [← hy]
    rw [h.ok_listPrev hnext, hx, if_neg (inOrder_iff.mp hxy)]
    exact ih hnext hrest (by simp at hn; omega)

/-- `is_sorted` of a segment that is in order. -/
theorem ok_isSorted {Q : Bool → Links Nat → Prop} (hi : seq i = a ++ (m ++ b))
    (hm : m.IsChain fun x y => inOrder less x y = true) (hn : m.length ≤ n) (hQ : Q true k) :
    Ok (isSorted less n ((hdr i).at (m ++ b)) ((hdr i).at b)) k Q := by
  unfold isSorted
  cases m with
  | nil =>
    rw [nil_append, if_neg (by simp), ok_pure]
    exact hQ
  | cons x m =>
    have hne : (hdr i).at (x :: m ++ b) ≠ (hdr i).at b := fun he => by cases (h.at_eq_at hi).mp he
    rw [if_pos hne]
    exact h.ok_sortedLoop hi hm (by simp at hn; omega) hQ

theorem ok_runLoop (hi : seq i = a ++ (x :: l)) (hn : l.length < n) :
    Ok (runLoop less (hdr i).tail n x) k fun r k' => k' = k ∧ ∃ m l', l = m ++ l' ∧ IsRun less (x :: m) l' ∧
      r = (hdr i).at l' := by
  induction l generalizing a x n with
  | nil =>
    obtain ⟨n, rfl⟩ : ∃ n', n = n' + 1 := ⟨n - 1, by simp at hn; omega⟩
    have hnext : seq i = (a ++ [x]) ++ [] := by simp [hi]
    have hx : (hdr i).before (a ++ [x]) = x := Hdr.before_concat ..
    rw [runLoop, ok_bind, ← hx, h.ok_listNext hnext, Hdr.at_nil, if_pos rfl, ok_pure]
    refine ⟨rfl, [], [], rfl, ⟨cons_ne_nil _ _, .singleton _, fun _ _ _ hy => by cases hy⟩, rfl⟩
  | cons y l ih =>
    obtain ⟨n, rfl⟩ : ∃ n', n = n' + 1 := ⟨n - 1, by simp at hn; omega⟩
    have hnext : seq i = (a ++ [x]) ++ (y :: l) := by simp [hi]
    have hx : (hdr i).before (a ++ [x]) = x := Hdr.before_concat ..
    have hy : (hdr i).at (y :: l) = y := Hdr.at_cons ..
    have hne : y ≠ (hdr i).tail := by
      intro he
      have hend : seq i = (a ++ [x]) ++ (y :: l ++ []) := by rw [append_nil]; exact hnext
      have hnil := (h.at_eq_at hend).mp he
      cases hnil
    rw [runLoop, ok_bind]
    nth_rewrite 1 [← hx]
    rw [h.ok_listNext hnext, hy, if_neg hne, ok_bind]
    nth_rewrite 1 [← hy]
    rw [h.ok_listPrev hnext, hx]
    split
    case isTrue hless =>
      rw [ok_pure]
      refine ⟨rfl, [], y :: l, rfl, ⟨cons_ne_nil _ _, .singleton _, ?_⟩, rfl⟩
      rintro _ ⟨⟩ _ ⟨⟩
      simp [inOrder, hless]
    case isFalse hless =>
      -- the run goes on with `y`
      refine (ih hnext (by simp at hn; omega)).mono ?_
      rintro r k' ⟨hk, m, l', hl, ⟨-, hchain, hend⟩, hr⟩
      refine ⟨hk, y :: m, l', by rw [hl]; rfl, ⟨cons_ne_nil _ _, ?_, ?_⟩, hr⟩
      · exact isChain_cons_cons.mpr ⟨inOrder_iff.mpr hless, hchain⟩
      · rw [getLast?_cons_cons]
        exact hend

/-- `find_end_of_run` up to the end of the list. -/
theorem ok_findEndOfRun (hi : seq i = a ++ l) (hl : l ≠ []) (hn : l.length ≤ n) :
    Ok (findEndOfRun less n ((hdr i).at l) (hdr i).tail) k fun r k' => k' = k ∧ ∃ m l', l = m ++ l' ∧
      IsRun less m l' ∧ r = (hdr i).at l' := by
  obtain ⟨x, l, rfl⟩ := exists_cons_of_ne_nil hl
  have hne : (hdr i).at (x :: l) ≠ (hdr i).tail := by
    intro he
    have hend : seq i = a ++ (x :: l ++ []) := by rw [append_nil]; exact hi
    have hnil := (h.at_eq_at hend).mp he
    cases hnil
  unfold findEndOfRun
  rw [ok_bind, ok_assert (decide_eq_true (h.at_ne_zero hi)), ok_bind, ok_assert (decide_eq_true (h.tail_ne_zero i)),
    ok_bind, ok_assert (decide_eq_true hne)]
  refine (h.ok_runLoop hi (by simp at hn; omega)).mono ?_
  rintro r k' ⟨hk, m, l', hl, hrun, hr⟩
  exact ⟨hk, x :: m, l', by rw [hl]; rfl, hrun, hr⟩

end

/-! ## Merging -/

/-- `a` and `b` are what is left to merge; the elements before them are in place. -/
theorem ok_mergeLoop [DecidableEq ι] {pre post : List Nat} (h : Family k hdr seq)
    (hi : seq i = pre ++ (a ++ (b ++ post))) (hn : a.length + b.length < n) :
    Ok (mergeLoop less ((hdr i).at post) n ((hdr i).at (a ++ (b ++ post))) ((hdr i).at (b ++ post))) k fun _ k' =>
      Family k' hdr (update seq i (pre ++ (a.merge b (inOrder less) ++ post))) := by
  induction n generalizing k seq pre a b with
  | zero => omega
  | succ n ih =>
    have hsplit : seq i = (pre ++ a) ++ (b ++ post) := by rw [hi, append_assoc]
    rw [mergeLoop]
    by_cases hend : a = [] ∨ b = []
    · have hstop : ¬ ((hdr i).at (a ++ (b ++ post)) ≠ (hdr i).at (b ++ post) ∧
          (hdr i).at (b ++ post) ≠ (hdr i).at post) := by
        rw [ne_eq, ne_eq, h.at_eq_at hi, h.at_eq_at hsplit]
        tauto
      have hmerge : a.merge b (inOrder less) = a ++ b := by
        rcases hend with rfl | rfl
        · rw [nil_merge, nil_append]
        · rw [merge_right, append_nil]
      rw [if_neg hstop, ok_pure, hmerge, append_assoc, ← hi, update_eq_self]
      exact h
    · obtain ⟨ha, hb⟩ := not_or.mp hend
      have hgo : (hdr i).at (a ++ (b ++ post)) ≠ (hdr i).at (b ++ post) ∧
          (hdr i).at (b ++ post) ≠ (hdr i).at post := by
        rw [ne_eq, ne_eq, h.at_eq_at hi, h.at_eq_at hsplit]
        exact ⟨ha, hb⟩
      obtain ⟨x, a, rfl⟩ := exists_cons_of_ne_nil ha
      obtain ⟨y, b, rfl⟩ := exists_cons_of_ne_nil hb
      have hx : (hdr i).at (x :: a ++ (y :: b ++ post)) = x := Hdr.at_cons ..
      have hy : (hdr i).at (y :: b ++ post) = y := Hdr.at_cons ..
      rw [if_pos hgo, cons_merge_cons, hy, hx]
      split
      case isTrue hless =>
        -- `y` goes before the place of `x`, which stays the same
        rw [if_neg (fun hxy => inOrder_iff.mp hxy hless), ok_bind]
        have hnext : seq i = (pre ++ (x :: a ++ [y])) ++ (b ++ post) := by simp [hi]
        have hy' : (hdr i).before (pre ++ (x :: a ++ [y])) = y := by
          rw [← append_assoc, Hdr.before_concat]
        nth_rewrite 1 [← hy']
        rw [h.ok_listNext hnext, ok_bind, h.ok_listPrev hnext, hy', ok_bind]
        have hj : seq i = (pre ++ x :: a) ++ ([y] ++ (b ++ post)) := by simp [hi]
        have hd : update seq i ((pre ++ x :: a) ++ (b ++ post)) i = pre ++ (x :: a ++ (b ++ post)) := by
          rw [update_self, append_assoc]
        have hsplice := h.ok_listSplice hj hd
        rw [update_idem] at hsplice
        refine hsplice.mono fun _ k' hfam => ?_
        have hi' : update seq i (pre ++ ([y] ++ (x :: a ++ (b ++ post)))) i =
            (pre ++ [y]) ++ (x :: a ++ (b ++ post)) := by
          rw [update_self, append_assoc]
        refine (ih hfam hi' (by simp at hn ⊢; omega)).mono fun _ k'' hdone => ?_
        rw [update_idem] at hdone
        simpa using hdone
      case isFalse hless =>
        rw [if_pos (inOrder_iff.mpr hless), ok_bind]
        have hnext : seq i = (pre ++ [x]) ++ (a ++ (y :: b ++ post)) := by simp [hi]
        have hx' : (hdr i).before (pre ++ [x]) = x := Hdr.before_concat ..
        nth_rewrite 1 [← hx']
        rw [h.ok_listNext hnext]
        refine (ih h hnext (by simp at hn ⊢; omega)).mono fun _ k' hdone => ?_
        simpa using hdone

/-- `inplace_merge` of two neighbouring runs. -/
theorem ok_inplaceMerge [DecidableEq ι] {pre post : List Nat} (h : Family k hdr seq)
    (hi : seq i = pre ++ (a ++ (b ++ post))) (ha : a.IsChain fun x y => inOrder less x y = true)
    (hb : b.IsChain fun x y => inOrder less x y = true) (hn : a.length + b.length < n) :
    Ok (inplaceMerge less n ((hdr i).at (a ++ (b ++ post))) ((hdr i).at (b ++ post)) ((hdr i).at post)) k fun _ k' =>
      Family k' hdr (update seq i (pre ++ (a.merge b (inOrder less) ++ post))) := by
  have hsplit : seq i = (pre ++ a) ++ (b ++ post) := by rw [hi, append_assoc]
  have hpost : seq i = (pre ++ a ++ b) ++ post := by simp [hi]
  unfold inplaceMerge
  rw [ok_bind, ok_assert (decide_eq_true (h.at_ne_zero hi)), ok_bind, ok_assert (decide_eq_true (h.at_ne_zero hsplit)),
    ok_bind, ok_assert (decide_eq_true (h.at_ne_zero hpost)), ok_bind]
  refine h.ok_isSorted hi ha (by omega) ?_
  rw [ok_bind, ok_assert rfl, ok_bind]
  refine h.ok_isSorted hsplit hb (by omega) ?_
  rw [ok_bind, ok_assert rfl]
  exact h.ok_mergeLoop hi hn

/-! ## Passes -/

/-- A pass over `l`, the elements before it being done. -/
theorem ok_passLoop [DecidableEq ι] {p : List Nat} {c : Nat} (h : Family k hdr seq) (hi : seq i = p ++ l)
    (hn : l.length < n) (hc : l.length < c) :
    Ok (passLoop less (hdr i) n c ((hdr i).at l)) k fun r k' => r = (mergePairs less (runs less l)).length ∧
      Family k' hdr (update seq i (p ++ pass less l)) := by
  induction c generalizing k seq p l with
  | zero => omega
  | succ c ih =>
    have hend : (hdr i).at l = (hdr i).tail ↔ l = [] := by
      have heq := h.at_eq_at (i := i) (a := p) (m := l) (b := []) (by rw [append_nil]; exact hi)
      rwa [append_nil, Hdr.at_nil] at heq
    rw [passLoop, ok_bind, h.ok_listEnd]
    by_cases hl : l = []
    · subst hl
      rw [if_pos (hend.mpr rfl), ok_pure]
      refine ⟨rfl, ?_⟩
      have hpass : pass less ([] : List Nat) = [] := rfl
      rw [hpass, ← hi, update_eq_self]
      exact h
    · rw [if_neg (fun he => hl (hend.mp he)), ok_bind, h.ok_listEnd, ok_bind]
      refine (h.ok_findEndOfRun hi hl hn.le).mono ?_
      rintro r k' ⟨hk, a, l', rfl, ⟨ha, hachain, haend⟩, rfl⟩
      subst hk
      have hi' : seq i = (p ++ a) ++ l' := by rw [hi, append_assoc]
      have hruns : runs less (a ++ l') = a :: runs less l' := runs_append ha hachain haend
      have hend' : (hdr i).at l' = (hdr i).tail ↔ l' = [] := by
        have heq := h.at_eq_at (i := i) (m := l') (b := []) (by rw [append_nil]; exact hi')
        rwa [append_nil, Hdr.at_nil] at heq
      rw [ok_bind, h.ok_listEnd]
      unfold Core.pass
      rw [hruns]
      by_cases hl' : l' = []
      · -- the last run has no partner
        subst hl'
        rw [if_pos (hend'.mpr rfl), ok_pure]
        refine ⟨rfl, ?_⟩
        have hflat : (mergePairs less (a :: runs less [])).flatten = a := by simp [runs, mergePairs]
        rw [hflat, ← append_nil a, ← hi, update_eq_self]
        exact h
      · rw [if_neg (fun he => hl' (hend'.mp he)), ok_bind, h.ok_listEnd, ok_bind]
        have ha0 := length_pos_iff.mpr ha
        rw [length_append] at hn hc
        refine (h.ok_findEndOfRun hi' hl' (by omega)).mono ?_
        rintro r k' ⟨hk, b, post, rfl, ⟨hb, hbchain, hbend⟩, rfl⟩
        subst hk
        rw [length_append] at hn hc
        rw [ok_bind, runs_append hb hbchain hbend, mergePairs, flatten_cons, length_cons]
        refine (h.ok_inplaceMerge hi hachain hbchain (by omega)).mono fun _ k' hfam => ?_
        rw [ok_bind]
        have hrest : update seq i (p ++ (a.merge b (inOrder less) ++ post)) i =
            (p ++ a.merge b (inOrder less)) ++ post := by
          rw [update_self, append_assoc]
        refine (ih hfam hrest (by omega) (by omega)).mono ?_
        rintro cnt k'' ⟨rfl, hdone⟩
        rw [update_idem, append_assoc] at hdone
        exact (ok_pure _).mpr ⟨rfl, hdone⟩

/-! ## The sort -/

section
variable [IsStrictWeakOrder Nat fun a b => less a b = true]

/-- Passes go on until one run is left; each leaves at most half of the runs. -/
theorem ok_sortLoop [DecidableEq ι] {c : Nat} (h : Family k hdr seq) (hn : (seq i).length < n) (hc : 0 < c)
    (hruns : (runs less (seq i)).length ≤ c) :
    Ok (sortLoop less (hdr i) n c) k fun _ k' => ∃ l, Rearranged less (seq i) l ∧ Ordered less l ∧
      Family k' hdr (update seq i l) := by
  induction c generalizing k seq with
  | zero => omega
  | succ c ih =>
    rw [sortLoop, ok_bind, h.ok_listBegin, ok_bind]
    refine (h.ok_passLoop (p := []) rfl hn hn).mono ?_
    rintro cnt k' ⟨rfl, hfam⟩
    rw [nil_append] at hfam
    have hhalf := length_mergePairs less (runs less (seq i))
    have hsorted := rearranged_pass less (seq i)
    split
    case isTrue hmore =>
      have hnext := length_runs_pass_le less (seq i)
      have hlen : (update seq i (pass less (seq i)) i).length < n := by
        rw [update_self, hsorted.perm.length_eq]
        exact hn
      refine (ih hfam hlen (by omega) (by rw [update_self]; omega)).mono ?_
      rintro _ k'' ⟨l, hl, hord, hdone⟩
      rw [update_self] at hl
      rw [update_idem] at hdone
      exact ⟨l, hsorted.trans hl, hord, hdone⟩
    case isFalse hone =>
      rw [ok_pure]
      exact ⟨pass less (seq i), hsorted, ordered_pass (by omega), hfam⟩

variable (less) in
theorem ok_listSort [DecidableEq ι] (h : Family k hdr seq) (i : ι) (hn : (seq i).length < n) :
    Ok (listSort less n (hdr i)) k fun _ k' => ∃ l, Rearranged less (seq i) l ∧ Ordered less l ∧
      Family k' hdr (update seq i l) := by
  have hruns := length_runs_le less (seq i)
  unfold listSort
  rw [ok_bind, ok_assert (decide_eq_true (h.head_ne_zero i)), ok_bind]
  refine (h.ok_sortLoop hn (by omega) (by omega)).mono ?_
  rintro _ k' ⟨l, hl, hord, hfam⟩
  rw [ok_bind, hfam.ok_listBegin, ok_bind, hfam.ok_listEnd, ok_bind]
  have hi : update seq i l i = [] ++ (l ++ []) := by simp
  have hlen := hl.perm.length_eq
  rw [hi, nil_append, ← Hdr.at_nil]
  refine hfam.ok_isSorted hi (ordered_iff_isChain.mp hord) (by omega) ?_
  rw [ok_assert rfl]
  exact ⟨l, hl, hord, hfam⟩

end

end Family

end Pintos.KernelList
