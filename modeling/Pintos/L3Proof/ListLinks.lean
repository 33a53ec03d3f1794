import Pintos.L2Code.KernelList

/-!
# Lists and their sequences

`Family k hdr seq`: in heap `k` the list `hdr i` has the elements `seq i`, for
every `i`. Forward and backward links agree, the ends are null, and no element
is in two places. A segment of a list is taken out by `Links.unlink` and put
into a list by `Links.link`; between the two it is `Loose`.
-/
namespace Pintos.KernelList

open Pintos.Core Function List

variable {ι : Type}

/-- The elements between the two header elements. -/
def Hdr.nodes (l : Hdr) (xs : List Nat) : List Nat := l.head :: (xs ++ [l.tail])

structure Family (k : Links Nat) (hdr : ι → Hdr) (seq : ι → List Nat) : Prop where
  linked : ∀ i, k.Linked ((hdr i).nodes (seq i))
  first : ∀ i, k.prev (hdr i).head = 0
  last : ∀ i, k.next (hdr i).tail = 0
  nonnull : ∀ i, 0 ∉ (hdr i).nodes (seq i)
  nodup : ∀ i, ((hdr i).nodes (seq i)).Nodup
  apart : ∀ i j, i ≠ j → ∀ n ∈ (hdr i).nodes (seq i), n ∉ (hdr j).nodes (seq j)

/-- The elements of `m` are linked and in no list. -/
structure Loose (k : Links Nat) (hdr : ι → Hdr) (seq : ι → List Nat) (m : List Nat) : Prop where
  linked : k.Linked m
  nonnull : 0 ∉ m
  nodup : m.Nodup
  apart : ∀ i, ∀ n ∈ m, n ∉ (hdr i).nodes (seq i)

/-- The element before the place behind `a`. -/
def Hdr.before (l : Hdr) (a : List Nat) : Nat := a.getLastD l.head

/-- The element at the place before `b`. -/
def Hdr.at (l : Hdr) (b : List Nat) : Nat := b.headD l.tail

variable {k : Links Nat} {hdr : ι → Hdr} {seq : ι → List Nat} {i j : ι} {a b m : List Nat} {e : Nat} {l : Hdr}

@[simp] theorem Hdr.at_nil (l : Hdr) : l.at [] = l.tail := rfl

@[simp] theorem Hdr.at_cons (l : Hdr) (e : Nat) (b : List Nat) : l.at (e :: b) = e := rfl

@[simp] theorem Hdr.before_nil (l : Hdr) : l.before [] = l.head := rfl

@[simp] theorem Hdr.before_concat (l : Hdr) (a : List Nat) (e : Nat) : l.before (a ++ [e]) = e := by
  simp [Hdr.before]

theorem Hdr.before_append (l : Hdr) (a : List Nat) {g : Nat} (hg : m.getLast? = some g) : l.before (a ++ m) = g := by
  simp [Hdr.before, getLastD_eq_getLast?, getLast?_append, hg]

theorem Hdr.nodes_append (l : Hdr) (a b : List Nat) : l.nodes (a ++ b) = (l.head :: a) ++ (b ++ [l.tail]) := by
  simp [Hdr.nodes]

theorem Hdr.getLast?_before (l : Hdr) (a : List Nat) : (l.head :: a).getLast? = some (l.before a) := by
  rw [getLast?_cons, Hdr.before]
  cases a using reverseRecOn <;> simp

theorem Hdr.head?_at (l : Hdr) (b : List Nat) : (b ++ [l.tail]).head? = some (l.at b) := by
  cases b <;> rfl

theorem Hdr.before_mem (l : Hdr) (a : List Nat) : l.before a ∈ l.head :: a :=
  mem_of_getLast? (l.getLast?_before a)

theorem Hdr.at_mem (l : Hdr) (b : List Nat) : l.at b ∈ b ++ [l.tail] :=
  mem_of_head? (l.head?_at b)

/-- The place between two parts of a list. -/
theorem Hdr.place_mem (l : Hdr) {xs : List Nat} (hxs : xs = a ++ b) :
    l.before a ∈ l.head :: xs ∧ l.at b ∈ xs ++ [l.tail] := by
  subst hxs
  refine ⟨?_, ?_⟩
  · rcases mem_cons.mp (l.before_mem a) with he | hm
    · exact mem_cons.mpr (.inl he)
    · exact mem_cons_of_mem _ (mem_append_left b hm)
  · rw [append_assoc]
    exact mem_append_right a (l.at_mem b)

theorem Hdr.mem_nodes_left (l : Hdr) {xs : List Nat} {n : Nat} (hn : n ∈ l.head :: xs) : n ∈ l.nodes xs :=
  mem_append_left [l.tail] hn

theorem Hdr.mem_nodes_right (l : Hdr) {xs : List Nat} {n : Nat} (hn : n ∈ xs ++ [l.tail]) : n ∈ l.nodes xs :=
  mem_cons_of_mem l.head hn

namespace Family

variable (h : Family k hdr seq)
include h

theorem ne_zero {n : Nat} (hn : n ∈ (hdr i).nodes (seq i)) : n ≠ 0 := fun he => h.nonnull i (he ▸ hn)

theorem eq_of_mem {n : Nat} (hi : n ∈ (hdr i).nodes (seq i)) (hj : n ∈ (hdr j).nodes (seq j)) : i = j := by
  by_contra hne
  exact h.apart i j hne n hi hj

theorem head_ne {n : Nat} (hn : n ∈ seq j ++ [(hdr j).tail]) : (hdr i).head ≠ n := by
  rintro rfl
  obtain rfl := h.eq_of_mem (i := i) (j := j) mem_cons_self (mem_cons_of_mem _ hn)
  exact (nodup_cons.mp (h.nodup i)).1 hn

theorem tail_ne {n : Nat} (hn : n ∈ (hdr j).head :: seq j) : (hdr i).tail ≠ n := by
  rintro rfl
  have hnodes : (hdr j).nodes (seq j) = ((hdr j).head :: seq j) ++ [(hdr j).tail] := rfl
  have hmem : (hdr i).tail ∈ (hdr i).nodes (seq i) := by simp [Hdr.nodes]
  obtain rfl := h.eq_of_mem hmem (hnodes ▸ mem_append_left _ hn)
  have hnd := h.nodup i
  rw [hnodes] at hnd
  exact (nodup_append.mp hnd).2.2 _ hn _ (mem_singleton.mpr rfl) rfl

/-- The links across a place. -/
theorem across (hj : seq j = a ++ b) : k.next ((hdr j).before a) = (hdr j).at b ∧
    k.prev ((hdr j).at b) = (hdr j).before a := by
  have hl := h.linked j
  rw [hj, Hdr.nodes_append] at hl
  exact (Links.linked_append.mp hl).2.2 _ ((hdr j).getLast?_before a) _ ((hdr j).head?_at b)

/-- A segment is taken out of list `j`. -/
theorem unlink [DecidableEq ι] (hj : seq j = a ++ (m ++ b)) :
    Family (k.unlink ((hdr j).before a) ((hdr j).at b)) hdr (update seq j (a ++ b)) ∧
      Loose (k.unlink ((hdr j).before a) ((hdr j).at b)) hdr (update seq j (a ++ b)) m := by
  have hnodes : (hdr j).nodes (seq j) = ((hdr j).head :: a) ++ (m ++ (b ++ [(hdr j).tail])) := by
    rw [hj, Hdr.nodes_append, append_assoc]
  have hlinked := h.linked j
  have hnd := h.nodup j
  rw [hnodes] at hlinked hnd
  obtain ⟨hrest, hm⟩ := hlinked.unlink hnd ((hdr j).getLast?_before a) ((hdr j).head?_at b)
  have hb : (hdr j).before a ∈ (hdr j).head :: seq j := ((hdr j).place_mem hj).1
  have ha : (hdr j).at b ∈ seq j ++ [(hdr j).tail] :=
    ((hdr j).place_mem (b := b) (a := a ++ m) (by rw [hj, append_assoc])).2
  -- what is left of list `j` is part of what it was
  have hsub : ∀ i, ((hdr i).nodes (update seq j (a ++ b) i)).Sublist ((hdr i).nodes (seq i)) := by
    intro i
    by_cases hij : i = j
    · subst hij
      rw [update_self, hnodes, Hdr.nodes_append]
      exact Sublist.append (Sublist.refl _) (sublist_append_right _ _)
    · rw [update_of_ne hij]
  have hmem : ∀ n ∈ m, n ∈ (hdr j).nodes (seq j) := by
    intro n hn
    rw [hnodes]
    exact mem_append_right _ (mem_append_left _ hn)
  refine ⟨⟨fun i => ?_, fun i => ?_, fun i => ?_, fun i hz => ?_, fun i => ?_, fun i i' hne n hn hn' => ?_⟩,
    hm, fun hz => ?_, ?_, fun i n hn hn' => ?_⟩
  · by_cases hij : i = j
    · subst hij
      rw [update_self, Hdr.nodes_append]
      exact hrest
    · rw [update_of_ne hij]
      refine (h.linked i).congr (fun n hn => ?_) fun n hn => ?_
      · rw [Links.next_unlink, if_neg]
        rintro rfl
        exact hij (h.eq_of_mem (mem_of_mem_dropLast hn) ((hdr j).mem_nodes_left hb))
      · rw [Links.prev_unlink, if_neg]
        rintro rfl
        exact hij (h.eq_of_mem (mem_of_mem_tail hn) ((hdr j).mem_nodes_right ha))
  · rw [Links.prev_unlink, if_neg (h.head_ne ha)]
    exact h.first i
  · rw [Links.next_unlink, if_neg (h.tail_ne hb)]
    exact h.last i
  · exact h.nonnull i ((hsub i).subset hz)
  · exact (h.nodup i).sublist (hsub i)
  · exact h.apart i i' hne n ((hsub i).subset hn) ((hsub i').subset hn')
  · exact h.nonnull j (hmem 0 hz)
  · exact (nodup_append.mp (nodup_append.mp hnd).2.1).1
  · obtain rfl := h.eq_of_mem ((hsub i).subset hn') (hmem n hn)
    rw [update_self, Hdr.nodes_append] at hn'
    rcases mem_append.mp hn' with hn' | hn'
    · exact (nodup_append.mp hnd).2.2 n hn' n (mem_append_left _ hn) rfl
    · exact (nodup_append.mp (nodup_append.mp hnd).2.1).2.2 n hn n hn' rfl

/-- A segment is put into list `i`. -/
theorem link [DecidableEq ι] (hm : Loose k hdr seq m) (hi : seq i = a ++ b) {f g : Nat} (hf : m.head? = some f)
    (hg : m.getLast? = some g) :
    Family (k.link ((hdr i).before a) f g ((hdr i).at b)) hdr (update seq i (a ++ (m ++ b))) := by
  have hnodes : (hdr i).nodes (seq i) = ((hdr i).head :: a) ++ (b ++ [(hdr i).tail]) := by
    rw [hi, Hdr.nodes_append]
  have hnodes' : (hdr i).nodes (a ++ (m ++ b)) = ((hdr i).head :: a) ++ (m ++ (b ++ [(hdr i).tail])) := by
    rw [Hdr.nodes_append, append_assoc]
  have hlinked := h.linked i
  have hnd := h.nodup i
  rw [hnodes] at hlinked hnd
  obtain ⟨hb, ha⟩ := (hdr i).place_mem hi
  have hfm : f ∈ m := mem_of_head? hf
  have hgm : g ∈ m := mem_of_getLast? hg
  have hmem : ∀ n, n ∈ (hdr i).nodes (a ++ (m ++ b)) ↔ n ∈ m ∨ n ∈ (hdr i).nodes (seq i) := by
    intro n
    rw [hnodes, hnodes']
    simp only [mem_append]
    tauto
  have hnodup : ((hdr i).nodes (a ++ (m ++ b))).Nodup := by
    have hperm : ((hdr i).nodes (a ++ (m ++ b))).Perm (m ++ (hdr i).nodes (seq i)) := by
      rw [hnodes, hnodes']
      exact perm_append_comm_assoc ..
    refine hperm.nodup_iff.mpr (nodup_append.mpr ⟨hm.nodup, h.nodup i, fun x hx y hy hxy => ?_⟩)
    exact hm.apart i x hx (hxy ▸ hy)
  have hnew := hnodup
  rw [hnodes'] at hnew
  refine ⟨fun j => ?_, fun j => ?_, fun j => ?_, fun j hz => ?_, fun j => ?_, fun j j' hne n hn hn' => ?_⟩
  · by_cases hji : j = i
    · subst hji
      rw [update_self, hnodes']
      exact hlinked.link hm.linked hnew ((hdr j).getLast?_before a) hf hg ((hdr j).head?_at b)
    · rw [update_of_ne hji]
      refine (h.linked j).congr (fun n hn => ?_) fun n hn => ?_
      · have hn := mem_of_mem_dropLast hn
        rw [Links.next_link, if_neg, if_neg]
        · rintro rfl
          exact hm.apart j n hgm hn
        · rintro rfl
          exact hji (h.eq_of_mem hn ((hdr i).mem_nodes_left hb))
      · have hn := mem_of_mem_tail hn
        rw [Links.prev_link, if_neg, if_neg]
        · rintro rfl
          exact hm.apart j n hfm hn
        · rintro rfl
          exact hji (h.eq_of_mem hn ((hdr i).mem_nodes_right ha))
  · rw [Links.prev_link, if_neg (h.head_ne ha), if_neg]
    · exact h.first j
    · rintro rfl
      exact hm.apart j _ hfm mem_cons_self
  · rw [Links.next_link, if_neg (h.tail_ne hb), if_neg]
    · exact h.last j
    · rintro rfl
      exact hm.apart j _ hgm (by simp [Hdr.nodes])
  · by_cases hji : j = i
    · subst hji
      rw [update_self, hmem] at hz
      exact hz.elim hm.nonnull (h.nonnull j)
    · rw [update_of_ne hji] at hz
      exact h.nonnull j hz
  · by_cases hji : j = i
    · subst hji
      rw [update_self]
      exact hnodup
    · rw [update_of_ne hji]
      exact h.nodup j
  · by_cases hji : j = i
    · subst hji
      rw [update_self, hmem] at hn
      rw [update_of_ne (Ne.symm hne)] at hn'
      exact hn.elim (fun hn => hm.apart j' n hn hn') fun hn => h.apart j j' hne n hn hn'
    · rw [update_of_ne hji] at hn
      by_cases hj'i : j' = i
      · subst hj'i
        rw [update_self, hmem] at hn'
        exact hn'.elim (fun hn' => hm.apart j n hn' hn) fun hn' => h.apart j j' hne n hn hn'
      · rw [update_of_ne hj'i] at hn'
        exact h.apart j j' hne n hn hn'

/-- A loose segment is turned around. -/
theorem flip (hm : Loose k hdr seq m) : Family (k.flip m) hdr seq ∧ Loose (k.flip m) hdr seq m.reverse := by
  have hout : ∀ i, ∀ n ∈ (hdr i).nodes (seq i), n ∉ m := fun i n hn hmem => hm.apart i n hmem hn
  refine ⟨⟨fun i => ?_, fun i => ?_, fun i => ?_, h.nonnull, h.nodup, h.apart⟩, hm.linked.flip, ?_, ?_,
    fun i n hn => ?_⟩
  · refine (h.linked i).congr (fun n hn => ?_) fun n hn => ?_
    · exact if_neg (hout i n (mem_of_mem_dropLast hn))
    · exact if_neg (hout i n (mem_of_mem_tail hn))
  · exact (if_neg (hout i _ mem_cons_self)).trans (h.first i)
  · exact (if_neg (hout i _ (by simp [Hdr.nodes]))).trans (h.last i)
  · rw [mem_reverse]
    exact hm.nonnull
  · exact nodup_reverse.mpr hm.nodup
  · exact hm.apart i n (mem_reverse.mp hn)

end Family

end Pintos.KernelList
