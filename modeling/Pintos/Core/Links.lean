import Mathlib

/-!
# Doubly linked lists

The nodes are linked by `next` and `prev`; a list is a sequence of nodes, with
its two end nodes, each linked to its neighbour in both directions (`Linked`).
-/
namespace Pintos.Core

open Function List

structure Links (ν : Type) where
  next : ν → ν
  prev : ν → ν

namespace Links

variable {ν : Type}

def Fwd (k : Links ν) (l : List ν) : Prop := l.IsChain fun a b => k.next a = b

def Bwd (k : Links ν) (l : List ν) : Prop := l.IsChain fun a b => k.prev b = a

def Linked (k : Links ν) (l : List ν) : Prop := k.Fwd l ∧ k.Bwd l

variable {k : Links ν} {l : List ν} {a c : ν}

variable {k' : Links ν}

theorem Fwd.congr (h : k.Fwd l) (he : ∀ n ∈ l.dropLast, k'.next n = k.next n) : k'.Fwd l := by
  induction l with
  | nil => exact .nil
  | cons a l ih =>
    cases l with
    | nil => exact .singleton a
    | cons b l =>
      obtain ⟨hab, hrest⟩ := isChain_cons_cons.mp h
      refine isChain_cons_cons.mpr ⟨(he a (by simp)).trans hab, ih hrest fun n hn => he n ?_⟩
      rw [dropLast_cons_cons]
      exact mem_cons_of_mem a hn

theorem Bwd.congr (h : k.Bwd l) (he : ∀ n ∈ l.tail, k'.prev n = k.prev n) : k'.Bwd l :=
  h.imp_of_mem_tail_imp fun _ v _ hv huv => (he v hv).trans huv

/-- Only the links between the nodes of a list count. -/
theorem Linked.congr (h : k.Linked l) (hn : ∀ n ∈ l.dropLast, k'.next n = k.next n)
    (hp : ∀ n ∈ l.tail, k'.prev n = k.prev n) : k'.Linked l := ⟨h.1.congr hn, h.2.congr hp⟩

theorem linked_append {l₁ l₂ : List ν} : k.Linked (l₁ ++ l₂) ↔ k.Linked l₁ ∧ k.Linked l₂ ∧
    ∀ a ∈ l₁.getLast?, ∀ c ∈ l₂.head?, k.next a = c ∧ k.prev c = a := by
  unfold Linked Fwd Bwd
  rw [isChain_append, isChain_append]
  constructor
  · rintro ⟨⟨hf₁, hf₂, hf⟩, hb₁, hb₂, hb⟩
    exact ⟨⟨hf₁, hb₁⟩, ⟨hf₂, hb₂⟩, fun a ha c hc => ⟨hf a ha c hc, hb a ha c hc⟩⟩
  · rintro ⟨⟨hf₁, hb₁⟩, ⟨hf₂, hb₂⟩, h⟩
    exact ⟨⟨hf₁, hf₂, fun a ha c hc => (h a ha c hc).1⟩, hb₁, hb₂, fun a ha c hc => (h a ha c hc).2⟩

variable {n : ν} {m : List ν}

theorem ne_of_mem_dropLast (hnd : l.Nodup) (ha : l.getLast? = some a) (hn : n ∈ l.dropLast) : n ≠ a := by
  obtain ⟨l', rfl⟩ : ∃ l', l = l' ++ [a] := ⟨_, (dropLast_append_getLast? a ha).symm⟩
  rw [dropLast_concat] at hn
  exact (nodup_append.mp hnd).2.2 n hn a (mem_singleton.mpr rfl)

theorem ne_of_mem_tail (hnd : l.Nodup) (ha : l.head? = some a) (hn : n ∈ l.tail) : n ≠ a := by
  cases l with
  | nil => cases ha
  | cons b l =>
    cases ha
    exact fun he => (nodup_cons.mp hnd).1 (he ▸ hn)

variable [DecidableEq ν]

def setNext (k : Links ν) (n v : ν) : Links ν := { k with next := update k.next n v }

def setPrev (k : Links ν) (n v : ν) : Links ν := { k with prev := update k.prev n v }

@[simp] theorem next_setPrev (k : Links ν) (n v : ν) : (k.setPrev n v).next = k.next := rfl
@[simp] theorem prev_setNext (k : Links ν) (n v : ν) : (k.setNext n v).prev = k.prev := rfl
@[simp] theorem next_setNext_self (k : Links ν) (n v : ν) : (k.setNext n v).next n = v := update_self ..
@[simp] theorem prev_setPrev_self (k : Links ν) (n v : ν) : (k.setPrev n v).prev n = v := update_self ..

@[simp] theorem next_setNext_ne (k : Links ν) {m : ν} (h : m ≠ n) (v : ν) : (k.setNext n v).next m = k.next m :=
  update_of_ne h ..

@[simp] theorem prev_setPrev_ne (k : Links ν) {m : ν} (h : m ≠ n) (v : ν) : (k.setPrev n v).prev m = k.prev m :=
  update_of_ne h ..

/-! ## Segments

A segment of a list is taken out by two stores and put between two neighbours
by four. -/

/-- The neighbours `a` and `c` of a segment are linked to each other. -/
def unlink (k : Links ν) (a c : ν) : Links ν := (k.setNext a c).setPrev c a

/-- The segment from `f` to `g` is put between `a` and `c`. -/
def link (k : Links ν) (a f g c : ν) : Links ν := (((k.setPrev f a).setNext g c).setNext a f).setPrev c g

theorem next_unlink (k : Links ν) (a c n : ν) : (k.unlink a c).next n = if n = a then c else k.next n :=
  update_apply ..

theorem prev_unlink (k : Links ν) (a c n : ν) : (k.unlink a c).prev n = if n = c then a else k.prev n :=
  update_apply ..

theorem next_link (k : Links ν) (a f g c n : ν) :
    (k.link a f g c).next n = if n = a then f else if n = g then c else k.next n := by
  simp only [link, setPrev, setNext, update_apply]

theorem prev_link (k : Links ν) (a f g c n : ν) :
    (k.link a f g c).prev n = if n = c then g else if n = f then a else k.prev n := by
  simp only [link, setPrev, setNext, update_apply]

section
variable {l₁ m l₂ : List ν} {f g : ν}

/-- A segment is taken out of a list. -/
theorem Linked.unlink (h : k.Linked (l₁ ++ (m ++ l₂))) (hnd : (l₁ ++ (m ++ l₂)).Nodup) (ha : l₁.getLast? = some a)
    (hc : l₂.head? = some c) : (k.unlink a c).Linked (l₁ ++ l₂) ∧ (k.unlink a c).Linked m := by
  obtain ⟨h₁, hrest, -⟩ := linked_append.mp h
  obtain ⟨hm, h₂, -⟩ := linked_append.mp hrest
  obtain ⟨hnd₁, hndr, hd₁⟩ := nodup_append.mp hnd
  obtain ⟨hndm, hnd₂, hdm⟩ := nodup_append.mp hndr
  have ham : a ∈ l₁ := mem_of_getLast? ha
  have hcm : c ∈ l₂ := mem_of_head? hc
  refine ⟨linked_append.mpr ⟨h₁.congr (fun n hn => ?_) fun n hn => ?_, h₂.congr (fun n hn => ?_) fun n hn => ?_, ?_⟩,
    hm.congr (fun n hn => ?_) fun n hn => ?_⟩
  · rw [next_unlink, if_neg (ne_of_mem_dropLast hnd₁ ha hn)]
  · rw [prev_unlink, if_neg fun he => hd₁ n (mem_of_mem_tail hn) c (mem_append_right m hcm) he]
  · rw [next_unlink, if_neg fun he => hd₁ a ham n (mem_append_right m (mem_of_mem_dropLast hn)) he.symm]
  · rw [prev_unlink, if_neg (ne_of_mem_tail hnd₂ hc hn)]
  · rintro x hx y hy
    obtain rfl := Option.mem_unique ha hx
    obtain rfl := Option.mem_unique hc hy
    rw [next_unlink, if_pos rfl, prev_unlink, if_pos rfl]
    exact ⟨rfl, rfl⟩
  · rw [next_unlink, if_neg fun he => hd₁ a ham n (mem_append_left l₂ (mem_of_mem_dropLast hn)) he.symm]
  · rw [prev_unlink, if_neg fun he => hdm n (mem_of_mem_tail hn) c hcm he]

/-- A segment is put into a list. -/
theorem Linked.link (h : k.Linked (l₁ ++ l₂)) (hm : k.Linked m) (hnd : (l₁ ++ (m ++ l₂)).Nodup)
    (ha : l₁.getLast? = some a) (hf : m.head? = some f) (hg : m.getLast? = some g) (hc : l₂.head? = some c) :
    (k.link a f g c).Linked (l₁ ++ (m ++ l₂)) := by
  obtain ⟨h₁, h₂, -⟩ := linked_append.mp h
  obtain ⟨hnd₁, hndr, hd₁⟩ := nodup_append.mp hnd
  obtain ⟨hndm, hnd₂, hdm⟩ := nodup_append.mp hndr
  have ham : a ∈ l₁ := mem_of_getLast? ha
  have hfm : f ∈ m := mem_of_head? hf
  have hgm : g ∈ m := mem_of_getLast? hg
  have hcm : c ∈ l₂ := mem_of_head? hc
  have hag : a ≠ g := hd₁ a ham g (mem_append_left l₂ hgm)
  have hfc : f ≠ c := hdm f hfm c hcm
  refine linked_append.mpr ⟨h₁.congr (fun n hn => ?_) fun n hn => ?_, linked_append.mpr
    ⟨hm.congr (fun n hn => ?_) fun n hn => ?_, h₂.congr (fun n hn => ?_) fun n hn => ?_, ?_⟩, ?_⟩
  · have hn₁ := mem_of_mem_dropLast hn
    rw [next_link, if_neg (ne_of_mem_dropLast hnd₁ ha hn),
      if_neg (hd₁ n hn₁ g (mem_append_left l₂ hgm))]
  · have hn₁ := mem_of_mem_tail hn
    rw [prev_link, if_neg (hd₁ n hn₁ c (mem_append_right m hcm)),
      if_neg (hd₁ n hn₁ f (mem_append_left l₂ hfm))]
  · have hnm := mem_of_mem_dropLast hn
    rw [next_link, if_neg fun he => hd₁ a ham n (mem_append_left l₂ hnm) he.symm,
      if_neg (ne_of_mem_dropLast hndm hg hn)]
  · have hnm := mem_of_mem_tail hn
    rw [prev_link, if_neg (hdm n hnm c hcm), if_neg (ne_of_mem_tail hndm hf hn)]
  · have hn₂ := mem_of_mem_dropLast hn
    rw [next_link, if_neg fun he => hd₁ a ham n (mem_append_right m hn₂) he.symm,
      if_neg fun he => hdm g hgm n hn₂ he.symm]
  · have hn₂ := mem_of_mem_tail hn
    rw [prev_link, if_neg (ne_of_mem_tail hnd₂ hc hn), if_neg fun he => hdm f hfm n hn₂ he.symm]
  · rintro x hx y hy
    obtain rfl := Option.mem_unique hg hx
    obtain rfl := Option.mem_unique hc hy
    rw [next_link, if_neg hag.symm, if_pos rfl, prev_link, if_pos rfl]
    exact ⟨rfl, rfl⟩
  · rintro x hx y hy
    obtain rfl := Option.mem_unique ha hx
    rw [head?_append, hf] at hy
    obtain rfl : f = y := Option.some.inj hy
    rw [next_link, if_pos rfl, prev_link, if_neg hfc, if_pos rfl]
    exact ⟨rfl, rfl⟩

end

/-! ## Reversal -/

/-- The two links of each node of `m` are exchanged. -/
def flip (k : Links ν) (m : List ν) : Links ν where
  next n := if n ∈ m then k.prev n else k.next n
  prev n := if n ∈ m then k.next n else k.prev n

@[simp] theorem flip_nil (k : Links ν) : k.flip [] = k := by
  simp [flip]

theorem flip_cons (k : Links ν) {e : ν} (he : e ∉ m) : (k.flip [e]).flip m = k.flip (e :: m) := by
  unfold flip
  congr 1 <;> funext n <;> by_cases hn : n = e
  all_goals simp [hn, he]

/-- A list is linked in the other direction. -/
theorem Linked.flip (h : k.Linked m) : (k.flip m).Linked m.reverse := by
  refine ⟨isChain_reverse.mpr ?_, isChain_reverse.mpr ?_⟩
  · refine h.2.imp_of_mem_imp fun u v _ hv huv => ?_
    exact (if_pos hv).trans huv
  · refine h.1.imp_of_mem_imp fun u v hu _ huv => ?_
    exact (if_pos hu).trans huv

/-- A segment is turned around where it is: between the ends it is the same to exchange its links before it is
taken out or after. -/
theorem link_flip (k : Links ν) {f g : ν} (ha : a ∉ m) (hc : c ∉ m) (hf : f ∈ m) (hg : g ∈ m) :
    ((((k.flip m).setNext a g).setPrev c f).setPrev g a).setNext f c = ((k.unlink a c).flip m).link a g f c := by
  have hfa : f ≠ a := fun he => ha (he ▸ hf)
  have hgc : g ≠ c := fun he => hc (he ▸ hg)
  simp only [setNext, setPrev, link, unlink, flip]
  congr 1
  · funext n
    simp only [update_apply]
    grind
  · funext n
    simp only [update_apply]
    grind

end Links

end Pintos.Core
