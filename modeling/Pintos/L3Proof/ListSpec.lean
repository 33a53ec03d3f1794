import Pintos.L3Proof.ListLinks

/-!
# What the functions of list.c do to a family of lists

One lemma for each function: it returns, no assertion fails, and the sequences
change as the name of the function says. A place in a list is given by the
elements before and behind it.
-/
namespace Pintos.KernelList

open Pintos.Core Function List

/-! ## Links -/

section
variable {k : Links Nat} {e v : Nat}

theorem ok_getNext (he : e ≠ 0) {Q : Nat → Links Nat → Prop} : Ok (getNext e) k Q ↔ Q (k.next e) k := by
  have hr : getNext e k = .ok (k.next e, k) := if_neg he
  exact ⟨fun hq => hq.post hr, fun hq => ⟨_, _, hr, hq⟩⟩

theorem ok_getPrev (he : e ≠ 0) {Q : Nat → Links Nat → Prop} : Ok (getPrev e) k Q ↔ Q (k.prev e) k := by
  have hr : getPrev e k = .ok (k.prev e, k) := if_neg he
  exact ⟨fun hq => hq.post hr, fun hq => ⟨_, _, hr, hq⟩⟩

variable {Q : Unit → Links Nat → Prop}

theorem ok_setNext (he : e ≠ 0) : Ok (setNext e v) k Q ↔ Q () (k.setNext e v) := by
  have hr : setNext e v k = .ok ((), k.setNext e v) := if_neg he
  exact ⟨fun hq => hq.post hr, fun hq => ⟨_, _, hr, hq⟩⟩

theorem ok_setPrev (he : e ≠ 0) : Ok (setPrev e v) k Q ↔ Q () (k.setPrev e v) := by
  have hr : setPrev e v k = .ok ((), k.setPrev e v) := if_neg he
  exact ⟨fun hq => hq.post hr, fun hq => ⟨_, _, hr, hq⟩⟩

theorem ok_assert {c : Links Nat → Bool} (hc : c k = true) :
    Ok (assert c) k Q ↔ Q () k := by
  have hr : assert c k = .ok ((), k) := if_pos hc
  exact ⟨fun hq => hq.post hr, fun hq => ⟨_, _, hr, hq⟩⟩

end

variable {ι : Type} {k : Links Nat} {hdr : ι → Hdr} {seq : ι → List Nat} {i j : ι} {a b c d m : List Nat} {e : Nat}

/-! ## Traversal -/

namespace Family

variable (h : Family k hdr seq)
include h

theorem head_ne_zero (i : ι) : (hdr i).head ≠ 0 := h.ne_zero (i := i) mem_cons_self

theorem tail_ne_zero (i : ι) : (hdr i).tail ≠ 0 := h.ne_zero (i := i) (by simp [Hdr.nodes])

theorem before_ne_zero (hi : seq i = a ++ b) : (hdr i).before a ≠ 0 :=
  h.ne_zero (i := i) ((hdr i).mem_nodes_left ((hdr i).place_mem hi).1)

theorem at_ne_zero (hi : seq i = a ++ b) : (hdr i).at b ≠ 0 :=
  h.ne_zero (i := i) ((hdr i).mem_nodes_right ((hdr i).place_mem hi).2)

/-- `list_init` adds an empty list, whose header elements were in no list. -/
theorem ok_listInit {l : Hdr} (hhead : l.head ≠ 0) (htail : l.tail ≠ 0) (hne : l.head ≠ l.tail)
    (hfree : ∀ i, ∀ n ∈ (hdr i).nodes (seq i), n ≠ l.head ∧ n ≠ l.tail) :
    Ok (listInit l) k fun _ k' => Family k' (fun o : Option ι => o.elim l hdr) fun o => o.elim [] seq := by
  unfold listInit
  rw [ok_bind, ok_assert (decide_eq_true hhead), ok_bind, ok_setPrev hhead, ok_bind, ok_setNext hhead, ok_bind,
    ok_setPrev htail, ok_setNext htail]
  have hnil : ∀ n, n ∈ l.nodes [] ↔ n = l.head ∨ n = l.tail := by simp [Hdr.nodes]
  constructor
  case linked =>
    rintro (_ | i)
    · simp [Links.Linked, Links.Fwd, Links.Bwd, Hdr.nodes, hne]
    · refine (h.linked i).congr (fun n hn => ?_) fun n hn => ?_
      · simp [hfree i n (mem_of_mem_dropLast hn)]
      · simp [hfree i n (mem_of_mem_tail hn)]
  case first =>
    rintro (_ | i)
    · simp [hne]
    · simp [hfree i _ mem_cons_self, h.first i]
  case last =>
    rintro (_ | i)
    · simp
    · simp [hfree i (hdr i).tail (by simp [Hdr.nodes]), h.last i]
  case nonnull =>
    rintro (_ | i)
    · simp [hnil, hhead.symm, htail.symm]
    · exact h.nonnull i
  case nodup =>
    rintro (_ | i)
    · simp [Hdr.nodes, hne]
    · exact h.nodup i
  case apart =>
    rintro (_ | i) (_ | j) hij n hn
    · exact absurd rfl hij
    · exact fun hj => not_or.mpr (hfree j n hj) ((hnil n).mp hn)
    · exact fun hj => not_or.mpr (hfree i n hn) ((hnil n).mp hj)
    · exact h.apart i j (fun he => hij (congrArg some he)) n hn

/-- An element of a list is interior. -/
theorem isInterior (hi : seq i = a ++ e :: b) : isInterior k e = true := by
  have hsplit : seq i = (a ++ [e]) ++ b := by rw [hi, append_assoc]; rfl
  have hprev := (h.across hi).2
  have hnext := (h.across hsplit).1
  rw [Hdr.at_cons] at hprev
  rw [Hdr.before_concat] at hnext
  have he : e ≠ 0 := h.at_ne_zero hi
  simp only [KernelList.isInterior, decide_eq_true_eq]
  exact ⟨he, hprev ▸ h.before_ne_zero hi, hnext ▸ h.at_ne_zero hsplit⟩

theorem next_head (i : ι) : k.next (hdr i).head = (hdr i).at (seq i) := (h.across (j := i) (a := []) rfl).1

theorem prev_tail (i : ι) : k.prev (hdr i).tail = (hdr i).before (seq i) :=
  (h.across (j := i) (b := []) (append_nil _).symm).2

theorem isHead (i : ι) : isHead k (hdr i).head = true := by
  simp only [KernelList.isHead, decide_eq_true_eq]
  exact ⟨h.head_ne_zero i, h.first i, h.next_head i ▸ h.at_ne_zero (a := []) rfl⟩

theorem isTail (i : ι) : isTail k (hdr i).tail = true := by
  simp only [KernelList.isTail, decide_eq_true_eq]
  exact ⟨h.tail_ne_zero i, h.prev_tail i ▸ h.before_ne_zero (append_nil _).symm, h.last i⟩

/-- A place before which something may be inserted. -/
theorem isPlace_mem (he : e ∈ seq i ++ [(hdr i).tail]) :
    (KernelList.isInterior k e || KernelList.isTail k e) = true := by
  rcases mem_append.mp he with he | he
  · obtain ⟨a, b, hi⟩ := append_of_mem he
    rw [h.isInterior hi, Bool.true_or]
  · rw [mem_singleton.mp he, h.isTail i, Bool.or_true]

theorem isPlace (hi : seq i = a ++ b) :
    (KernelList.isInterior k ((hdr i).at b) || KernelList.isTail k ((hdr i).at b)) = true :=
  h.isPlace_mem ((hdr i).place_mem hi).2

variable {Q : Nat → Links Nat → Prop}

theorem ok_listNext (hi : seq i = a ++ b) :
    Ok (listNext ((hdr i).before a)) k Q ↔ Q ((hdr i).at b) k := by
  have hpos : (KernelList.isHead k ((hdr i).before a) || KernelList.isInterior k ((hdr i).before a)) = true := by
    rcases eq_nil_or_concat' a with rfl | ⟨a, e, rfl⟩
    · rw [Hdr.before_nil, h.isHead i, Bool.true_or]
    · rw [Hdr.before_concat, h.isInterior (a := a) (b := b) (by rw [hi, append_assoc]; rfl), Bool.or_true]
  unfold listNext
  rw [ok_bind, ok_assert hpos, ok_getNext (h.before_ne_zero hi), (h.across hi).1]

theorem ok_listPrev (hi : seq i = a ++ b) :
    Ok (listPrev ((hdr i).at b)) k Q ↔ Q ((hdr i).before a) k := by
  unfold listPrev
  rw [ok_bind, ok_assert (h.isPlace hi), ok_getPrev (h.at_ne_zero hi), (h.across hi).2]

theorem ok_listBegin (i : ι) : Ok (listBegin (hdr i)) k Q ↔ Q ((hdr i).at (seq i)) k := by
  unfold listBegin
  rw [ok_bind, ok_assert (decide_eq_true (h.head_ne_zero i)), ok_getNext (h.head_ne_zero i), h.next_head]

theorem ok_listEnd (i : ι) : Ok (listEnd (hdr i)) k Q ↔ Q (hdr i).tail k := by
  unfold listEnd
  rw [ok_bind, ok_assert (decide_eq_true (h.head_ne_zero i)), ok_pure]

/-- The places before and behind a segment are the same if it is empty. -/
theorem at_eq_at (hi : seq i = a ++ (m ++ b)) : (hdr i).at (m ++ b) = (hdr i).at b ↔ m = [] := by
  cases m with
  | nil => simp
  | cons e m =>
    refine ⟨fun he => ?_, fun he => by cases he⟩
    rw [cons_append, Hdr.at_cons] at he
    have hnd := h.nodup i
    rw [hi, Hdr.nodes_append, append_assoc] at hnd
    have hrest := (nodup_append.mp hnd).2.1
    refine absurd ?_ (nodup_cons.mp hrest).1
    rw [he]
    exact mem_append_right m ((hdr i).at_mem b)

theorem ok_listEmpty (i : ι) {Q : Bool → Links Nat → Prop} :
    Ok (listEmpty (hdr i)) k Q ↔ Q (decide (seq i = [])) k := by
  unfold listEmpty
  rw [ok_bind, h.ok_listBegin, ok_bind, h.ok_listEnd, ok_pure]
  have heq := h.at_eq_at (i := i) (a := []) (m := seq i) (b := []) (append_nil _).symm
  rw [append_nil, Hdr.at_nil] at heq
  rw [decide_eq_decide.mpr heq]

/-! ## Insertion and removal -/

/-- `list_insert` before the place between `a` and `b`. -/
theorem ok_listInsert [DecidableEq ι] (hi : seq i = a ++ b) (he : Loose k hdr seq [e]) :
    Ok (listInsert ((hdr i).at b) e) k fun _ k' => Family k' hdr (update seq i (a ++ e :: b)) := by
  have he0 : e ≠ 0 := fun hz => he.nonnull (hz ▸ mem_singleton.mpr rfl)
  have hnot := he.apart i e (mem_singleton.mpr rfl)
  obtain ⟨hb, ha⟩ := (hdr i).place_mem hi
  have hbe : (hdr i).before a ≠ e := fun heq => hnot (heq ▸ (hdr i).mem_nodes_left hb)
  have hae : (hdr i).at b ≠ e := fun heq => hnot (heq ▸ (hdr i).mem_nodes_right ha)
  have hprev := (h.across hi).2
  have hat := h.at_ne_zero hi
  have hbefore := h.before_ne_zero hi
  unfold listInsert
  rw [ok_bind, ok_assert (h.isPlace hi), ok_bind, ok_assert (decide_eq_true he0), ok_bind, ok_getPrev hat, ok_bind,
    ok_setPrev he0, ok_bind, ok_setNext he0, ok_bind, ok_getPrev hat, hprev]
  -- the place still has its old neighbour before it
  have hprev' : ((k.setPrev e ((hdr i).before a)).setNext e ((hdr i).at b)).prev ((hdr i).at b) = (hdr i).before a := by
    rw [Links.prev_setNext, Links.prev_setPrev_ne _ hae, hprev]
  rw [hprev', ok_bind, ok_setNext hbefore, ok_setPrev hat]
  exact h.link he hi rfl rfl

/-- `list_remove` of an element returns the place where it was. -/
theorem ok_listRemove [DecidableEq ι] (hi : seq i = a ++ e :: b) :
    Ok (listRemove e) k fun r k' => r = (hdr i).at b ∧ Family k' hdr (update seq i (a ++ b)) := by
  have hsplit : seq i = (a ++ [e]) ++ b := by rw [hi, append_assoc]; rfl
  have hprev := (h.across hi).2
  have hnext := (h.across hsplit).1
  rw [Hdr.at_cons] at hprev
  rw [Hdr.before_concat] at hnext
  have he : e ≠ 0 := h.at_ne_zero hi
  have hbefore := h.before_ne_zero hi
  have hat := h.at_ne_zero hsplit
  obtain ⟨hfam, hloose⟩ := h.unlink (m := [e]) hi
  have hne : e ≠ (hdr i).before a := by
    intro heq
    refine hloose.apart i e (mem_singleton.mpr rfl) ?_
    rw [update_self]
    exact heq ▸ (hdr i).mem_nodes_left ((hdr i).place_mem rfl).1
  unfold listRemove
  rw [ok_bind, ok_assert (h.isInterior hi), ok_bind, ok_getPrev he, ok_bind, ok_getNext he, ok_bind, hprev, hnext,
    ok_setNext hbefore, ok_bind, ok_getNext he, ok_bind, ok_getPrev he, ok_bind, Links.next_setNext_ne _ hne,
    Links.prev_setNext, hprev, hnext, ok_setPrev hat, ok_getNext he]
  refine ⟨?_, hfam⟩
  rw [Links.next_setPrev, Links.next_setNext_ne _ hne, hnext]

/-- `list_splice` of the elements of `m`, which are in list `j`, to a place in
list `i`. The place is one of the lists without these elements. -/
theorem ok_listSplice [DecidableEq ι] (hj : seq j = a ++ (m ++ b))
    (hi : update seq j (a ++ b) i = c ++ d) :
    Ok (listSplice ((hdr i).at d) ((hdr j).at (m ++ b)) ((hdr j).at b)) k fun _ k' =>
      Family k' hdr (update (update seq j (a ++ b)) i (c ++ (m ++ d))) := by
  obtain ⟨hfam, hloose⟩ := h.unlink hj
  have hplace : (hdr i).at d ∈ seq i ++ [(hdr i).tail] := by
    have hd := ((hdr i).place_mem hi).2
    by_cases hij : i = j
    · subst hij
      rw [update_self] at hd
      rw [hj]
      simp only [mem_append] at hd ⊢
      tauto
    · rwa [update_of_ne hij] at hd
  unfold listSplice
  rw [ok_bind, ok_assert (h.isPlace_mem hplace)]
  cases m with
  | nil =>
    rw [nil_append, if_pos rfl, ok_pure]
    have hsame : update seq j (a ++ b) = seq := by
      rw [← nil_append b, ← hj, update_eq_self]
    rw [hsame] at hi ⊢
    rw [nil_append, ← hi, update_eq_self]
    exact h
  | cons f m =>
    obtain ⟨g, hg⟩ : ∃ g, (f :: m).getLast? = some g := ⟨_, getLast?_cons⟩
    have hfm : f ∈ f :: m := mem_cons_self
    have hgm : g ∈ f :: m := mem_of_getLast? hg
    have hsplit : seq j = (a ++ f :: m) ++ b := by rw [hj, append_assoc]
    have hback : (hdr j).before (a ++ f :: m) = g := Hdr.before_append _ a hg
    -- no element of the segment is the place before or behind it
    have hout : ∀ n ∈ f :: m, n ≠ (hdr j).before a ∧ n ≠ (hdr j).at b ∧ n ≠ (hdr i).at d := by
      intro n hn
      have hmem := hloose.apart j n hn
      rw [update_self] at hmem
      obtain ⟨h₁, h₂⟩ := (hdr j).place_mem (a := a) (b := b) rfl
      refine ⟨fun he => hmem ?_, fun he => hmem ?_, fun he => hloose.apart i n hn ?_⟩
      · exact he ▸ (hdr j).mem_nodes_left h₁
      · exact he ▸ (hdr j).mem_nodes_right h₂
      · exact he ▸ (hdr i).mem_nodes_right ((hdr i).place_mem hi).2
    have hprev := (h.across hj).2
    have hnext := (h.across hsplit).1
    rw [cons_append, Hdr.at_cons] at hprev
    rw [hback] at hnext
    have hf0 : f ≠ 0 := fun hz => hloose.nonnull (hz ▸ hfm)
    have hg0 : g ≠ 0 := fun hz => hloose.nonnull (hz ▸ hgm)
    have hintf : KernelList.isInterior k f = true := h.isInterior hj
    have hintg : KernelList.isInterior k g = true := by
      obtain ⟨m', hm'⟩ : ∃ m', f :: m = m' ++ [g] := ⟨_, (dropLast_append_getLast? g hg).symm⟩
      refine h.isInterior (a := a ++ m') (b := b) (i := j) ?_
      rw [hj, hm']
      simp
    have hbefore := h.before_ne_zero hj
    have hat := h.at_ne_zero hsplit
    have hx0 := hfam.before_ne_zero hi
    have hy0 := hfam.at_ne_zero hi
    have hy := (hfam.across hi).2
    rw [cons_append, Hdr.at_cons, if_neg (hout f hfm).2.1, ok_bind, h.ok_listPrev hsplit, hback, ok_bind,
      ok_assert hintf, ok_bind, ok_assert hintg, ok_bind, ok_getPrev hf0, ok_bind, ok_getNext hg0, ok_bind, hprev,
      hnext,
      ok_setNext hbefore, ok_bind, ok_getNext hg0, ok_bind, ok_getPrev hf0, ok_bind,
      Links.next_setNext_ne _ (hout g hgm).1, Links.prev_setNext, hprev, hnext, ok_setPrev hat]
    change Ok _ (k.unlink ((hdr j).before a) ((hdr j).at b)) _
    rw [ok_bind, ok_getPrev hy0, ok_bind, hy, ok_setPrev hf0, ok_bind, ok_setNext hg0, ok_bind, ok_getPrev hy0, ok_bind,
      Links.prev_setNext, Links.prev_setPrev_ne _ (hout f hfm).2.2.symm, hy, ok_setNext hx0, ok_setPrev hy0]
    exact hfam.link hloose hi rfl hg

/-! ## The ends of a list -/

theorem ok_listPushFront [DecidableEq ι] (i : ι) (he : Loose k hdr seq [e]) :
    Ok (listPushFront (hdr i) e) k fun _ k' => Family k' hdr (update seq i (e :: seq i)) := by
  unfold listPushFront
  rw [ok_bind, h.ok_listBegin]
  exact h.ok_listInsert (a := []) rfl he

theorem ok_listPushBack [DecidableEq ι] (i : ι) (he : Loose k hdr seq [e]) :
    Ok (listPushBack (hdr i) e) k fun _ k' => Family k' hdr (update seq i (seq i ++ [e])) := by
  unfold listPushBack
  rw [ok_bind, h.ok_listEnd]
  exact h.ok_listInsert (b := []) (append_nil _).symm he

theorem ok_listPopFront [DecidableEq ι] (hi : seq i = e :: b) :
    Ok (listPopFront (hdr i)) k fun r k' => r = e ∧ Family k' hdr (update seq i b) := by
  have hne : seq i ≠ [] := by
    rw [hi]
    exact cons_ne_nil _ _
  unfold listPopFront listFront
  rw [ok_bind, ok_bind, h.ok_listEmpty, decide_eq_false hne, ok_bind, ok_assert rfl, ok_getNext (h.head_ne_zero i),
    h.next_head, hi, Hdr.at_cons, ok_bind]
  refine (h.ok_listRemove (a := []) hi).mono ?_
  rintro r k' ⟨-, hfam⟩
  exact (ok_pure _).mpr ⟨rfl, hfam⟩

theorem ok_listPopBack [DecidableEq ι] (hi : seq i = a ++ [e]) :
    Ok (listPopBack (hdr i)) k fun r k' => r = e ∧ Family k' hdr (update seq i a) := by
  have hne : seq i ≠ [] := by
    rw [hi]
    exact concat_ne_nil _ _
  unfold listPopBack listBack
  rw [ok_bind, ok_bind, h.ok_listEmpty, decide_eq_false hne, ok_bind, ok_assert rfl, ok_getPrev (h.tail_ne_zero i),
    h.prev_tail, hi, Hdr.before_concat, ok_bind]
  refine (h.ok_listRemove (b := []) hi).mono ?_
  rintro r k' ⟨-, hfam⟩
  rw [append_nil] at hfam
  exact (ok_pure _).mpr ⟨rfl, hfam⟩

end Family

/-! ## Reversal -/

theorem ok_swapLinks (he : e ≠ 0) {Q : Unit → Links Nat → Prop} :
    Ok (swapLinks e) k Q ↔ Q () (k.flip [e]) := by
  unfold swapLinks
  rw [ok_bind, ok_getPrev he, ok_bind, ok_getNext he, ok_bind, ok_setPrev he, ok_setNext he]
  have hflip : (k.setPrev e (k.next e)).setNext e (k.prev e) = k.flip [e] := by
    simp only [Links.setPrev, Links.setNext, Links.flip, mem_singleton]
    congr 1 <;> funext n <;> simp only [update_apply] <;> split <;> simp_all
  rw [hflip]

/-- The loop walks along the links it has not yet exchanged. -/
theorem ok_reverseLoop {stop n : Nat} {Q : Unit → Links Nat → Prop} (hm : k.Fwd (m ++ [stop])) (h0 : 0 ∉ m)
    (hnd : (m ++ [stop]).Nodup) (hn : m.length < n) (hQ : Q () (k.flip m)) :
    Ok (reverseLoop stop n (m.headD stop)) k Q := by
  induction m generalizing k n with
  | nil =>
    obtain ⟨n, rfl⟩ : ∃ n', n = n' + 1 := ⟨n - 1, by simp at hn; omega⟩
    rw [Links.flip_nil] at hQ
    simpa [reverseLoop] using hQ
  | cons e m ih =>
    obtain ⟨n, rfl⟩ : ∃ n', n = n' + 1 := ⟨n - 1, by simp at hn; omega⟩
    have he : e ≠ 0 := fun hz => h0 (hz ▸ mem_cons_self)
    obtain ⟨hem, hnd⟩ := nodup_cons.mp hnd
    have hstop : e ≠ stop := fun hs => hem (hs ▸ mem_append_right m (mem_singleton.mpr rfl))
    have hem : e ∉ m := fun hmem => hem (mem_append_left _ hmem)
    obtain ⟨hnext, hrest⟩ := isChain_cons.mp hm
    have hprev : (k.flip [e]).prev e = m.headD stop := by
      refine (if_pos (mem_singleton.mpr rfl)).trans (hnext _ ?_)
      cases m <;> rfl
    rw [headD_cons, reverseLoop, if_neg hstop, ok_bind, ok_swapLinks he, ok_bind, ok_getPrev he, hprev]
    refine ih ?_ (fun hz => h0 (mem_cons_of_mem e hz)) hnd (by simp at hn; omega) ?_
    · refine Links.Fwd.congr hrest fun n hn => if_neg ?_
      rw [dropLast_concat] at hn
      exact fun hne => hem (mem_singleton.mp hne ▸ hn)
    · rwa [Links.flip_cons k hem]

theorem Family.ok_listReverse [DecidableEq ι] (h : Family k hdr seq) (i : ι) {n : Nat} (hn : (seq i).length < n) :
    Ok (listReverse n (hdr i)) k fun _ k' => Family k' hdr (update seq i (seq i).reverse) := by
  unfold listReverse
  rw [ok_bind, h.ok_listEmpty]
  generalize hxs : seq i = xs at hn ⊢
  cases xs with
  | nil =>
    rw [if_pos (by simp), ok_pure, reverse_nil, ← hxs, update_eq_self]
    exact h
  | cons x xs =>
    obtain ⟨y, hy⟩ : ∃ y, (x :: xs).getLast? = some y := ⟨_, getLast?_cons⟩
    have hback : (hdr i).before (x :: xs) = y := Hdr.before_append _ [] hy
    have hxm : x ∈ x :: xs := mem_cons_self
    have hym : y ∈ x :: xs := mem_of_getLast? hy
    obtain ⟨hfam, hloose⟩ := h.unlink (a := []) (m := x :: xs) (b := []) (by simpa using hxs)
    obtain ⟨hfam, hloose⟩ := hfam.flip hloose
    have hdone := hfam.link hloose (a := []) (b := []) (update_self ..) (f := y) (g := x)
      (by rw [head?_reverse, hy]) (by rw [getLast?_reverse, head?_cons])
    rw [update_idem, append_nil, nil_append, Hdr.before_nil, Hdr.at_nil] at hdone
    -- the heap after the loop
    obtain ⟨hhead, hnd⟩ := nodup_cons.mp (hxs ▸ h.nodup i)
    have hhead : (hdr i).head ∉ x :: xs := fun hm => hhead (mem_append_left _ hm)
    have htail : (hdr i).tail ∉ x :: xs := fun hm => (nodup_append.mp hnd).2.2 _ hm _ (by simp) rfl
    have hfirst : (k.flip (x :: xs)).next (hdr i).head = x := by
      refine (if_neg hhead).trans ((h.next_head i).trans ?_)
      rw [hxs, Hdr.at_cons]
    have hlast : (k.flip (x :: xs)).prev (hdr i).tail = y := by
      refine (if_neg htail).trans ((h.prev_tail i).trans ?_)
      rw [hxs, hback]
    have hxhead : (k.flip (x :: xs)).next x = (hdr i).head := by
      refine (if_pos hxm).trans ?_
      have hx := (h.across (j := i) (a := []) (b := x :: xs) hxs).2
      rwa [Hdr.at_cons, Hdr.before_nil] at hx
    have hytail : (k.flip (x :: xs)).prev y = (hdr i).tail := by
      refine (if_pos hym).trans ?_
      have hy' := (h.across (j := i) (a := x :: xs) (b := []) (hxs.trans (append_nil _).symm)).1
      rwa [hback, Hdr.at_nil] at hy'
    have hfwd : k.Fwd ((x :: xs) ++ [(hdr i).tail]) := (hxs ▸ (h.linked i).1).tail
    have h0 : 0 ∉ x :: xs := fun hz => h.nonnull i (hxs ▸ mem_cons_of_mem _ (mem_append_left _ hz))
    have hx0 : x ≠ 0 := fun hz => h0 (hz ▸ hxm)
    have hy0 : y ≠ 0 := fun hz => h0 (hz ▸ hym)
    have hxh : x ≠ (hdr i).head := fun he => hhead (he ▸ hxm)
    have hyt : y ≠ (hdr i).tail := fun he => htail (he ▸ hym)
    have hh0 := h.head_ne_zero i
    have ht0 := h.tail_ne_zero i
    rw [if_neg (by simp), ok_bind, h.ok_listEnd, ok_bind, h.ok_listBegin, hxs, ok_bind]
    refine ok_reverseLoop hfwd h0 hnd hn ?_
    rw [ok_bind, ok_getNext hh0, hfirst, ok_bind, ok_getPrev ht0, hlast, ok_bind, ok_setNext hh0, ok_bind,
      ok_setPrev ht0, ok_bind, ok_getNext hh0, Links.next_setPrev, Links.next_setNext_self, ok_bind, ok_getPrev hy0,
      Links.prev_setPrev_ne _ hyt, Links.prev_setNext, hytail, ok_bind, ok_getNext hh0, Links.next_setPrev,
      Links.next_setNext_self, ok_bind, ok_getPrev ht0, Links.prev_setPrev_self, ok_bind, ok_getNext hx0,
      Links.next_setPrev, Links.next_setNext_ne _ hxh, hxhead, ok_bind, ok_setPrev hy0, ok_bind, ok_getPrev ht0,
      Links.prev_setPrev_ne _ hyt.symm, Links.prev_setPrev_self, ok_setNext hx0]
    rwa [Links.link_flip k hhead htail hxm hym]

end Pintos.KernelList
