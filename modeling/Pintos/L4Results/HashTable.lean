import Pintos.L2Code.Hash

/-!
# The hash table is a finite map

`hash_table_refines`: after any calls the table is a set with at most one
element of each class of equivalent elements, whichever allocations of `rehash`
fail. The abstract set is `Abs`; `Table.Wf` is the invariant of the buckets.
-/
namespace Pintos.Hash

open List

variable {α : Type} {F : Funcs α} {h : Table α} {n : Nat} {e : α}

/-! ## Lists of buckets -/

/-- The buckets differ by one element in bucket `i`. -/
theorem flatMap_perm_cons {f g : Nat → List α} {i : Nat} (hi : i < n) (hfi : (f i).Perm (e :: g i))
    (hf : ∀ j, j ≠ i → f j = g j) : ((range n).flatMap f).Perm (e :: (range n).flatMap g) := by
  induction n with
  | zero => omega
  | succ n ih =>
    simp only [range_succ, flatMap_append, flatMap_cons, flatMap_nil, append_nil]
    by_cases hn : i = n
    · subst hn
      have hsame : (range i).flatMap f = (range i).flatMap g := by
        refine flatMap_congr fun j hj => hf j ?_
        have := mem_range.mp hj
        omega
      rw [hsame]
      exact (hfi.append_left _).trans perm_middle
    · rw [hf n fun h => hn h.symm]
      exact (ih (by omega)).append_right _

theorem mem_flatMap_range {f : Nat → List α} : e ∈ (range n).flatMap f ↔ ∃ i < n, e ∈ f i := by
  simp only [mem_flatMap, mem_range]

/-! ## Numbers of buckets -/

variable {x : Nat} {a : α} {l : List α}

/-- Clearing the lowest bit keeps the highest, unless it is the only one. -/
theorem turnOffLeast1bit_cases (hx : x ≠ 0) :
    x = 2 ^ x.log2 ∨ 2 ^ x.log2 ≤ turnOffLeast1bit x := by
  have hlow := Nat.log2_self_le hx
  have hhigh := Nat.lt_log2_self (n := x)
  rw [or_iff_not_imp_left]
  intro hne
  refine Nat.ge_two_pow_of_testBit ?_
  have htop : ∀ y, 2 ^ x.log2 ≤ y → y < 2 ^ (x.log2 + 1) → y.testBit x.log2 = true := by
    intro y hy hy'
    rw [Nat.testBit_eq_decide_div_mod_eq, decide_eq_true_eq]
    have : y / 2 ^ x.log2 = 1 := Nat.div_eq_of_lt_le (by omega) (by rw [Nat.pow_succ] at hy'; omega)
    rw [this]
  rw [turnOffLeast1bit, Nat.testBit_and, htop x hlow hhigh, htop (x - 1) (by omega) (by omega)]
  rfl

theorem turnOffLeast1bit_two_pow (k : Nat) : turnOffLeast1bit (2 ^ k) = 0 := by
  rw [turnOffLeast1bit, Nat.and_two_pow_sub_one_eq_mod, Nat.mod_self]

theorem two_pow_of_isPowerOf2 (h : isPowerOf2 x = true) : ∃ k, x = 2 ^ k := by
  simp only [isPowerOf2, Bool.and_eq_true, bne_iff_ne, beq_iff_eq] at h
  rcases turnOffLeast1bit_cases h.1 with hx | hx
  · exact ⟨_, hx⟩
  · rw [h.2] at hx
    exact absurd hx (Nat.not_le.mpr (Nat.two_pow_pos _))

theorem four_le_turnOff (hx : 4 ≤ x) (hp : isPowerOf2 x = false) : 4 ≤ turnOffLeast1bit x := by
  rcases turnOffLeast1bit_cases (x := x) (by omega) with h | h
  · have hpow : isPowerOf2 x = true := by
      rw [isPowerOf2, Bool.and_eq_true, bne_iff_ne, beq_iff_eq]
      refine ⟨by omega, ?_⟩
      rw [h]
      exact turnOffLeast1bit_two_pow _
    rw [hpow] at hp
    cases hp
  · have hlog : 2 ≤ x.log2 := (Nat.le_log2 (by omega)).mpr hx
    exact Nat.le_trans (Nat.pow_le_pow_right Nat.two_pos hlog) h

/-- The loop ends at a power of two. -/
theorem roundDown_spec {fuel : Nat} (hx : 4 ≤ x) (hfuel : x ≤ fuel) :
    (∃ k, roundDown fuel x = 2 ^ k) ∧ 4 ≤ roundDown fuel x := by
  induction fuel generalizing x with
  | zero => omega
  | succ fuel ih =>
    unfold roundDown
    split
    next hp => exact ⟨two_pow_of_isPowerOf2 hp, hx⟩
    next hp =>
      refine ih (four_le_turnOff hx (Bool.eq_false_iff.mpr hp)) ?_
      have : turnOffLeast1bit x ≤ x - 1 := Nat.and_le_right
      omega

theorem newBucketCnt_spec (cnt : Nat) : (∃ k, newBucketCnt cnt = 2 ^ k) ∧ 4 ≤ newBucketCnt cnt := by
  unfold newBucketCnt
  dsimp only
  split
  next => exact roundDown_spec (by omega) (by omega)
  next hc => exact roundDown_spec (by omega) (by omega)

theorem bucketIdx_lt (hn : ∃ k, n = 2 ^ k) : bucketIdx F n e < n := by
  obtain ⟨k, rfl⟩ := hn
  rw [bucketIdx, Nat.and_two_pow_sub_one_eq_mod]
  exact Nat.mod_lt _ (Nat.two_pow_pos k)

/-! ## The invariant of the buckets -/

/-- Neither element comes before the other. -/
def Funcs.Equiv (F : Funcs α) (a b : α) : Prop := F.less a b = false ∧ F.less b a = false

/-- The order is a strict weak one, and equivalent elements have equal hashes. -/
structure Funcs.Lawful (F : Funcs α) : Prop where
  irrefl : ∀ a, F.less a a = false
  trans : ∀ a b c, F.less a b = true → F.less b c = true → F.less a c = true
  incomp : ∀ a b c, F.Equiv a b → F.Equiv b c → F.Equiv a c
  hash_eq : ∀ a b, F.Equiv a b → F.hash a = F.hash b

/-- The elements of all buckets. -/
def Table.elems (h : Table α) : List α := (range h.bucketCnt).flatMap h.buckets

def Table.set (h : Table α) : Set α := {e | e ∈ h.elems}

structure Table.Wf (F : Funcs α) (h : Table α) : Prop where
  pow : ∃ k, h.bucketCnt = 2 ^ k
  four : 4 ≤ h.bucketCnt
  place : ∀ i e, e ∈ h.buckets i → i = bucketIdx F h.bucketCnt e
  apart : ∀ i, (h.buckets i).Pairwise fun a b => ¬ F.Equiv a b
  count : h.elemCnt = h.elems.length

theorem Funcs.Equiv.symm {b : α} (h : F.Equiv a b) : F.Equiv b a := ⟨h.2, h.1⟩

theorem Funcs.Lawful.refl (hF : F.Lawful) (a : α) : F.Equiv a a := ⟨hF.irrefl a, hF.irrefl a⟩

theorem Funcs.Lawful.idx_eq (hF : F.Lawful) {b : α} (h : F.Equiv a b) (n : Nat) :
    bucketIdx F n a = bucketIdx F n b := by
  rw [bucketIdx, bucketIdx, hF.hash_eq a b h]

theorem test_iff : (!F.less a e && !F.less e a) = true ↔ F.Equiv a e := by
  simp only [Bool.and_eq_true, Bool.not_eq_true', Funcs.Equiv]

theorem mem_of_findElem (h : findElem F l e = some a) : a ∈ l ∧ F.Equiv a e := by
  have htest := find?_some h
  exact ⟨mem_of_find?_eq_some h, test_iff.mp htest⟩

theorem not_equiv_of_findElem (h : findElem F l e = none) (ha : a ∈ l) : ¬ F.Equiv a e :=
  fun heq => find?_eq_none.mp h a ha (test_iff.mpr heq)

theorem set_of_perm {h' : Table α} (hp : h'.elems.Perm l) : h'.set = {a | a ∈ l} := by
  ext a
  exact hp.mem_iff

namespace Table.Wf

variable (hw : h.Wf F)
include hw

theorem mem_elems : e ∈ h.elems ↔ e ∈ h.buckets (bucketIdx F h.bucketCnt e) := by
  rw [Table.elems, mem_flatMap_range]
  constructor
  · rintro ⟨i, -, hi⟩
    rwa [← hw.place i e hi]
  · exact fun he => ⟨_, bucketIdx_lt hw.pow, he⟩

/-- At most one element of each class. -/
theorem eq_of_equiv (hF : F.Lawful) {a b : α} (ha : a ∈ h.elems) (hb : b ∈ h.elems) (hab : F.Equiv a b) : a = b := by
  rw [hw.mem_elems] at ha hb
  rw [← hF.idx_eq hab] at hb
  by_contra hne
  have hsymm : Std.Symm fun a b => a ≠ b → ¬ F.Equiv a b := ⟨fun a b hab hne h => hab hne.symm h.symm⟩
  have hpair : (h.buckets (bucketIdx F h.bucketCnt a)).Pairwise fun a b => a ≠ b → ¬ F.Equiv a b :=
    (hw.apart _).imp fun {a b} h (_ : a ≠ b) => h
  exact Pairwise.forall_of_forall (fun _ _ h => absurd rfl h) hpair ha hb hne hab

theorem nodup (hF : F.Lawful) : h.elems.Nodup := by
  refine nodup_flatMap.mpr ⟨fun i _ => (hw.apart i).imp fun hab heq => ?_, ?_⟩
  · subst heq
    exact hab (hF.refl _)
  · refine nodup_range.imp fun {i j} hij e hi hj => hij ?_
    rw [hw.place i e hi, hw.place j e hj]

/-- `find_elem` in the bucket of an element finds the one of its class. -/
theorem findElem_some (hF : F.Lawful) {a : α} :
    findElem F (h.buckets (bucketIdx F h.bucketCnt e)) e = some a ↔ a ∈ h.elems ∧ F.Equiv a e := by
  constructor
  · intro hfind
    obtain ⟨ha, heq⟩ := mem_of_findElem hfind
    exact ⟨hw.mem_elems.mpr (by rwa [hF.idx_eq heq]), heq⟩
  · rintro ⟨ha, heq⟩
    cases hfind : findElem F (h.buckets (bucketIdx F h.bucketCnt e)) e with
    | none =>
      refine absurd heq (not_equiv_of_findElem hfind ?_)
      rw [← hF.idx_eq heq]
      exact hw.mem_elems.mp ha
    | some b =>
      obtain ⟨hb, hbe⟩ := mem_of_findElem hfind
      rw [← hF.idx_eq hbe, ← hw.mem_elems] at hb
      rw [hw.eq_of_equiv hF hb ha (hF.incomp b e a hbe heq.symm)]

theorem findElem_none (hF : F.Lawful) :
    findElem F (h.buckets (bucketIdx F h.bucketCnt e)) e = none ↔ ∀ a ∈ h.elems, ¬ F.Equiv a e := by
  rw [Option.eq_none_iff_forall_ne_some]
  exact ⟨fun hno a ha heq => hno a ((hw.findElem_some hF).mpr ⟨ha, heq⟩),
    fun hno a hfind => hno a ((hw.findElem_some hF).mp hfind).1 ((hw.findElem_some hF).mp hfind).2⟩

end Table.Wf

/-! ## Moving the elements to new buckets -/

theorem foldl_pushFront_apply (l : List α) (b : Nat → List α) (i : Nat) :
    l.foldl (fun b e => pushFront b (bucketIdx F n e) e) b i =
      (l.filter fun e => bucketIdx F n e = i).reverse ++ b i := by
  induction l generalizing b with
  | nil => rfl
  | cons a l ih =>
    rw [foldl_cons, ih]
    by_cases hi : bucketIdx F n a = i
    · subst hi
      simp [pushFront]
    · simp [pushFront, hi, Function.update_of_ne (Ne.symm hi)]

/-- The new buckets of `rehash`. -/
theorem rehash_buckets (h : Table α) :
    (range h.bucketCnt).foldl (fun b i => moveBucket F n b (h.buckets i)) (fun _ => []) =
      fun i => (h.elems.filter fun e => bucketIdx F n e = i).reverse := by
  have hfold : ∀ (l : List Nat) b, l.foldl (fun b i => moveBucket F n b (h.buckets i)) b =
      (l.flatMap h.buckets).foldl (fun b e => pushFront b (bucketIdx F n e) e) b := by
    intro l
    induction l with
    | nil => exact fun _ => rfl
    | cons i l ih => exact fun b => by rw [foldl_cons, ih, flatMap_cons, foldl_append, moveBucket]
  funext i
  rw [hfold, foldl_pushFront_apply, append_nil, Table.elems]

/-- Spreading a list over the buckets loses and duplicates nothing. -/
theorem flatMap_filter_perm (hn : ∃ k, n = 2 ^ k) (l : List α) :
    ((range n).flatMap fun i => (l.filter fun e => bucketIdx F n e = i).reverse).Perm l := by
  induction l with
  | nil => simp
  | cons a l ih =>
    refine (flatMap_perm_cons (g := fun i => (l.filter fun e => bucketIdx F n e = i).reverse)
      (bucketIdx_lt (F := F) (e := a) hn) ?_ fun j hj => ?_).trans (ih.cons a)
    · simp only [filter_cons, decide_true, if_true, reverse_cons]
      exact perm_append_comm
    · simp only [filter_cons, decide_eq_true_eq, if_neg (Ne.symm hj)]

/-- `rehash` keeps the elements. -/
theorem rehash_elems (h : Table α) (memory : Bool) : (rehash F h memory).elems.Perm h.elems := by
  unfold rehash
  dsimp only
  split
  next => exact .refl _
  next =>
    split
    next =>
      rw [rehash_buckets]
      exact flatMap_filter_perm (newBucketCnt_spec _).1 _
    next => exact .refl _

namespace Table.Wf

theorem rehash (hw : h.Wf F) (hF : F.Lawful) (memory : Bool) : (rehash F h memory).Wf F := by
  have hperm := rehash_elems (F := F) h memory
  have hcnt : (Hash.rehash F h memory).elemCnt = h.elemCnt := by
    unfold Hash.rehash
    dsimp only
    split <;> [rfl; split <;> rfl]
  have hlen : (Hash.rehash F h memory).elemCnt = (Hash.rehash F h memory).elems.length := by
    rw [hcnt, hw.count, hperm.length_eq]
  unfold Hash.rehash at hlen ⊢
  dsimp only at hlen ⊢
  split at hlen
  next heq => rwa [if_pos heq]
  next hne =>
    rw [if_neg hne]
    split at hlen
    next hm =>
      rw [if_pos hm]
      obtain ⟨hpow, hfour⟩ := newBucketCnt_spec h.elemCnt
      rw [rehash_buckets] at hlen ⊢
      refine ⟨hpow, hfour, fun i e he => ?_, fun i => ?_, hlen⟩
      · rw [mem_reverse, mem_filter, decide_eq_true_eq] at he
        exact he.2.symm
      · rw [pairwise_reverse]
        refine (Pairwise.filter _ (hw.nodup hF)).imp_of_mem fun {a b} ha hb hne heq => hne ?_
        exact (hw.eq_of_equiv hF (mem_of_mem_filter hb) (mem_of_mem_filter ha) heq).symm
    next hm => rwa [if_neg hm]

/-! ## One element more or less -/

theorem insertElem (hw : h.Wf F) (hno : ∀ a ∈ h.elems, ¬ F.Equiv a e) :
    (insertElem h (findBucket F h e) e).Wf F ∧ (Hash.insertElem h (findBucket F h e) e).elems.Perm (e :: h.elems) := by
  have hidx := bucketIdx_lt (F := F) (e := e) hw.pow
  have hself : (Hash.insertElem h (findBucket F h e) e).buckets (findBucket F h e) =
      e :: h.buckets (findBucket F h e) := Function.update_self ..
  have hother : ∀ i, i ≠ findBucket F h e → (Hash.insertElem h (findBucket F h e) e).buckets i = h.buckets i :=
    fun i hi => Function.update_of_ne hi ..
  have hperm : (Hash.insertElem h (findBucket F h e) e).elems.Perm (e :: h.elems) :=
    flatMap_perm_cons hidx (by rw [← findBucket]; exact .of_eq hself) hother
  refine ⟨⟨hw.pow, hw.four, fun i a ha => ?_, fun i => ?_, ?_⟩, hperm⟩
  · by_cases hi : i = findBucket F h e
    · subst hi
      rw [hself, mem_cons] at ha
      rcases ha with rfl | ha
      · rfl
      · exact hw.place _ a ha
    · rw [hother i hi] at ha
      exact hw.place i a ha
  · by_cases hi : i = findBucket F h e
    · subst hi
      rw [hself, pairwise_cons]
      refine ⟨fun a ha heq => hno a ?_ heq.symm, hw.apart _⟩
      rw [hw.mem_elems, ← hw.place _ a ha]
      exact ha
    · rw [hother i hi]
      exact hw.apart i
  · rw [hperm.length_eq, length_cons, ← hw.count]
    rfl

theorem set_insertElem (hw : h.Wf F) (hno : ∀ a ∈ h.elems, ¬ F.Equiv a e) :
    (Hash.insertElem h (findBucket F h e) e).set = insert e h.set := by
  rw [set_of_perm (hw.insertElem hno).2]
  ext a
  exact mem_cons

theorem hashClear (hw : h.Wf F) (destructor : Bool) :
    (hashClear h destructor).1.Wf F ∧ (Hash.hashClear h destructor).1.elems = [] := by
  have hempty : (Hash.hashClear h destructor).1.elems = [] := by
    rw [Table.elems, flatMap_eq_nil_iff]
    exact fun i hi => if_pos (mem_range.mp hi)
  refine ⟨⟨hw.pow, hw.four, fun i a ha => ?_, fun i => ?_, by rw [hempty]; rfl⟩, hempty⟩
  · change a ∈ (if i < h.bucketCnt then [] else h.buckets i) at ha
    split at ha
    next => cases ha
    next => exact hw.place i a ha
  · change (if i < h.bucketCnt then [] else h.buckets i).Pairwise _
    split
    next => exact .nil
    next => exact hw.apart i

end Table.Wf

theorem hashInit_wf {junk : Nat → List α} {memory : Bool} (hinit : hashInit junk memory = some h) :
    h.Wf F ∧ h.elems = [] := by
  unfold hashInit at hinit
  split at hinit
  next =>
    cases hinit
    have hb : ∀ i, (if i < 4 then ([] : List α) else if i < 4 then junk i else []) = [] := fun i => by
      split <;> [rfl; rfl]
    have hempty : (hashClear ⟨0, 4, fun i => if i < 4 then junk i else []⟩ false).1.elems = [] := by
      rw [Table.elems, flatMap_eq_nil_iff]
      exact fun i _ => hb i
    refine ⟨⟨⟨2, rfl⟩, Nat.le_refl 4, fun i a ha => ?_, fun i => ?_, by rw [hempty]; rfl⟩, hempty⟩
    · rw [show (hashClear ⟨0, 4, fun i => if i < 4 then junk i else []⟩ false).1.buckets i = [] from hb i] at ha
      cases ha
    · rw [show (hashClear ⟨0, 4, fun i => if i < 4 then junk i else []⟩ false).1.buckets i = [] from hb i]
      exact .nil
  next => cases hinit

variable [DecidableEq α]

namespace Table.Wf

theorem removeElem (hw : h.Wf F) (he : e ∈ h.elems) :
    (removeElem h e).Wf F ∧ h.elems.Perm (e :: (Hash.removeElem h e).elems) := by
  have hidx := bucketIdx_lt (F := F) (e := e) hw.pow
  have hmem := hw.mem_elems.mp he
  have hperm : h.elems.Perm (e :: (Hash.removeElem h e).elems) := by
    refine flatMap_perm_cons hidx (perm_cons_erase hmem) fun j hj => ?_
    refine (erase_of_not_mem fun hj' => hj ?_).symm
    exact hw.place j e hj'
  refine ⟨⟨hw.pow, hw.four, fun i a ha => hw.place i a (mem_of_mem_erase ha),
    fun i => (hw.apart i).sublist erase_sublist, ?_⟩, hperm⟩
  have hlen := hperm.length_eq
  rw [length_cons, ← hw.count] at hlen
  change h.elemCnt - 1 = _
  omega

end Table.Wf

/-! ## The abstract set -/

namespace Abs

/-- What the calls do to a set with at most one element of each class. -/
inductive Step (F : Funcs α) : Set α → Op α → Ret α → Set α → Prop
  | insertNew {A : Set α} {e : α} {m : Bool} (hno : ∀ a ∈ A, ¬ F.Equiv a e) :
      Step F A (.insert e m) (.elem none) (insert e A)
  | insertOld {A : Set α} {e a : α} {m : Bool} (ha : a ∈ A) (heq : F.Equiv a e) :
      Step F A (.insert e m) (.elem (some a)) A
  | replaceNew {A : Set α} {e : α} {m : Bool} (hno : ∀ a ∈ A, ¬ F.Equiv a e) :
      Step F A (.replace e m) (.elem none) (insert e A)
  | replaceOld {A : Set α} {e a : α} {m : Bool} (ha : a ∈ A) (heq : F.Equiv a e) :
      Step F A (.replace e m) (.elem (some a)) (insert e (A \ {a}))
  | deleteNone {A : Set α} {e : α} {m : Bool} (hno : ∀ a ∈ A, ¬ F.Equiv a e) : Step F A (.delete e m) (.elem none) A
  | deleteOld {A : Set α} {e a : α} {m : Bool} (ha : a ∈ A) (heq : F.Equiv a e) :
      Step F A (.delete e m) (.elem (some a)) (A \ {a})
  | findNone {A : Set α} {e : α} (hno : ∀ a ∈ A, ¬ F.Equiv a e) : Step F A (.find e) (.elem none) A
  | findOld {A : Set α} {e a : α} (ha : a ∈ A) (heq : F.Equiv a e) : Step F A (.find e) (.elem (some a)) A
  | clear {A : Set α} : Step F A (.clear false) (.destroyed []) ∅
  | destroy {A : Set α} {l : List α} (hl : l.Nodup) (hmem : ∀ a, a ∈ l ↔ a ∈ A) :
      Step F A (.clear true) (.destroyed l) ∅

inductive Run (F : Funcs α) : Set α → List (Op α) → List (Ret α) → Set α → Prop
  | nil (A : Set α) : Run F A [] [] A
  | cons {A B C : Set α} {op : Op α} {r : Ret α} {ops : List (Op α)} {rs : List (Ret α)} (hs : Step F A op r B)
      (hr : Run F B ops rs C) : Run F A (op :: ops) (r :: rs) C

end Abs

namespace Table.Wf

variable (hw : h.Wf F) (hF : F.Lawful)
include hw hF

theorem set_removeElem (he : e ∈ h.elems) : (Hash.removeElem h e).set = h.set \ {e} := by
  have hperm := (hw.removeElem he).2
  have hnodup := hperm.nodup (hw.nodup hF)
  ext a
  have hmem := hperm.mem_iff (a := a)
  rw [mem_cons] at hmem
  change a ∈ (Hash.removeElem h e).elems ↔ a ∈ h.elems ∧ a ≠ e
  rw [hmem]
  refine ⟨fun ha => ⟨.inr ha, ?_⟩, fun ha => ha.1.resolve_left ha.2⟩
  rintro rfl
  exact (nodup_cons.mp hnodup).1 ha

/-- One call. -/
theorem exec (op : Op α) : (op.exec F h).1.Wf F ∧ Abs.Step F h.set op (op.exec F h).2 (op.exec F h).1.set := by
  have hset : ∀ h' : Table α, ∀ m, (Hash.rehash F h' m).set = h'.set := fun h' m => set_of_perm (rehash_elems h' m)
  cases op with
  | insert e m =>
    simp only [Op.exec, hashInsert, findBucket]
    cases hfind : findElem F (h.buckets (bucketIdx F h.bucketCnt e)) e with
    | none =>
      have hno := (hw.findElem_none hF).mp hfind
      have hins := (hw.insertElem hno).1
      refine ⟨hins.rehash hF m, ?_⟩
      rw [hset]
      exact hw.set_insertElem hno ▸ .insertNew hno
    | some a =>
      obtain ⟨ha, heq⟩ := (hw.findElem_some hF).mp hfind
      refine ⟨hw.rehash hF m, ?_⟩
      rw [hset]
      exact .insertOld ha heq
  | replace e m =>
    simp only [Op.exec, hashReplace, findBucket]
    cases hfind : findElem F (h.buckets (bucketIdx F h.bucketCnt e)) e with
    | none =>
      have hno := (hw.findElem_none hF).mp hfind
      have hins := (hw.insertElem hno).1
      refine ⟨hins.rehash hF m, ?_⟩
      rw [hset]
      exact hw.set_insertElem hno ▸ .replaceNew hno
    | some a =>
      obtain ⟨ha, heq⟩ := (hw.findElem_some hF).mp hfind
      have hrem := (hw.removeElem ha).1
      have hsub := hw.set_removeElem hF ha
      -- no other element of the class of `e` is left
      have hno : ∀ b ∈ (Hash.removeElem h a).elems, ¬ F.Equiv b e := by
        intro b hb hbe
        have hb' : b ∈ h.set \ {a} := hsub ▸ hb
        exact hb'.2 (hw.eq_of_equiv hF hb'.1 ha (hF.incomp b e a hbe heq.symm))
      have hins := (hrem.insertElem hno).1
      refine ⟨hins.rehash hF m, ?_⟩
      rw [hset]
      have := hrem.set_insertElem hno
      rw [hsub] at this
      exact this ▸ .replaceOld ha heq
  | delete e m =>
    simp only [Op.exec, hashDelete, hashFind, findBucket]
    cases hfind : findElem F (h.buckets (bucketIdx F h.bucketCnt e)) e with
    | none => exact ⟨hw, .deleteNone ((hw.findElem_none hF).mp hfind)⟩
    | some a =>
      obtain ⟨ha, heq⟩ := (hw.findElem_some hF).mp hfind
      refine ⟨(hw.removeElem ha).1.rehash hF m, ?_⟩
      rw [hset, hw.set_removeElem hF ha]
      exact .deleteOld ha heq
  | find e =>
    simp only [Op.exec, hashFind, findBucket]
    refine ⟨hw, ?_⟩
    cases hfind : findElem F (h.buckets (bucketIdx F h.bucketCnt e)) e with
    | none => exact .findNone ((hw.findElem_none hF).mp hfind)
    | some a =>
      obtain ⟨ha, heq⟩ := (hw.findElem_some hF).mp hfind
      exact .findOld ha heq
  | clear destructor =>
    obtain ⟨hwf, hempty⟩ := hw.hashClear destructor
    refine ⟨hwf, ?_⟩
    have : (Hash.hashClear h destructor).1.set = ∅ := by
      ext a
      simp [Table.set, hempty]
    change Abs.Step F h.set (.clear destructor) (.destroyed (Hash.hashClear h destructor).2)
      (Hash.hashClear h destructor).1.set
    rw [this]
    cases destructor with
    | false => exact .clear
    | true => exact .destroy (hw.nodup hF) fun a => Iff.rfl

end Table.Wf

/-- All calls, by induction on the list. -/
theorem run_refines (hF : F.Lawful) (ops : List (Op α)) (hw : h.Wf F) :
    (run F h ops).1.Wf F ∧ Abs.Run F h.set ops (run F h ops).2 (run F h ops).1.set := by
  induction ops generalizing h with
  | nil => exact ⟨hw, .nil _⟩
  | cons op ops ih =>
    obtain ⟨hwf, hstep⟩ := hw.exec hF op
    obtain ⟨hend, hrun⟩ := ih hwf
    exact ⟨hend, .cons hstep hrun⟩

/-- After `hash_init` and any calls, whichever allocations of `rehash` fail,
the results are those of a set with at most one element of each class, and the
buckets hold its elements where their hashes say. -/
theorem hash_table_refines (hF : F.Lawful) {junk : Nat → List α} {memory : Bool}
    (hinit : hashInit junk memory = some h) (ops : List (Op α)) :
    Abs.Run F ∅ ops (run F h ops).2 (run F h ops).1.set ∧
      (∀ a ∈ (run F h ops).1.set, ∀ b ∈ (run F h ops).1.set, F.Equiv a b → a = b) ∧
      (run F h ops).1.elemCnt = (run F h ops).1.set.ncard ∧
      (∃ k, (run F h ops).1.bucketCnt = 2 ^ k) ∧ 4 ≤ (run F h ops).1.bucketCnt ∧
      (∀ i e, e ∈ (run F h ops).1.buckets i → i = F.hash e &&& ((run F h ops).1.bucketCnt - 1)) ∧
      ∀ m, (rehash F (run F h ops).1 m).elems.Perm (run F h ops).1.elems := by
  obtain ⟨hw, hempty⟩ := hashInit_wf (F := F) hinit
  have hset : h.set = ∅ := by
    ext a
    simp [Table.set, hempty]
  obtain ⟨hend, hrun⟩ := run_refines hF ops hw
  rw [hset] at hrun
  refine ⟨hrun, fun a ha b hb => hend.eq_of_equiv hF ha hb, ?_, hend.pow, hend.four, hend.place, rehash_elems _⟩
  rw [hend.count, ← toFinset_card_of_nodup (hend.nodup hF), ← Set.ncard_coe_finset]
  congr 1
  ext a
  simp [Table.set]

theorem pageFuncs_lawful : pageFuncs.Lawful where
  irrefl p := by simp [pageFuncs]
  trans a b c hab hbc := by
    simp only [pageFuncs, decide_eq_true_eq] at *
    omega
  incomp a b c hab hbc := by
    simp only [Funcs.Equiv, pageFuncs, decide_eq_false_iff_not] at *
    omega
  hash_eq a b hab := by
    simp only [Funcs.Equiv, pageFuncs, decide_eq_false_iff_not] at *
    rw [show a.addr = b.addr by omega]

/-- The table of a process without pages. -/
def noPages : Table Page := ⟨0, 4, fun _ => []⟩

theorem hashInit_pages : hashInit (fun _ => []) true = some noPages := by
  simp [hashInit, hashClear, noPages]

/-- Two pages for one address: the second one stays out, and then takes the
place of the first. -/
theorem hash_table_refines_pages :
    hashInit (fun _ => []) true = some noPages ∧
      Abs.Run pageFuncs ∅ [.insert ⟨1, 4096⟩ true, .insert ⟨2, 4096⟩ true, .replace ⟨2, 4096⟩ false, .find ⟨3, 4096⟩]
        [.elem none, .elem (some ⟨1, 4096⟩), .elem (some ⟨1, 4096⟩), .elem (some ⟨2, 4096⟩)]
        (run pageFuncs noPages [.insert ⟨1, 4096⟩ true, .insert ⟨2, 4096⟩ true, .replace ⟨2, 4096⟩ false,
          .find ⟨3, 4096⟩]).1.set := by
  refine ⟨hashInit_pages, ?_⟩
  have hrun := (hash_table_refines pageFuncs_lawful hashInit_pages [.insert ⟨1, 4096⟩ true, .insert ⟨2, 4096⟩ true,
    .replace ⟨2, 4096⟩ false, .find ⟨3, 4096⟩]).1
  have hres : (run pageFuncs noPages [.insert ⟨1, 4096⟩ true, .insert ⟨2, 4096⟩ true, .replace ⟨2, 4096⟩ false,
      .find ⟨3, 4096⟩]).2 =
      [.elem none, .elem (some ⟨1, 4096⟩), .elem (some ⟨1, 4096⟩), .elem (some ⟨2, 4096⟩)] := by decide
  rwa [hres] at hrun

/-! ## Iteration -/

/-- What is left to visit. -/
def Table.pending (h : Table α) (i : Iterator α) : List α :=
  i.rest ++ (range' (i.bucket + 1) (h.bucketCnt - (i.bucket + 1))).flatMap h.buckets

omit [DecidableEq α] in
/-- Empty buckets are skipped up to the last one. -/
theorem nextLoop_spec {i : Iterator α} (hi : i.bucket < h.bucketCnt) (hn : h.bucketCnt ≤ n + i.bucket) :
    match nextLoop h n i with
    | (some e, j) => h.pending i = e :: h.pending j ∧ j.bucket < h.bucketCnt
    | (none, _) => h.pending i = [] := by
  induction n generalizing i with
  | zero => omega
  | succ n ih =>
    obtain ⟨b, rest⟩ := i
    cases rest with
    | cons e rest => exact ⟨rfl, hi⟩
    | nil =>
      simp only at hi hn
      by_cases hlast : b + 1 ≥ h.bucketCnt
      · simp [nextLoop, hlast, Table.pending]
      · have hcnt : h.bucketCnt - (b + 1) = h.bucketCnt - (b + 1 + 1) + 1 := by omega
        have hskip : h.pending ⟨b, []⟩ = h.pending ⟨b + 1, h.buckets (b + 1)⟩ := by
          simp [Table.pending, hcnt, range'_succ]
        rw [nextLoop, if_neg hlast, hskip]
        exact ih (by simp only; omega) (by simp only; omega)

omit [DecidableEq α] in
theorem iterate_eq {i : Iterator α} (hi : i.bucket < h.bucketCnt) (hn : (h.pending i).length < n) :
    iterate h n i = some (h.pending i) := by
  induction n generalizing i with
  | zero => omega
  | succ n ih =>
    have hnext := nextLoop_spec hi (Nat.le_add_right _ _)
    unfold iterate hashNext
    generalize nextLoop h h.bucketCnt i = found at hnext ⊢
    obtain ⟨_ | e, j⟩ := found
    · simp only [hnext]
    · dsimp only at hnext
      rw [hnext.1] at hn ⊢
      simp [ih hnext.2 (by simpa using hn)]

omit [DecidableEq α] in
theorem Table.Wf.iterate_elems (hw : h.Wf F) (hn : h.elems.length < n) : iterate h n (hashFirst h) = some h.elems := by
  obtain ⟨c, hc⟩ := Nat.exists_eq_add_of_le hw.four
  have hall : h.pending (hashFirst h) = h.elems := by
    simp [Table.pending, hashFirst, Table.elems, hc, range_eq_range', range'_succ, Nat.add_comm 4 c]
  rw [← hall] at hn ⊢
  exact iterate_eq (by simp [hashFirst, hc]) hn

/-- After `hash_init` and any calls, `hash_first` and then `hash_next` until it
returns null get every element of the table once. -/
theorem hash_iteration_complete (hF : F.Lawful) {junk : Nat → List α} {memory : Bool}
    (hinit : hashInit junk memory = some h) (ops : List (Op α)) :
    ∃ l : List α, l.Nodup ∧ (∀ e, e ∈ l ↔ e ∈ (run F h ops).1.set) ∧
      ∀ n, l.length < n → iterate (run F h ops).1 n (hashFirst (run F h ops).1) = some l := by
  obtain ⟨hw, -⟩ := hashInit_wf (F := F) hinit
  obtain ⟨hend, -⟩ := run_refines hF ops hw
  exact ⟨_, hend.nodup hF, fun e => Iff.rfl, fun n hn => hend.iterate_elems hn⟩

/-- A page in the second of four buckets. -/
theorem hash_iteration_complete_page : ∃ l : List Page, ⟨1, 4096⟩ ∈ l ∧
    iterate (run pageFuncs noPages [.insert ⟨1, 4096⟩ true]).1 (l.length + 1)
      (hashFirst (run pageFuncs noPages [.insert ⟨1, 4096⟩ true]).1) = some l := by
  obtain ⟨l, -, hmem, hl⟩ := hash_iteration_complete pageFuncs_lawful hashInit_pages [.insert ⟨1, 4096⟩ true]
  refine ⟨l, (hmem _).mpr ?_, hl _ (Nat.lt_succ_self _)⟩
  change _ ∈ Table.elems _
  decide

end Pintos.Hash
