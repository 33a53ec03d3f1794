import Pintos.Core.Bytes
import Pintos.L2Code.CmdLine

/-!
# Argument passing

`init_cmd_line` (userprog/process.c:556-600) fills the initial stack page from
the top down: the command line, which `strtok_r` splits where it lies, a null
pointer, a pointer to each word, and three words for the frame of `main`.

* `words`: the words of a command line.
* `Laid`: strings that lie one after another in a page.
* `pushArgs_spec`: the loop over the words; `words_reverse`: the pointers are
  put in order.
* `command_line_passed`: when the call succeeds and what the program finds.
-/
namespace Pintos.Vm

open Pintos.Core Function List

/-! ## Words in memory -/

theorem Mem.word_eq (m : Mem) (o : Nat) : m.word o = wordAt m o := by
  unfold Mem.word wordAt
  norm_num

theorem put_wordBytes (m : Mem) (pos x : Nat) : m.put pos (wordBytes x) = putWord m pos x := by
  funext o
  have hlen : (wordBytes x).length = 4 := rfl
  unfold Mem.put putWord patch
  rw [hlen]
  by_cases h : pos ≤ o ∧ o < pos + 4
  · rw [if_pos h, if_pos h]
    obtain ⟨i, rfl⟩ := Nat.exists_eq_add_of_le h.1
    rw [Nat.add_sub_cancel_left]
    have hi : i < 4 := by omega
    interval_cases i <;> simp [wordBytes, byteAt]
  · rw [if_neg h, if_neg h]

theorem word_putWord (m : Mem) (o x : Nat) : Mem.word (putWord m o x) o = x % 2 ^ 32 := by
  have hx : putWord m o x = putWord m o (x % 2 ^ 32) := by
    unfold putWord patch
    funext o'
    by_cases h : o ≤ o' ∧ o' < o + 4
    · rw [if_pos h, if_pos h]
      have hi : o' - o < 4 := by omega
      apply UInt8.toNat_inj.1
      rw [byteAt_toNat, byteAt_toNat]
      generalize o' - o = i at hi
      interval_cases i <;> omega
    · rw [if_neg h, if_neg h]
  rw [hx, Mem.word_eq, wordAt_putWord _ _ (Nat.mod_lt _ (by norm_num))]

theorem Mem.word_lt (m : Mem) (o : Nat) : m.word o < 2 ^ 32 := by
  rw [Mem.word_eq]
  exact wordAt_lt _ _

variable {m m' : Mem} {o x n ofs argc a hi lo upage save : Nat} {l w : List Byte} {ps : List Nat}
variable {ws : List (List Byte)}

theorem putWord_of_outside {o' : Nat} (h : o' < o ∨ o + 4 ≤ o') : putWord m o x o' = m o' :=
  patch_of_outside h

theorem word_congr (h : ∀ i < 4, m (o + i) = m' (o + i)) : m.word o = m'.word o := by
  rw [Mem.word_eq, Mem.word_eq, wordAt_congr h]

/-- The `n` words from `o` on. -/
def Mem.words (m : Mem) (o n : Nat) : List Nat := (range n).map fun i => m.word (o + 4 * i)

theorem words_succ (m : Mem) (o n : Nat) : m.words o (n + 1) = m.words o n ++ [m.word (o + 4 * n)] := by
  simp [Mem.words, range_succ]

theorem words_cons (m : Mem) (o n : Nat) : m.words o (n + 1) = m.word o :: m.words (o + 4) n := by
  simp only [Mem.words, range_succ_eq_map, map_cons, map_map, Nat.mul_zero, Nat.add_zero]
  refine congrArg _ (map_congr_left fun i _ => ?_)
  rw [comp_apply, Nat.succ_eq_add_one, Nat.mul_add, Nat.mul_one, Nat.add_comm (4 * i), ← Nat.add_assoc]

theorem words_congr (h : ∀ x, o ≤ x → x < o + 4 * n → m x = m' x) :
    m.words o n = m'.words o n := by
  refine map_congr_left fun i hi => word_congr fun j hj => h _ (by omega) ?_
  have := mem_range.1 hi
  omega

/-! ## `push` and `reverse` -/

theorem push_word (h : 4 ≤ ofs) :
    push m ofs (wordBytes x) = some ⟨putWord m (ofs - 4) x, ofs - 4, ofs - 4⟩ := by
  have hl : (wordBytes x).length = 4 := rfl
  have hp : roundUp 4 4 = 4 := by simp [roundUp]
  simp only [push, hl, hp, if_neg (Nat.not_lt.2 h), Nat.sub_self, Nat.add_zero, put_wordBytes]

theorem push_word_none (h : ofs < 4) : push m ofs (wordBytes x) = none := by
  have hl : (wordBytes x).length = 4 := rfl
  have hp : roundUp 4 4 = 4 := by simp [roundUp]
  simp only [push, hl, hp, if_pos h]

theorem reverse_of_outside {argv : Nat} (h : o < argv ∨ argv + 4 * argc ≤ o) :
    reverse argc argv m o = m o := by
  induction argc, argv, m using reverse.induct with
  | case1 argc argv m a b ih =>
    rw [reverse, ih (by omega), put_wordBytes, put_wordBytes, putWord_of_outside (by omega),
      putWord_of_outside (by omega)]
  | case2 argc argv m hne => rw [reverse]; exact hne

/-- The words come in the opposite order. -/
theorem words_reverse (argc argv : Nat) (m : Mem) :
    (reverse argc argv m).words argv argc = (m.words argv argc).reverse := by
  induction argc, argv, m using reverse.induct with
  | case1 argc argv m a b ih =>
    -- the first and the last word are exchanged, and the words between them reversed
    have hw : ∀ m : Mem, m.words argv (argc + 2) =
        m.word argv :: (m.words (argv + 4) argc ++ [m.word (argv + (argc + 1) * 4)]) := by
      intro m
      have hlast : argv + 4 + 4 * argc = argv + (argc + 1) * 4 := by omega
      rw [words_cons, words_succ, hlast]
    have hout : ∀ o, o < argv + 4 ∨ argv + 4 + 4 * argc ≤ o →
        reverse (argc + 2) argv m o = putWord (putWord m argv b) (argv + (argc + 1) * 4) a o := by
      intro o ho
      rw [reverse, reverse_of_outside ho, put_wordBytes, put_wordBytes]
    have hfirst : (reverse (argc + 2) argv m).word argv = b := by
      have h : (reverse (argc + 2) argv m).word argv = Mem.word (putWord m argv b) argv := by
        refine word_congr fun i hi => ?_
        rw [hout _ (by omega), putWord_of_outside (by omega)]
      rw [h, word_putWord, Nat.mod_eq_of_lt (m.word_lt _)]
    have hlast : (reverse (argc + 2) argv m).word (argv + (argc + 1) * 4) = a := by
      have h : (reverse (argc + 2) argv m).word (argv + (argc + 1) * 4) =
          Mem.word (putWord (putWord m argv b) (argv + (argc + 1) * 4) a) (argv + (argc + 1) * 4) :=
        word_congr fun i hi => hout _ (by omega)
      rw [h, word_putWord, Nat.mod_eq_of_lt (m.word_lt _)]
    have hmid : (reverse (argc + 2) argv m).words (argv + 4) argc = (m.words (argv + 4) argc).reverse := by
      rw [reverse, ih, words_congr fun o h1 h2 => ?_]
      rw [put_wordBytes, put_wordBytes, putWord_of_outside (by omega), putWord_of_outside (by omega)]
    rw [hw, hw, hfirst, hlast, hmid]
    simp [a, b]
  | case2 argc argv m hne =>
    rw [reverse.eq_2 argc argv m hne]
    have hlt : argc < 2 := by
      by_contra h
      exact hne (argc - 2) (by omega)
    interval_cases argc <;> rfl

/-! ## The words of a command line -/

/-- The maximal space-free words. -/
def words (cmdLine : List Byte) : List (List Byte) := (cmdLine.splitOnP (· == space)).filter (· ≠ [])

theorem words_spaces_append {sp : List Byte} (h : ∀ b ∈ sp, b = space) : words (sp ++ l) = words l := by
  induction sp with
  | nil => rfl
  | cons b sp ih =>
    obtain rfl : b = space := h b (mem_cons_self ..)
    have hsplit := splitOnP_append_cons (p := (· == space)) [] (sp ++ l) (beq_self_eq_true space)
    rw [nil_append] at hsplit
    rw [cons_append, words, hsplit, ← ih fun b hb => h b (mem_cons_of_mem _ hb)]
    rfl

theorem beq_space_false (h : ∀ b ∈ w, b ≠ space) : ∀ b ∈ w, (b == space) = false :=
  fun b hb => by simpa using h b hb

theorem words_word (h : ∀ b ∈ w, b ≠ space) (hw : w ≠ []) : words w = [w] := by
  rw [words, splitOnP_eq_singleton (beq_space_false h)]
  simp [hw]

theorem words_word_append (h : ∀ b ∈ w, b ≠ space) (hw : w ≠ []) :
    words (w ++ space :: l) = w :: words l := by
  rw [words, splitOnP_append_cons_of_forall_mem (beq_space_false h) _ (beq_self_eq_true space)]
  simp [hw, words]

/-- A command line is blank, or it has a first word after some spaces. -/
theorem exists_word (l : List Byte) : ((∀ b ∈ l, b = space) ∧ words l = []) ∨
    ∃ sp w, (∀ b ∈ sp, b = space) ∧ (∀ b ∈ w, b ≠ space) ∧ w ≠ [] ∧
      ((l = sp ++ w ∧ words l = [w]) ∨ ∃ l', l = sp ++ (w ++ space :: l') ∧ words l = w :: words l') := by
  let sp := l.takeWhile (· == space)
  let rest := l.dropWhile (· == space)
  let w := rest.takeWhile (· != space)
  let l' := rest.dropWhile (· != space)
  have hl : l = sp ++ rest := takeWhile_append_dropWhile.symm
  have hrest : rest = w ++ l' := takeWhile_append_dropWhile.symm
  have hsp : ∀ b ∈ sp, b = space := fun b hb => by simpa using mem_takeWhile_imp hb
  have hw : ∀ b ∈ w, b ≠ space := fun b hb => by simpa using mem_takeWhile_imp hb
  by_cases hr : rest = []
  · refine .inl ⟨?_, ?_⟩
    · rw [hl, hr, append_nil]; exact hsp
    · rw [hl, hr, words_spaces_append hsp]; rfl
  · have hne : w ≠ [] := by
      have hhead := head_dropWhile_not (· == space) hr
      obtain ⟨b, r, hbr⟩ := exists_cons_of_ne_nil hr
      have hb : (b != space) = true := by simpa [rest, hbr] using hhead
      simp [w, hbr, hb]
    refine .inr ⟨sp, w, hsp, hw, hne, ?_⟩
    cases hl' : l' with
    | nil =>
      rw [hl', append_nil] at hrest
      refine .inl ⟨by rw [← hrest]; exact hl, ?_⟩
      rw [hl, words_spaces_append hsp, hrest, words_word hw hne]
    | cons b r =>
      have hne' : l' ≠ [] := by simp [hl']
      have hhead := head_dropWhile_not (· != space) hne'
      obtain rfl : b = space := by
        have hcons : dropWhile (· != space) rest = b :: r := hl'
        simpa [hcons] using hhead
      refine .inr ⟨r, ?_, ?_⟩
      · rw [← hl', ← hrest]; exact hl
      · rw [hl, words_spaces_append hsp, hrest, hl', words_word_append hw hne]

/-! ## Strings in memory -/

/-- The bytes `x` are at `a`. -/
def Mem.Has (m : Mem) : Nat → List Byte → Prop
  | _, [] => True
  | a, b :: x => m a = b ∧ m.Has (a + 1) x

theorem has_append {x y : List Byte} : m.Has a (x ++ y) ↔ m.Has a x ∧ m.Has (a + x.length) y := by
  induction x generalizing a with
  | nil => simp [Mem.Has]
  | cons b x ih =>
    have : a + 1 + x.length = a + (x.length + 1) := by omega
    simp only [cons_append, Mem.Has, ih, length_cons, and_assoc, this]

theorem Mem.Has.congr {x : List Byte} (h : m.Has a x)
    (hm : ∀ o, a ≤ o → o < a + x.length → m' o = m o) : m'.Has a x := by
  induction x generalizing a with
  | nil => trivial
  | cons b x ih =>
    rw [length_cons] at hm
    exact ⟨(hm a le_rfl (by omega)).trans h.1, ih h.2 fun o h1 h2 => hm o (by omega) (by omega)⟩

theorem has_put (m : Mem) (a : Nat) (x : List Byte) : (m.put a x).Has a x := by
  have key : ∀ y z, x = y ++ z → (m.put a x).Has (a + y.length) z := by
    intro y z
    induction z generalizing y with
    | nil => intro _; trivial
    | cons b z ih =>
      intro hx
      refine ⟨?_, ?_⟩
      · have hlt : a ≤ a + y.length ∧ a + y.length < a + x.length := by
          rw [hx, length_append, length_cons]
          omega
        rw [Mem.put, if_pos hlt, Nat.add_sub_cancel_left, hx]
        simp
      · have := ih (y ++ [b]) (by simp [hx])
        rwa [length_append, length_singleton, ← Nat.add_assoc] at this
  exact key [] x rfl

/-- The null-terminated string `w` is at `a`. -/
def CString (m : Mem) (a : Nat) (w : List Byte) : Prop := m.Has a (w ++ [0])

/-- The strings `ws` lie one after another, at the addresses `ps`, from `lo`
on and below `hi`. -/
def Laid (m : Mem) (hi : Nat) : Nat → List Nat → List (List Byte) → Prop
  | lo, [], [] => lo ≤ hi
  | lo, a :: ps, w :: ws => lo ≤ a ∧ CString m a w ∧ Laid m hi (a + w.length + 1) ps ws
  | _, [], _ :: _ => False
  | _, _ :: _, [] => False

theorem Laid.le (h : Laid m hi lo ps ws) : lo ≤ hi := by
  induction ps generalizing lo ws with
  | nil =>
    cases ws with
    | nil => exact h
    | cons w ws => cases h
  | cons a ps ih =>
    cases ws with
    | nil => cases h
    | cons w ws =>
      have := ih h.2.2
      have := h.1
      omega

theorem Laid.congr (h : Laid m hi lo ps ws)
    (hm : ∀ o, lo ≤ o → o < hi → m' o = m o) : Laid m' hi lo ps ws := by
  induction ps generalizing lo ws with
  | nil =>
    cases ws with
    | nil => exact h
    | cons w ws => cases h
  | cons a ps ih =>
    cases ws with
    | nil => cases h
    | cons w ws =>
      obtain ⟨h1, h2, h3⟩ := h
      have hle := h3.le
      refine ⟨h1, h2.congr fun o ho ho' => hm o (by omega) ?_, ih h3 fun o ho => hm o (by omega)⟩
      rw [length_append, length_singleton] at ho'
      omega

/-! ## `strtok_r` -/

theorem skipSpaces_of_has {sp x : List Byte} {b : Byte} (h : m.Has a (sp ++ b :: x))
    (hsp : ∀ c ∈ sp, c = space) (hb : b ≠ space) (hn : sp.length < n) : skipSpaces m n a = a + sp.length := by
  induction sp generalizing a n with
  | nil =>
    cases n with
    | zero => rfl
    | succ n =>
      rw [skipSpaces, if_neg]
      · rfl
      · rw [h.1]; exact hb
  | cons c sp ih =>
    cases n with
    | zero => simp at hn
    | succ n =>
      rw [length_cons] at hn ⊢
      have hc : m a = space := h.1.trans (hsp c (mem_cons_self ..))
      rw [skipSpaces, if_pos hc, ih h.2 (fun c hc => hsp c (mem_cons_of_mem _ hc)) (by omega)]
      omega

theorem skipWord_of_has {x : List Byte} {b : Byte} (h : m.Has a (w ++ b :: x))
    (hw : ∀ c ∈ w, c ≠ space ∧ c ≠ 0) (hb : b = space ∨ b = 0) (hn : w.length < n) :
    skipWord m n a = a + w.length := by
  induction w generalizing a n with
  | nil =>
    cases n with
    | zero => rfl
    | succ n =>
      rw [skipWord, if_pos]
      · rfl
      · rw [h.1]; exact hb
  | cons c w ih =>
    cases n with
    | zero => simp at hn
    | succ n =>
      rw [length_cons] at hn ⊢
      have hc := hw c (mem_cons_self ..)
      have hne : ¬(m a = space ∨ m a = 0) := by
        rw [h.1]
        exact not_or.2 hc
      rw [skipWord, if_neg hne, ih h.2 (fun c hc => hw c (mem_cons_of_mem _ hc)) (by omega)]
      omega

theorem space_ne_zero : space ≠ 0 := by decide

theorem strtokR_blank (h : CString m a l) (hl : ∀ b ∈ l, b = space)
    (hlen : l.length < pgSize) : strtokR m a = none := by
  have htok := skipSpaces_of_has h hl space_ne_zero.symm hlen
  have hz : m (a + l.length) = 0 := (has_append.1 h).2.1
  simp only [strtokR, htok, hz, if_true]

section Token
variable {m : Mem} {a : Nat} {sp w : List Byte} (hsp : ∀ b ∈ sp, b = space) (hw : ∀ b ∈ w, b ≠ space ∧ b ≠ 0)
  (hne : w ≠ [])
include hsp hw hne

/-- The token that `strtok_r` finds, and where it ends. -/
theorem strtokR_word {b : Byte} {x : List Byte} (h : m.Has a (sp ++ (w ++ b :: x))) (hb : b = space ∨ b = 0)
    (hlen : sp.length + w.length < pgSize) :
    strtokR m a = if b = 0 then some (a + sp.length, m, a + sp.length + w.length)
      else some (a + sp.length, update m (a + sp.length + w.length) 0, a + sp.length + w.length + 1) := by
  obtain ⟨c, w', rfl⟩ := exists_cons_of_ne_nil hne
  have hc := hw c (mem_cons_self ..)
  have htok : skipSpaces m pgSize a = a + sp.length := skipSpaces_of_has h hsp hc.1 (by omega)
  have hrest := (has_append.1 h).2
  have hfirst : m (a + sp.length) ≠ 0 := by
    rw [hrest.1]
    exact hc.2
  have hstop : skipWord m pgSize (a + sp.length) = a + sp.length + (c :: w').length :=
    skipWord_of_has hrest hw hb (by omega)
  have hend : m (a + sp.length + (c :: w').length) = b := (has_append.1 hrest).2.1
  simp only [strtokR, htok, if_neg hfirst, hstop, hend]

/-- The last word. -/
theorem strtokR_last (h : CString m a (sp ++ w)) (hlen : sp.length + w.length < pgSize) :
    strtokR m a = some (a + sp.length, m, a + sp.length + w.length) ∧ CString m (a + sp.length) w ∧
      CString m (a + sp.length + w.length) [] := by
  unfold CString at h ⊢
  rw [append_assoc] at h
  have hrest := (has_append.1 h).2
  exact ⟨by rw [strtokR_word hsp hw hne h (.inr rfl) hlen, if_pos rfl], hrest, (has_append.1 hrest).2⟩

/-- A word that is followed by a space, which becomes a null byte. -/
theorem strtokR_next {l : List Byte} (h : CString m a (sp ++ (w ++ space :: l)))
    (hlen : sp.length + w.length < pgSize) :
    ∃ m', strtokR m a = some (a + sp.length, m', a + sp.length + w.length + 1) ∧
      m' = update m (a + sp.length + w.length) 0 ∧ CString m' (a + sp.length) w ∧
      CString m' (a + sp.length + w.length + 1) l := by
  unfold CString at h ⊢
  rw [append_assoc, append_assoc, cons_append] at h
  have hrest := (has_append.1 h).2
  obtain ⟨h1, -, h2⟩ := has_append.1 hrest
  refine ⟨_, ?_, rfl, has_append.2 ⟨?_, ?_, trivial⟩, ?_⟩
  · rw [strtokR_word hsp hw hne h (.inl rfl) hlen, if_neg space_ne_zero]
  · exact h1.congr fun o _ ho => update_of_ne (by omega) _ _
  · exact update_self ..
  · exact h2.congr fun o ho _ => update_of_ne (by omega) _ _

end Token

/-! ## The loop over the words -/

/-- The loop has put the words `ws` at `ps` and pushed pointers to them below
`ofs`, the last word first in memory. -/
structure ArgsPushed (upage ofs save hi : Nat) (ws : List (List Byte)) (m m' : Mem) (ps : List Nat) : Prop where
  laid : Laid m' hi save ps ws
  ptrs : m'.words (ofs - 4 * ws.length) ws.length = (ps.map fun a => (upage + a) % 2 ^ 32).reverse
  same : ∀ o, (ofs ≤ o ∧ o < save) ∨ hi ≤ o → m' o = m o

theorem pushArgs_blank (h : CString m save l)
    (hl : ∀ b ∈ l, b = space) (hlen : l.length < pgSize) (hn : 0 < n) :
    pushArgs upage n m ofs save argc = some (m, ofs, argc) := by
  obtain ⟨n, rfl⟩ := Nat.exists_eq_succ_of_ne_zero hn.ne'
  simp only [pushArgs, strtokR_blank h hl hlen]

theorem argsPushed_last (upage : Nat) {karg : Nat} (hofs : 4 ≤ ofs)
    (hle : ofs ≤ save) (hk : save ≤ karg) (hw : CString m karg w) :
    ArgsPushed upage ofs save (karg + w.length + 1) [w] m (putWord m (ofs - 4) (upage + karg)) [karg] where
  laid := ⟨hk, hw.congr fun o ho _ => putWord_of_outside (by omega), le_rfl⟩
  ptrs := by
    have := word_putWord m (ofs - 4) (upage + karg)
    simpa [Mem.words] using this
  same := fun o ho => putWord_of_outside (by omega)

theorem argsPushed_cons {karg : Nat} {m1 : Mem} (hofs : 4 * (ws.length + 1) ≤ ofs) (hle : ofs ≤ save)
    (hk : save ≤ karg) (hw : CString m1 karg w)
    (hm1 : ∀ o, o ≠ karg + w.length → m1 o = m o)
    (h : ArgsPushed upage (ofs - 4) (karg + w.length + 1) hi ws (putWord m1 (ofs - 4) (upage + karg)) m' ps) :
    ArgsPushed upage ofs save hi (w :: ws) m m' (karg :: ps) where
  laid := by
    refine ⟨hk, hw.congr fun o h1 h2 => ?_, h.laid⟩
    rw [length_append, length_singleton] at h2
    rw [h.same o (.inl (by omega)), putWord_of_outside (by omega)]
  ptrs := by
    have hofs' : ofs - 4 * (w :: ws).length = ofs - 4 - 4 * ws.length := by
      rw [length_cons]
      omega
    have hlast : m'.word (ofs - 4 - 4 * ws.length + 4 * ws.length) = (upage + karg) % 2 ^ 32 := by
      rw [Nat.sub_add_cancel (by omega), ← word_putWord m1 (ofs - 4) (upage + karg)]
      exact word_congr fun i hi => h.same _ (.inl (by omega))
    rw [hofs', length_cons, words_succ, h.ptrs, hlast, map_cons, reverse_cons]
  same := by
    intro o ho
    have hhi := h.laid.le
    rw [h.same o (by omega), putWord_of_outside (by omega), hm1 o (by omega)]

/-- **The loop over the words.** It fails when there is no room for a pointer. -/
theorem pushArgs_spec (upage : Nat) {n ofs save : Nat} (argc : Nat) {m : Mem} {l : List Byte}
    (h : CString m save l) (h0 : ∀ b ∈ l, b ≠ 0) (hlen : l.length < pgSize) (hle : ofs ≤ save) (hn : l.length < n) :
    (ofs < 4 * (words l).length → pushArgs upage n m ofs save argc = none) ∧
    (4 * (words l).length ≤ ofs → ∃ m' ps,
      pushArgs upage n m ofs save argc = some (m', ofs - 4 * (words l).length, argc + (words l).length) ∧
      ArgsPushed upage ofs save (save + l.length + 1) (words l) m m' ps) := by
  induction n generalizing ofs save argc m l with
  | zero => omega
  | succ n ih =>
    rcases exists_word l with ⟨hl, hwords⟩ | ⟨sp, w, hsp, hw, hne, hcase⟩
    · rw [hwords]
      refine ⟨fun h => by simp at h, fun _ => ⟨m, [], pushArgs_blank h hl hlen (Nat.succ_pos n), ?_⟩⟩
      exact ⟨by show save ≤ _; omega, rfl, fun _ _ => rfl⟩
    · have hwlen : 0 < w.length := length_pos_of_ne_nil hne
      rcases hcase with ⟨rfl, hwords⟩ | ⟨l', rfl, hwords⟩
      · -- the last word
        rw [length_append] at hlen hn
        have hw0 : ∀ b ∈ w, b ≠ space ∧ b ≠ 0 := fun b hb => ⟨hw b hb, h0 b (mem_append_right _ hb)⟩
        obtain ⟨htok, hword, hend⟩ := strtokR_last hsp hw0 hne h hlen
        rw [hwords, length_singleton]
        refine ⟨fun hlt => ?_, fun hge => ?_⟩
        · simp only [pushArgs, htok, push_word_none (show ofs < 4 by omega)]
        · have hroom : 4 ≤ ofs := by omega
          let m1 := putWord m (ofs - 4) (upage + (save + sp.length))
          have hpush := push_word (m := m) (x := upage + (save + sp.length)) hroom
          have hend' : CString m1 (save + sp.length + w.length) [] :=
            hend.congr fun o ho _ => putWord_of_outside (by omega)
          refine ⟨m1, [save + sp.length], ?_, ?_⟩
          · simp only [pushArgs, htok, hpush]
            exact pushArgs_blank hend' (by simp) (by decide) (by omega)
          · have hargs := argsPushed_last upage hroom hle (Nat.le_add_right save sp.length) hword
            rwa [length_append, ← Nat.add_assoc]
      · -- a word and what follows it
        have hlen' : (sp ++ (w ++ space :: l')).length = sp.length + w.length + 1 + l'.length := by
          simp only [length_append, length_cons]
          omega
        rw [hlen'] at hlen hn ⊢
        have hw0 : ∀ b ∈ w, b ≠ space ∧ b ≠ 0 := fun b hb =>
          ⟨hw b hb, h0 b (mem_append_right _ (mem_append_left _ hb))⟩
        have h0' : ∀ b ∈ l', b ≠ 0 := fun b hb =>
          h0 b (mem_append_right _ (mem_append_right _ (mem_cons_of_mem _ hb)))
        obtain ⟨m1, htok, hm1, hword, hrest⟩ := strtokR_next hsp hw0 hne h (by omega)
        rw [hwords, length_cons]
        by_cases hroom : ofs < 4
        · refine ⟨fun _ => ?_, fun hge => by omega⟩
          simp only [pushArgs, htok, push_word_none hroom]
        · have hpush := push_word (m := m1) (x := upage + (save + sp.length)) (Nat.not_lt.1 hroom)
          have hrest' : CString (putWord m1 (ofs - 4) (upage + (save + sp.length)))
              (save + sp.length + w.length + 1) l' :=
            hrest.congr fun o ho _ => putWord_of_outside (by omega)
          obtain ⟨ih1, ih2⟩ := @ih (ofs - 4) _ (argc + 1) _ _ hrest' h0' (by omega) (by omega) (by omega)
          refine ⟨fun hlt => ?_, fun hge => ?_⟩
          · simp only [pushArgs, htok, hpush]
            exact ih1 (by omega)
          · obtain ⟨m', ps, hrun, hargs⟩ := ih2 (by omega)
            refine ⟨m', (save + sp.length) :: ps, ?_, ?_⟩
            · simp only [pushArgs, htok, hpush, hrun]
              rw [show ofs - 4 - 4 * (words l').length = ofs - 4 * ((words l').length + 1) by omega,
                Nat.add_right_comm, Nat.add_assoc argc]
            · have hhi : save + sp.length + w.length + 1 + l'.length + 1 =
                  save + (sp.length + w.length + 1 + l'.length) + 1 := by omega
              rw [hhi] at hargs
              refine argsPushed_cons (by omega) hle (Nat.le_add_right ..) hword (fun o ho => ?_) hargs
              rw [hm1, update_of_ne ho]

/-! ## `init_cmd_line` -/

theorem pushFrame_none (h : ofs < 12) : pushFrame upage m ofs argc = none := by
  unfold pushFrame
  by_cases h1 : ofs < 4
  · simp [push_word_none h1]
  · by_cases h2 : ofs - 4 < 4
    · simp [push_word (Nat.not_lt.1 h1), push_word_none h2]
    · simp [push_word (Nat.not_lt.1 h1), push_word (Nat.not_lt.1 h2), push_word_none (show ofs - 4 - 4 < 4 by omega)]

/-- The page with the frame of `main` pushed at `ofs`. -/
def frameMem (upage : Nat) (m : Mem) (ofs argc : Nat) : Mem :=
  putWord (putWord (putWord m (ofs - 4) (upage + ofs)) (ofs - 8) argc) (ofs - 12) 0

theorem pushFrame_some (h : 12 ≤ ofs) :
    pushFrame upage m ofs argc = some (frameMem upage m ofs argc, ofs - 12) := by
  have h1 : 4 ≤ ofs := by omega
  have h2 : 4 ≤ ofs - 4 := by omega
  have h3 : 4 ≤ ofs - 4 - 4 := by omega
  simp only [pushFrame, push_word h1, push_word h2, push_word h3, Option.bind_eq_bind, Option.bind_some]
  rfl

theorem frameMem_of_le (h : ofs ≤ o) (hofs : 12 ≤ ofs) :
    frameMem upage m ofs argc o = m o := by
  unfold frameMem
  rw [putWord_of_outside (by omega), putWord_of_outside (by omega), putWord_of_outside (by omega)]

theorem word_putWord_of_disjoint {o' : Nat} (h : o' + 4 ≤ o ∨ o + 4 ≤ o') :
    Mem.word (putWord m o x) o' = m.word o' :=
  word_congr fun i hi => putWord_of_outside (by omega)

theorem frameMem_words (upage : Nat) (m : Mem) (argc : Nat) (hofs : 12 ≤ ofs) :
    (frameMem upage m ofs argc).word (ofs - 12) = 0 ∧ (frameMem upage m ofs argc).word (ofs - 8) = argc % 2 ^ 32 ∧
      (frameMem upage m ofs argc).word (ofs - 4) = (upage + ofs) % 2 ^ 32 := by
  unfold frameMem
  refine ⟨?_, ?_, ?_⟩
  · rw [word_putWord, Nat.zero_mod]
  · rw [word_putWord_of_disjoint (by omega), word_putWord]
  · rw [word_putWord_of_disjoint (by omega), word_putWord_of_disjoint (by omega), word_putWord]

/-- The program's view of its arguments `ws`: the frame of `main` is at `ofs`
in the page, the array of pointers at `argv` above it, and the strings at `ps`
above the array. -/
structure ArgsFound (m : Mem) (upage : Nat) (ws : List (List Byte)) (ofs argv : Nat) (ps : List Nat) : Prop where
  aligned : (upage + ofs) % 4 = 0
  inside : ofs < pgSize
  returnAddress : m.word ofs = 0
  argc : m.word (ofs + 4) = ws.length
  argvPtr : m.word (ofs + 8) = upage + argv
  ptrs : m.words argv ws.length = ps.map (upage + ·)
  null : m.word (argv + 4 * ws.length) = 0
  below : ofs + 12 ≤ argv
  laid : Laid m pgSize (argv + 4 * (ws.length + 1)) ps ws

theorem Laid.map_mod (h : Laid m hi lo ps ws)
    (hu : upage + hi ≤ 2 ^ 32) : (ps.map fun a => (upage + a) % 2 ^ 32) = ps.map (upage + ·) := by
  induction ps generalizing lo ws with
  | nil => rfl
  | cons a ps ih =>
    cases ws with
    | nil => cases h
    | cons w ws =>
      have := h.2.2.le
      rw [map_cons, map_cons, ih h.2.2, Nat.mod_eq_of_lt (by omega)]

theorem Laid.mono {lo' : Nat} (h : Laid m hi lo ps ws)
    (hl : lo' ≤ lo) : Laid m hi lo' ps ws := by
  cases ps <;> cases ws
  · exact le_trans hl h
  · cases h
  · cases h
  · exact ⟨le_trans hl h.1, h.2⟩

/-- After the loop, the pointers are reversed and the frame of `main` is pushed
below them. -/
theorem argsFound_frame {argv : Nat}
    (hu : pgOfs upage = 0) (hlt : upage < 2 ^ 32) (hofs : ofs % 4 = 0) (hpg : ofs + 4 ≤ pgSize) (hle : ofs + 4 ≤ save)
    (hargv : ofs = argv + 4 * ws.length) (hroom : 12 ≤ argv) (hz : m.word ofs = 0)
    (h : ArgsPushed upage ofs save pgSize ws m m' ps) :
    ArgsFound (frameMem upage (reverse ws.length argv m') argv ws.length) upage ws (argv - 12) argv ps := by
  obtain ⟨hw0, hw1, hw2⟩ := frameMem_words upage (reverse ws.length argv m') ws.length hroom
  have hptrs : m'.words argv ws.length = (ps.map fun a => (upage + a) % 2 ^ 32).reverse := by
    have := h.ptrs
    rwa [hargv, Nat.add_sub_cancel] at this
  have habove : ∀ o, argv + 4 * ws.length ≤ o →
      frameMem upage (reverse ws.length argv m') argv ws.length o = m' o := fun o ho => by
    rw [frameMem_of_le (by omega) hroom, reverse_of_outside (.inr ho)]
  have hupage : upage % 4096 = 0 := hu
  have hsize : pgSize = 4096 := rfl
  rw [hsize] at hpg
  constructor
  case aligned => omega
  case inside => omega
  case returnAddress => exact hw0
  case argc =>
    rw [show argv - 12 + 4 = argv - 8 by omega, hw1, Nat.mod_eq_of_lt (by omega)]
  case argvPtr =>
    rw [show argv - 12 + 8 = argv - 4 by omega, hw2, Nat.mod_eq_of_lt (by omega)]
  case ptrs =>
    rw [words_congr fun o ho _ => frameMem_of_le ho hroom, words_reverse, hptrs, reverse_reverse,
      h.laid.map_mod (by omega)]
  case null =>
    rw [← hargv, ← hz]
    refine word_congr fun i hi => ?_
    rw [habove _ (by omega), h.same _ (.inl (by omega))]
  case below => omega
  case laid =>
    exact (h.laid.congr fun o ho _ => habove o (by omega)).mono (by omega)

/-- The command line at the top of the page and a null pointer below it; `pad`
is the length of the line rounded up. -/
def copyMem (kpage : Mem) (cmdLine : List Byte) (pad : Nat) : Mem :=
  putWord (kpage.put (pgSize - (cmdLine.length + 1)) (cmdLine ++ [0])) (pgSize - pad - 4) 0

/-- The first two pushes. -/
theorem initCmdLine_copy (kpage : Mem) (upage : Nat) {pad : Nat} {cmdLine : List Byte}
    (hpad : pad = roundUp (cmdLine.length + 1) 4) (hle : cmdLine.length + 1 ≤ pad) :
    (pgSize < pad + 4 → initCmdLine kpage upage cmdLine = none) ∧
    (pad + 4 ≤ pgSize → initCmdLine kpage upage cmdLine =
      (pushArgs upage pgSize (copyMem kpage cmdLine pad) (pgSize - pad - 4) (pgSize - (cmdLine.length + 1)) 0).bind
        fun x => (pushFrame upage (reverse x.2.2 x.2.1 x.1) x.2.1 x.2.2).bind fun y => some (y.1, upage + y.2)) := by
  have hlen : (cmdLine ++ [(0 : Byte)]).length = cmdLine.length + 1 := by simp
  have hpush : pad ≤ pgSize → push kpage pgSize (cmdLine ++ [0]) =
      some ⟨kpage.put (pgSize - (cmdLine.length + 1)) (cmdLine ++ [0]), pgSize - pad,
        pgSize - (cmdLine.length + 1)⟩ := by
    intro h
    have hpos : pgSize - pad + (pad - (cmdLine.length + 1)) = pgSize - (cmdLine.length + 1) := by omega
    simp only [push, hlen, ← hpad, if_neg (Nat.not_lt.2 h), hpos]
  constructor
  · intro h
    by_cases hcopy : pgSize < pad
    · simp only [initCmdLine, push, hlen, ← hpad, if_pos hcopy, Option.bind_eq_bind, Option.bind_none]
    · simp only [initCmdLine, hpush (Nat.not_lt.1 hcopy), push_word_none (show pgSize - pad < 4 by omega),
        Option.bind_eq_bind, Option.bind_some, Option.bind_none]
  · intro h
    simp only [initCmdLine, hpush (show pad ≤ pgSize by omega), push_word (show 4 ≤ pgSize - pad by omega),
      Option.bind_eq_bind, Option.bind_some]
    rfl

/-- **Argument passing.** -/
theorem command_line_passed {upage : Nat} {cmdLine : List Byte} (kpage : Mem) (hu : pgOfs upage = 0)
    (hlt : upage < 2 ^ 32) (h0 : ∀ b ∈ cmdLine, b ≠ 0) :
    ((initCmdLine kpage upage cmdLine).isSome ↔
      roundUp (cmdLine.length + 1) 4 + 4 + 4 * (words cmdLine).length + 12 ≤ pgSize) ∧
    ∀ m esp, initCmdLine kpage upage cmdLine = some (m, esp) →
      ∃ ofs argv ps, esp = upage + ofs ∧ ArgsFound m upage (words cmdLine) ofs argv ps := by
  obtain ⟨pad, hpad⟩ : ∃ pad, pad = roundUp (cmdLine.length + 1) 4 := ⟨_, rfl⟩
  have hpad4 : pad % 4 = 0 ∧ cmdLine.length + 1 ≤ pad := by
    rw [hpad, roundUp]
    omega
  have hsize : pgSize = 4096 := rfl
  rw [← hpad]
  obtain ⟨hfail, hcopy⟩ := initCmdLine_copy kpage upage hpad hpad4.2
  by_cases hroom : pgSize < pad + 4
  · rw [hfail hroom]
    exact ⟨by simp; omega, fun m esp h => by cases h⟩
  · rw [hcopy (Nat.not_lt.1 hroom)]
    have hstr : CString (copyMem kpage cmdLine pad) (pgSize - (cmdLine.length + 1)) cmdLine :=
      (has_put kpage _ _).congr fun o ho _ => putWord_of_outside (by omega)
    have hz : (copyMem kpage cmdLine pad).word (pgSize - pad - 4) = 0 := (word_putWord ..).trans (Nat.zero_mod _)
    have hofs : pgSize - pad - 4 ≤ pgSize - (cmdLine.length + 1) := by omega
    have hlen : cmdLine.length < pgSize := by omega
    obtain ⟨hnone, hsome⟩ := pushArgs_spec upage 0 hstr h0 hlen hofs hlen
    by_cases hargs : pgSize - pad - 4 < 4 * (words cmdLine).length
    · rw [hnone hargs]
      exact ⟨by simp; omega, fun m esp h => by cases h⟩
    · obtain ⟨m', ps, hrun, hpushed⟩ := hsome (Nat.not_lt.1 hargs)
      obtain ⟨argv, hargv⟩ : ∃ argv, argv = pgSize - pad - 4 - 4 * (words cmdLine).length := ⟨_, rfl⟩
      rw [hrun, Option.bind_some, Nat.zero_add, ← hargv]
      by_cases hframe : argv < 12
      · simp only [pushFrame_none hframe, Option.bind_none]
        exact ⟨by simp; omega, fun m esp h => by cases h⟩
      · have h12 := Nat.not_lt.1 hframe
        simp only [pushFrame_some h12, Option.bind_some, Option.isSome_some, true_iff]
        refine ⟨by omega, fun m esp h => ?_⟩
        obtain ⟨rfl, rfl⟩ := Prod.mk.inj (Option.some.inj h)
        refine ⟨argv - 12, argv, ps, rfl, ?_⟩
        have hhi : pgSize - (cmdLine.length + 1) + cmdLine.length + 1 = pgSize := by omega
        rw [hhi] at hpushed
        exact argsFound_frame hu hlt (by omega) (by omega) (by omega) (by omega) h12 hz hpushed

/-- The line `"a b"`. -/
theorem command_line_passed_two : ∃ m esp, initCmdLine (fun _ => 0) 0xbffff000 [0x61, 0x20, 0x62] = some (m, esp) ∧
    ∃ ofs argv ps, esp = 0xbffff000 + ofs ∧ ArgsFound m 0xbffff000 [[0x61], [0x62]] ofs argv ps := by
  have hwords : words [0x61, 0x20, 0x62] = [[0x61], [0x62]] := rfl
  have hu : pgOfs 0xbffff000 = 0 := rfl
  have hz : ∀ b ∈ ([0x61, 0x20, 0x62] : List Byte), b ≠ 0 := by simp
  obtain ⟨h1, h2⟩ := command_line_passed (fun _ => 0) hu (by norm_num) hz
  rw [hwords] at h1 h2
  obtain ⟨⟨m, esp⟩, hm⟩ := Option.isSome_iff_exists.1 (h1.2 (by simp [roundUp, pgSize]))
  exact ⟨m, esp, hm, h2 m esp hm⟩

end Pintos.Vm
