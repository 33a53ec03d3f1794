import Pintos.Core.Sequential
import Pintos.L4Results.Machine

/-!
# Stack growth

`page_for_addr` (vm/page.c:39-62) for an address whose page is not in the
table. A `PUSHA` faults 32 bytes below the stack pointer, and the stack may
grow to `STACK_MAX` bytes, so a page should be added for every address from
`esp - 32` and from `PHYS_BASE - STACK_MAX` on. Both comparisons of the code
are strict.

* `ends_pageForAddr`: what the code does.
* `stack_growth_iff`: the rule is kept but at the two bounds.
-/
namespace Pintos.Vm

open Pintos.Core

variable {s : St} {t : Tid} {es : List PageId} {a p : Nat}

/-- A page should be added for `a`. -/
def StackAccess (s : St) (t : Tid) (a : Nat) : Prop :=
  physBase - stackMax ≤ a ∧ (s.procs t).userEsp - 32 ≤ a

/-- The state with the writable zero page `p` added for `a`. -/
def St.grow (s : St) (t : Tid) (es : List PageId) (a : Nat) (p : PageId) : St :=
  (s.setPage p (some ⟨pgRoundDown a, false, t, none, none, true, none, 0, 0⟩)).setTable t (some ⟨true, p :: es⟩)

/-- When `malloc` returns `p`, the page is added if it should be, and otherwise
the result is null and nothing changes; when `malloc` fails, nothing changes.
A page that is added lies at most `STACK_MAX` bytes below `PHYS_BASE`. -/
structure GrowsStack (s : St) (t : Tid) (es : List PageId) (a : Nat) (p : PageId) : Prop where
  added : StackAccess s t a →
    Ends (· = some p) False t (pageForAddr a) (fun r => r = .done (some p) (s.grow t es a p)) s
  refused : ¬StackAccess s t a → Ends (· = some p) False t (pageForAddr a) (fun r => r = .done none s) s
  full : Ends (· = none) False t (pageForAddr a) (fun r => r = .done none s) s
  limit : ∀ q s' x, Runs t (pageForAddr a) s (.done (some q) s') → s'.pages q = some x →
    physBase - x.addr ≤ stackMax

/-- The condition that the code tests. -/
def Grown (s : St) (t : Tid) (a : Nat) : Prop :=
  physBase - stackMax < a ∧ (s.procs t).userEsp - 32 < a

instance : Decidable (Grown s t a) := inferInstanceAs (Decidable (_ ∧ _))

theorem ends_pageForAddr {A : Option Nat → Prop} {B : Prop} {Q : Res sig (Option PageId) → Prop}
    (ht : s.tables t = some ⟨true, es⟩) (hn : s.findAddr es (pgRoundDown a) = none) (ha : a < physBase)
    (he : 32 ≤ (s.procs t).userEsp) (hw : (s.procs t).userEsp < 2 ^ 32)
    (hg : Grown s t a → Ends A B t (pageAllocate (pgRoundDown a) false) Q s)
    (hno : ¬Grown s t a → Q (.done none s)) : Ends A B t (pageForAddr a) Q s := by
  have hesp : u32 ((s.procs t).userEsp + 2 ^ 32 - 32) = (s.procs t).userEsp - 32 := by
    unfold u32
    omega
  unfold pageForAddr
  rw [if_pos ha]
  refine ends_det (fun _ => by rw [ht]) ?_
  rw [hn]
  by_cases h1 : physBase - stackMax < a
  · rw [if_pos h1]
    refine ends_det (fun _ => rfl) ?_
    rw [hesp]
    by_cases h2 : (s.procs t).userEsp - 32 < a
    · rw [if_pos h2]; exact hg ⟨h1, h2⟩
    · rw [if_neg h2]; exact ends_ret (hno fun h => h2 h.2)
  · rw [if_neg h1]; exact ends_ret (hno fun h => h1 h.1)

theorem ends_pageAllocate {A : Option Nat → Prop} {B : Prop} {Q : Res sig (Option PageId) → Prop}
    (ht : s.tables t = some ⟨true, es⟩) (hn : s.findAddr es (pgRoundDown a) = none)
    (h : ∀ q, A (some q) → (s.pages q = none → Q (.done (some q) (s.grow t es a q))) ∧ (s.pages q ≠ none → B))
    (hnone : A none → Q (.done none s)) : Ends A B t (pageAllocate (pgRoundDown a) false) Q s := by
  intro e hA
  cases e with
  | none => exact hnone hA
  | some q =>
    simp only [ht, pgRoundDown_idem, hn]
    cases hq : s.pages q with
    | none =>
      simp only [Option.isSome_none, Bool.false_eq_true, if_false, Page.fresh, pgRoundDown_idem]
      exact (h q hA).1 hq
    | some r => exact (h q hA).2 (by simp [hq])

/-- The code when `malloc` returns `p`. -/
theorem ends_pageForAddr_some (ht : s.tables t = some ⟨true, es⟩) (hn : s.findAddr es (pgRoundDown a) = none)
    (ha : a < physBase) (he : 32 ≤ (s.procs t).userEsp) (hw : (s.procs t).userEsp < 2 ^ 32)
    (hp : s.pages p = none) :
    Ends (· = some p) False t (pageForAddr a)
      (fun r => r = if Grown s t a then .done (some p) (s.grow t es a p) else .done none s) s := by
  refine ends_pageForAddr ht hn ha he hw (fun hg => ?_) fun hg => by rw [if_neg hg]
  rw [if_pos hg]
  refine ends_pageAllocate ht hn (fun q hq => ?_) (fun h => by cases h)
  obtain rfl : q = p := Option.some.inj hq
  exact ⟨fun _ => rfl, fun h => h hp⟩

/-- At one of the bounds no page is added. -/
theorem not_growsStack (ht : s.tables t = some ⟨true, es⟩) (hn : s.findAddr es (pgRoundDown a) = none)
    (ha : a < physBase) (he : 32 ≤ (s.procs t).userEsp) (hw : (s.procs t).userEsp < 2 ^ 32)
    (hp : s.pages p = none) (hs : StackAccess s t a)
    (hb : a = physBase - stackMax ∨ a = (s.procs t).userEsp - 32) : ¬GrowsStack s t es a p := by
  intro hG
  have hng : ¬Grown s t a := by
    rintro ⟨h1, h2⟩
    omega
  have hboth := (hG.added hs).and (ends_pageForAddr_some ht hn ha he hw hp)
  obtain ⟨r, -, h1, h2⟩ := hboth.can rfl
  rw [if_neg hng, h1] at h2
  cases h2

/-- **The stack grows by the rule exactly where no bound is hit.** -/
theorem stack_growth_iff (ht : s.tables t = some ⟨true, es⟩) (hn : s.findAddr es (pgRoundDown a) = none)
    (ha : a < physBase) (he : 32 ≤ (s.procs t).userEsp) (hw : (s.procs t).userEsp < 2 ^ 32)
    (hp : s.pages p = none) :
    GrowsStack s t es a p ↔
      ¬(StackAccess s t a ∧ (a = physBase - stackMax ∨ a = (s.procs t).userEsp - 32)) := by
  have hcode := ends_pageForAddr_some ht hn ha he hw hp
  have hrule : StackAccess s t a → ¬Grown s t a → a = physBase - stackMax ∨ a = (s.procs t).userEsp - 32 := by
    rintro ⟨h1, h2⟩ hg
    unfold Grown at hg
    omega
  constructor
  · rintro hG ⟨hs, hb⟩
    exact not_growsStack ht hn ha he hw hp hs hb hG
  · intro hb
    refine ⟨fun hs => ?_, fun hs => ?_, ?_, ?_⟩
    · have hg : Grown s t a := by
        by_contra hg
        exact hb ⟨hs, hrule hs hg⟩
      simpa only [if_pos hg] using hcode
    · have hg : ¬Grown s t a := by
        rintro ⟨h1, h2⟩
        exact hs ⟨by omega, by omega⟩
      simpa only [if_neg hg] using hcode
    · refine ends_pageForAddr ht hn ha he hw (fun hg => ?_) fun _ => rfl
      exact ends_pageAllocate ht hn (fun q hq => by cases hq) fun _ => rfl
    · intro q s' x hr hx
      have hlim : Ends (fun _ => True) True t (pageForAddr a)
          (fun r => ∀ q s', r = .done (some q) s' → Grown s t a ∧ s' = s.grow t es a q) s := by
        refine ends_pageForAddr ht hn ha he hw (fun hg => ?_) fun _ q s' h => by cases h
        refine ends_pageAllocate ht hn (fun q _ => ⟨fun _ q' s' h => ?_, fun _ => trivial⟩) fun _ q s' h => by cases h
        cases h
        exact ⟨hg, rfl⟩
      obtain ⟨⟨hg, -⟩, rfl⟩ := hlim.runs hr q s' rfl
      obtain rfl : _ = x := by simpa [St.grow] using hx
      dsimp only
      unfold pgRoundDown pgSize
      unfold physBase stackMax at *
      omega

/-- A process without pages whose saved stack pointer is `esp`. -/
def stackMachine (esp : Nat) : St :=
  { smallMachine 1 1 with tables := fun _ => some ⟨true, []⟩, procs := fun _ => { Proc.init with userEsp := esp } }

/-- A `PUSH` at the bottom of a page. -/
theorem stack_growth_push : GrowsStack (stackMachine 0xbffff000) 0 [] 0xbfffeffc 1 :=
  (stack_growth_iff rfl rfl (by decide) (by decide) (by decide) rfl).2 fun h =>
    absurd h.2 (by decide)

/-- A program stores at `0xbfffe000` while its stack pointer is 32 bytes above. -/
def pusha : List (Move kernel) := startSmall 0 ++ script 0 (.access 0xbfffe020 0xbfffe000 (some 7)) (fresh 100 2)

/-- A `PUSHA` that ends at the bottom of a page: the process faults exactly 32
bytes below its stack pointer, and is killed. -/
theorem pusha_kills_process : ∃ s c, Boot s ∧ kernel.Reachable (kernel.idle s .init) c ∧
    (∃ es p, c.st.tables 0 = some ⟨true, es⟩ ∧ c.st.findAddr es (pgRoundDown 0xbfffe000) = none ∧
      c.st.pages p = none ∧ (c.st.procs 0).userEsp = 0xbfffe020 ∧ StackAccess c.st 0 0xbfffe000 ∧
      ¬GrowsStack c.st 0 es 0xbfffe000 p) ∧
    ∃ c', kernel.Reachable c c' ∧ (c'.st.procs 0).status = .dead := by
  obtain ⟨c, hc, hchk⟩ := exists_reachable (smallMachine 1 1) pusha
    (fun c => ((c.st.tables 0).any fun h : PageTable =>
        h.buckets && (c.st.findAddr h.elems (pgRoundDown 0xbfffe000)).isNone) &&
      (c.st.pages 100).isNone && decide ((c.st.procs 0).userEsp = 0xbfffe020) &&
      (kernel.exec (fun _ _ _ _ => True) c (List.replicate 19 (.run 0 (some 7)))).any
        fun c' : Config kernel => decide ((c'.st.procs 0).status = .dead)) (by decide)
  simp only [Bool.and_eq_true, Option.any_eq_true, Option.isNone_iff_eq_none, decide_eq_true_eq] at hchk
  obtain ⟨⟨⟨⟨⟨b, es⟩, ht, hb, hn⟩, hp⟩, hesp⟩, c', hc', hdead⟩ := hchk
  dsimp only at hb hn
  subst hb
  have hs : StackAccess c.st 0 0xbfffe000 := by
    unfold StackAccess physBase stackMax
    omega
  have hng := not_growsStack ht hn (by unfold physBase; omega) (by omega) (by omega) hp hs (.inr (by omega))
  exact ⟨_, c, smallMachine_boot 1 1, hc, ⟨es, 100, ht, hn, hp, hesp, hs, hng⟩,
    c', System.reach_exec .init _ hc', hdead⟩

end Pintos.Vm
