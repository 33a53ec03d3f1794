import Pintos.L3Proof.Local
import Pintos.L3Proof.StepTable
import Pintos.L3Proof.StepFile

/-!
# Rules for the atomic actions

Each rule turns a step lemma into a triple: from the precondition it asks for
the condition of the step and for the postcondition in the state after it.
-/
namespace Pintos.Vm

open Pintos.Core Logic

variable {G : Goals} {t : Tid} {f : FrameId} {p : PageId} {α β : Type} {P : W → Prop}

/-- The precondition is usually a conjunction of stable facts. -/
abbrev Tri (G : Goals) (t : Tid) (P : W → Prop) (c : K α) (Q : α → W → Prop) : Prop :=
  (logic G).Triple t P c Q

variable {Q : α → W → Prop} {l : Lock}

/-- A consequence of the precondition may be used as a hypothesis. -/
theorem tri_fact {φ : Prop} {k : K α} (h : ∀ w, Inv G w → P w → φ)
    (hk : φ → Tri G t P k Q) : Tri G t P k Q :=
  fun w hi hw => hk (h w hi hw) w hi hw

theorem tri_rd {g : Tid → St → α} (hQ : ∀ a, (logic G).Stable t (Q a))
    (h : ∀ w, Inv G w → P w → Q (g t w.st) w) : Tri G t P (rd g) Q :=
  triple_act rfl hQ fun w hi hw _ _ => stays hi (h w hi hw)

/-- A branch that does not return. -/
theorem tri_fail {x : Panic}
    (h : ∀ w, Inv G w → P w → x ≠ .ptePresent ∧ x ≠ .freed ∧ (G.data → x ≠ .nullFile)) :
    Tri G t P (fail x) Q :=
  fun w hi hw => ⟨trivial, fun _ _ => h w hi hw⟩

theorem tol_assertion : Panic.assertion ≠ .ptePresent ∧ Panic.assertion ≠ .freed ∧
    (G.data → Panic.assertion ≠ .nullFile) := by simp

theorem tol_kernelFault : Panic.kernelFault ≠ .ptePresent ∧ Panic.kernelFault ≠ .freed ∧
    (G.data → Panic.kernelFault ≠ .nullFile) := by simp

theorem tri_assert {b : Bool} : Tri G t P (assert b) fun _ w => b = true ∧ P w := by
  unfold assert
  split
  · rename_i hb
    exact triple_ret fun w _ hw => ⟨hb, hw⟩
  · exact tri_fail fun _ _ _ => tol_assertion

theorem tri_doIf {b : Bool} {c : K Unit} {Q : Unit → W → Prop} (h1 : b = true → Tri G t P c Q)
    (h2 : b = false → ∀ w, Inv G w → P w → Q () w) : Tri G t P (doIf b c) Q := by
  unfold doIf
  split
  · exact h1 ‹_›
  · rename_i hb
    exact triple_ret (h2 (by simpa using hb))

theorem tri_ite {b : Prop} [Decidable b] {c d : K α} (h1 : b → Tri G t P c Q)
    (h2 : ¬b → Tri G t P d Q) : Tri G t P (if b then c else d) Q := by
  split
  · exact h1 ‹_›
  · exact h2 ‹_›

/-! ## Locks -/

theorem tri_lockAcquire {Q : Unit → W → Prop} (hQ : (logic G).Stable t (Q ()))
    (h : ∀ w, Inv G w → P w → w.st.locks l = none → Q () ⟨w.st.setLock l (some t), w.aux⟩) :
    Tri G t P (lockAcquire l) Q := by
  refine triple_act rfl (fun _ => hQ) fun w hi hw e _ => ?_
  dsimp only
  cases hl : w.st.locks l with
  | none =>
    have hs := step_acquire (u := t) hi hl
    exact ⟨hs.inv, hs.keep, h w hi hw hl⟩
  | some u =>
    by_cases hu : u = t
    · simp only [hu, if_true]; exact tol_assertion
    · simp only [hu, if_false]

theorem tri_lockTryAcquire {Q : Bool → W → Prop} (hQ : ∀ b, (logic G).Stable t (Q b))
    (h1 : ∀ w, Inv G w → P w → w.st.locks l = none → Q true ⟨w.st.setLock l (some t), w.aux⟩)
    (h2 : ∀ w, Inv G w → P w → Q false w) : Tri G t P (lockTryAcquire l) Q := by
  refine triple_act rfl hQ fun w hi hw e _ => ?_
  dsimp only
  cases hl : w.st.locks l with
  | none =>
    have hs := step_acquire (u := t) hi hl
    exact ⟨hs.inv, hs.keep, h1 w hi hw hl⟩
  | some u =>
    by_cases hu : u = t
    · simp only [hu, if_true]; exact tol_assertion
    · simp only [hu, if_false]; exact stays hi (h2 w hi hw)

theorem tri_lockRelease {Q : Unit → W → Prop} (hQ : (logic G).Stable t (Q ()))
    (h : ∀ w, Inv G w → P w → w.st.locks l = some t →
      (∀ f, l = .frame f → Releasable G f w) ∧ Q () ⟨w.st.setLock l none, w.aux⟩) :
    Tri G t P (lockRelease l) Q := by
  refine triple_act rfl (fun _ => hQ) fun w hi hw e _ => ?_
  dsimp only
  by_cases hl : w.st.locks l = some t
  · obtain ⟨h1, h2⟩ := h w hi hw hl
    have hs := step_release hi hl h1
    simp only [hl, if_true]
    exact ⟨hs.inv, hs.keep, h2⟩
  · simp only [hl, if_false]
    exact tol_assertion

theorem tri_assertHeld (hP : (logic G).Stable t P) :
    Tri G t P (assertHeld l) fun _ => P := by
  refine triple_act rfl (fun _ => hP) fun w hi hw e _ => ?_
  dsimp only
  by_cases hl : w.st.locks l = some t
  · simp only [hl, if_true]
    exact stays hi hw
  · simp only [hl, if_false]
    exact tol_assertion

/-! ## Pages and frames -/

theorem tri_readPage {Q : Page → W → Prop} (hQ : ∀ r, (logic G).Stable t (Q r))
    (h : ∀ w, Inv G w → P w → ∃ r, w.st.pages p = some r ∧ Q r w) : Tri G t P (readPage p) Q := by
  refine triple_act rfl hQ fun w hi hw e _ => ?_
  obtain ⟨r, h1, h2⟩ := h w hi hw
  simp only [h1]
  exact stays hi h2

/-- Reads a page whose members are known. -/
theorem tri_readThen {r : Page} {k : Page → K α} (hP : (logic G).Stable t P)
    (h : ∀ w, Inv G w → P w → w.st.pages p = some r) (hk : Tri G t P (k r) Q) :
    Tri G t P (readPage p >>= k) Q := by
  refine triple_bind (R := fun r0 w => r0 = r ∧ P w) (tri_readPage (fun _ => .and (.const _) hP) ?_)
    fun r0 => triple_pure ?_
  · exact fun w hi hw => ⟨r, h w hi hw, rfl, hw⟩
  · rintro rfl; exact hk

theorem tri_assertHeldThen {k : Unit → K α} (hP : (logic G).Stable t P)
    (hk : Tri G t P (k ()) Q) : Tri G t P (assertHeld l >>= k) Q :=
  triple_bind (tri_assertHeld hP) fun _ => hk

/-- A member of a page changes; `a'` is the auxiliary state after it. -/
theorem tri_modPage {l : Lbl} {g : Page → Page} {Q : Unit → W → Prop} (a' : W → Aux)
    (ha : ∀ w e s', auxStep t l e w.st s' w.aux = a' w) (hQ : (logic G).Stable t (Q ()))
    (hl : ∀ w, Inv G w → P w → Restored l w)
    (h : ∀ w, Inv G w → P w → ∃ r x, w.st.pages p = some r ∧
      Step G t x w ⟨w.st.setPage p (some (g r)), a' w⟩ ∧ Q () ⟨w.st.setPage p (some (g r)), a' w⟩) :
    Tri G t P (modPage l p g) Q := by
  refine triple_prim (fun _ => hQ) fun w hi hw => ⟨hl w hi hw, fun e _ => ?_⟩
  obtain ⟨r, x, h1, h2, h3⟩ := h w hi hw
  simp only [h1, Logic.next, ha]
  exact ⟨h2.inv, h2.keep, h3⟩

theorem tri_setFramePage {l : Lbl} {q : Option PageId} {Q : Unit → W → Prop} (a' : W → Aux)
    (ha : ∀ w e s', Inv G w → P w → auxStep t l e w.st s' w.aux = a' w)
    (hQ : (logic G).Stable t (Q ())) (hl : ∀ w, Restored l w)
    (h : ∀ w, Inv G w → P w → ∃ x, Step G t x w ⟨w.st.setFrame f q, a' w⟩ ∧
      Q () ⟨w.st.setFrame f q, a' w⟩) :
    Tri G t P (setFramePage l f q) Q := by
  refine triple_prim (fun _ => hQ) fun w hi hw => ⟨hl w, fun e _ => ?_⟩
  obtain ⟨x, h2, h3⟩ := h w hi hw
  simp only [Logic.next, ha w e _ hi hw]
  exact ⟨h2.inv, h2.keep, h3⟩

/-- The kernel writes to the locked frame of a page that is not mapped. -/
theorem tri_modRam {g : (Nat → Byte) → Nat → Byte} {Q : Unit → W → Prop} (hQ : (logic G).Stable t (Q ()))
    (h : ∀ w, Inv G w → P w → (∃ r, Held t f p r w ∧ Off r w) ∧
      Q () ⟨w.st.setRam f (g (w.st.ram f)), w.aux⟩) : Tri G t P (modRam f g) Q := by
  refine triple_act rfl (fun _ => hQ) fun w hi hw e _ => ?_
  obtain ⟨⟨r, h1, h2⟩, h3⟩ := h w hi hw
  have hs := step_setRam hi h1 h2 (g (w.st.ram f))
  exact ⟨hs.inv, hs.keep, h3⟩

end Pintos.Vm
