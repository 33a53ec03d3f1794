import Mathlib

/-!
# Order of events in a trace

A trace is a list of events that grows at its end. `Precedes f g tr` says that
each event `g i` comes after an event `f i`; `Precedes.snoc` is its step rule.
-/
namespace Pintos.Core

variable {ι ε : Type} {f g : ι → ε} {tr : List ε} {e : ε}

/-- Every `g i` of the trace stands behind an `f i`. -/
def Precedes (f g : ι → ε) (tr : List ε) : Prop := ∀ i before after, tr = before ++ g i :: after → f i ∈ before

theorem precedes_nil : Precedes f g [] := by
  intro i before after h
  simp at h

theorem Precedes.snoc (h : Precedes f g tr) (he : ∀ i, e = g i → f i ∈ tr) : Precedes f g (tr ++ [e]) := by
  intro i before after heq
  rcases List.eq_nil_or_concat after with rfl | ⟨after', x, rfl⟩
  · -- the new event itself
    obtain ⟨rfl, hlast⟩ := List.append_inj' heq rfl
    exact he i (List.singleton_inj.mp hlast)
  · have hsplit : tr ++ [e] = (before ++ g i :: after') ++ [x] := by simpa using heq
    exact h i before after' (List.append_inj' hsplit rfl).1

end Pintos.Core
