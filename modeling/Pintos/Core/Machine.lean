import Mathlib

/-!
# State machines

A machine has initial states and actions that each lead to at most one next
state. `Reach C` are the states of the runs whose actions all meet `C` in the
state before them. `exec` runs a machine on a list of actions, `execIf` as
long as they meet a condition.
-/
namespace Pintos.Core

structure Machine (σ α : Type) where
  init : σ → Prop
  step : σ → α → Option σ

namespace Machine

variable {σ α : Type} {M : Machine σ α} {C : σ → α → Prop}

inductive Reach (M : Machine σ α) (C : σ → α → Prop) : σ → Prop
  | init {s : σ} (h : M.init s) : Reach M C s
  | step {s s' : σ} (a : α) (h : Reach M C s) (hc : C s a) (hs : M.step s a = some s') : Reach M C s'

/-- Every action may be taken. -/
abbrev Reachable (M : Machine σ α) (s : σ) : Prop := M.Reach (fun _ _ => True) s

/-- What holds at the start and is kept by every action holds in every run. -/
theorem Reach.invariant {I : σ → Prop} {s : σ} (h : M.Reach C s) (hi : ∀ s, M.init s → I s)
    (hs : ∀ s a s', I s → C s a → M.step s a = some s' → I s') : I s := by
  induction h with
  | init h => exact hi _ h
  | step a _ hc hs' ih => exact hs _ a _ ih hc hs'

def exec (M : Machine σ α) : σ → List α → Option σ
  | s, [] => some s
  | s, a :: as => (M.step s a).bind fun s' => M.exec s' as

theorem reach_exec {s s' : σ} {as : List α} (hC : ∀ s a, C s a) (h : M.Reach C s) (he : M.exec s as = some s') :
    M.Reach C s' := by
  induction as generalizing s with
  | nil =>
    cases he
    exact h
  | cons a as ih =>
    obtain ⟨s₁, h₁, he⟩ := Option.bind_eq_some_iff.mp he
    exact ih (.step a h (hC s a) h₁) he

/-- Runs the actions as long as they meet `c`. -/
def execIf (M : Machine σ α) (c : σ → α → Bool) : σ → List α → Option σ
  | s, [] => some s
  | s, a :: as => if c s a then (M.step s a).bind fun s' => M.execIf c s' as else none

theorem reach_execIf {c : σ → α → Bool} {s s' : σ} {as : List α} (hC : ∀ s a, c s a = true → C s a)
    (h : M.Reach C s) (he : M.execIf c s as = some s') : M.Reach C s' := by
  induction as generalizing s with
  | nil =>
    cases he
    exact h
  | cons a as ih =>
    unfold execIf at he
    split at he
    next hc =>
      obtain ⟨s₁, h₁, he⟩ := Option.bind_eq_some_iff.mp he
      exact ih (.step a h (hC s a hc) h₁) he
    next => cases he

end Machine

end Pintos.Core
