import Mathlib

/-!
# Queues that list a set

`Lists l P`: the queue `l` holds exactly the elements with `P`, each once.
The rules follow the edits of a queue: at the end, at the front, and an
element taken out anywhere.
-/
namespace Pintos.Core

variable {τ : Type} {l : List τ} {P Q : τ → Prop} {t : τ}

def Lists (l : List τ) (P : τ → Prop) : Prop := l.Nodup ∧ ∀ t, t ∈ l ↔ P t

theorem lists_nil (h : ∀ t, ¬ P t) : Lists [] P := ⟨.nil, fun t => by simp [h t]⟩

theorem Lists.mem (h : Lists l P) : t ∈ l ↔ P t := h.2 t

theorem Lists.congr (h : Lists l P) (hQ : ∀ u, Q u ↔ P u) : Lists l Q := ⟨h.1, fun u => (h.2 u).trans (hQ u).symm⟩

theorem Lists.push (h : Lists l P) (ht : ¬ P t) (hQ : ∀ u, Q u ↔ P u ∨ u = t) : Lists (l ++ [t]) Q := by
  have hnot : t ∉ l := fun hm => ht (h.mem.mp hm)
  refine ⟨List.nodup_append.mpr ⟨h.1, List.nodup_singleton t, ?_⟩, fun u => ?_⟩
  · rintro a ha b hb rfl
    rw [List.mem_singleton] at hb
    exact hnot (hb ▸ ha)
  · rw [List.mem_append, List.mem_singleton, h.mem, hQ]

theorem Lists.cons (h : Lists l P) (ht : ¬ P t) (hQ : ∀ u, Q u ↔ P u ∨ u = t) : Lists (t :: l) Q := by
  refine ⟨List.nodup_cons.mpr ⟨fun hm => ht (h.mem.mp hm), h.1⟩, fun u => ?_⟩
  rw [List.mem_cons, h.mem, hQ, or_comm]

theorem Lists.pop (h : Lists (t :: l) P) (hQ : ∀ u, Q u ↔ P u ∧ u ≠ t) : Lists l Q := by
  obtain ⟨hnot, hnd⟩ := List.nodup_cons.mp h.1
  refine ⟨hnd, fun u => ?_⟩
  rw [hQ, ← h.mem, List.mem_cons]
  constructor
  · exact fun hu => ⟨.inr hu, fun he => hnot (he ▸ hu)⟩
  · rintro ⟨rfl | hu, hne⟩
    · exact absurd rfl hne
    · exact hu

theorem Lists.erase [DecidableEq τ] (h : Lists l P) (hQ : ∀ u, Q u ↔ P u ∧ u ≠ t) : Lists (l.erase t) Q := by
  refine ⟨h.1.erase t, fun u => ?_⟩
  rw [hQ, ← h.mem, h.1.mem_erase_iff, and_comm]

end Pintos.Core
