import Mathlib

/-!
# Sequential code that may stop with an error

A function of a state that returns a value and the next state, or an error.
`Ok c s Q` says that `c` returns from `s` and that the result satisfies `Q`;
its rules run code on a symbolic state, one rule for each construct.
-/
namespace Pintos.Core

/-- Code over states `σ` with errors `ε`. -/
def Code (σ ε α : Type) : Type := σ → Except ε (α × σ)

variable {σ ε α β : Type}

instance : Monad (Code σ ε) where
  pure a := fun s => .ok (a, s)
  bind c d := fun s =>
    match c s with
    | .ok (a, s') => d a s'
    | .error e => .error e

namespace Code

def fail (e : ε) : Code σ ε α := fun _ => .error e

def get : Code σ ε σ := fun s => .ok (s, s)

def modify (f : σ → σ) : Code σ ε Unit := fun s => .ok ((), f s)

/-- Code over a part of the state, with errors of its own. -/
def zoom {ρ δ : Type} (get : σ → ρ) (set : σ → ρ → σ) (err : δ → ε) (c : Code ρ δ α) : Code σ ε α := fun s =>
  match c (get s) with
  | .ok (a, r) => .ok (a, set s r)
  | .error e => .error (err e)

end Code

/-- `c` returns from `s`, and the result satisfies `Q`. -/
def Ok (c : Code σ ε α) (s : σ) (Q : α → σ → Prop) : Prop := ∃ a s', c s = .ok (a, s') ∧ Q a s'

variable {c : Code σ ε α} {s s' : σ} {Q R : α → σ → Prop}

theorem Ok.mono (h : Ok c s Q) (hQ : ∀ a s', Q a s' → R a s') : Ok c s R := by
  obtain ⟨a, s', he, hq⟩ := h
  exact ⟨a, s', he, hQ a s' hq⟩

variable {a : α}

/-- What holds of every result holds of a given one. -/
theorem Ok.post (h : Ok c s Q) (he : c s = .ok (a, s')) : Q a s' := by
  obtain ⟨b, u, hb, hq⟩ := h
  rw [he] at hb
  cases hb
  exact hq

@[simp] theorem ok_pure (a : α) : Ok (pure a : Code σ ε α) s Q ↔ Q a s := by
  constructor
  · rintro ⟨b, u, he, hq⟩
    cases he
    exact hq
  · exact fun h => ⟨a, s, rfl, h⟩

variable {d : α → Code σ ε β}

@[simp] theorem ok_bind {Q : β → σ → Prop} :
    Ok (c >>= d) s Q ↔ Ok c s fun a s' => Ok (d a) s' Q := by
  constructor
  · rintro ⟨b, u, he, hq⟩
    change (match c s with | .ok (a, s') => d a s' | .error e => .error e) = _ at he
    cases hc : c s with
    | error e => rw [hc] at he; cases he
    | ok r =>
      rw [hc] at he
      exact ⟨r.1, r.2, hc, b, u, he, hq⟩
  · rintro ⟨a, u, hc, b, v, hd, hq⟩
    refine ⟨b, v, ?_, hq⟩
    change (match c s with | .ok (a, s') => d a s' | .error e => .error e) = _
    rw [hc]
    exact hd

@[simp] theorem ok_get {Q : σ → σ → Prop} : Ok (Code.get : Code σ ε σ) s Q ↔ Q s s := by
  constructor
  · rintro ⟨b, u, he, hq⟩
    cases he
    exact hq
  · exact fun h => ⟨s, s, rfl, h⟩

@[simp] theorem ok_modify (f : σ → σ) {Q : Unit → σ → Prop} :
    Ok (Code.modify f : Code σ ε Unit) s Q ↔ Q () (f s) := by
  constructor
  · rintro ⟨b, u, he, hq⟩
    cases he
    exact hq
  · exact fun h => ⟨(), f s, rfl, h⟩

theorem ok_zoom {ρ δ : Type} {get : σ → ρ} {set : σ → ρ → σ} {err : δ → ε} {c : Code ρ δ α} :
    Ok (Code.zoom get set err c) s Q ↔ Ok c (get s) fun a r => Q a (set s r) := by
  have hrun : Code.zoom get set err c s =
      match c (get s) with | .ok (a, r) => .ok (a, set s r) | .error e => .error (err e) := rfl
  constructor
  · rintro ⟨a, u, he, hq⟩
    rw [hrun] at he
    cases hc : c (get s) with
    | error e => rw [hc] at he; cases he
    | ok r =>
      rw [hc] at he
      cases he
      exact ⟨r.1, r.2, hc, hq⟩
  · rintro ⟨a, r, hc, hq⟩
    exact ⟨a, set s r, by rw [hrun, hc], hq⟩

/-! ## Code that may stop with an error -/

theorem bind_of_ok (h : c s = .ok (a, s')) : (c >>= d) s = d a s' := by
  have hbind : (c >>= d) s = match c s with | .ok (a, s') => d a s' | .error e => .error e := rfl
  rw [hbind, h]

theorem map_eq_ok (h : c s = .ok (a, s')) (f : α → β) :
    (do let a ← c; pure (f a) : Code σ ε β) s = .ok (f a, s') := by
  change (match c s with | .ok (a, s') => _ | .error e => _) = _
  rw [h]
  rfl

/-- `c` returns from `s` with `Q`, or stops with an error in `E`. -/
def Exits (c : Code σ ε α) (s : σ) (Q : α → σ → Prop) (E : ε → Prop) : Prop :=
  Ok c s Q ∨ ∃ e, c s = .error e ∧ E e

/-! ## Tests -/

/-- `c` returns from `s` a result that passes a test. -/
def check (c : Code σ ε α) (s : σ) (P : α → σ → Bool) : Bool :=
  match c s with
  | .ok r => P r.1 r.2
  | .error _ => false

theorem ok_of_check {P : α → σ → Bool} (h : check c s P = true) : Ok c s fun a s' => P a s' = true := by
  unfold check at h
  cases hc : c s with
  | ok r =>
    rw [hc] at h
    exact ⟨r.1, r.2, hc, h⟩
  | error e =>
    rw [hc] at h
    cases h

/-! ## Rules for code that may stop -/

variable {E F : ε → Prop}

theorem Ok.exits (h : Ok c s Q) : Exits c s Q E := .inl h

theorem Exits.mono (h : Exits c s Q E) (hQ : ∀ a s', Q a s' → R a s') (hE : ∀ e, E e → F e) : Exits c s R F := by
  rcases h with h | ⟨e, he, hE'⟩
  · exact .inl (h.mono hQ)
  · exact .inr ⟨e, he, hE e hE'⟩

/-- Code that stops with no error returns. -/
theorem Exits.ok (h : Exits c s Q E) (hE : ∀ e, ¬ E e) : Ok c s Q := by
  rcases h with h | ⟨e, -, he⟩
  · exact h
  · exact absurd he (hE e)

theorem Exits.post (h : Exits c s Q E) (he : c s = .ok (a, s')) : Q a s' := by
  rcases h with h | ⟨e, he', -⟩
  · exact h.post he
  · rw [he] at he'
    cases he'

theorem exits_fail {e : ε} (h : E e) : Exits (Code.fail e : Code σ ε α) s Q E := .inr ⟨e, rfl, h⟩

theorem exits_pure (h : Q a s) : Exits (pure a : Code σ ε α) s Q E := .inl ((ok_pure a).mpr h)

theorem exits_bind {Q : β → σ → Prop} (h : Exits c s (fun a s' => Exits (d a) s' Q E) E) :
    Exits (c >>= d) s Q E := by
  have hbind : (c >>= d) s = match c s with | .ok (a, s') => d a s' | .error e => .error e := rfl
  rcases h with ⟨a, s', hc, h | ⟨e, hd, hE⟩⟩ | ⟨e, hc, hE⟩
  · exact .inl (ok_bind.mpr ⟨a, s', hc, h⟩)
  · exact .inr ⟨e, by rw [hbind, hc]; exact hd, hE⟩
  · exact .inr ⟨e, by rw [hbind, hc], hE⟩

theorem exits_map {f : α → β} {Q : β → σ → Prop} (h : Exits c s (fun a => Q (f a)) E) :
    Exits (do let a ← c; pure (f a) : Code σ ε β) s Q E :=
  exits_bind (h.mono (fun _ _ => exits_pure) fun _ => id)

end Pintos.Core
