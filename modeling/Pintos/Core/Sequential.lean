import Pintos.Core.Prog

/-!
# One thread alone

Rules for `Runs`. `Ends A B t c Q s` is the weakest precondition of a program
that runs alone: every run whose choices of the environment satisfy `A` ends
in `Q`, where `B` says whether an action may block.

* `Ends.runs`: with no condition on the choices, every run ends in `Q`.
* `Can`: some run ends in `Q`. `Ends.can`: when no action blocks, there is a run
  with the given choices.
* `run`: the run with a given list of choices; `exists_of_runIs` makes an evaluated
  run a `Runs`.
-/
namespace Pintos.Core

variable {S : Sig} {α β : Type}

def Ends (A : S.Env → Prop) (B : Prop) (t : S.Tid) : Prog S α → (Res S α → Prop) → S.St → Prop
  | .ret a, Q, s => Q (.done a s)
  | .act _ f k, Q, s => ∀ e, A e →
    match f t e s with
    | .ok b s' => Ends A B t (k b) Q s'
    | .block => B
    | .panic p => Q (.panic p)

/-- What is left to show after the first part of a sequence. -/
def andThen (A : S.Env → Prop) (B : Prop) (t : S.Tid) (d : α → Prog S β) (Q : Res S β → Prop) :
    Res S α → Prop
  | .done a s => Ends A B t (d a) Q s
  | .panic p => Q (.panic p)

section Ends
variable {A : S.Env → Prop} {B : Prop} {t : S.Tid} {s : S.St}

variable {Q : Res S α → Prop} {c : Prog S α} {d : α → Prog S β} {l : S.Lbl}

theorem ends_ret {a : α} (h : Q (.done a s)) : Ends A B t (.ret a) Q s := h

theorem Ends.mono {Q' : Res S α → Prop} (h : Ends A B t c Q s) (hQ : ∀ r, Q r → Q' r) :
    Ends A B t c Q' s := by
  induction c generalizing s with
  | ret a => exact hQ _ h
  | act l f k ih =>
    intro e he
    have := h e he
    cases hf : f t e s with
    | ok b s' => simp only [hf] at this ⊢; exact ih b this
    | block => simp only [hf] at this ⊢; exact this
    | panic p => simp only [hf] at this ⊢; exact hQ _ this

theorem Ends.and {Q' : Res S α → Prop} (h : Ends A B t c Q s) (h' : Ends A B t c Q' s) :
    Ends A B t c (fun r => Q r ∧ Q' r) s := by
  induction c generalizing s with
  | ret a => exact ⟨h, h'⟩
  | act l f k ih =>
    intro e he
    have h1 := h e he
    have h2 := h' e he
    cases hf : f t e s with
    | ok b s' => simp only [hf] at h1 h2 ⊢; exact ih b h1 h2
    | block => simp only [hf] at h1 ⊢; exact h1
    | panic p => simp only [hf] at h1 h2 ⊢; exact ⟨h1, h2⟩

theorem ends_bind {Q : Res S β → Prop}
    (h : Ends A B t c (andThen A B t d Q) s) : Ends A B t (c >>= d) Q s := by
  induction c generalizing s with
  | ret a => exact h
  | act l f k ih =>
    intro e he
    have := h e he
    cases hf : f t e s with
    | ok b s' => simp only [hf] at this ⊢; exact ih b this
    | block => simp only [hf] at this ⊢; exact this
    | panic p => simp only [hf] at this ⊢; exact this

/-- An action whose result does not depend on the environment. -/
theorem ends_prim {f : S.Tid → S.Env → S.St → Out S β} {b : β} {u : S.St}
    (hf : ∀ e, A e → f t e s = .ok b u) {Q : Res S β → Prop} (h : Q (.done b u)) :
    Ends A B t (.prim l f) Q s := by
  intro e he
  simp only [hf e he]
  exact h

/-- The first action of a sequence. -/
theorem ends_step {f : S.Tid → S.Env → S.St → Out S α} {Q : Res S β → Prop}
    (h : ∀ e, A e → match f t e s with
      | .ok b s' => Ends A B t (d b) Q s'
      | .block => B
      | .panic p => Q (.panic p)) : Ends A B t (.prim l f >>= d) Q s := h

/-- The first action of a sequence, when the environment does not matter. -/
theorem ends_det {f : S.Tid → S.Env → S.St → Out S α} {Q : Res S β → Prop}
    {b : α} {u : S.St} (hf : ∀ e, f t e s = .ok b u) (h : Ends A B t (d b) Q u) :
    Ends A B t (.prim l f >>= d) Q s := by
  refine ends_step fun e _ => ?_
  simp only [hf e]
  exact h

theorem Ends.runs (h : Ends (fun _ => True) B t c Q s) {r : Res S α}
    (hr : Runs t c s r) : Q r := by
  induction hr with
  | ret a s => exact h
  | act e hf _ ih =>
    have := h e trivial
    simp only [hf] at this
    exact ih this
  | panic e hf =>
    have := h e trivial
    simpa only [hf] using this

/-- A postcondition that excludes nothing. -/
theorem ends_any (h : ∀ r, Q r) : Ends A True t c Q s := by
  induction c generalizing s with
  | ret a => exact h _
  | act l f k ih =>
    intro e _
    cases f t e s with
    | ok b s' => exact ih b
    | block => trivial
    | panic p => exact h _

end Ends

/-! ## Some run -/

/-- Some run of `c` from `s` ends in `Q`. -/
def Can (t : S.Tid) (c : Prog S α) (Q : Res S α → Prop) (s : S.St) : Prop := ∃ r, Runs t c s r ∧ Q r

section Can
variable {t : S.Tid} {s s' : S.St}

variable {Q : Res S α → Prop} {c : Prog S α}

theorem can_ret {a : α} (h : Q (.done a s)) : Can t (.ret a) Q s := ⟨_, .ret a s, h⟩

theorem Can.mono {Q' : Res S α → Prop} (h : Can t c Q s) (hQ : ∀ r, Q r → Q' r) : Can t c Q' s := by
  obtain ⟨r, h1, h2⟩ := h
  exact ⟨r, h1, hQ r h2⟩

theorem can_step {l : S.Lbl} {f : S.Tid → S.Env → S.St → Out S α} {d : α → Prog S β} {Q : Res S β → Prop}
    {b : α} (e : S.Env) (hf : f t e s = .ok b s') (h : Can t (d b) Q s') : Can t (.prim l f >>= d) Q s := by
  obtain ⟨r, h1, h2⟩ := h
  exact ⟨r, .act e hf h1, h2⟩

theorem can_bind {d : α → Prog S β} {Q : Res S β → Prop}
    (h : Can t c (fun r => ∃ a s', r = .done a s' ∧ Can t (d a) Q s') s) : Can t (c >>= d) Q s := by
  obtain ⟨_, h1, a, s', rfl, r, h2, h3⟩ := h
  exact ⟨r, runs_bind.2 (.inl ⟨a, s', h1, h2⟩), h3⟩

theorem Ends.can {A : S.Env → Prop} (h : Ends A False t c Q s) {e : S.Env}
    (he : A e) : Can t c Q s := by
  induction c generalizing s with
  | ret a => exact can_ret h
  | act l f k ih =>
    have := h e he
    cases hf : f t e s with
    | ok b s' =>
      simp only [hf] at this
      obtain ⟨r, h1, h2⟩ := ih b this
      exact ⟨r, .act e hf h1, h2⟩
    | block => simp only [hf] at this
    | panic p =>
      simp only [hf] at this
      exact ⟨_, .panic e hf, this⟩

end Can

/-! ## A given environment -/

/-- The run of `c` with the choices `es`, and the choices it did not need;
`none` when an action blocks or there are too few. -/
def Prog.run (t : S.Tid) : Prog S α → List S.Env → S.St → Option (Res S α × List S.Env)
  | .ret a, es, s => some (.done a s, es)
  | .act _ _ _, [], _ => none
  | .act _ f k, e :: es, s =>
    match f t e s with
    | .ok b s' => (k b).run t es s'
    | .block => none
    | .panic p => some (.panic p, es)

theorem runs_of_run {t : S.Tid} {c : Prog S α} {es es' : List S.Env} {s : S.St} {r : Res S α}
    (h : c.run t es s = some (r, es')) : Runs t c s r := by
  induction c generalizing es s with
  | ret a =>
    simp only [Prog.run, Option.some.injEq, Prod.mk.injEq] at h
    obtain ⟨rfl, -⟩ := h
    exact .ret a s
  | act l f k ih =>
    cases es with
    | nil => simp [Prog.run] at h
    | cons e es =>
      simp only [Prog.run] at h
      cases hf : f t e s with
      | ok b s' => simp only [hf] at h; exact .act e hf (ih b h)
      | block => simp [hf] at h
      | panic p =>
        simp only [hf, Option.some.injEq, Prod.mk.injEq] at h
        obtain ⟨rfl, -⟩ := h
        exact .panic e hf

/-- `chk` holds of the run with the choices `es`. -/
def Prog.runIs (t : S.Tid) (c : Prog S α) (es : List S.Env) (s : S.St) (chk : Res S α → Bool) : Bool :=
  (c.run t es s).any fun r => chk r.1

theorem exists_of_runIs {t : S.Tid} {c : Prog S α} {es : List S.Env} {s : S.St} {chk : Res S α → Bool}
    (h : c.runIs t es s chk = true) : ∃ r, Runs t c s r ∧ chk r = true := by
  obtain ⟨r, hr, hchk⟩ := (Option.any_eq_true _ _).1 h
  exact ⟨r.1, runs_of_run hr, hchk⟩

end Pintos.Core
