import Pintos.Core.Prog

/-!
# Rely-guarantee proofs for interleaved programs

A `Logic` for a `System` fixes a global invariant `Inv` and, for every
thread, a guarantee `Guar t`: what one action of `t` may do to the state. An
assertion is `Stable t` when no action another thread is allowed to perform
can break it. `Triple t P c Q` says that thread `t`, started in a state with
`P`, runs `c` so that each of its actions keeps `Inv` and `Guar t`, whatever
the other threads do in between, and that `Q` holds of the result if it
returns.

A logic also fixes

* `ok`: a condition on the actions of the runs considered,
* `Holds`: what must be true whenever an action with a given label is next,
* `Rest`: what is true of a thread between two requests,
* `tol`: the panics that may happen.

`Logic.sound` turns one triple per request into a statement about every run.
-/
namespace Pintos.Core

open Function

/-- Shared and auxiliary state. -/
@[ext] structure World {S : Sig} (M : System S) where
  st : S.St
  aux : M.Aux

def Config.world {S : Sig} {M : System S} (c : Config M) : World M := ⟨c.st, c.aux⟩

structure Logic {S : Sig} (M : System S) where
  Inv : World M → Prop
  Guar : S.Tid → World M → World M → Prop
  ok : S.Tid → S.Lbl → S.Env → S.St → Prop
  Holds : S.Tid → S.Lbl → World M → Prop
  Rest : S.Tid → World M → Prop
  tol : S.Panic → Prop

namespace Logic
variable {S : Sig} {M : System S} (L : Logic M)

/-- One action of a thread other than `t`. -/
def Interf (t : S.Tid) (w w' : World M) : Prop :=
  L.Inv w ∧ L.Inv w' ∧ ∃ u, u ≠ t ∧ L.Guar u w w'

/-- Any number of actions of threads other than `t`. -/
def Rely (t : S.Tid) : World M → World M → Prop := Relation.ReflTransGen (L.Interf t)

def Stable (t : S.Tid) (P : World M → Prop) : Prop := ∀ w w', L.Interf t w w' → P w → P w'

/-- The state after an action. -/
def next (t : S.Tid) (l : S.Lbl) (e : S.Env) (w : World M) (s : S.St) : World M :=
  ⟨s, M.auxStep t l e w.st s w.aux⟩

def wp (t : S.Tid) {α : Type} : Prog S α → (α → World M → Prop) → World M → Prop
  | .ret a, Q, w => Q a w
  | .act l f k, Q, w => L.Holds t l w ∧ ∀ e, L.ok t l e w.st →
    match f t e w.st with
    | .ok b s => L.Inv (next t l e w s) ∧ L.Guar t w (next t l e w s) ∧
        ∀ w', L.Rely t (next t l e w s) w' → wp t (k b) Q w'
    | .block => True
    | .panic p => L.tol p

def Triple (t : S.Tid) {α : Type} (P : World M → Prop) (c : Prog S α) (Q : α → World M → Prop) :
    Prop :=
  ∀ w, L.Inv w → P w → L.wp t c Q w

variable {L} {t : S.Tid} {α β : Type}

theorem Rely.inv {w w' : World M} (h : L.Rely t w w') (hi : L.Inv w) : L.Inv w' := by
  induction h with
  | refl => exact hi
  | tail _ hs _ => exact hs.2.1

variable {P : World M → Prop}

theorem Stable.rely (hP : L.Stable t P) {w w' : World M} (h : L.Rely t w w')
    (hw : P w) : P w' := by
  induction h with
  | refl => exact hw
  | tail _ hs ih => exact hP _ _ hs ih

theorem Stable.const (p : Prop) : L.Stable t fun _ => p := fun _ _ _ h => h

theorem Stable.and {Q : World M → Prop} (hP : L.Stable t P) (hQ : L.Stable t Q) :
    L.Stable t fun w => P w ∧ Q w :=
  fun w w' h hw => ⟨hP w w' h hw.1, hQ w w' h hw.2⟩

theorem Stable.or {Q : World M → Prop} (hP : L.Stable t P) (hQ : L.Stable t Q) :
    L.Stable t fun w => P w ∨ Q w :=
  fun w w' h hw => hw.imp (hP w w' h) (hQ w w' h)

variable {ι : Sort*} {c : Prog S α} {c' : Config M} {m : Move M}

theorem Stable.exists {P : ι → World M → Prop} (hP : ∀ i, L.Stable t (P i)) :
    L.Stable t fun w => ∃ i, P i w :=
  fun w w' h ⟨i, hi⟩ => ⟨i, hP i w w' h hi⟩

theorem Stable.forall {P : ι → World M → Prop} (hP : ∀ i, L.Stable t (P i)) :
    L.Stable t fun w => ∀ i, P i w :=
  fun w w' h hi i => hP i w w' h (hi i)

/-! ## Rules -/

variable {Q : α → World M → Prop}

theorem wp_mono {Q' : α → World M → Prop} (h : ∀ a w, L.Inv w → Q a w → Q' a w) :
    ∀ {w}, L.Inv w → L.wp t c Q w → L.wp t c Q' w := by
  induction c with
  | ret a => intro w hi hw; exact h a w hi hw
  | act l f k ih =>
    intro w _ hw
    refine ⟨hw.1, fun e he => ?_⟩
    have := hw.2 e he
    cases hf : f t e w.st with
    | ok b s =>
      simp only [hf] at this ⊢
      exact ⟨this.1, this.2.1, fun w' hr => ih b (hr.inv this.1) (this.2.2 w' hr)⟩
    | block => trivial
    | panic p => simpa only [hf] using this

theorem wp_bind {d : α → Prog S β} {Q : β → World M → Prop} :
    ∀ {w}, L.Inv w → L.wp t c (fun a => L.wp t (d a) Q) w → L.wp t (c >>= d) Q w := by
  induction c with
  | ret a => intro w _ hw; exact hw
  | act l f k ih =>
    intro w _ hw
    refine ⟨hw.1, fun e he => ?_⟩
    have := hw.2 e he
    cases hf : f t e w.st with
    | ok b s =>
      simp only [hf] at this ⊢
      exact ⟨this.1, this.2.1, fun w' hr => ih b (hr.inv this.1) (this.2.2 w' hr)⟩
    | block => trivial
    | panic p => simpa only [hf] using this

theorem triple_ret {a : α}
    (h : ∀ w, L.Inv w → P w → Q a w) : L.Triple t P (.ret a) Q := h

theorem triple_bind {R : α → World M → Prop}
    {d : α → Prog S β} {Q : β → World M → Prop} (hc : L.Triple t P c R)
    (hd : ∀ a, L.Triple t (R a) (d a) Q) : L.Triple t P (c >>= d) Q :=
  fun w hi hw => wp_bind hi (wp_mono (fun a w' hi' hr => hd a w' hi' hr) hi (hc w hi hw))

theorem triple_conseq {P' : World M → Prop} {Q' : α → World M → Prop}
    (hc : L.Triple t P' c Q') (hP : ∀ w, L.Inv w → P w → P' w)
    (hQ : ∀ a w, L.Inv w → Q' a w → Q a w) : L.Triple t P c Q :=
  fun w hi hw => wp_mono hQ hi (hc w hi (hP w hi hw))

theorem triple_pre {R : World M → Prop}
    (hc : L.Triple t R c Q) (hP : ∀ w, L.Inv w → P w → R w) : L.Triple t P c Q :=
  triple_conseq hc hP fun _ _ _ h => h

/-- A precondition that is an existential is opened before the program runs. -/
theorem triple_exists {P : ι → World M → Prop} (h : ∀ i, L.Triple t (P i) c Q) :
    L.Triple t (fun w => ∃ i, P i w) c Q :=
  fun w hi ⟨i, hw⟩ => h i w hi hw

theorem triple_or {P' : World M → Prop}
    (h : L.Triple t P c Q) (h' : L.Triple t P' c Q) : L.Triple t (fun w => P w ∨ P' w) c Q :=
  fun w hi hw => hw.elim (h w hi) (h' w hi)

/-- A pure conjunct of the precondition becomes a hypothesis. -/
theorem triple_pure {p : Prop}
    (h : p → L.Triple t P c Q) : L.Triple t (fun w => p ∧ P w) c Q :=
  fun w hi hw => h hw.1 w hi hw.2

/-- What one action has to show. -/
def Does (L : Logic M) (t : S.Tid) (l : S.Lbl) (f : S.Tid → S.Env → S.St → Out S β)
    (Q : β → World M → Prop) (w : World M) : Prop :=
  L.Holds t l w ∧ ∀ e, L.ok t l e w.st →
    match f t e w.st with
    | .ok b s => L.Inv (next t l e w s) ∧ L.Guar t w (next t l e w s) ∧ Q b (next t l e w s)
    | .block => True
    | .panic p => L.tol p

theorem triple_prim {l : S.Lbl} {f : S.Tid → S.Env → S.St → Out S β}
    {Q : β → World M → Prop} (hQ : ∀ b, L.Stable t (Q b))
    (h : ∀ w, L.Inv w → P w → L.Does t l f Q w) : L.Triple t P (.prim l f) Q := by
  intro w hi hw
  obtain ⟨h1, h2⟩ := h w hi hw
  refine ⟨h1, fun e he => ?_⟩
  have := h2 e he
  cases hf : f t e w.st with
  | ok b s =>
    simp only [hf] at this ⊢
    exact ⟨this.1, this.2.1, fun w' hr => (hQ b).rely hr this.2.2⟩
  | block => trivial
  | panic p => simpa only [hf] using this

/-- An action without a condition of its own. -/
theorem triple_act {l : S.Lbl} {f : S.Tid → S.Env → S.St → Out S β} {Q : β → World M → Prop}
    (hl : L.Holds t l = fun _ => True) (hQ : ∀ b, L.Stable t (Q b))
    (h : ∀ w, L.Inv w → P w → ∀ e, L.ok t l e w.st →
      match f t e w.st with
      | .ok b s => L.Inv (next t l e w s) ∧ L.Guar t w (next t l e w s) ∧ Q b (next t l e w s)
      | .block => True
      | .panic p => L.tol p) : L.Triple t P (.prim l f) Q :=
  triple_prim hQ fun w hi hw => ⟨by rw [hl]; trivial, h w hi hw⟩

/-! ## Soundness -/

/-- The invariant holds, and every thread's remaining code is safe whatever
the other threads do next. -/
def Good (L : Logic M) (c : Config M) : Prop :=
  L.Inv ⟨c.st, c.aux⟩ ∧
    ∀ t w, L.Rely t ⟨c.st, c.aux⟩ w → L.wp t (c.thr t) (fun _ => L.Rest t) w

/-- The same for the threads in `A`. -/
def GoodFor (L : Logic M) (A : S.Tid → Prop) (c : Config M) : Prop :=
  L.Inv c.world ∧ ∀ t, A t → ∀ w, L.Rely t c.world w → L.wp t (c.thr t) (fun _ => L.Rest t) w

/-- One triple per request: it runs from a thread at rest with the request's
guard to a thread at rest. -/
structure Verified (L : Logic M) : Prop where
  rest : ∀ t, L.Stable t (L.Rest t)
  guard : ∀ t r, L.Stable t fun w => M.guard t r w.st = true
  code : ∀ t r, L.Triple t (fun w => M.guard t r w.st = true ∧ L.Rest t w) (M.code t r)
    fun _ => L.Rest t

theorem good_idle (hL : L.Verified) (s : S.St) (a : M.Aux) (h : L.Inv ⟨s, a⟩)
    (hr : ∀ t, L.Rest t ⟨s, a⟩) : L.Good (M.idle s a) :=
  ⟨h, fun t _ hw => (hL.rest t).rely hw (hr t)⟩

variable [DecidableEq S.Tid]

theorem goodFor_step (hL : L.Verified) {A : S.Tid → Prop} {c : Config M} (hg : L.GoodFor A c)
    (hA : A m.thread) (hm : M.Meets L.ok c m) (hs : M.step c m = some c') :
    L.GoodFor A c' ∧ (c'.world = c.world ∨ L.Guar m.thread c.world c'.world) := by
  obtain ⟨hi, hw⟩ := hg
  cases m with
  | start t r =>
    simp only [System.step] at hs
    split at hs
    · rename_i hret
      split at hs
      · rename_i hgd
        simp only [Option.some.injEq] at hs; subst hs
        refine ⟨⟨hi, fun u hu w hr => ?_⟩, .inl rfl⟩
        dsimp only at hr ⊢
        by_cases hut : u = t
        · subst hut
          have hrest := hw u hu w hr
          rw [hret] at hrest
          rw [update_self]
          exact hL.code u r w (hr.inv hi) ⟨(hL.guard u r).rely hr hgd, hrest⟩
        · rw [update_of_ne hut]; exact hw u hu w hr
      · cases hs
    · cases hs
  | run t e =>
    simp only [System.step, System.Meets] at hs hm
    have hwt := hw t hA _ .refl
    cases hp : c.thr t with
    | ret a => simp [hp] at hs
    | act l f k =>
      simp only [hp] at hs hm hwt
      have hd := hwt.2 e hm
      cases hf : f t e c.st with
      | ok b s =>
        simp only [Config.world, hf, Option.some.injEq] at hs hd; subst hs
        refine ⟨⟨hd.1, fun u hu w hr => ?_⟩, .inr hd.2.1⟩
        dsimp only at hr ⊢
        by_cases hut : u = t
        · subst hut
          rw [update_self]
          exact hd.2.2 w hr
        · rw [update_of_ne hut]
          -- the step of `t` is interference for `u`
          exact hw u hu w (.head ⟨hi, hd.1, t, Ne.symm hut, hd.2.1⟩ hr)
      | block => simp [hf] at hs
      | panic p => simp [hf] at hs

theorem good_step (hL : L.Verified) {c : Config M} (hg : L.Good c)
    (hm : M.Meets L.ok c m) (hs : M.step c m = some c') : L.Good c' := by
  have hA : L.GoodFor (fun _ => True) c := ⟨hg.1, fun t _ => hg.2 t⟩
  obtain ⟨⟨hi, hw⟩, -⟩ := goodFor_step hL hA trivial hm hs
  exact ⟨hi, fun t => hw t trivial⟩

/-- **Soundness.** Every configuration of a run that meets `ok` is good. -/
theorem sound (hL : L.Verified) {c₀ c : Config M} (h0 : L.Good c₀) (h : M.Reach L.ok c₀ c) :
    L.Good c := by
  induction h with
  | init => exact h0
  | step m _ hm hs ih => exact good_step hL ih hm hs

/-- What one action of a run does is what its thread guarantees. -/
theorem Good.guar {c : Config M} (h : L.Good c) {e : S.Env} (hm : M.Meets L.ok c (.run t e))
    (hs : M.step c (.run t e) = some c') : L.Guar t ⟨c.st, c.aux⟩ ⟨c'.st, c'.aux⟩ := by
  have hw := h.2 t _ .refl
  simp only [System.step, System.Meets] at hs hm
  cases hp : c.thr t with
  | ret a => simp [hp] at hs
  | act l f k =>
    simp only [hp] at hs hm hw
    have hd := hw.2 e hm
    cases hf : f t e c.st with
    | ok b s => simp only [hf, Option.some.injEq] at hs hd; subst hs; exact hd.2.1
    | block => simp [hf] at hs
    | panic p => simp [hf] at hs

omit [DecidableEq S.Tid] in
theorem Good.holds {c : Config M} (h : L.Good c) {γ : Type} {l : S.Lbl}
    {f : S.Tid → S.Env → S.St → Out S γ} {k : γ → Prog S Unit} (hc : c.thr t = .act l f k) :
    L.Holds t l ⟨c.st, c.aux⟩ := by
  have := h.2 t _ .refl
  rw [hc] at this
  exact this.1

omit [DecidableEq S.Tid] in
/-- Only tolerated panics happen. -/
theorem Good.tol {c : Config M} (h : L.Good c) (hm : M.Meets L.ok c m)
    {p : S.Panic} (hp : M.panics c m = some p) : L.tol p := by
  cases m with
  | start t r => simp [System.panics] at hp
  | run t e =>
    have hw := h.2 t _ .refl
    simp only [System.panics, System.Meets] at hp hm
    cases hc : c.thr t with
    | ret a => simp [hc] at hp
    | act l f k =>
      simp only [hc] at hp hm hw
      have hd := hw.2 e hm
      cases hf : f t e c.st with
      | ok b s => simp [hf] at hp
      | block => simp [hf] at hp
      | panic q =>
        simp only [hf, Option.some.injEq] at hp hd
        subst hp; exact hd

end Logic

end Pintos.Core
