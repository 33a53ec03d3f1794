import Mathlib

/-!
# Programs of atomic actions, and threads that interleave them

A thread of a shared-memory program is a tree of atomic actions: it performs
one action on the shared state, looks at the result and goes on. Between two
actions any other thread may run, so a function written as a `Prog` is open
to preemption at every `←` of its body and nowhere else.

* `Prog`: the tree. An action sees the thread that runs it and a choice of
  the environment (what an allocator returns, say), and either finishes,
  blocks (it can be tried again later), or panics (the machine stops).
* `Runs`: one thread alone, from a state to a result.
* `System`, `Config`, `step`: any number of threads. An idle thread may start
  the code of a request; a thread with code left may perform its next action.
  A system also carries auxiliary state, a function of the run that the code
  neither reads nor writes.
* `Reach`: the configurations of the runs all of whose actions meet a
  condition `ok`; with `ok := fun _ _ _ _ => True` these are all runs.
-/
namespace Pintos.Core

/-- The types of the actions of a program: the shared state, the threads, the
choices of the environment, the reasons to panic and the labels of actions. -/
structure Sig where
  St : Type
  Tid : Type
  Env : Type
  Panic : Type
  Lbl : Type

/-- What one action does. -/
inductive Out (S : Sig) (β : Type) where
  | ok (b : β) (s : S.St)
  | block
  | panic (p : S.Panic)

inductive Prog (S : Sig) (α : Type) : Type 1 where
  | ret (a : α)
  | act {β : Type} (l : S.Lbl) (f : S.Tid → S.Env → S.St → Out S β) (k : β → Prog S α)

namespace Prog
variable {S : Sig} {α β γ : Type}

def bind : Prog S α → (α → Prog S β) → Prog S β
  | .ret a, d => d a
  | .act l f k, d => .act l f fun b => (k b).bind d

instance : Monad (Prog S) where
  pure := .ret
  bind := .bind

/-- A single action as a program. -/
def prim (l : S.Lbl) (f : S.Tid → S.Env → S.St → Out S β) : Prog S β := .act l f .ret

@[simp] theorem pure_eq (a : α) : (pure a : Prog S α) = .ret a := rfl

@[simp] theorem ret_bind (a : α) (d : α → Prog S β) : (Prog.ret a >>= d) = d a := rfl

@[simp] theorem act_bind (l : S.Lbl) (f : S.Tid → S.Env → S.St → Out S γ) (k : γ → Prog S α)
    (d : α → Prog S β) : (Prog.act l f k >>= d) = .act l f fun b => k b >>= d := rfl

end Prog

/-! ## One thread alone -/

/-- How a program ends: it returns a value, or it panics. -/
inductive Res (S : Sig) (α : Type) where
  | done (a : α) (s : S.St)
  | panic (p : S.Panic)

/-- `Runs t c s r`: thread `t`, running `c` alone from `s`, can end in `r`. -/
inductive Runs {S : Sig} (t : S.Tid) {α : Type} : Prog S α → S.St → Res S α → Prop
  | ret (a : α) (s : S.St) : Runs t (.ret a) s (.done a s)
  | act {β : Type} {l : S.Lbl} {f : S.Tid → S.Env → S.St → Out S β} {k : β → Prog S α}
      {s s' : S.St} {b : β} {r : Res S α} (e : S.Env) :
      f t e s = .ok b s' → Runs t (k b) s' r → Runs t (.act l f k) s r
  | panic {β : Type} {l : S.Lbl} {f : S.Tid → S.Env → S.St → Out S β} {k : β → Prog S α}
      {s : S.St} {p : S.Panic} (e : S.Env) :
      f t e s = .panic p → Runs t (.act l f k) s (.panic p)

section Runs
variable {S : Sig} {t : S.Tid} {α β : Type}

variable {s : S.St}

theorem runs_ret {a : α} {r : Res S α} : Runs t (.ret a) s r ↔ r = .done a s := by
  constructor
  · intro h; cases h; rfl
  · rintro rfl; exact .ret a s

theorem runs_act {γ : Type} {l : S.Lbl} {f : S.Tid → S.Env → S.St → Out S γ} {k : γ → Prog S α} {r : Res S α} :
    Runs t (.act l f k) s r ↔
      (∃ e b s', f t e s = .ok b s' ∧ Runs t (k b) s' r) ∨
        ∃ e p, f t e s = .panic p ∧ r = .panic p := by
  constructor
  · intro h
    cases h with
    | act e hf hk => exact .inl ⟨e, _, _, hf, hk⟩
    | panic e hf => exact .inr ⟨e, _, hf, rfl⟩
  · rintro (⟨e, b, s', hf, hk⟩ | ⟨e, p, hf, rfl⟩)
    · exact .act e hf hk
    · exact .panic e hf

theorem runs_prim {l : S.Lbl} {f : S.Tid → S.Env → S.St → Out S β} {r : Res S β} :
    Runs t (.prim l f) s r ↔
      (∃ e b s', f t e s = .ok b s' ∧ r = .done b s') ∨ ∃ e p, f t e s = .panic p ∧ r = .panic p := by
  simp only [Prog.prim, runs_act, runs_ret]

/-- A sequence ends as its second part does after its first part returned, or
as its first part panics. -/
theorem runs_bind {c : Prog S α} {d : α → Prog S β} {r : Res S β} :
    Runs t (c >>= d) s r ↔
      (∃ a s', Runs t c s (.done a s') ∧ Runs t (d a) s' r) ∨
        ∃ p, Runs t c s (.panic p) ∧ r = .panic p := by
  induction c generalizing s with
  | ret a =>
    constructor
    · intro h; exact .inl ⟨a, s, .ret a s, h⟩
    · rintro (⟨a', s', h, h'⟩ | ⟨p, h, -⟩)
      · cases h; exact h'
      · cases h
  | act l f k ih =>
    rw [Prog.act_bind, runs_act]
    constructor
    · rintro (⟨e, b, s1, hf, hk⟩ | ⟨e, p, hf, rfl⟩)
      · rcases (ih b).1 hk with ⟨a, s', h1, h2⟩ | ⟨p, h1, rfl⟩
        · exact .inl ⟨a, s', .act e hf h1, h2⟩
        · exact .inr ⟨p, .act e hf h1, rfl⟩
      · exact .inr ⟨p, .panic e hf, rfl⟩
    · rintro (⟨a, s', h1, h2⟩ | ⟨p, h1, rfl⟩)
      · cases h1 with
        | act e hf hk => exact .inl ⟨e, _, _, hf, (ih _).2 (.inl ⟨a, s', hk, h2⟩)⟩
      · cases h1 with
        | act e hf hk => exact .inl ⟨e, _, _, hf, (ih _).2 (.inr ⟨p, hk, rfl⟩)⟩
        | panic e hf => exact .inr ⟨e, p, hf, rfl⟩

end Runs

/-! ## Interleaving -/

/-- What the threads of a system may run. `auxStep t l e s s' a` is the
auxiliary state after thread `t` performed the action labelled `l` and took
the shared state from `s` to `s'`. -/
structure System (S : Sig) where
  Aux : Type
  auxStep : S.Tid → S.Lbl → S.Env → S.St → S.St → Aux → Aux
  Req : Type
  guard : S.Tid → Req → S.St → Bool
  code : S.Tid → Req → Prog S Unit

/-- The shared state, the auxiliary state and the code each thread has left. -/
structure Config {S : Sig} (M : System S) where
  st : S.St
  aux : M.Aux
  thr : S.Tid → Prog S Unit

/-- An idle thread starts a request, or a thread performs its next action. -/
inductive Move {S : Sig} (M : System S) where
  | start (t : S.Tid) (r : M.Req)
  | run (t : S.Tid) (e : S.Env)

/-- The thread that moves. -/
def Move.thread {S : Sig} {M : System S} : Move M → S.Tid
  | .start t _ => t
  | .run t _ => t

namespace System
variable {S : Sig} [DecidableEq S.Tid] (M : System S)

def step (c : Config M) : Move M → Option (Config M)
  | .start t r =>
    match c.thr t with
    | .ret _ => if M.guard t r c.st then some { c with thr := Function.update c.thr t (M.code t r) }
      else none
    | .act _ _ _ => none
  | .run t e =>
    match c.thr t with
    | .ret _ => none
    | .act l f k =>
      match f t e c.st with
      | .ok b s => some ⟨s, M.auxStep t l e c.st s c.aux, Function.update c.thr t (k b)⟩
      | .block => none
      | .panic _ => none

/-- The panic a move runs into, if any. -/
def panics (c : Config M) : Move M → Option S.Panic
  | .start _ _ => none
  | .run t e =>
    match c.thr t with
    | .ret _ => none
    | .act _ f _ =>
      match f t e c.st with
      | .panic p => some p
      | _ => none

/-- The action a move performs meets `ok`. -/
def Meets (ok : S.Tid → S.Lbl → S.Env → S.St → Prop) (c : Config M) : Move M → Prop
  | .start _ _ => True
  | .run t e =>
    match c.thr t with
    | .ret _ => True
    | .act l _ _ => ok t l e c.st

def idle (s : S.St) (a : M.Aux) : Config M := ⟨s, a, fun _ => .ret ()⟩

inductive Reach (ok : S.Tid → S.Lbl → S.Env → S.St → Prop) (c₀ : Config M) : Config M → Prop
  | init : Reach ok c₀ c₀
  | step {c c' : Config M} (m : Move M) : Reach ok c₀ c → M.Meets ok c m → M.step c m = some c' →
      Reach ok c₀ c'

/-- All runs. -/
abbrev Reachable (c₀ c : Config M) : Prop := M.Reach (fun _ _ _ _ => True) c₀ c

instance (ok : S.Tid → S.Lbl → S.Env → S.St → Prop) [∀ t l e s, Decidable (ok t l e s)] (c : Config M)
    (m : Move M) : Decidable (M.Meets ok c m) :=
  match m with
  | .start _ _ => isTrue trivial
  | .run t e =>
    match h : c.thr t with
    | .ret _ => isTrue (by simp [Meets, h])
    | .act l _ _ => decidable_of_iff (ok t l e c.st) (by simp [Meets, h])

/-- The configuration after a sequence of moves that meet `ok`. -/
def exec (ok : S.Tid → S.Lbl → S.Env → S.St → Prop) [∀ t l e s, Decidable (ok t l e s)] (c : Config M) :
    List (Move M) → Option (Config M)
  | [] => some c
  | m :: ms => if M.Meets ok c m then (M.step c m).bind fun c' => exec ok c' ms else none

variable {M}

variable {ok : S.Tid → S.Lbl → S.Env → S.St → Prop} {c : Config M}

theorem reach_exec [∀ t l e s, Decidable (ok t l e s)]
    {c₀ c' : Config M} (h : M.Reach ok c₀ c) (ms : List (Move M)) (he : M.exec ok c ms = some c') :
    M.Reach ok c₀ c' := by
  induction ms generalizing c with
  | nil => simp only [exec, Option.some.injEq] at he; subst he; exact h
  | cons m ms ih =>
    simp only [exec] at he
    split at he
    · rename_i hm
      obtain ⟨c1, h1, h2⟩ := Option.bind_eq_some_iff.1 he
      exact ih (.step m h hm h1) h2
    · cases he

omit [DecidableEq S.Tid] in
theorem meets_of_forall (hok : ∀ t l e s, ok t l e s)
    (c : Config M) (m : Move M) : M.Meets ok c m := by
  cases m with
  | start t r => trivial
  | run t e =>
    simp only [Meets]
    split
    · trivial
    · exact hok ..

omit [DecidableEq S.Tid] in
theorem Meets.mono {ok' : S.Tid → S.Lbl → S.Env → S.St → Prop}
    (hok : ∀ t l e s, ok t l e s → ok' t l e s) {m : Move M} (h : M.Meets ok c m) :
    M.Meets ok' c m := by
  cases m with
  | start t r => trivial
  | run t e =>
    simp only [Meets] at h ⊢
    split <;> simp_all

/-- A run that meets a condition meets every weaker one. -/
theorem Reach.mono {ok' : S.Tid → S.Lbl → S.Env → S.St → Prop}
    (hok : ∀ t l e s, ok t l e s → ok' t l e s) {c₀ : Config M} (h : M.Reach ok c₀ c) :
    M.Reach ok' c₀ c := by
  induction h with
  | init => exact .init
  | step m _ hm hs ih => exact .step m ih (hm.mono hok) hs

end System

end Pintos.Core
