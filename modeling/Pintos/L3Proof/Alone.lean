import Pintos.Core.Sequential
import Pintos.L2Code.System

/-!
# The kernel's actions, run alone

What locks, reads of a page record and `frame_lock` do when no other thread
runs: the rules from which the results about single calls are built.
-/
namespace Pintos.Vm

open Pintos.Core

section Ends
variable {s : St} {t : Tid} {A : Option Nat → Prop} {B : Prop} {α : Type} {Q : Res sig α → Prop}

variable {l : Lock} {d : Unit → K α} {p : PageId} {r : Page}

/-- A lock is acquired, or the thread waits for it. -/
theorem ends_lockAcquire (hp : Q (.panic .assertion))
    (h : s.locks l = none → Ends A True t (d ()) Q (s.setLock l (some t))) :
    Ends A True t (lockAcquire l >>= d) Q s := by
  refine ends_step fun _ _ => ?_
  cases hl : s.locks l with
  | none => exact h hl
  | some u =>
    dsimp only
    by_cases hu : u = t
    · rw [if_pos hu]; exact hp
    · rw [if_neg hu]; trivial

theorem ends_lockFree (hl : s.locks l = none)
    (h : Ends A B t (d ()) Q (s.setLock l (some t))) : Ends A B t (lockAcquire l >>= d) Q s :=
  ends_det (fun _ => by simp only [hl]) h

theorem ends_lockRelease (hl : s.locks l = some t)
    (h : Ends A B t (d ()) Q (s.setLock l none)) : Ends A B t (lockRelease l >>= d) Q s :=
  ends_det (fun _ => if_pos hl) h

theorem ends_assertHeld (hl : s.locks l = some t) (h : Ends A B t (d ()) Q s) :
    Ends A B t (assertHeld l >>= d) Q s :=
  ends_det (fun _ => if_pos hl) h

theorem ends_readPage (hp : s.pages p = some r) {d : Page → K α}
    (h : Ends A B t (d r) Q s) : Ends A B t (readPage p >>= d) Q s :=
  ends_det (fun _ => by simp only [hp]) h

theorem ends_modPage {l : Lbl} {g : Page → Page} (hp : s.pages p = some r)
    (h : Ends A B t (d ()) Q (s.setPage p (some (g r)))) : Ends A B t (modPage l p g >>= d) Q s :=
  ends_det (fun _ => by simp only [hp]) h

/-- `frame_lock` of a page in frame `f` takes the lock of the frame. -/
theorem ends_frameLock {f : FrameId} (hp : s.pages p = some r) (hf : r.frame = some f)
    (hl : s.locks (.frame f) = none)
    (h : Ends A B t (d ()) Q (s.setLock (.frame f) (some t))) : Ends A B t (frameLock p >>= d) Q s := by
  refine ends_bind (ends_readPage hp ?_)
  have hp' : (s.setLock (.frame f) (some t)).pages p = some r := hp
  simp only [hf]
  refine ends_lockFree hl (ends_readPage hp' ?_)
  rw [if_pos hf]
  exact h

end Ends

section Can
variable {s : St} {t : Tid} {α : Type} {d : Unit → K α} {Q : Res sig α → Prop}

theorem can_lockAcquire {l : Lock} (hl : s.locks l = none) (h : Can t (d ()) Q (s.setLock l (some t))) :
    Can t (lockAcquire l >>= d) Q s := can_step none (by simp only [hl]) h

theorem can_lockRelease {l : Lock} (hl : s.locks l = some t) (h : Can t (d ()) Q (s.setLock l none)) :
    Can t (lockRelease l >>= d) Q s := can_step none (if_pos hl) h

end Can

end Pintos.Vm
