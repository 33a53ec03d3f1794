import Pintos.L3Proof.LoadSpec
import Pintos.L3Proof.UserSpec

/-!
# The kernel is verified

One triple per request, the invariant of the machine the kernel starts with,
and so the invariant of every run.
-/
namespace Pintos.Vm

open Pintos.Core Logic

variable {G : Goals} {t : Tid}

/-! ## Requests -/

/-- A process at rest. -/
theorem base_of_rest {w : W} (h : AtRest t w) : Base t (w.st.procs t) w := by
  refine ⟨⟨w.st.procs t, w.st.tables t, fun _ => none, fun _ => False, none⟩, ⟨rfl, rfl⟩, rfl, rfl, nofun,
    nofun, fun p hp => ?_⟩
  simpa using h p hp

/-- What the guard of every request but `exec` gives. -/
theorem tri_running {c : K Unit} {Q : Unit → W → Prop} {b : St → Bool}
    (hb : ∀ s, b s = true → (s.procs t).status = .running)
    (h : ∀ P : Proc, P.status = .running → Tri G t (Base t P) c Q) :
    Tri G t (fun w => b w.st = true ∧ AtRest t w) c Q :=
  fun w hi hw => h (w.st.procs t) (hb w.st hw.1) w hi (base_of_rest hw.2)

variable {P : Proc} {esp : Nat} {handle : Int} {s : St} {c : Config kernel}

theorem tri_mmapReq {addr : Nat} (hrun : P.status = .running) :
    Tri G t (Base t P) (reqCode t (.mmap esp handle addr)) fun _ => AtRest t :=
  triple_bind (tri_setUserEspBase hrun) fun _ => triple_bind (tri_sysMmap hrun) fun _ =>
    triple_ret fun _ _ h => h

theorem tri_readReq {udst size : Nat} (hrun : P.status = .running) :
    Tri G t (Base t P) (reqCode t (.read esp handle udst size)) fun _ => AtRest t :=
  triple_bind (tri_setUserEspBase hrun) fun _ => triple_bind (tri_sysRead hrun) fun _ =>
    triple_ret fun _ _ h => h

theorem tri_writeReq {usrc size : Nat} (hrun : P.status = .running) :
    Tri G t (Base t P) (reqCode t (.write esp handle usrc size)) fun _ => AtRest t :=
  triple_bind (tri_setUserEspBase hrun) fun _ => triple_bind (tri_sysWrite hrun) fun _ =>
    triple_ret fun _ _ h => h

theorem tri_openReq {name : List Byte} (hrun : P.status = .running) :
    Tri G t (Base t P) (reqCode t (.openFile name)) fun _ => AtRest t := by
  refine triple_exists fun c => triple_pure ?_
  rintro ⟨rfl, hg⟩
  exact triple_bind (tri_sysOpen (by rw [hrun]; exact nofun) hg) fun _ => triple_ret fun _ _ h => h

theorem tri_unmapReq {m : Nat} :
    Tri G t (fun w => reqGuard t (.unmap m) w.st = true ∧ AtRest t w) (unmap m) fun _ => AtRest t := by
  rintro w hi ⟨hg, hr⟩
  obtain ⟨hrun, hm⟩ : (w.st.procs t).status = .running ∧ m ∈ (w.st.procs t).mappings := by
    simpa [reqGuard] using hg
  obtain ⟨c, ⟨hc, hgone⟩, hctx⟩ := base_of_rest hr
  rw [← hc] at hrun hm
  have htri : Tri G t (Ctx t c) (unmap m) fun _ => AtRest t :=
    Logic.triple_conseq (tri_unmap (by rw [hrun]; exact nofun) hgone hm) (fun _ _ h => h)
      fun _ _ _ h => h.atRest
  exact htri w hi hctx

/-- **Every request keeps the invariant.** -/
theorem kernel_verified (G : Goals) : (logic G).Verified where
  rest _ := stable_atRest
  guard t r := stable_of_keep fun w w' _ _ hk h => by
    cases r <;> simpa only [reqGuard, hk.proc] using h
  code t r := by
    have hrunning : ∀ s : St, decide ((s.procs t).status = .running) = true → (s.procs t).status = .running :=
      fun s h => by simpa using h
    cases r with
    | exec c => exact triple_pre tri_startProcess fun w _ hw => by simpa [reqGuard] using hw.1
    | access esp a b => exact tri_running hrunning fun P => tri_userAccess
    | copy esp a ww ops => exact tri_running hrunning fun P => tri_lockedCopy
    | openFile name => exact tri_running hrunning fun P => tri_openReq
    | closeFile h => exact tri_running hrunning fun P hr => tri_sysClose (by rw [hr]; exact nofun)
    | read esp h a n => exact tri_running hrunning fun P => tri_readReq
    | write esp h a n => exact tri_running hrunning fun P => tri_writeReq
    | mmap esp h a => exact tri_running hrunning fun P => tri_mmapReq
    | unmap m => exact tri_unmapReq
    | munmap h =>
      exact tri_running hrunning fun P hr => triple_bind (tri_sysMunmap (by rw [hr]; exact nofun)) fun _ =>
        triple_ret fun _ _ h => h
    | exit => exact tri_running hrunning fun P hr => tri_threadExit (by rw [hr]; exact nofun)

/-! ## The start -/

theorem Boot.table (hb : Boot s) (t : Tid) : s.table t = [] := by
  simp [St.table, hb.tables, elemsOf]

theorem Boot.fileInv (hb : Boot s) : FileInv s.files s.inodes s.procs s.pages := by
  have hP : ∀ t, (s.procs t).fds = [] ∧ (s.procs t).binFile = none ∧ (s.procs t).mappings = [] := by
    intro t
    rw [hb.procs t]
    exact ⟨rfl, rfl, rfl⟩
  have hopen : ∀ i, openSet s.files i = ∅ := by
    intro i
    ext g
    simp [openSet, hb.files]
  have hdeny : ∀ i, denySet s.files i = ∅ := by
    intro i
    ext g
    simp [denySet, hb.files]
  constructor
  case fdNodup => intro t; simp [(hP t).1]
  case opened => intro i; simp [hopen, (hb.inodes i).1]
  case denied => intro i; simp [hdeny, (hb.inodes i).2]
  case mmap | seg => intro p r; simp [hb.pages]
  case bin => intro t g h; simp [(hP t).2.1] at h
  case binOwner => intro t t' g h; simp [(hP t).2.1] at h
  case map => intro t m M h; simp [(hP t).2.2] at h
  case fd => intro t fd h; simp [(hP t).1] at h
  case fdOwner => intro t t' fd fd' h; simp [(hP t).1] at h

/-- The machine the kernel starts with has the invariant. -/
theorem Boot.inv (hb : Boot s) : Inv G ⟨s, .init⟩ := by
  have hmem : ∀ t p, p ∉ elemsOf (s.tables t) := fun t p => by simp [hb.tables, elemsOf]
  have hcov : ∀ t, (s.procs t).covered = [] := fun t => by rw [hb.procs t]; rfl
  constructor
  case frame => exact ⟨fun _ h => by simp [hb.frames] at h, fun h => by simp [hb.pages] at h,
    fun h => by simp [hb.pages] at h⟩
  case table => exact ⟨fun h => absurd h (hmem _ _), fun t => by simp [hb.tables, elemsOf],
    fun h => absurd h (hmem _ _), fun h => by simp [hb.pages] at h, fun h => by simp [hb.pages] at h⟩
  case fresh => exact fun t _ => ⟨hb.procs t, hb.tables t, hb.pagedirs t⟩
  case pte => exact ⟨fun _ h => by simp [hb.pagedirs, Pte.zero] at h⟩
  case map => exact ⟨fun {t m} h => by simp [hb.procs t, Proc.init] at h, fun t => by simp [hcov],
    fun {t a} h => by simp [hcov] at h⟩
  case swap => exact ⟨fun h => by simp [hb.pages] at h, fun h => by simp [hb.pages] at h,
    fun h => by simp [hb.pages] at h, fun h => by simp [Aux.init] at h, fun h => by simp [hb.pages] at h,
    fun h => by simp [hb.pages] at h⟩
  case file => exact hb.fileInv
  case leak => exact fun _ k h => by simp [hb.swap] at h
  case data => exact fun _ => ⟨fun h => absurd h (hmem _ _), fun h => absurd h (hmem _ _)⟩
  case range =>
    exact fun _ => ⟨fun h => absurd h (hmem _ _), fun {t} h => by simp [hb.procs t, Proc.init] at h⟩

/-- **Every configuration of a run is good.** -/
theorem good_of_runs {ok : Tid → Lbl → Option Nat → St → Prop}
    (hok : ∀ t l e s, ok t l e s → (logic G).ok t l e s) (hb : Boot s)
    (h : RunsOk ok s c) : (logic G).Good c :=
  Logic.sound (kernel_verified G)
    (Logic.good_idle (kernel_verified G) s .init hb.inv fun t p hp => by simp [hb.table] at hp)
    (h.mono hok)

theorem inv_of_runs {ok : Tid → Lbl → Option Nat → St → Prop}
    (hok : ∀ t l e s, ok t l e s → (logic G).ok t l e s) (hb : Boot s)
    (h : RunsOk ok s c) : Inv G ⟨c.st, c.aux⟩ :=
  (good_of_runs hok hb h).1

/-- In a run of process `u` alone the other processes have not started. -/
theorem unstarted_of_runs (hb : Boot s) {u : Tid}
    (h : RunsOk (fun t _ _ _ => t = u) s c) (ht : t ≠ u) : (c.st.procs t).status = .new := by
  let G : Goals := ⟨False, False, False⟩
  have hok : ∀ t l e s, (logic G).ok t l e s := fun _ _ _ _ => ⟨False.elim, False.elim, False.elim⟩
  induction h with
  | init => rw [show (kernel.idle s .init).st = s from rfl, hb.procs t]; rfl
  | @step c c' m hr hm hs ih =>
    cases m with
    | start t' r =>
      have : c'.st = c.st := by
        simp only [System.step] at hs
        split at hs
        · split at hs
          · simp only [Option.some.injEq] at hs; subst hs; rfl
          · cases hs
        · cases hs
      rw [this]; exact ih
    | run t' e =>
      have hg : (logic G).Good c := good_of_runs (fun _ _ _ _ _ => hok ..) hb hr
      have htu : t' = u := by
        simp only [System.step, System.Meets] at hs hm
        cases hp : c.thr t' with
        | ret a => simp [hp] at hs
        | act l f k => simpa [hp] using hm
      have hk := hg.guar (System.meets_of_forall hok c _) hs t (htu ▸ ht)
      exact (congrArg Proc.status hk.proc).trans ih

end Pintos.Vm
