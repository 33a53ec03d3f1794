import Pintos.L2Code.ProcFiles
import Pintos.L3Proof.FsStep

/-!
# References to files

A file is referred to by a descriptor, a mapping, an executable or the free
map. `Sys.Owned` says that every open file has exactly one such reference; the
calls that give up no mapping keep it.
-/
namespace Pintos.Fs

open Pintos.Core Function List

inductive Kind
  | descriptor
  | mapping
  | executable

/-- What may refer to file `g`. -/
inductive Ref
  | proc (t : Nat) (k : Kind) (g : Nat)
  | freeMap (g : Nat)

def Ref.file : Ref → Nat
  | .proc _ _ g => g
  | .freeMap g => g

def Proc.Has (p : Proc) (g : Nat) : Kind → Prop
  | .descriptor => g ∈ p.fds
  | .mapping => g ∈ p.mappings
  | .executable => p.binFile = some g

def Sys.Holds (s : Sys) : Ref → Prop
  | .proc t k g => (s.procs t).Has g k
  | .freeMap g => s.fs.freeMapFile = some g

/-- Every open file has exactly one reference. -/
structure Sys.Owned (s : Sys) : Prop where
  wf : Wf s.fs noHold
  nodup : ∀ t, (s.procs t).fds.Nodup ∧ (s.procs t).mappings.Nodup
  live : ∀ r, s.Holds r → ∃ f, s.fs.files r.file = some f
  one : ∀ r r', s.Holds r → s.Holds r' → r.file = r'.file → r = r'
  held : ∀ g f, s.fs.files g = some f → ∃ r, s.Holds r ∧ r.file = g

/-- What a call keeps. -/
structure Sys.Keeps (s s' : Sys) : Prop where
  owned : s'.Owned
  gone : ∀ x d, s.fs.Gone x d → s'.fs.Gone x d

variable {s' : Sys} {g : Nat}

theorem Sys.Keeps.trans {s s'' : Sys} (h : s.Keeps s') (h' : s'.Keeps s'') : s.Keeps s'' :=
  ⟨h'.owned, fun x d hg => h'.gone x d (h.gone x d hg)⟩

@[simp] theorem Proc.not_has_init (g : Nat) (k : Kind) : ¬ Proc.init.Has g k := by
  cases k <;> simp [Proc.Has, Proc.init]

variable {s : Sys} {f : St} {t : Nat} {p : Proc}

theorem Sys.holds_setProc {u : Nat} {k : Kind} :
    (s.setProc t p).Holds (.proc u k g) ↔ if u = t then p.Has g k else (s.procs u).Has g k := by
  simp only [Sys.Holds, Sys.setProc_procs, update_apply]
  split <;> rfl

/-! ## What may become of a file -/

/-- The file stays with its reference, gets its first one, or is closed with it. -/
inductive Change (s s' : Sys) (g : Nat) : Prop
  | kept (hf : (s'.fs.files g).isSome = (s.fs.files g).isSome) (hr : ∀ r, r.file = g → (s'.Holds r ↔ s.Holds r))
  | fresh (r : Ref) (hf : (s'.fs.files g).isSome = true) (hr : ∀ r', r'.file = g → (s'.Holds r' ↔ r' = r))
      (hg : r.file = g)
  | closed (hf : s'.fs.files g = none) (hr : ∀ r, r.file = g → ¬ s'.Holds r)

namespace Sys.Owned

variable (h : s.Owned)
include h

theorem handle {g : Nat} {k : Kind} (hg : (s.procs t).Has g k) :
    ∃ e, s.fs.files g = some e ∧ s.fs.freeMapFile ≠ some g := by
  obtain ⟨e, he⟩ := h.live (.proc t k g) hg
  exact ⟨e, he, fun hm => nomatch h.one (.proc t k g) (.freeMap g) hg hm rfl⟩

theorem of_changes {s' : Sys} (hw : Wf s'.fs noHold)
    (hnodup : ∀ t, (s'.procs t).fds.Nodup ∧ (s'.procs t).mappings.Nodup) (hc : ∀ g, Change s s' g) : s'.Owned where
  wf := hw
  nodup := hnodup
  live r hr := by
    rw [← Option.isSome_iff_exists]
    cases hc r.file with
    | kept hf hr' => rw [hf, Option.isSome_iff_exists]; exact h.live r ((hr' r rfl).mp hr)
    | fresh _ hf => exact hf
    | closed _ hr' => exact absurd hr (hr' r rfl)
  one r r' hr hr' hfile := by
    cases hc r.file with
    | kept _ hold => exact h.one r r' ((hold r rfl).mp hr) ((hold r' hfile.symm).mp hr') hfile
    | fresh r₀ _ hold => exact ((hold r rfl).mp hr).trans ((hold r' hfile.symm).mp hr').symm
    | closed _ hold => exact absurd hr (hold r rfl)
  held g e he := by
    cases hc g with
    | kept hf hold =>
      obtain ⟨e', he'⟩ := Option.isSome_iff_exists.mp (hf.symm.trans (by rw [he]; rfl))
      obtain ⟨r, hr, hg⟩ := h.held g e' he'
      exact ⟨r, (hold r hg).mpr hr, hg⟩
    | fresh r _ hold hg => exact ⟨r, (hold r hg).mpr rfl, hg⟩
    | closed hf => rw [hf] at he; cases he

/-- The same files are open. -/
theorem same (hw : Wf f noHold) (hmap : f.freeMapFile = s.fs.freeMapFile)
    (hfiles : ∀ g, (f.files g).isSome = (s.fs.files g).isSome) : (s.setFs f).Owned := by
  refine h.of_changes hw h.nodup fun g => .kept (hfiles g) fun r _ => ?_
  cases r with
  | proc => rfl
  | freeMap => simp only [Sys.Holds, Sys.setFs_fs, hmap]

/-- A new file, for the process. -/
theorem add {g : Nat} {e : File} {k : Kind} (hw : Wf f noHold) (hmap : f.freeMapFile = s.fs.freeMapFile)
    (hg : s.fs.files g = none) (hfiles : f.files = update s.fs.files g (some e))
    (hnodup : p.fds.Nodup ∧ p.mappings.Nodup)
    (hp : ∀ k' g', p.Has g' k' ↔ (s.procs t).Has g' k' ∨ k' = k ∧ g' = g) : ((s.setFs f).setProc t p).Owned := by
  have hno : ∀ r, r.file = g → ¬ s.Holds r := by
    rintro r rfl hr
    obtain ⟨e', he⟩ := h.live r hr
    rw [hg] at he
    cases he
  refine h.of_changes hw (fun u => ?_) fun g' => ?_
  · rw [Sys.setProc_procs, update_apply]
    split
    next => exact hnodup
    next => exact h.nodup u
  · by_cases hgg : g' = g
    · subst hgg
      refine .fresh (.proc t k g') ?_ (fun r hr => ?_) rfl
      · change (f.files g').isSome = true
        rw [hfiles, update_self]
        rfl
      · cases r with
        | freeMap g₀ =>
          cases hr
          simp only [reduceCtorEq, iff_false]
          change ¬ f.freeMapFile = some g₀
          rw [hmap]
          exact hno (.freeMap g₀) rfl
        | proc u k' g₀ =>
          cases hr
          rw [Sys.holds_setProc]
          split
          next hu =>
            subst hu
            rw [hp]
            have := hno (.proc u k' g₀) rfl
            constructor
            · rintro (hr | ⟨rfl, -⟩)
              · exact absurd hr this
              · rfl
            · rintro ⟨⟩
              exact .inr ⟨rfl, rfl⟩
          next hu =>
            refine iff_of_false (hno (.proc u k' g₀) rfl) ?_
            rintro ⟨⟩
            exact hu rfl
    · refine .kept ?_ fun r hr => ?_
      · change (f.files g').isSome = _
        rw [hfiles, update_of_ne hgg]
      · cases r with
        | freeMap =>
          change f.freeMapFile = _ ↔ _
          rw [hmap]
          rfl
        | proc u k' g =>
          cases hr
          rw [Sys.holds_setProc]
          split
          next hu =>
            subst hu
            rw [hp]
            exact or_iff_left fun hx => hgg hx.2
          next => rfl

/-- Files of the process are closed. -/
theorem drop (gs : List Nat) (hw : Wf f noHold) (hmap : f.freeMapFile = s.fs.freeMapFile)
    (hgs : ∀ g ∈ gs, ∃ k, (s.procs t).Has g k)
    (hfiles : ∀ g, f.files g = if g ∈ gs then none else s.fs.files g) (hnodup : p.fds.Nodup ∧ p.mappings.Nodup)
    (hp : ∀ k g, p.Has g k ↔ (s.procs t).Has g k ∧ g ∉ gs) : ((s.setFs f).setProc t p).Owned := by
  refine h.of_changes hw (fun u => ?_) fun g => ?_
  · rw [Sys.setProc_procs, update_apply]
    split
    next => exact hnodup
    next => exact h.nodup u
  · by_cases hg : g ∈ gs
    · obtain ⟨k, hk⟩ := hgs g hg
      refine .closed (by rw [Sys.setProc_fs, Sys.setFs_fs, hfiles, if_pos hg]) fun r hr hh => ?_
      cases r with
      | freeMap g₀ =>
        cases hr
        change f.freeMapFile = some g₀ at hh
        rw [hmap] at hh
        cases h.one (.proc t k g₀) (.freeMap g₀) hk hh rfl
      | proc u k' g₀ =>
        cases hr
        rw [Sys.holds_setProc] at hh
        split at hh
        next => exact ((hp k' g₀).mp hh).2 hg
        next hu =>
          cases h.one (.proc t k g₀) (.proc u k' g₀) hk hh rfl
          exact hu rfl
    · refine .kept (by rw [Sys.setProc_fs, Sys.setFs_fs, hfiles, if_neg hg]) fun r hr => ?_
      cases r with
      | freeMap =>
        change f.freeMapFile = _ ↔ _
        rw [hmap]
        rfl
      | proc u k' g' =>
        cases hr
        rw [Sys.holds_setProc]
        split
        next hu =>
          subst hu
          rw [hp]
          exact and_iff_left hg
        next => rfl

end Sys.Owned

/-! ## Calls -/

theorem ok_onFs {α : Type} {c : M α} {Q : α → Sys → Prop} :
    Ok (onFs c) s Q ↔ Ok c s.fs fun a f => Q a (s.setFs f) := by
  have hzoom : onFs c = Code.zoom Sys.fs Sys.setFs id c := by
    funext s
    unfold onFs Code.zoom
    cases c s.fs <;> rfl
  rw [hzoom]
  exact ok_zoom

theorem ok_getProc {Q : Proc → Sys → Prop} : Ok (getProc t) s Q ↔ Q (s.procs t) s := by
  constructor
  · rintro ⟨a, u, he, hq⟩
    cases he
    exact hq
  · exact fun hq => ⟨_, _, rfl, hq⟩

theorem ok_modProc {h : Proc → Proc} {Q : Unit → Sys → Prop} :
    Ok (modProc t h) s Q ↔ Q () (s.setProc t (h (s.procs t))) := ok_modify _

theorem Wf.files_of_view {e : Nat → Nat} (h : Wf f e) (hg : f.view g = none) : f.files g = none := by
  cases hf : f.files g with
  | none => rfl
  | some k =>
    obtain ⟨i, hi, -⟩ := h.heap.file g k hf
    rw [St.view_eq_some hf hi] at hg
    cases hg

theorem ok_closeAll {gs : List Nat} (h : Wf f noHold) (hnodup : gs.Nodup)
    (hgs : ∀ g ∈ gs, ∃ e, f.files g = some e ∧ f.freeMapFile ≠ some g) :
    Ok (closeAll gs) f fun _ f' => Wf f' noHold ∧ Tame f f' ∧
      ∀ g, f'.files g = if g ∈ gs then none else f.files g := by
  induction gs generalizing f with
  | nil => exact (ok_pure _).mpr ⟨h, .refl f, fun g => rfl⟩
  | cons k gs ih =>
    obtain ⟨hk, hnodup⟩ := nodup_cons.mp hnodup
    obtain ⟨e, he, hm⟩ := hgs k (mem_cons_self ..)
    unfold closeAll
    rw [ok_bind]
    refine (ok_fileClose h he hm).mono ?_
    rintro _ u ⟨hu, htame, -, hfiles⟩
    refine (ih hu hnodup fun g hg => ?_).mono ?_
    · obtain ⟨e, he, hm⟩ := hgs g (mem_cons_of_mem k hg)
      refine ⟨e, ?_, by rw [htame.mapFile]; exact hm⟩
      rw [hfiles, update_of_ne (ne_of_mem_of_not_mem hg hk), he]
    · rintro _ f' ⟨hf', htame', hfiles'⟩
      refine ⟨hf', htame.trans htame' h.layout, fun g => ?_⟩
      rw [hfiles' g, hfiles]
      by_cases hgk : g = k
      · subst hgk
        rw [update_self, ite_self, if_pos (mem_cons_self ..)]
      · simp only [update_of_ne hgk, mem_cons, hgk, false_or]

theorem Proc.has_fds_cons (k' : Kind) (g' : Nat) :
    Proc.Has { p with fds := g :: p.fds } g' k' ↔ p.Has g' k' ∨ k' = .descriptor ∧ g' = g := by
  cases k' <;> simp [Proc.Has, or_comm]

theorem Proc.has_mappings_cons (k' : Kind) (g' : Nat) :
    Proc.Has { p with mappings := g :: p.mappings } g' k' ↔ p.Has g' k' ∨ k' = .mapping ∧ g' = g := by
  cases k' <;> simp [Proc.Has, or_comm]

theorem Proc.has_binFile (hp : p.binFile = none) (k' : Kind) (g' : Nat) :
    Proc.Has { p with binFile := some g } g' k' ↔ p.Has g' k' ∨ k' = .executable ∧ g' = g := by
  cases k' <;> simp [Proc.Has, hp, eq_comm]

namespace Sys.Owned

variable (h : s.Owned)
include h

variable {g : Nat}

/-- Files that are held in two ways are different. -/
theorem kind_ne {g' : Nat} {k k' : Kind} (hg : (s.procs t).Has g k) (hg' : (s.procs t).Has g' k') (hne : k ≠ k') :
    g ≠ g' := by
  rintro rfl
  cases h.one (.proc t k g) (.proc t k' g) hg hg' rfl
  exact hne rfl

theorem not_has {k : Kind} (hg : s.fs.files g = none) : ¬ (s.procs t).Has g k := by
  intro hh
  obtain ⟨e, he, -⟩ := h.handle hh
  rw [hg] at he
  cases he

/-- The outcome of an allocation does not matter. -/
theorem tail : (s.setFs (s.fs.setMem s.fs.mem.tail)).Owned ∧ s.Keeps (s.setFs (s.fs.setMem s.fs.mem.tail)) := by
  have hm : (s.setFs (s.fs.setMem s.fs.mem.tail)).Owned := h.same (h.wf.setMem _) rfl fun _ => rfl
  exact ⟨hm, hm, fun x d hg => hg.of_eq rfl rfl⟩

theorem ok_sysOpen (name : Name) : Ok (sysOpen t name) s fun _ s' => s.Keeps s' := by
  unfold sysOpen
  rw [ok_bind, ok_onFs, ok_malloc]
  obtain ⟨hm, hk⟩ := h.tail
  split
  next =>
    rw [ok_bind, ok_onFs]
    refine (ok_filesysOpen hm.wf name).mono ?_
    rintro found f ⟨hw, htame, hres⟩
    cases found with
    | none => exact (ok_pure _).mpr (hk.trans ⟨hm.same hw htame.mapFile fun g => by rw [hres.2.1], htame.gone⟩)
    | some g =>
      obtain ⟨hview, -, j, -, -, -, q, hfiles⟩ := hres
      have hg := hm.wf.files_of_view hview
      have hnodup := nodup_cons.mpr ⟨hm.not_has (k := .descriptor) hg, (h.nodup t).1⟩
      exact ok_modProc.mpr (hk.trans ⟨hm.add hw htame.mapFile hg hfiles ⟨hnodup, (h.nodup t).2⟩ Proc.has_fds_cons,
        htame.gone⟩)
  next => exact (ok_pure _).mpr hk

theorem ok_sysClose (hg : g ∈ (s.procs t).fds) : Ok (sysClose t g) s fun _ s' => s.Keeps s' := by
  have hd : (s.procs t).Has g .descriptor := hg
  obtain ⟨e, he, hmap⟩ := h.handle hd
  unfold sysClose
  rw [ok_bind, ok_onFs]
  refine (ok_fileClose h.wf he hmap).mono ?_
  rintro _ f ⟨hw, htame, -, hfiles⟩
  refine ok_modProc.mpr ⟨h.drop [g] hw htame.mapFile (fun g' hg' => ⟨.descriptor, ?_⟩) (fun g' => ?_)
    ⟨(h.nodup t).1.erase g, (h.nodup t).2⟩ fun k g' => ?_, htame.gone⟩
  · rwa [mem_singleton.mp hg']
  · rw [hfiles, update_apply]
    simp only [mem_singleton]
  · cases k with
    | descriptor =>
      change g' ∈ (s.procs t).fds.erase g ↔ _
      rw [(h.nodup t).1.mem_erase_iff, mem_singleton]
      exact and_comm
    | mapping =>
      have hne : (s.procs t).Has g' .mapping → g' ∉ [g] := fun hh hx =>
        h.kind_ne hh hd nofun (mem_singleton.mp hx)
      exact ⟨fun hh => ⟨hh, hne hh⟩, And.left⟩
    | executable =>
      have hne : (s.procs t).Has g' .executable → g' ∉ [g] := fun hh hx =>
        h.kind_ne hh hd nofun (mem_singleton.mp hx)
      exact ⟨fun hh => ⟨hh, hne hh⟩, And.left⟩

/-- `mmap` takes no reference, or one that the new mapping has. -/
theorem ok_sysMmap {aligned fits : Bool} (hg : g ∈ (s.procs t).fds) (hok : aligned = true → fits = true) :
    Ok (sysMmap t g aligned fits) s fun _ s' => s.Keeps s' := by
  obtain ⟨hm, hk⟩ := h.tail
  obtain ⟨e, he, hmap⟩ := hm.handle (t := t) (k := .descriptor) hg
  unfold sysMmap
  rw [ok_bind, ok_onFs, ok_malloc]
  split
  next hcond =>
    rw [ok_bind, ok_onFs]
    refine (ok_fileReopen hm.wf he hmap).mono ?_
    rintro found f ⟨hw, htame, hres⟩
    cases found with
    | none => exact (ok_pure _).mpr (hk.trans ⟨hm.same hw htame.mapFile fun g => by rw [hres.2.2], htame.gone⟩)
    | some g' =>
      obtain ⟨hview, -, -, hfiles⟩ := hres
      have hg' := hm.wf.files_of_view hview
      have hnodup := nodup_cons.mpr ⟨hm.not_has (k := .mapping) hg', (h.nodup t).2⟩
      dsimp only
      rw [hok (Bool.and_eq_true_iff.mp hcond).2, ok_bind, ok_modProc, if_pos rfl, ok_pure]
      exact hk.trans ⟨hm.add hw htame.mapFile hg' hfiles ⟨(h.nodup t).1, hnodup⟩ Proc.has_mappings_cons, htame.gone⟩
  next => exact (ok_pure _).mpr hk

theorem ok_sysRemove (name : Name) : Ok (sysRemove name) s fun _ s' => s.Keeps s' := by
  unfold sysRemove
  rw [ok_bind, ok_onFs]
  refine (ok_filesysRemove h.wf name).mono ?_
  rintro ok f ⟨hw, hfiles, -, htouch, hgone, -⟩
  exact (ok_pure _).mpr ⟨h.same hw htouch.mapFile fun g => by rw [hfiles], hgone⟩

/-- A process without mappings closes every file it refers to. -/
theorem ok_threadExit (hmap : (s.procs t).mappings = []) (dirty : Nat → Dirty) :
    Ok (threadExit t dirty) s fun _ s' => s.Keeps s' ∧ s'.procs t = Proc.init := by
  have hself : ∀ f, ((s.setFs f).setProc t Proc.init).procs t = Proc.init := fun f => update_self ..
  unfold threadExit syscallExit processExit
  rw [ok_bind, ok_bind, ok_getProc, ok_bind, ok_onFs, hmap]
  refine (ok_closeAll h.wf (h.nodup t).1 fun g hg => h.handle (k := .descriptor) hg).mono ?_
  rintro _ f ⟨hw, htame, hfiles⟩
  unfold unmapAll
  rw [ok_pure, ok_bind, ok_bind, ok_getProc]
  have hinit : Proc.init.fds.Nodup ∧ Proc.init.mappings.Nodup := ⟨nodup_nil, nodup_nil⟩
  cases hb : (s.procs t).binFile with
  | none =>
    rw [Sys.setFs_procs, hb, ok_pure, ok_modProc]
    refine ⟨⟨h.drop (s.procs t).fds hw htame.mapFile (fun g hg => ⟨.descriptor, hg⟩) hfiles hinit fun k g => ?_,
      htame.gone⟩, hself f⟩
    refine iff_of_false (Proc.not_has_init g k) ?_
    cases k with
    | descriptor => exact fun hh => hh.2 hh.1
    | mapping => simp [Proc.Has, hmap]
    | executable => simp [Proc.Has, hb]
  | some b =>
    have hbx : (s.procs t).Has b .executable := hb
    obtain ⟨e, he, hbm⟩ := h.handle hbx
    have hne : b ∉ (s.procs t).fds := fun hx =>
      h.kind_ne hbx (show (s.procs t).Has b .descriptor from hx) nofun rfl
    rw [Sys.setFs_procs, hb]
    dsimp only
    rw [ok_onFs]
    refine (ok_fileClose hw (f := e) (by rw [hfiles, if_neg hne, he])
      (by rw [htame.mapFile]; exact hbm)).mono ?_
    rintro _ f' ⟨hw', htame', -, hfiles'⟩
    rw [ok_modProc]
    refine ⟨⟨h.drop (b :: (s.procs t).fds) hw' (htame'.mapFile.trans htame.mapFile) (fun g hg => ?_) (fun g => ?_)
      hinit fun k g => ?_, fun x d hg => htame'.gone x d (htame.gone x d hg)⟩, hself f'⟩
    · rcases mem_cons.mp hg with rfl | hg
      · exact ⟨.executable, hbx⟩
      · exact ⟨.descriptor, hg⟩
    · rw [hfiles', update_apply]
      by_cases hgb : g = b
      · rw [if_pos hgb, if_pos (mem_cons.mpr (.inl hgb))]
      · rw [if_neg hgb, hfiles]
        simp only [mem_cons, hgb, false_or]
    · refine iff_of_false (Proc.not_has_init g k) ?_
      cases k with
      | descriptor => exact fun hh => hh.2 (mem_cons_of_mem b hh.1)
      | mapping => simp [Proc.Has, hmap]
      | executable =>
        rintro ⟨hg, hnot⟩
        rw [show g = b from Option.mem_unique hg hb] at hnot
        exact hnot (mem_cons_self ..)

/-- The executable that `load` opens is closed when it fails. -/
theorem ok_processExecute (hinit : s.procs t = Proc.init) (name : Name) (memory valid : Bool) :
    Ok (processExecute t name memory valid) s fun _ s' => s.Keeps s' := by
  unfold processExecute
  rw [ok_bind, ok_modProc, hinit]
  have hstart : (s.setProc t { Proc.init with alive := true }).Owned :=
    h.drop (f := s.fs) [] h.wf rfl nofun (fun g => rfl) ⟨nodup_nil, nodup_nil⟩ fun k g => by
      rw [hinit]
      cases k <;> simp [Proc.Has]
  have hproc : (s.setProc t { Proc.init with alive := true }).procs t = { Proc.init with alive := true } :=
    update_self ..
  have hk : s.Keeps (s.setProc t { Proc.init with alive := true }) := ⟨hstart, fun _ _ => id⟩
  generalize s.setProc t { Proc.init with alive := true } = u at hstart hproc hk
  have hexit : ∀ v : Sys, s.Keeps v → (v.procs t).mappings = [] →
      Ok (threadExit t fun _ => []) v fun _ s' => s.Keeps s' := fun v hv hmap =>
    (hv.owned.ok_threadExit hmap _).mono fun _ _ hx => hv.trans hx.1
  unfold load
  rw [ok_bind]
  split
  next =>
    rw [ok_bind, ok_onFs]
    refine (ok_filesysOpen hstart.wf name).mono ?_
    rintro found f ⟨hw, htame, hres⟩
    cases found with
    | none =>
      rw [ok_pure, if_neg Bool.false_ne_true]
      exact hexit _ (hk.trans ⟨hstart.same hw htame.mapFile fun g => by rw [hres.2.1], htame.gone⟩) (by
        rw [Sys.setFs_procs, hproc]
        rfl)
    | some g =>
      obtain ⟨hview, hhandle, j, -, -, -, q, hfiles⟩ := hres
      have hg := hstart.wf.files_of_view hview
      dsimp only
      rw [ok_bind, ok_modProc, ok_bind, ok_onFs]
      have hbin := hstart.add (t := t) (p := { u.procs t with binFile := some g }) hw htame.mapFile hg hfiles
        (hstart.nodup t) (Proc.has_binFile (by rw [hproc]; rfl))
      have hopen : f.files g = some ⟨q, 0, false⟩ := by rw [hfiles, update_self]
      refine (ok_fileDenyWrite hw hopen hhandle.2).mono ?_
      rintro _ f' ⟨hw', htame', -, -, hfiles'⟩
      rw [ok_pure]
      have hsome : ∀ k, (f'.files k).isSome = (f.files k).isSome := fun k => by
        rw [hfiles', update_apply]
        split
        next hkg => rw [hkg, hopen]; rfl
        next => rfl
      have hrun := hbin.same hw' htame'.mapFile hsome
      have hkeep : s.Keeps _ := hk.trans ⟨hrun, fun x d hx => htame'.gone x d (htame.gone x d hx)⟩
      split
      next => exact (ok_pure _).mpr hkeep
      next =>
        refine hexit _ hkeep ?_
        rw [Sys.setFs_procs, Sys.setProc_procs, update_self, Sys.setFs_procs, hproc]
        rfl
  next =>
    rw [ok_pure, if_neg Bool.false_ne_true]
    exact hexit u hk (by rw [hproc]; rfl)

end Sys.Owned

/-! ## Runs -/

/-- No mapping is given up: no process that has one ends, and no `mmap` fails
once it has reopened the file. -/
def Call.NoUnmap (s : Sys) : Call → Prop
  | .exit t _ => (s.procs t).mappings = []
  | .mmap _ _ aligned fits => aligned = true → fits = true
  | _ => True

inductive Sys.Run : Sys → Sys → Prop
  | refl (s : Sys) : Sys.Run s s
  | call {s u v : Sys} {c : Call} (h : Sys.Run s u) (hv : c.Valid u) (hc : c.NoUnmap u) (he : c.code u = .ok ((), v)) :
      Sys.Run s v

theorem Sys.Owned.call {c : Call} (h : s.Owned) (hv : c.Valid s) (hc : c.NoUnmap s)
    (he : c.code s = .ok ((), s')) : s.Keeps s' := by
  cases c with
  | «open» t name => exact (h.ok_sysOpen name).post he
  | close t g => exact (h.ok_sysClose hv).post he
  | mmap t g aligned fits => exact (h.ok_sysMmap hv hc).post he
  | munmap => cases he
  | remove name => exact (h.ok_sysRemove name).post he
  | exec t name memory valid => exact (h.ok_processExecute hv name memory valid).post he
  | exit t dirty => exact ((h.ok_threadExit hc dirty).post he).1

theorem Sys.Run.keeps (h : s.Owned) (hrun : s.Run s') : s.Keeps s' := by
  induction hrun with
  | refl => exact ⟨h, fun _ _ => id⟩
  | call _ hv hc he ih => exact ih.trans (ih.owned.call hv hc he)

end Pintos.Fs
