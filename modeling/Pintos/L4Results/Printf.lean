import Pintos.L3Proof.Printf

/-!
# Scanning a format

* `vprintf_scan_iff`: `__vprintf` returns and copies what stands outside the
  conversions exactly if no conversion of the format is cut off by the
  terminator. In a format that ends inside a conversion it goes on beyond the
  terminator.
-/
namespace Pintos.Printf
open Pintos.Core Pintos.Stdio List

/-! ## The pieces of a format -/

/-- A character that is copied, `%%`, a conversion with the kinds of its
arguments, or the beginning of one up to the end of the format. -/
inductive Piece where
  | char (c : UInt8)
  | percent
  | conversion (kinds : List Kind)
  | cut (kinds : List Kind)

def Piece.kinds : Piece → List Kind
  | .char _ => []
  | .percent => []
  | .conversion kinds => kinds
  | .cut kinds => kinds

def Piece.isCut : Piece → Bool
  | .cut _ => true
  | _ => false

/-- The pieces of a format. -/
inductive Scan : List UInt8 → List Piece → Prop
  | nil : Scan [] []
  | char {c : UInt8} {l : List UInt8} {ps : List Piece} : c ≠ 0x25 → Scan l ps → Scan (c :: l) (.char c :: ps)
  | percent {l : List UInt8} {ps : List Piece} : Scan l ps → Scan (0x25 :: 0x25 :: l) (.percent :: ps)
  | conversion {l rest : List UInt8} {ch : UInt8} {ps : List Piece} : l.head? ≠ some 0x25 →
      afterOptions l = ch :: rest → Scan rest ps →
      Scan (0x25 :: l) (.conversion (optionArgs l ++ valueArgs (lengthModifier (beforeLength l)).1 ch) :: ps)
  | cut {l : List UInt8} : l.head? ≠ some 0x25 → afterOptions l = [] → Scan (0x25 :: l) [.cut (optionArgs l)]

/-- The output of a format: what stands outside the conversions is copied, in
order. -/
def Copies : List Piece → List UInt8 → Prop
  | [], out => out = []
  | .char c :: ps, out => ∃ rest, out = c :: rest ∧ Copies ps rest
  | .percent :: ps, out => ∃ rest, out = 0x25 :: rest ∧ Copies ps rest
  | .conversion _ :: ps, out | .cut _ :: ps, out => ∃ text rest, out = text ++ rest ∧ Copies ps rest

/-- No conversion is cut off. -/
def Whole (ps : List Piece) : Prop := ∀ p ∈ ps, p.isCut = false

theorem whole_cons {p : Piece} {ps : List Piece} (hp : p.isCut = false) : Whole (p :: ps) ↔ Whole ps := by
  simp [Whole, hp]

/-! ## Every format has pieces -/

theorem skipNumber_suffix (l : List UInt8) : skipNumber l <:+ l := by
  rw [skipNumber]
  by_cases h : l.head? = some 0x2a
  · rw [if_pos h]
    exact tail_suffix l
  · rw [if_neg h]
    exact dropWhile_suffix _

theorem skipPrecision_suffix (l : List UInt8) : skipPrecision l <:+ l := by
  rw [skipPrecision]
  by_cases h : l.head? = some 0x2e
  · rw [if_pos h]
    exact (skipNumber_suffix l.tail).trans (tail_suffix l)
  · rw [if_neg h]

theorem secondLetter_suffix (c : UInt8) (twice once : ArgType) (l : List UInt8) :
    (secondLetter c twice once l).2 <:+ l := by
  rw [secondLetter]
  by_cases h : l.head? = some c
  · rw [if_pos h]
    exact tail_suffix l
  · rw [if_neg h]

theorem lengthModifier_suffix (l : List UInt8) : (lengthModifier l).2 <:+ l := by
  cases l with
  | nil => exact suffix_refl _
  | cons c l =>
    have htail : l <:+ c :: l := suffix_cons c l
    rw [lengthModifier]
    split_ifs
    · exact (secondLetter_suffix _ _ _ l).trans htail
    · exact htail
    · exact (secondLetter_suffix _ _ _ l).trans htail
    · exact htail
    · exact htail
    · exact suffix_refl _

theorem afterOptions_suffix (l : List UInt8) : afterOptions l <:+ l :=
  (lengthModifier_suffix _).trans ((skipPrecision_suffix _).trans
    ((skipNumber_suffix _).trans (dropWhile_suffix _)))

theorem exists_scan (l : List UInt8) : ∃ ps, Scan l ps := by
  induction hn : l.length using Nat.strong_induction_on generalizing l with
  | _ n ih =>
    cases l with
    | nil => exact ⟨[], .nil⟩
    | cons c l =>
      rw [length_cons] at hn
      by_cases hc : c = 0x25
      · subst hc
        by_cases hpercent : l.head? = some 0x25
        · obtain ⟨rest, rfl⟩ : ∃ rest, l = 0x25 :: rest := ⟨l.tail, eq_cons_of_mem_head? hpercent⟩
          rw [length_cons] at hn
          obtain ⟨ps, hps⟩ := ih rest.length (by omega) rest rfl
          exact ⟨_, .percent hps⟩
        · have hle := (afterOptions_suffix l).length_le
          cases hafter : afterOptions l with
          | nil => exact ⟨_, .cut hpercent hafter⟩
          | cons ch rest =>
            rw [hafter, length_cons] at hle
            obtain ⟨ps, hps⟩ := ih rest.length (by omega) rest rfl
            exact ⟨_, .conversion hpercent hafter hps⟩
      · obtain ⟨ps, hps⟩ := ih l.length (by omega) l rfl
        exact ⟨_, .char hc hps⟩

/-! ## One step of the scan -/

section
variable {n : Nat} {l : List UInt8} {args : List Arg} {out : List UInt8}

theorem vprintfLoop_char {c : UInt8} (h0 : c ≠ 0) (hc : c ≠ 0x25) :
    vprintfLoop (n + 1) (c :: l) ⟨args, out⟩ = vprintfLoop n l ⟨args, out ++ [c]⟩ := by
  rw [vprintfLoop.eq_def]
  dsimp only
  rw [if_neg h0, if_pos hc]
  exact bind_of_ok (emit_eq _ _)

theorem vprintfLoop_percent :
    vprintfLoop (n + 1) (0x25 :: 0x25 :: l) ⟨args, out⟩ = vprintfLoop n l ⟨args, out ++ [0x25]⟩ := by
  exact bind_of_ok (emit_eq [0x25] ⟨args, out⟩)

variable (n args out) in
/-- A conversion, or what is left of one: `ch` may be the terminator. -/
theorem vprintfLoop_conversion {ch : UInt8} {rest : List UInt8} {as bs : List Arg} (hl : l.head? ≠ some 0x25)
    (hafter : afterOptions l ++ [0] = ch :: rest) (has : as.map Arg.kind = optionArgs l)
    (hbs : bs.map Arg.kind = valueArgs (lengthModifier (beforeLength l)).1 ch) :
    ∃ text, vprintfLoop (n + 1) (0x25 :: (l ++ [0])) ⟨as ++ (bs ++ args), out⟩ =
      vprintfLoop n rest ⟨args, out ++ text⟩ := by
  obtain ⟨c, hparse, htype⟩ := parseConversion_ok has (bs ++ args) out
  rw [hafter] at hparse
  rw [← htype] at hbs
  obtain ⟨text, htext⟩ := convert_ok hbs args out
  refine ⟨text, ?_⟩
  obtain ⟨d, l', hd, hne⟩ : ∃ d l', l ++ [0] = d :: l' ∧ d ≠ 0x25 := by
    cases l with
    | nil => exact ⟨0, [], rfl, by decide⟩
    | cons d l => exact ⟨d, l ++ [0], rfl, fun h => hl (by rw [h]; rfl)⟩
  rw [hd] at hparse ⊢
  rw [vprintfLoop, if_neg (by decide), if_neg (by decide)]
  rw [if_neg hne]
  refine Eq.trans (bind_of_ok hparse) ?_
  exact bind_of_ok htext

end

/-! ## The whole scan -/

/-- The loop over a format, piece by piece. -/
theorem vprintfLoop_scan {l : List UInt8} {ps : List Piece} (h : Scan l ps) : (∀ c ∈ l, c ≠ 0) →
    ∀ n, l.length + 1 ≤ n → ∀ (as args : List Arg) (out : List UInt8), as.map Arg.kind = ps.flatMap Piece.kinds →
    (Whole ps ∧ ∃ text, vprintfLoop n (l ++ [0]) ⟨as ++ args, out⟩ = .ok ((), ⟨args, out ++ text⟩) ∧
      Copies ps text) ∨ (¬Whole ps ∧ vprintfLoop n (l ++ [0]) ⟨as ++ args, out⟩ = .error .format) := by
  induction h with
  | nil =>
    intro _ n hn as args out has
    obtain rfl := map_eq_nil_iff.mp has
    obtain ⟨n, rfl⟩ : ∃ k, n = k + 1 := ⟨n - 1, by omega⟩
    refine .inl ⟨fun p hp => absurd hp not_mem_nil, [], ?_, rfl⟩
    rw [append_nil]
    rfl
  | @char c l ps hc _ ih =>
    intro h0 n hn as args out has
    rw [length_cons] at hn
    obtain ⟨n, rfl⟩ : ∃ k, n = k + 1 := ⟨n - 1, by omega⟩
    have hrest := ih (fun d hd => h0 d (mem_cons_of_mem c hd)) n (by omega) as args (out ++ [c]) has
    rw [cons_append, vprintfLoop_char (h0 c mem_cons_self) hc, whole_cons rfl]
    rcases hrest with ⟨hwhole, text, hrun, hcopy⟩ | hcut
    · refine .inl ⟨hwhole, c :: text, ?_, text, rfl, hcopy⟩
      rw [hrun, append_assoc]
      rfl
    · exact .inr hcut
  | @percent l ps _ ih =>
    intro h0 n hn as args out has
    rw [length_cons, length_cons] at hn
    obtain ⟨n, rfl⟩ : ∃ k, n = k + 1 := ⟨n - 1, by omega⟩
    have hrest := ih (fun d hd => h0 d (mem_cons_of_mem _ (mem_cons_of_mem _ hd))) n (by omega) as args
      (out ++ [0x25]) has
    rw [cons_append, cons_append, vprintfLoop_percent, whole_cons rfl]
    rcases hrest with ⟨hwhole, text, hrun, hcopy⟩ | hcut
    · refine .inl ⟨hwhole, 0x25 :: text, ?_, text, rfl, hcopy⟩
      rw [hrun, append_assoc]
      rfl
    · exact .inr hcut
  | @conversion l rest ch ps hl hafter _ ih =>
    intro h0 n hn as args out has
    rw [length_cons] at hn
    obtain ⟨n, rfl⟩ : ∃ k, n = k + 1 := ⟨n - 1, by omega⟩
    have hsuffix := afterOptions_suffix l
    rw [hafter] at hsuffix
    have hlen := hsuffix.length_le
    rw [length_cons] at hlen
    rw [flatMap_cons] at has
    obtain ⟨as', cs, rfl, hkinds, hcs⟩ := map_eq_append_iff.mp has
    obtain ⟨as, bs, rfl, has', hbs⟩ := map_eq_append_iff.mp hkinds
    obtain ⟨text, hstep⟩ := vprintfLoop_conversion n (cs ++ args) out hl
      (show afterOptions l ++ [0] = ch :: (rest ++ [0]) by rw [hafter]; rfl) has' hbs
    have hrest := ih (fun d hd => h0 d (mem_cons_of_mem _ (hsuffix.subset (mem_cons_of_mem _ hd)))) n
      (by omega) cs args (out ++ text) hcs
    rw [cons_append, append_assoc, append_assoc, hstep, whole_cons rfl]
    rcases hrest with ⟨hwhole, text', hrun, hcopy⟩ | hcut
    · refine .inl ⟨hwhole, text ++ text', ?_, text, text', rfl, hcopy⟩
      rw [hrun, append_assoc]
    · exact .inr hcut
  | @cut l hl hafter =>
    intro h0 n hn as args out has
    rw [length_cons] at hn
    obtain ⟨n, rfl⟩ : ∃ k, n = k + 2 := ⟨n - 2, by omega⟩
    have hbs : ([] : List Arg).map Arg.kind = valueArgs (lengthModifier (beforeLength l)).1 0 := rfl
    rw [flatMap_singleton] at has
    obtain ⟨text, hstep⟩ := vprintfLoop_conversion (n + 1) args out hl (by rw [hafter]; rfl) has hbs
    refine .inr ⟨fun hw => absurd (hw _ mem_cons_self) Bool.noConfusion, ?_⟩
    rw [cons_append]
    exact hstep

/-- `__vprintf` returns without reading beyond the terminator, and copies what
stands outside the conversions, exactly if the format has whole conversions. -/
theorem vprintf_scan_iff (format : List UInt8) (h0 : ∀ c ∈ format, c ≠ 0) :
    (∃ ps, Scan format ps) ∧ ∀ ps, Scan format ps → ∀ args out, ps.flatMap Piece.kinds <+: args.map Arg.kind →
      ((∃ rest text, vprintf format ⟨args, out⟩ = .ok ((), ⟨rest, out ++ text⟩) ∧ Copies ps text) ↔ Whole ps) := by
  refine ⟨exists_scan format, fun ps hps args out hkinds => ?_⟩
  obtain ⟨ks, hks⟩ := hkinds
  obtain ⟨as, rest, rfl, has, -⟩ := map_eq_append_iff.mp hks.symm
  rcases vprintfLoop_scan hps h0 (format.length + 2) (by omega) as rest out has with
    ⟨hwhole, text, hrun, hcopy⟩ | ⟨hcut, hrun⟩
  · exact ⟨fun _ => hwhole, fun _ => ⟨rest, text, hrun, hcopy⟩⟩
  · -- the run has read beyond the terminator
    refine ⟨?_, fun hwhole => absurd hwhole hcut⟩
    rintro ⟨rest', text, hok, -⟩
    rw [vprintf, hrun] at hok
    cases hok

/-- The format `a%d`. -/
theorem vprintf_scan_iff_number :
    ∃ rest text, vprintf [0x61, 0x25, 0x64] ⟨[.word 7], []⟩ = .ok ((), ⟨rest, [] ++ text⟩) ∧
      Copies [.char 0x61, .conversion [.word]] text := by
  have hscan : Scan [0x61, 0x25, 0x64] [.char 0x61, .conversion [.word]] :=
    .char (by decide) (.conversion (l := [0x64]) (by decide) rfl .nil)
  refine ((vprintf_scan_iff [0x61, 0x25, 0x64] (by simp)).2 _ hscan [.word 7] [] ⟨[], rfl⟩).mpr ?_
  intro p hp
  rcases mem_cons.mp hp with rfl | hp
  · rfl
  · rw [mem_singleton.mp hp]
    rfl

/-- A format that is a lone percent sign. -/
theorem vprintf_beyond_terminator : vprintf [0x25] ⟨[], []⟩ = .error .format := by
  decide

/-- The text for an unknown conversion is what `__vprintf` itself prints for the
format that the source gives it. -/
example : vprintf (ascii "<<no %%%c conversion>>") ⟨[.word 0x6b], []⟩ =
    .ok ((), ⟨[], ascii "<<no %" ++ 0x6b :: ascii " conversion>>"⟩) := by
  decide +kernel

end Pintos.Printf
