import Pintos.L3Proof.UstarSpec

/-!
# Archive headers

* `header_round_trip`: `ustar_parse_header` gets back the stripped name, the
  type and the size that `ustar_make_header` was given.
* `archive_names_confined`: a stripped name stays below the directory that an
  archive is extracted to, and so does every name that a header reports.
* `damaged_header_rejected`: no header of an entry is accepted after one of its
  bytes has changed, and what is accepted has a size of type `int`.
-/
namespace Pintos.Ustar

open Pintos.Stdio

theorem header_round_trip (fileName : List UInt8) (hnul : 0 ∉ fileName)
    (hlen : (stripAntisocialPrefixes fileName).length ≤ 99) (type : UstarType)
    (htype : type = .regular ∨ type = .directory) (size : Int) (h0 : 0 ≤ size) (hmax : size ≤ intMax) :
    ∃ h, ustarMakeHeader fileName type size = .ok h ∧ ustarParseHeader h =
      .ok ⟨some (stripAntisocialPrefixes fileName), type, if type = .regular then size else 0⟩ := by
  refine parse_make hnul hlen ?_ h0 hmax
  rcases htype with rfl | rfl <;> nofun

theorem header_round_trip_dots : stripAntisocialPrefixes (ascii "../.././/a") = ascii "a" ∧
    ∃ h, ustarMakeHeader (ascii "../.././/a") .regular 2147483647 = .ok h ∧
      ustarParseHeader h = .ok ⟨some (ascii "a"), .regular, 2147483647⟩ := by
  have hstrip : stripAntisocialPrefixes (ascii "../.././/a") = ascii "a" := by decide
  obtain ⟨h, hmake, hparse⟩ := header_round_trip (ascii "../.././/a") (by decide) (by rw [hstrip]; decide) .regular
    (.inl rfl) 2147483647 (by decide) (by decide)
  rw [hstrip] at hparse
  exact ⟨hstrip, h, hmake, hparse⟩

/-! ## Names -/

/-- Nothing of the tree above the directory is named. -/
structure Confined (r : List UInt8) : Prop where
  nonempty : r ≠ []
  root : ¬ [slash] <+: r
  here : ¬ [dot, slash] <+: r
  above : ¬ [dot, dot, slash] <+: r
  parent : r ≠ [dot, dot]

theorem strip_confined (s : List UInt8) :
    stripAntisocialPrefixes s = [dot] ∨ stripAntisocialPrefixes s <:+ s ∧ Confined (stripAntisocialPrefixes s) := by
  have hsocial := stripLoop_social (s := s) (Nat.le_refl s.length)
  rw [← Bool.not_eq_true, antisocial_iff] at hsocial
  simp only [not_or] at hsocial
  unfold stripAntisocialPrefixes
  dsimp only
  split
  next => exact .inl rfl
  next hs =>
    simp only [not_or] at hs
    exact .inr ⟨stripLoop_suffix _ _, hs.1, hsocial.1, hsocial.2.1, hsocial.2.2, hs.2⟩

/-- The string in the name field. -/
def nameOf (h : Header) : List UInt8 := (load h nameField).takeWhile (· ≠ 0)

/-- The function returns for every name, having read no byte behind the terminator,
and its result is a name it leaves as it is. -/
theorem archive_names_confined :
    (∀ name : List UInt8, 0 ∉ name → ∃ r, stripAntisocialPrefixesAt (name ++ [0]) = .ok (r ++ [0]) ∧
      (r = [dot] ∨ r <:+ name ∧ Confined r) ∧ stripAntisocialPrefixesAt (r ++ [0]) = .ok (r ++ [0])) ∧
    ∀ h p, ustarParseHeader h = .ok p → p.type ≠ .eof → ∃ r, p.fileName = some r ∧
      (r = [dot] ∨ r <:+ nameOf h ∧ Confined r) ∧ stripAntisocialPrefixesAt (r ++ [0]) = .ok (r ++ [0]) := by
  have hidem : ∀ name : List UInt8, 0 ∉ name →
      stripAntisocialPrefixesAt (stripAntisocialPrefixes name ++ [0]) = .ok (stripAntisocialPrefixes name ++ [0]) := by
    intro name hnul
    rw [stripAntisocialPrefixesAt_eq (strip_no_nul hnul), strip_idem]
  constructor
  · intro name hnul
    exact ⟨_, stripAntisocialPrefixesAt_eq hnul, strip_confined name, hidem name hnul⟩
  · intro h p hp htype
    cases accepted hp with
    | eof => exact absurd rfl htype
    | entry =>
      have hnul : 0 ∉ nameOf h := fun h0 => by simpa using List.mem_takeWhile_imp h0
      exact ⟨_, rfl, strip_confined (nameOf h), hidem (nameOf h) hnul⟩

/-! ## Damage -/

theorem damaged_header_rejected (h : Header) :
    (∀ p, ustarParseHeader h = .ok p → p.type ≠ .eof → ∀ i < headerSize,
      i < chksumField.ofs ∨ chksumField.ofs + chksumField.size ≤ i → ∀ v ≠ h i,
        ∃ e, ustarParseHeader (Function.update h i v) = .error e) ∧
    ((∃ e, ustarParseHeader h = .error e) ∨ ∃ p, ustarParseHeader h = .ok p ∧
      (p.type = .regular ∨ p.type = .directory ∨ p.type = .eof) ∧ 0 ≤ p.size ∧ p.size ≤ intMax) := by
  constructor
  · intro p hp htype i hi hout v hv
    cases accepted hp with
    | eof => exact absurd rfl htype
    | entry _ _ _ hmagic hsum =>
      cases hq : ustarParseHeader (Function.update h i v) with
      | error e => exact ⟨e, rfl⟩
      | ok q =>
        -- a header that is accepted has its checksum in a field that has not changed
        cases accepted hq with
        | eof hz => simp [isAllZeros_update hmagic] at hz
        | entry _ _ _ _ hsum' =>
          rw [parseOctalField, load_update hout, ← parseOctalField, hsum] at hsum'
          exact absurd (Option.some.inj hsum').symm (calculateChksum_update hi hout hv)
  · cases hp : ustarParseHeader h with
    | error e => exact .inl ⟨e, rfl⟩
    | ok p =>
      apply Or.inr
      cases accepted hp with
      | eof => exact ⟨_, rfl, .inr (.inr rfl), by decide, by decide⟩
      | entry htype h0 hmax => exact ⟨_, rfl, htype.imp_right .inl, h0, hmax⟩

end Pintos.Ustar
