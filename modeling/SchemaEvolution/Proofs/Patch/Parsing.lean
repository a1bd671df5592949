import SchemaEvolution.Proofs.Patch.Path
import SchemaEvolution.Repeated

/-!
# Texts that are paths

A path has several texts: an index may be written with a plus sign or leading zeros, and a tilde
that escapes nothing stands for itself.  Whatever text is parsed, the path that it gives has no
empty name and a position that fits, so its own text leads back to it, and two texts are printed
alike exactly when they denote one path.
-/

namespace SchemaEvolution.Patch

/-- A segment that is read as a position gives one that can be printed. -/
theorem Position.fits_of_ofSegment {segment : String} {position : Position}
    (hposition : Position.ofSegment segment = .ok position) : position.Fits := by
  unfold ofSegment at hposition
  split at hposition
  · cases hposition
    trivial
  · split at hposition
    · next index hindex =>
      cases hposition
      exact Numeral.lt_of_readUnsigned? hindex
    · cases hposition

/-- Segments that are read as a place in an index give one that can be printed. -/
theorem IndexSpot.fits_of_ofSegments {segments : List String} {spot : IndexSpot}
    (hspot : IndexSpot.ofSegments segments = .ok spot) : spot.Fits := by
  unfold ofSegments at hspot
  split at hspot
  · cases hspot
    trivial
  · obtain ⟨field, -, rfl⟩ := exists_of_map_eq_ok hspot
    trivial
  · obtain ⟨position, hposition, rfl⟩ := exists_of_map_eq_ok hspot
    exact Position.fits_of_ofSegment hposition
  · cases hspot

theorem ConstraintSpot.fits_of_ofSegments {segments : List String} {spot : ConstraintSpot}
    (hspot : ConstraintSpot.ofSegments segments = .ok spot) : spot.Fits := by
  unfold ofSegments at hspot
  split at hspot
  · cases hspot
    trivial
  · obtain ⟨field, -, rfl⟩ := exists_of_map_eq_ok hspot
    trivial
  · obtain ⟨list, -, hspot⟩ := exists_of_bind_eq_ok hspot
    obtain ⟨position, hposition, hspot⟩ := exists_of_bind_eq_ok hspot
    cases hspot
    exact Position.fits_of_ofSegment hposition
  · cases hspot

theorem EnumSpot.fits_of_ofSegments {segments : List String} {spot : EnumSpot}
    (hspot : EnumSpot.ofSegments segments = .ok spot) : spot.Fits := by
  unfold ofSegments at hspot
  split at hspot
  · cases hspot
    trivial
  · obtain ⟨field, -, rfl⟩ := exists_of_map_eq_ok hspot
    trivial
  · obtain ⟨position, hposition, rfl⟩ := exists_of_map_eq_ok hspot
    exact Position.fits_of_ofSegment hposition
  · cases hspot

/-- The names of a spot are segments, so they are not empty when no segment is. -/
theorem TableSpot.wellFormed_of_ofSegments {segments : List String} {spot : TableSpot}
    (hsegments : "" ∉ segments) (hspot : TableSpot.ofSegments segments = .ok spot) :
    spot.WellFormed := by
  unfold ofSegments at hspot
  split at hspot
  · cases hspot
    trivial
  · obtain ⟨field, -, rfl⟩ := exists_of_map_eq_ok hspot
    trivial
  · obtain ⟨inner, -, rfl⟩ := exists_of_map_eq_ok hspot
    exact fun hname => hsegments (by simp [hname])
  · obtain ⟨inner, hinner, rfl⟩ := exists_of_map_eq_ok hspot
    exact ⟨fun hname => hsegments (by simp [hname]), IndexSpot.fits_of_ofSegments hinner⟩
  · obtain ⟨inner, hinner, rfl⟩ := exists_of_map_eq_ok hspot
    exact ⟨fun hname => hsegments (by simp [hname]), ConstraintSpot.fits_of_ofSegments hinner⟩
  · cases hspot

/-- A path that is read from segments, none of them empty, is one that can be printed. -/
theorem Path.wellFormed_of_ofSegments {segments : List String} {path : Path}
    (hsegments : "" ∉ segments) (hpath : Path.ofSegments segments = .ok path) :
    path.WellFormed := by
  unfold ofSegments at hpath
  split at hpath
  · next name rest =>
    obtain ⟨spot, hspot, rfl⟩ := exists_of_map_eq_ok hpath
    have hrest : "" ∉ rest := fun hmem => hsegments (by simp [hmem])
    exact ⟨fun hname => hsegments (by simp [hname]),
      TableSpot.wellFormed_of_ofSegments hrest hspot⟩
  · obtain ⟨spot, hspot, rfl⟩ := exists_of_map_eq_ok hpath
    exact ⟨fun hname => hsegments (by simp [hname]), EnumSpot.fits_of_ofSegments hspot⟩
  · obtain ⟨spot, -, rfl⟩ := exists_of_map_eq_ok hpath
    exact fun hname => hsegments (by simp [hname])
  · cases hpath

/-- A text that is parsed has no empty segment, so neither has its path an empty name. -/
theorem Path.wellFormed_of_parse {text : String} {path : Path}
    (hparse : Path.parse text = .ok path) : path.WellFormed := by
  unfold parse at hparse
  split at hparse
  · next rest _ =>
    simp only at hparse
    generalize (Text.cutAt '/' rest).map (fun segment => String.ofList (unescape segment)) =
      segments at hparse
    split at hparse
    · cases hparse
    · next hempty =>
      have hsegments : "" ∉ segments := fun hmem =>
        hempty (List.any_eq_true.2 ⟨"", hmem, rfl⟩)
      cases hpath : Path.ofSegments segments with
      | error mismatch => rw [hpath] at hparse; cases hparse
      | ok other =>
        rw [hpath] at hparse
        cases hparse
        exact Path.wellFormed_of_ofSegments hsegments hpath
  · cases hparse

/-- The paths that are parsed from their own texts are those with non-empty names and a position
that fits a word, and no others are ever parsed; hence the text that is printed for a parsed path
tells it from every other. -/
theorem Path.parse_text :
    (∀ path : Path, Path.parse path.text = .ok path ↔ path.WellFormed) ∧
      (∀ text path, Path.parse text = .ok path →
        path.WellFormed ∧ Path.parse path.text = .ok path) ∧
      ∀ text other path path', Path.parse text = .ok path → Path.parse other = .ok path' →
        (path.text = path'.text ↔ path = path') := by
  have hback : ∀ text path, Path.parse text = .ok path → Path.parse path.text = .ok path :=
    fun text path hparse => Path.parse_text_of_wellFormed (Path.wellFormed_of_parse hparse)
  refine ⟨fun path => ⟨Path.wellFormed_of_parse, Path.parse_text_of_wellFormed⟩,
    fun text path hparse => ⟨Path.wellFormed_of_parse hparse, hback text path hparse⟩, ?_⟩
  intro text other path path' hparse hother
  constructor
  · intro htext
    have hpath := hback text path hparse
    rw [htext, hback other path' hother] at hpath
    exact (Except.ok.inj hpath).symm
  · exact congrArg Path.text

/-- A slash and a tilde in names, and an index with a sign and zeros in front of it. -/
theorem Path.parse_text_lenient :
    Path.parse "/tables/a~1b/indexes/~01/columns/+007" =
        .ok (.table "a/b" (.index "~1" (.item (.at 7)))) ∧
      Path.parse "/tables/a~1b/indexes/~01/columns/7" =
        .ok (.table "a/b" (.index "~1" (.item (.at 7)))) ∧
      Path.text (.table "a/b" (.index "~1" (.item (.at 7)))) =
        "/tables/a~1b/indexes/~01/columns/7" ∧
      Path.parse (Path.text (.table "a/b" (.index "~1" (.item (.at 7))))) =
        .ok (.table "a/b" (.index "~1" (.item (.at 7)))) := by
  have hparse : Path.parse "/tables/a~1b/indexes/~01/columns/+007" =
      .ok (.table "a/b" (.index "~1" (.item (.at 7)))) := rfl
  exact ⟨hparse, rfl, rfl, (Path.parse_text.2.1 _ _ hparse).2⟩

end SchemaEvolution.Patch
