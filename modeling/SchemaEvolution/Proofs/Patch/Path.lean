import SchemaEvolution.Patch.Path
import SchemaEvolution.Proofs.Numeral.Whole

/-!
# Paths and their texts

A path whose names are not empty is what its text is parsed to: escaping hides every slash
of a segment, cutting at slashes gives the segments back, and the segments of a path lead to
that path.
-/

namespace SchemaEvolution.Patch

section Replacements

variable {first c : Char} {more new rest : List Char}

theorem replace_cons_of_ne (hc : c ≠ first) :
    Text.replace (first :: more) new (c :: rest) = c :: Text.replace (first :: more) new rest := by
  rw [Text.replace, Text.replaceAfter, if_neg (by simp [List.isPrefixOf, Ne.symm hc])]
  rfl

theorem replaceAfter_append (part new skipped rest : List Char) :
    Text.replaceAfter part new skipped.length (skipped ++ rest) =
      Text.replaceAfter part new 0 rest := by
  induction skipped with
  | nil => rfl
  | cons c skipped ih => rw [List.length_cons, List.cons_append, Text.replaceAfter, ih]

theorem replace_append :
    Text.replace (first :: more) new (first :: more ++ rest) =
      new ++ Text.replace (first :: more) new rest := by
  have hfound : (first :: more).isPrefixOf (first :: (more ++ rest)) = true :=
    List.isPrefixOf_iff_prefix.2 (List.prefix_append (first :: more) rest)
  rw [List.cons_append, Text.replace, Text.replaceAfter, if_pos hfound, List.length_cons,
    Nat.add_sub_cancel, replaceAfter_append]
  rfl

theorem replace_cons_of_head?_ne {second : Char} (hhead : rest.head? ≠ some second) :
    Text.replace [first, second] new (first :: rest) =
      first :: Text.replace [first, second] new rest := by
  rw [Text.replace, Text.replaceAfter, if_neg]
  · rfl
  · cases rest with
    | nil => simp [List.isPrefixOf]
    | cons c rest =>
      have hc : second ≠ c := fun heq => hhead (by rw [heq]; rfl)
      simp [List.isPrefixOf, hc]

end Replacements

section Escapes

variable (rest : List Char)

theorem escape_tilde : escape ('~' :: rest) = '~' :: '0' :: escape rest := by
  have htilde : Text.replace ['~'] ['~', '0'] ('~' :: rest) =
      '~' :: '0' :: Text.replace ['~'] ['~', '0'] rest := replace_append
  rw [escape, htilde, replace_cons_of_ne (by decide), replace_cons_of_ne (by decide), escape]

theorem escape_slash : escape ('/' :: rest) = '~' :: '1' :: escape rest := by
  have hslash (others : List Char) : Text.replace ['/'] ['~', '1'] ('/' :: others) =
      '~' :: '1' :: Text.replace ['/'] ['~', '1'] others := replace_append
  rw [escape, replace_cons_of_ne (by decide), hslash, escape]

theorem unescape_slash : unescape ('~' :: '1' :: rest) = '/' :: unescape rest := by
  have hslash : Text.replace ['~', '1'] ['/'] ('~' :: '1' :: rest) =
      '/' :: Text.replace ['~', '1'] ['/'] rest := replace_append
  rw [unescape, hslash, replace_cons_of_ne (by decide), unescape]

/-- The zero that follows the tilde keeps it from being read as the escape of a slash. -/
theorem unescape_tilde : unescape ('~' :: '0' :: rest) = '~' :: unescape rest := by
  have htilde (others : List Char) : Text.replace ['~', '0'] ['~'] ('~' :: '0' :: others) =
      '~' :: Text.replace ['~', '0'] ['~'] others := replace_append
  have hzero : Text.replace ['~', '1'] ['/'] ('0' :: rest) =
      '0' :: Text.replace ['~', '1'] ['/'] rest := replace_cons_of_ne (by decide)
  rw [unescape, replace_cons_of_head?_ne (by simp), hzero, htilde, unescape]

variable {c : Char} {rest : List Char}

theorem escape_of_ne (htilde : c ≠ '~') (hslash : c ≠ '/') :
    escape (c :: rest) = c :: escape rest := by
  rw [escape, replace_cons_of_ne htilde, replace_cons_of_ne hslash, escape]

theorem unescape_of_ne (htilde : c ≠ '~') : unescape (c :: rest) = c :: unescape rest := by
  rw [unescape, replace_cons_of_ne htilde, replace_cons_of_ne htilde, unescape]

end Escapes

theorem unescape_escape (cs : List Char) : unescape (escape cs) = cs := by
  induction cs with
  | nil => rfl
  | cons c rest ih =>
    by_cases htilde : c = '~'
    · rw [htilde, escape_tilde, unescape_tilde, ih]
    by_cases hslash : c = '/'
    · rw [hslash, escape_slash, unescape_slash, ih]
    rw [escape_of_ne htilde hslash, unescape_of_ne htilde, ih]

/-- An escaped segment has no slash. -/
theorem slash_not_mem_escape (cs : List Char) : '/' ∉ escape cs := by
  induction cs with
  | nil => exact List.not_mem_nil
  | cons c rest ih =>
    by_cases htilde : c = '~'
    · rw [htilde, escape_tilde]
      simp [ih]
    by_cases hslash : c = '/'
    · rw [hslash, escape_slash]
      simp [ih]
    rw [escape_of_ne htilde hslash]
    simp [ih, Ne.symm hslash]

theorem cutAt_of_not_mem {separator : Char} {cs : List Char} (hfree : separator ∉ cs) :
    Text.cutAt separator cs = [cs] := by
  induction cs with
  | nil => rfl
  | cons c rest ih =>
    rw [List.mem_cons, not_or] at hfree
    rw [Text.cutAt, if_neg (Ne.symm hfree.1), ih hfree.2]

theorem cutAt_append {separator : Char} {cs : List Char} (hfree : separator ∉ cs)
    (rest : List Char) :
    Text.cutAt separator (cs ++ separator :: rest) = cs :: Text.cutAt separator rest := by
  induction cs with
  | nil => simp [Text.cutAt]
  | cons c more ih =>
    rw [List.mem_cons, not_or] at hfree
    rw [List.cons_append, Text.cutAt, if_neg (Ne.symm hfree.1), ih hfree.2]

/-- Cutting the text of some segments, without its first slash, gives them back. -/
theorem cutAt_segments (first : String) (more : List String) :
    Text.cutAt '/' (escape first.toList ++ more.flatMap fun segment => '/' :: escape segment.toList) =
      (first :: more).map fun segment => escape segment.toList := by
  induction more generalizing first with
  | nil => simpa using cutAt_of_not_mem (slash_not_mem_escape first.toList)
  | cons second more ih =>
    rw [List.flatMap_cons, List.cons_append, cutAt_append (slash_not_mem_escape _), ih]
    rfl

/-- A position whose index fits a word of 64 bits. -/
def Position.Fits : Position → Prop
  | .at index => index < UInt64.size
  | .atEnd => True

/-- A position that fits is read back from its label. -/
theorem Position.ofSegment_label {position : Position} (hfits : position.Fits) :
    Position.ofSegment position.label = .ok position := by
  cases position with
  | atEnd => simp [Position.ofSegment, Position.label]
  | «at» index =>
    obtain ⟨first, rest, hdigits, hfirst⟩ := Numeral.toDigits_eq_cons index
    have hdash : Nat.repr index ≠ "-" := by
      intro heq
      have hlist := congrArg String.toList heq
      rw [Nat.toList_repr, hdigits] at hlist
      cases hlist
      cases hfirst
    rw [Position.ofSegment, Position.label, if_neg hdash, Numeral.readUnsigned?_repr hfits]

def IndexSpot.Fits : IndexSpot → Prop
  | .item position => position.Fits
  | _ => True

def ConstraintSpot.Fits : ConstraintSpot → Prop
  | .item _ position => position.Fits
  | _ => True

def EnumSpot.Fits : EnumSpot → Prop
  | .item position => position.Fits
  | _ => True

/-- The names in the spot are not empty and its position fits. -/
def TableSpot.WellFormed : TableSpot → Prop
  | .column name _ => name ≠ ""
  | .index name spot => name ≠ "" ∧ spot.Fits
  | .constraint name spot => name ≠ "" ∧ spot.Fits
  | _ => True

/-- The names in the path are not empty and its position fits. -/
def Path.WellFormed : Path → Prop
  | .table name spot => name ≠ "" ∧ spot.WellFormed
  | .enumType name spot => name ≠ "" ∧ spot.Fits
  | .extension name _ => name ≠ ""

theorem ColumnSpot.ofSegments_segments (spot : ColumnSpot) :
    ColumnSpot.ofSegments spot.segments = .ok spot := by
  cases spot with
  | whole => rfl
  | field field => cases field <;> rfl

theorem IndexSpot.ofSegments_segments {spot : IndexSpot} (hfits : spot.Fits) :
    IndexSpot.ofSegments spot.segments = .ok spot := by
  cases spot with
  | whole => rfl
  | field field => cases field <;> rfl
  | item position =>
    simp only [segments, ofSegments]
    rw [Position.ofSegment_label hfits]
    rfl

theorem ConstraintSpot.ofSegments_segments {spot : ConstraintSpot} (hfits : spot.Fits) :
    ConstraintSpot.ofSegments spot.segments = .ok spot := by
  cases spot with
  | whole => rfl
  | field field => cases field <;> rfl
  | item list position =>
    have hlist : fieldLabelled ConstraintList.label ConstraintList.all list.label = .ok list := by
      cases list <;> rfl
    simp only [segments, ofSegments]
    rw [hlist, Position.ofSegment_label hfits]
    rfl

theorem TableSpot.ofSegments_segments {spot : TableSpot} (hformed : spot.WellFormed) :
    TableSpot.ofSegments spot.segments = .ok spot := by
  cases spot with
  | whole => rfl
  | field field => cases field <;> rfl
  | column name spot =>
    simp only [segments, ofSegments]
    rw [ColumnSpot.ofSegments_segments]
    rfl
  | index name spot =>
    simp only [segments, ofSegments]
    rw [IndexSpot.ofSegments_segments hformed.2]
    rfl
  | constraint name spot =>
    simp only [segments, ofSegments]
    rw [ConstraintSpot.ofSegments_segments hformed.2]
    rfl

theorem EnumSpot.ofSegments_segments {spot : EnumSpot} (hfits : spot.Fits) :
    EnumSpot.ofSegments spot.segments = .ok spot := by
  cases spot with
  | whole => rfl
  | field field => cases field <;> rfl
  | item position =>
    simp only [segments, ofSegments]
    rw [Position.ofSegment_label hfits]
    rfl

theorem ExtensionSpot.ofSegments_segments (spot : ExtensionSpot) :
    ExtensionSpot.ofSegments spot.segments = .ok spot := by
  cases spot with
  | whole => rfl
  | field field => cases field <;> rfl

/-- A path is read back from its segments. -/
theorem Path.ofSegments_segments {path : Path} (hformed : path.WellFormed) :
    Path.ofSegments path.segments = .ok path := by
  cases path with
  | table name spot =>
    rw [segments, ofSegments, TableSpot.ofSegments_segments hformed.2]
    rfl
  | enumType name spot =>
    rw [segments, ofSegments, EnumSpot.ofSegments_segments hformed.2]
    rfl
  | extension name spot =>
    rw [segments, ofSegments, ExtensionSpot.ofSegments_segments]
    rfl

/-! ## Texts -/

theorem Position.label_ne_empty (position : Position) : position.label ≠ "" := by
  cases position with
  | «at» index => exact Nat.repr_ne_empty
  | atEnd => simp [label]

theorem ColumnSpot.segments_ne_empty (spot : ColumnSpot) : "" ∉ spot.segments := by
  cases spot with
  | whole => simp [segments]
  | field field => cases field <;> simp [segments, ColumnField.label]

theorem IndexSpot.segments_ne_empty (spot : IndexSpot) : "" ∉ spot.segments := by
  cases spot with
  | whole => simp [segments]
  | field field => cases field <;> simp [segments, IndexField.label]
  | item position => simp [segments, (Position.label_ne_empty position).symm]

theorem ConstraintSpot.segments_ne_empty (spot : ConstraintSpot) : "" ∉ spot.segments := by
  cases spot with
  | whole => simp [segments]
  | field field => cases field <;> simp [segments, ConstraintField.label]
  | item list position =>
    cases list <;> simp [segments, ConstraintList.label, (Position.label_ne_empty position).symm]

theorem TableSpot.segments_ne_empty {spot : TableSpot} (hformed : spot.WellFormed) :
    "" ∉ spot.segments := by
  cases spot with
  | whole => simp [segments]
  | field field => cases field <;> simp [segments, TableField.label]
  | column name spot => simp [segments, Ne.symm hformed, spot.segments_ne_empty]
  | index name spot => simp [segments, Ne.symm hformed.1, spot.segments_ne_empty]
  | constraint name spot => simp [segments, Ne.symm hformed.1, spot.segments_ne_empty]

theorem EnumSpot.segments_ne_empty (spot : EnumSpot) : "" ∉ spot.segments := by
  cases spot with
  | whole => simp [segments]
  | field field => cases field <;> simp [segments, EnumField.label]
  | item position => simp [segments, (Position.label_ne_empty position).symm]

theorem ExtensionSpot.segments_ne_empty (spot : ExtensionSpot) : "" ∉ spot.segments := by
  cases spot with
  | whole => simp [segments]
  | field field => cases field <;> simp [segments, ExtensionField.label]

theorem Path.segments_ne_empty {path : Path} (hformed : path.WellFormed) :
    "" ∉ path.segments := by
  cases path with
  | table name spot =>
    simp [segments, Ne.symm hformed.1, TableSpot.segments_ne_empty hformed.2]
  | enumType name spot => simp [segments, Ne.symm hformed.1, spot.segments_ne_empty]
  | extension name spot => simp [segments, Ne.symm hformed, spot.segments_ne_empty]

theorem Path.segments_eq_cons (path : Path) :
    ∃ first more, path.segments = first :: more := by
  cases path <;> exact ⟨_, _, rfl⟩

/-- The text of a path is cut into its segments, whatever its names are. -/
theorem Path.cutAt_text (path : Path) : ∃ chars, path.text.toList = '/' :: chars ∧
    (Text.cutAt '/' chars).map (fun segment => String.ofList (unescape segment)) =
      path.segments := by
  obtain ⟨first, more, hsegments⟩ := path.segments_eq_cons
  refine ⟨escape first.toList ++ more.flatMap fun segment => '/' :: escape segment.toList, ?_, ?_⟩
  · rw [text, hsegments]
    simp
  · rw [cutAt_segments, List.map_map, hsegments]
    refine (List.map_congr_left ?_).trans (List.map_id _)
    intro segment _
    simp [unescape_escape]

/-- A path with non-empty names and a position that fits is what its text is parsed to. -/
theorem Path.parse_text_of_wellFormed {path : Path} (hformed : path.WellFormed) :
    Path.parse path.text = .ok path := by
  obtain ⟨chars, hchars, hcut⟩ := path.cutAt_text
  have hnonempty : path.segments.any String.isEmpty = false := by
    rw [List.any_eq_false]
    intro segment hmem hempty
    rw [String.isEmpty_iff] at hempty
    exact Path.segments_ne_empty hformed (hempty ▸ hmem)
  unfold parse
  rw [hchars]
  simp only [hcut, hnonempty, Bool.false_eq_true, if_false, ofSegments_segments hformed]
  rfl

end SchemaEvolution.Patch
