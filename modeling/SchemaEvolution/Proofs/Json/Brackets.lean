import SchemaEvolution.Json.Printer
import SchemaEvolution.Proofs.Json.Cursor

/-!
# Strings, lists and objects between other text

Every character is read back from its escaped form, and so is every string.  A bracket whose items
are read one after the other is read as a whole, with any white space around the items.  An item is
followed by a separator or by what closes the bracket, so the reader of items never meets the end
of an item inside it.
-/

namespace SchemaEvolution.Json

theorem hexValue?_hexDigit : ∀ digit < 16, hexValue? (hexDigit digit) = some digit := by
  decide

/-- A control character is read back from its code unit. -/
theorem readUnitEscape_control {char : Char} (hcontrol : char.toNat < 32) (tail : List Char)
    {c : Cursor}
    (hrest : c.rest = '0' :: '0' :: hexDigit (char.toNat / 16) ::
      hexDigit (char.toNat % 16) :: tail) :
    ∃ after, readUnitEscape c = .ok (char, after) ∧ after.rest = tail := by
  have hhigh := hexValue?_hexDigit (char.toNat / 16) (by omega)
  have hlow := hexValue?_hexDigit (char.toNat % 16) (by omega)
  have hzero : hexValue? '0' = some 0 := by decide
  have hunit : readUnit c = .ok (char.toNat, c.skip 4) := by
    simp only [readUnit, hrest, hzero, hhigh, hlow]
    congr 2
    omega
  have hlowSurrogate : isLowSurrogate char.toNat = false := by
    simp only [isLowSurrogate, Bool.and_eq_false_iff, decide_eq_false_iff_not]
    omega
  have hhighSurrogate : isHighSurrogate char.toNat = false := by
    simp only [isHighSurrogate, Bool.and_eq_false_iff, decide_eq_false_iff_not]
    omega
  refine ⟨c.skip 4, ?_, ?_⟩
  · simp only [readUnitEscape, hunit]
    change (if isLowSurrogate char.toNat then _ else _) = _
    rw [hlowSurrogate, if_neg (by decide), hhighSurrogate, if_neg (by decide), Char.ofNat_toNat]
  · rw [Cursor.rest_skip, hrest]
    rfl

/-- A character is read back from its escaped form. -/
theorem readStringChar_escapedChar (char : Char) (tail : List Char) {c : Cursor}
    (hrest : c.rest = escapedChar char ++ tail) :
    ∃ after, readStringChar c = .ok (some char, after) ∧ after.rest = tail := by
  unfold escapedChar at hrest
  split at hrest
  iterate 7
    · refine ⟨c.advance.advance, ?_, by simp [hrest]⟩
      simp [readStringChar, hrest, shortEscape?]
  · next hquote hbackslash _ _ _ _ _ =>
    split at hrest
    · next hcontrol =>
      have hunits : c.advance.advance.rest = '0' :: '0' :: hexDigit (char.toNat / 16) ::
          hexDigit (char.toNat % 16) :: tail := by
        simp [hrest]
      obtain ⟨after, hread, hafter⟩ := readUnitEscape_control hcontrol tail hunits
      refine ⟨after, ?_, hafter⟩
      simp only [readStringChar, hrest, List.cons_append, Cursor.rest_advance, List.tail_cons, hread]
      rfl
    · next hprintable =>
      refine ⟨c.advance, ?_, by simp [hrest]⟩
      simp only [readStringChar, hrest, List.cons_append]
      split <;> simp_all

/-- The characters of a string and its closing quote are read one by one. -/
theorem readStringFrom_escaped (chars tail : List Char) :
    ∀ (fuel : Nat) (done : List Char) (c : Cursor), chars.length < fuel →
      c.rest = chars.flatMap escapedChar ++ '"' :: tail →
      ∃ after, readStringFrom fuel done c = .ok (String.ofList (done.reverse ++ chars), after) ∧
        after.rest = tail := by
  induction chars with
  | nil =>
    intro fuel done c hfuel hrest
    obtain ⟨fuel, rfl⟩ := Nat.exists_eq_succ_of_ne_zero (Nat.ne_of_gt hfuel)
    refine ⟨c.advance, ?_, by simp [hrest]⟩
    simp only [List.flatMap_nil, List.nil_append] at hrest
    simp only [readStringFrom, readStringChar, hrest, List.append_nil]
    rfl
  | cons char rest ih =>
    intro fuel done c hfuel hrest
    obtain ⟨fuel, rfl⟩ := Nat.exists_eq_succ_of_ne_zero (Nat.ne_of_gt (Nat.zero_lt_of_lt hfuel))
    rw [List.flatMap_cons, List.append_assoc] at hrest
    obtain ⟨next, hchar, hnext⟩ := readStringChar_escapedChar char _ hrest
    obtain ⟨after, hread, hafter⟩ :=
      ih fuel (char :: done) next (Nat.lt_of_succ_lt_succ hfuel) hnext
    refine ⟨after, ?_, hafter⟩
    rw [List.reverse_cons, List.append_assoc] at hread
    simp only [readStringFrom, hchar]
    exact hread

/-- No character is shorter escaped than it was. -/
theorem length_le_length_escaped (chars : List Char) :
    chars.length ≤ (chars.flatMap escapedChar).length := by
  induction chars with
  | nil => exact Nat.le_refl _
  | cons char rest ih =>
    have hchar : 1 ≤ (escapedChar char).length := by
      unfold escapedChar
      split
      iterate 7
        · exact Nat.le_add_left 1 1
      · split
        · exact Nat.le_add_left 1 5
        · exact Nat.le_refl 1
    rw [List.flatMap_cons, List.length_cons, List.length_append]
    omega

/-- A string is read back from its printed form. -/
theorem readString_stringChars (text : String) (tail : List Char) {c : Cursor}
    (hrest : c.rest = stringChars text ++ tail) :
    ∃ after, readString c.advance = .ok (text, after) ∧ after.rest = tail := by
  have hadvance : c.advance.rest = text.toList.flatMap escapedChar ++ '"' :: tail := by
    simp [hrest, stringChars]
  have hfuel : text.toList.length < c.advance.rest.length + 1 := by
    have hlength := length_le_length_escaped text.toList
    rw [hadvance, List.length_append]
    omega
  obtain ⟨after, hread, hafter⟩ := readStringFrom_escaped _ tail _ [] _ hfuel hadvance
  refine ⟨after, ?_, hafter⟩
  rw [readString, hread, List.reverse_nil, List.nil_append, String.ofList_toList]

open Cursor (isGap)

variable {σ : Type} {gap last tail : List Char}

/-- The pieces after the first: each has a separator and white space before it. -/
def continued (gap : List Char) (pieces : List (List Char)) : List Char :=
  pieces.flatMap fun piece => ',' :: gap ++ piece

/-- The pieces between the brackets, each with white space before it. -/
def separated (gap : List Char) : List (List Char) → List Char
  | [] => []
  | piece :: more => gap ++ piece ++ continued gap more

theorem continued_cons (gap piece : List Char) (more : List (List Char)) :
    continued gap (piece :: more) = ',' :: gap ++ piece ++ continued gap more := rfl

theorem length_le_length_continued (gap : List Char) (pieces : List (List Char)) :
    pieces.length ≤ (continued gap pieces).length := by
  induction pieces with
  | nil => exact Nat.le_refl _
  | cons piece more ih =>
    simp only [continued, List.flatMap_cons, List.length_append, List.length_cons] at ih ⊢
    omega

theorem length_le_length_separated (gap : List Char) (pieces : List (List Char)) :
    pieces.length ≤ (separated gap pieces).length + 1 := by
  cases pieces with
  | nil => exact Nat.zero_le _
  | cons piece more =>
    have hmore := length_le_length_continued gap more
    simp only [separated, List.length_append, List.length_cons]
    omega

theorem follows_continued (hlast : ∀ char ∈ last, isGap char = true) (pieces : List (List Char))
    {close : Char} (hclose : close ∈ terminators) (tail : List Char) :
    Follows (continued gap pieces ++ (last ++ close :: tail)) := by
  cases pieces with
  | nil => exact (follows_cons hclose tail).gap_append hlast
  | cons piece more => exact follows_cons (by decide) _

/-- The text of an item starts with something else than the end of a list. -/
def StartsItem (text : List Char) : Prop :=
  ∃ first rest, text.dropWhile isGap = first :: rest ∧ first ≠ ']'

/-- The reader takes the pieces one after the other, from one state to another. -/
inductive ReadsItems (item : σ → Cursor → Except ReadFault (σ × Cursor)) :
    σ → List (List Char) → σ → Prop where
  | nil (done : σ) : ReadsItems item done [] done
  | cons {done next final : σ} {piece : List Char} {more : List (List Char)}
    (hpiece : Reads (item done) piece next) (hstarts : StartsItem piece)
    (hmore : ReadsItems item next more final) : ReadsItems item done (piece :: more) final

variable {item : σ → Cursor → Except ReadFault (σ × Cursor)} {done final : σ}
  {pieces : List (List Char)}

theorem StartsItem.rest_skipGap {c : Cursor} {piece : List Char} (hstarts : StartsItem piece)
    (hat : c.At (piece ++ tail)) :
    ∃ first rest, c.skipGap.rest = first :: rest ∧ first ≠ ']' := by
  obtain ⟨first, rest, heq, hfirst⟩ := hstarts
  refine ⟨first, rest ++ tail, ?_, hfirst⟩
  rw [hat.rest_skipGap, List.dropWhile_append, heq]
  rfl

/-- The items after the first are read up to the closing bracket. -/
theorem ReadsItems.readItems_continued (hgap : ∀ char ∈ gap, isGap char = true)
    (hlast : ∀ char ∈ last, isGap char = true) (hitems : ReadsItems item done pieces final) :
    ∀ (fuel : Nat) (c : Cursor), pieces.length < fuel →
      c.At (continued gap pieces ++ (last ++ ']' :: tail)) →
      ∃ after, readItems item fuel false done c = .ok (final, after) ∧ after.At (']' :: tail) := by
  induction hitems with
  | nil done =>
    intro fuel c hfuel hat
    obtain ⟨fuel, rfl⟩ := Nat.exists_eq_succ_of_ne_zero (Nat.ne_of_gt hfuel)
    replace hat := (Cursor.at_gap_append hlast).1 hat
    refine ⟨c.skipGap, ?_, hat.skipGap⟩
    simp only [readItems, hat.rest_cons rfl]
  | cons hpiece hstarts hmore ih =>
    rename_i done next final piece more
    intro fuel c hfuel hat
    obtain ⟨fuel, rfl⟩ := Nat.exists_eq_succ_of_ne_zero (Nat.ne_of_gt (Nat.zero_lt_of_lt hfuel))
    simp only [continued_cons, List.append_assoc, List.cons_append] at hat
    have hcomma := hat.rest_cons rfl
    have hpieceAt : c.skipGap.advance.skipGap.At
        (piece ++ (continued gap more ++ (last ++ ']' :: tail))) := by
      refine ((Cursor.at_gap_append hgap).1 (Cursor.At.of_rest ?_)).skipGap
      rw [Cursor.rest_advance, hcomma]
      rfl
    obtain ⟨first, rest, hfirst, hnotEnd⟩ := hstarts.rest_skipGap hpieceAt
    rw [Cursor.rest_skipGap_skipGap] at hfirst
    obtain ⟨after, hread, hafter⟩ := hpiece _ _ hpieceAt
      (follows_continued hlast more (by decide) tail)
    obtain ⟨final, hreadMore, hfinal⟩ := ih fuel after (Nat.lt_of_succ_lt_succ hfuel) hafter
    refine ⟨final, ?_, hfinal⟩
    simp only [readItems, hcomma, hfirst, hread]
    split
    · next heq => cases heq
    · next heq => exact absurd (List.cons.inj heq).1 (by decide)
    · next heq =>
      cases heq
      rw [if_neg (by decide), if_pos rfl]
      split
      · next heq => cases heq
      · next heq => exact absurd (List.cons.inj heq).1 hnotEnd
      · exact hreadMore

/-- All items are read up to the closing bracket. -/
theorem ReadsItems.readItems (hgap : ∀ char ∈ gap, isGap char = true)
    (hlast : ∀ char ∈ last, isGap char = true) (hitems : ReadsItems item done pieces final)
    {fuel : Nat} {c : Cursor} (hfuel : pieces.length < fuel)
    (hat : c.At (separated gap pieces ++ (last ++ ']' :: tail))) :
    ∃ after, Json.readItems item fuel true done c = .ok (final, after) ∧
      after.At (']' :: tail) := by
  obtain ⟨fuel, rfl⟩ := Nat.exists_eq_succ_of_ne_zero (Nat.ne_of_gt (Nat.zero_lt_of_lt hfuel))
  cases hitems with
  | nil =>
    replace hat := (Cursor.at_gap_append hlast).1 hat
    refine ⟨c.skipGap, ?_, hat.skipGap⟩
    simp only [Json.readItems, hat.rest_cons rfl]
  | cons hpiece hstarts hmore =>
    rename_i next piece more
    simp only [separated, List.append_assoc] at hat
    replace hat := ((Cursor.at_gap_append hgap).1 hat).skipGap
    obtain ⟨first, rest, hfirst, hnotEnd⟩ := hstarts.rest_skipGap hat
    rw [Cursor.rest_skipGap_skipGap] at hfirst
    obtain ⟨after, hread, hafter⟩ := hpiece _ _ hat
      (follows_continued hlast more (by decide) tail)
    obtain ⟨final, hreadMore, hfinal⟩ :=
      hmore.readItems_continued hgap hlast fuel after (Nat.lt_of_succ_lt_succ hfuel) hafter
    refine ⟨final, ?_, hfinal⟩
    simp only [Json.readItems, hfirst, hread, if_true]
    exact hreadMore

theorem closeList_of_at {c : Cursor} (hat : c.At (']' :: tail)) :
    ∃ after, closeList c = (none, after) ∧ after.rest = tail := by
  have hrest := hat.rest_cons rfl
  refine ⟨c.skipGap.advance, ?_, by rw [Cursor.rest_advance, hrest, List.tail_cons]⟩
  simp only [closeList, hrest]

/-- The items of a list and its closing bracket are read after the opening one. -/
theorem ReadsItems.enclosed (hgap : ∀ char ∈ gap, isGap char = true)
    (hlast : ∀ char ∈ last, isGap char = true) (hitems : ReadsItems item done pieces final)
    {c : Cursor} (hrest : c.rest = '[' :: (separated gap pieces ++ (last ++ ']' :: tail))) :
    ∃ after, Json.enclosed closeList
        (Json.readItems item (c.rest.length + 1) true done c.advance) = .ok (final, after) ∧
      after.rest = tail := by
  have hadvance : c.advance.rest = separated gap pieces ++ (last ++ ']' :: tail) := by
    rw [Cursor.rest_advance, hrest, List.tail_cons]
  have hpieces : pieces.length < c.rest.length + 1 := by
    have hlength := length_le_length_separated gap pieces
    rw [hrest, List.length_cons, List.length_append, List.length_append, List.length_cons]
    omega
  obtain ⟨close, hread, hclose⟩ := hitems.readItems hgap hlast hpieces (.of_rest hadvance)
  obtain ⟨after, hclosed, hafter⟩ := closeList_of_at hclose
  refine ⟨after, ?_, hafter⟩
  simp only [hread, Json.enclosed, hclosed]

/-! ## Objects -/

/-- The reader takes the members one after the other, from one state to another; each is a
name and the text after it. -/
inductive ReadsMembers (member : σ → String → Cursor → Except ReadFault (σ × Cursor)) :
    σ → List (String × List Char) → σ → Prop where
  | nil (done : σ) : ReadsMembers member done [] done
  | cons {done next final : σ} {name : String} {text : List Char}
    {more : List (String × List Char)} (htext : Reads (member done name) text next)
    (hmore : ReadsMembers member next more final) :
    ReadsMembers member done ((name, text) :: more) final

/-- A member as it is written: its name and the text after it. -/
def memberChars (piece : String × List Char) : List Char := stringChars piece.1 ++ piece.2

variable {member : σ → String → Cursor → Except ReadFault (σ × Cursor)}
  {members : List (String × List Char)}

/-- The members after the first are read up to the closing brace. -/
theorem ReadsMembers.readMembers_continued (hgap : ∀ char ∈ gap, isGap char = true)
    (hlast : ∀ char ∈ last, isGap char = true)
    (hmembers : ReadsMembers member done members final) :
    ∀ (fuel : Nat) (c : Cursor), members.length < fuel →
      c.At (continued gap (members.map memberChars) ++ (last ++ '\x7d' :: tail)) →
      ∃ after, readMembers member fuel false done c = .ok (final, after) ∧
        after.At ('\x7d' :: tail) := by
  induction hmembers with
  | nil done =>
    intro fuel c hfuel hat
    obtain ⟨fuel, rfl⟩ := Nat.exists_eq_succ_of_ne_zero (Nat.ne_of_gt hfuel)
    replace hat := (Cursor.at_gap_append hlast).1 hat
    refine ⟨c.skipGap, ?_, hat.skipGap⟩
    simp only [readMembers, hat.rest_cons rfl]
  | cons htext hmore ih =>
    rename_i done next final name text more
    intro fuel c hfuel hat
    obtain ⟨fuel, rfl⟩ := Nat.exists_eq_succ_of_ne_zero (Nat.ne_of_gt (Nat.zero_lt_of_lt hfuel))
    rw [List.map_cons, continued_cons, memberChars] at hat
    simp only [List.append_assoc, List.cons_append] at hat
    have hcomma := hat.rest_cons rfl
    have hname : c.skipGap.advance.skipGap.rest = stringChars name ++
        (text ++ (continued gap (more.map memberChars) ++ (last ++ '\x7d' :: tail))) := by
      have hafterComma := (Cursor.at_gap_append hgap).1
        (Cursor.At.of_rest (c := c.skipGap.advance) (by rw [Cursor.rest_advance, hcomma]; rfl))
      exact hafterComma.rest_cons rfl
    obtain ⟨afterName, hreadName, hafterName⟩ := readString_stringChars name _ hname
    obtain ⟨after, hread, hafter⟩ := htext afterName _ (.of_rest hafterName)
      (follows_continued hlast _ (by decide) tail)
    obtain ⟨close, hreadMore, hclose⟩ := ih fuel after (Nat.lt_of_succ_lt_succ hfuel) hafter
    refine ⟨close, ?_, hclose⟩
    simp only [stringChars, List.cons_append] at hname
    simp only [readMembers, hcomma, hname, hreadName, Bool.false_eq_true, if_false]
    change (member done name afterName >>= fun read =>
      readMembers member fuel false read.1 read.2) = _
    rw [hread]
    exact hreadMore

/-- All members are read up to the closing brace. -/
theorem ReadsMembers.readMembers (hgap : ∀ char ∈ gap, isGap char = true)
    (hlast : ∀ char ∈ last, isGap char = true)
    (hmembers : ReadsMembers member done members final) {fuel : Nat} {c : Cursor}
    (hfuel : members.length < fuel)
    (hat : c.At (separated gap (members.map memberChars) ++ (last ++ '\x7d' :: tail))) :
    ∃ after, Json.readMembers member fuel true done c = .ok (final, after) ∧
      after.At ('\x7d' :: tail) := by
  obtain ⟨fuel, rfl⟩ := Nat.exists_eq_succ_of_ne_zero (Nat.ne_of_gt (Nat.zero_lt_of_lt hfuel))
  cases hmembers with
  | nil =>
    replace hat := (Cursor.at_gap_append hlast).1 hat
    refine ⟨c.skipGap, ?_, hat.skipGap⟩
    simp only [Json.readMembers, hat.rest_cons rfl]
  | cons htext hmore =>
    rename_i next name text more
    rw [List.map_cons, separated, memberChars] at hat
    simp only [List.append_assoc] at hat
    have hname : c.skipGap.rest = stringChars name ++
        (text ++ (continued gap (more.map memberChars) ++ (last ++ '\x7d' :: tail))) :=
      ((Cursor.at_gap_append hgap).1 hat).rest_cons rfl
    obtain ⟨afterName, hreadName, hafterName⟩ := readString_stringChars name _ hname
    obtain ⟨after, hread, hafter⟩ := htext afterName _ (.of_rest hafterName)
      (follows_continued hlast _ (by decide) tail)
    obtain ⟨close, hreadMore, hclose⟩ :=
      hmore.readMembers_continued hgap hlast fuel after (Nat.lt_of_succ_lt_succ hfuel) hafter
    refine ⟨close, ?_, hclose⟩
    simp only [stringChars, List.cons_append] at hname
    simp only [Json.readMembers, hname, hreadName, if_true]
    change (member done name afterName >>= fun read =>
      Json.readMembers member fuel false read.1 read.2) = _
    rw [hread]
    exact hreadMore

theorem closeObject_of_at {c : Cursor} (hat : c.At ('\x7d' :: tail)) :
    ∃ after, closeObject c = (none, after) ∧ after.rest = tail := by
  have hrest := hat.rest_cons rfl
  refine ⟨c.skipGap.advance, ?_, by rw [Cursor.rest_advance, hrest, List.tail_cons]⟩
  simp only [closeObject, hrest]

/-- What was read up to the closing brace is read with it. -/
theorem enclosed_closeObject {α : Type} {outcome : Except ReadFault (α × Cursor)} {value : α}
    {c : Cursor} (houtcome : outcome = .ok (value, c)) (hat : c.At ('\x7d' :: tail)) :
    ∃ after, Json.enclosed closeObject outcome = .ok (value, after) ∧ after.rest = tail := by
  obtain ⟨after, hclosed, hafter⟩ := closeObject_of_at hat
  refine ⟨after, ?_, hafter⟩
  simp only [houtcome, Json.enclosed, hclosed]

/-- The members of an object are read after the opening brace. -/
theorem ReadsMembers.readMembers_of_opening (hgap : ∀ char ∈ gap, isGap char = true)
    (hlast : ∀ char ∈ last, isGap char = true)
    (hmembers : ReadsMembers member done members final) {fuel : Nat} {c : Cursor}
    (hfuel : c.rest.length ≤ fuel)
    (hrest : c.rest = '\x7b' ::
      (separated gap (members.map memberChars) ++ (last ++ '\x7d' :: tail))) :
    ∃ after, Json.readMembers member fuel true done c.advance = .ok (final, after) ∧
      after.At ('\x7d' :: tail) := by
  have hadvance : c.advance.rest =
      separated gap (members.map memberChars) ++ (last ++ '\x7d' :: tail) := by
    rw [Cursor.rest_advance, hrest, List.tail_cons]
  refine hmembers.readMembers hgap hlast ?_ (.of_rest hadvance)
  have hlength := length_le_length_separated gap (members.map memberChars)
  rw [List.length_map] at hlength
  rw [hrest, List.length_cons, List.length_append, List.length_append, List.length_cons] at hfuel
  omega

end SchemaEvolution.Json
