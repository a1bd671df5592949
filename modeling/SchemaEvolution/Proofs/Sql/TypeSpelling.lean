import Mathlib.Data.List.Count
import Mathlib.Data.List.TakeWhile
import SchemaEvolution.Sql.ColumnDefinition

/-!
# Marks in the spelling of a type

The normal spelling of a type folds case, white space and a few long forms.  Commas and double
quotes are not touched by any of this, so a type and its normal spelling have as many of them.
-/

namespace SchemaEvolution.Sql

/-- Characters that the normal spelling of a type keeps. -/
def IsMark (c : Char) : Prop := c = ',' ∨ c = '"'

variable {c : Char}

theorem isBlank_of_isMark (hmark : IsMark c) : Text.isBlank c = false := by
  rcases hmark with rfl | rfl <;> decide

theorem le_of_mem_lowerRuns :
    ∀ run ∈ Text.lowerRuns, 64 ≤ (run.first : Int) + run.shift := by
  decide +kernel

theorem toLower_eq_iff (hmark : IsMark c) : ∀ code < 128,
    (Char.ofNat code).toLower = c ↔ Char.ofNat code = c := by
  rcases hmark with rfl | rfl <;> decide +kernel

theorem code_of_ofNat {code : Nat} (heq : Char.ofNat code = c) :
    code = c.toNat ∨ c.toNat = 0 := by
  by_cases hvalid : code.isValidChar
  · rw [Char.ofNat, dif_pos hvalid] at heq
    exact .inl (heq ▸ rfl)
  · rw [Char.ofNat, dif_neg hvalid] at heq
    exact .inr (heq ▸ rfl)

theorem isAscii_of_isMark (hmark : IsMark c) : Text.isAscii c = true := by
  rcases hmark with rfl | rfl <;> decide

/-- No letter has a mark as its lower-case form. -/
theorem ofNat_ne_of_isMark (hmark : IsMark c) {code : Nat} (hcode : 64 ≤ code) :
    Char.ofNat code ≠ c := by
  intro heq
  rcases hmark with rfl | rfl
  · rcases code_of_ofNat heq with rfl | hzero
    · exact absurd hcode (by decide)
    · exact absurd hzero (by decide)
  · rcases code_of_ofNat heq with rfl | hzero
    · exact absurd hcode (by decide)
    · exact absurd hzero (by decide)

/-- Lowering a character keeps its marks. -/
theorem count_lowerChar (hmark : IsMark c) (d : Char) :
    (Text.lowerChar d).count c = [d].count c := by
  unfold Text.lowerChar
  split_ifs with hascii hdotted
  · have hcode : d.toNat < 128 := by simpa [Text.isAscii] using hascii
    have hlower := toLower_eq_iff hmark d.toNat hcode
    rw [Char.ofNat_toNat] at hlower
    simp only [List.count_singleton, beq_iff_eq, hlower]
  · rw [beq_iff_eq] at hdotted
    subst hdotted
    rcases hmark with rfl | rfl <;> decide
  · have hne : d ≠ c := by
      rintro rfl
      exact hascii (isAscii_of_isMark hmark)
    split
    · next run hrun =>
      have hbound := le_of_mem_lowerRuns run (List.mem_of_find?_eq_some hrun)
      have hcontains := List.find?_some hrun
      simp only [Text.CaseRun.contains, Bool.and_eq_true, decide_eq_true_eq] at hcontains
      have hlarge : 64 ≤ ((d.toNat : Int) + run.shift).toNat := by omega
      simp [hne, ofNat_ne_of_isMark hmark hlarge]
    · rfl

/-- Lowering a text keeps its marks, wherever it stands. -/
theorem count_lowerAfter (hmark : IsMark c) (before cs : List Char) :
    (Text.lowerAfter before cs).count c = cs.count c := by
  induction cs generalizing before with
  | nil => rfl
  | cons d rest ih =>
    rw [Text.lowerAfter, List.count_append, ih]
    conv => rhs; rw [← List.singleton_append, List.count_append]
    congr 1
    split_ifs with hsigma hfinal
    · rw [beq_iff_eq] at hsigma
      subst hsigma
      rcases hmark with rfl | rfl <;> decide
    · rw [beq_iff_eq] at hsigma
      subst hsigma
      rcases hmark with rfl | rfl <;> decide
    · exact count_lowerChar hmark d

/-- One step of cutting a text into words, from its end. -/
def wordStep (d : Char) (found : List (List Char) × List Char) : List (List Char) × List Char :=
  if Text.isBlank d then (if found.2.isEmpty then found.1 else found.2 :: found.1, [])
  else (found.1, d :: found.2)

/-- The words of a text are the text without its blanks. -/
theorem flatten_wordStep (cs : List Char) :
    (cs.foldr wordStep ([], [])).2 ++ (cs.foldr wordStep ([], [])).1.flatten =
      cs.filter fun d => !Text.isBlank d := by
  induction cs with
  | nil => rfl
  | cons d rest ih =>
    rw [List.foldr_cons, wordStep]
    by_cases hblank : Text.isBlank d = true
    · rw [if_pos hblank, List.filter_cons_of_neg (by simp [hblank]), ← ih]
      split_ifs with hempty
      · rw [List.isEmpty_iff.1 hempty]
      · rfl
    · rw [if_neg hblank, List.filter_cons_of_pos (by simp [hblank]), ← ih]
      rfl

/-- The words of a text are its characters apart from white space. -/
theorem flatten_words (cs : List Char) :
    (Text.words cs).flatten = cs.filter fun d => !Text.isBlank d := by
  have hwords : Text.words cs =
      if (cs.foldr wordStep ([], [])).2.isEmpty then (cs.foldr wordStep ([], [])).1
      else (cs.foldr wordStep ([], [])).2 :: (cs.foldr wordStep ([], [])).1 := rfl
  rw [← flatten_wordStep, hwords]
  split_ifs with hempty
  · rw [List.isEmpty_iff.1 hempty, List.nil_append]
  · rfl

/-- Joining with other characters adds none of the counted ones. -/
theorem count_intercalate {d : Char} (hne : d ≠ c) (pieces : List (List Char)) :
    ([d].intercalate pieces).count c = pieces.flatten.count c := by
  induction pieces with
  | nil => rfl
  | cons first more ih =>
    cases more with
    | nil => simp [List.intercalate]
    | cons second more =>
      have hseparator : [d].count c = 0 := by simp [hne]
      rw [List.intercalate_cons_cons, List.count_append, List.count_append, ih, hseparator,
        Nat.add_zero, List.flatten_cons (l := first), List.count_append]

theorem count_dropWhile_isBlank (hblank : Text.isBlank c = false) (cs : List Char) :
    (cs.dropWhile Text.isBlank).count c = cs.count c := by
  have hfront : (cs.takeWhile Text.isBlank).count c = 0 := by
    rw [List.count_eq_zero]
    intro hmem
    rw [List.mem_takeWhile_imp hmem] at hblank
    cases hblank
  conv => rhs; rw [← List.takeWhile_append_dropWhile (p := Text.isBlank) (l := cs)]
  rw [List.count_append, hfront, Nat.zero_add]

theorem count_trimEnd (hblank : Text.isBlank c = false) (cs : List Char) :
    (Text.trimEnd cs).count c = cs.count c := by
  rw [Text.trimEnd, List.count_reverse, count_dropWhile_isBlank hblank, List.count_reverse]

theorem count_trim (hblank : Text.isBlank c = false) (cs : List Char) :
    (Text.trim cs).count c = cs.count c := by
  rw [Text.trim, count_trimEnd hblank, Text.trimStart, count_dropWhile_isBlank hblank]

/-! ## Long forms -/

/-- A replacement with as many of a character as what it stands for keeps their number. -/
theorem count_replaceAfter {part new : List Char} (hcount : new.count c = part.count c)
    (hpart : part ≠ []) (skipped : Nat) (cs : List Char) :
    (Text.replaceAfter part new skipped cs).count c = (cs.drop skipped).count c := by
  fun_induction Text.replaceAfter part new skipped cs with
  | case1 skipped => simp
  | case2 skipped d rest ih => rw [ih, List.drop_succ_cons]
  | case3 d rest hprefix ih =>
    obtain ⟨tail, htail⟩ := List.isPrefixOf_iff_prefix.1 hprefix
    obtain ⟨first, more, rfl⟩ := List.exists_cons_of_ne_nil hpart
    have hrest : rest.drop more.length = tail := by
      rw [← (List.cons.inj htail).2]
      exact List.drop_left
    rw [List.count_append, ih, hcount, List.drop_zero, ← htail, List.count_append,
      List.length_cons, Nat.add_sub_cancel, hrest]
  | case4 d rest _ ih => rw [List.count_cons, ih, List.drop_zero, List.drop_zero, List.count_cons]

theorem count_replace {part new : List Char} (hcount : new.count c = part.count c)
    (hpart : part ≠ []) (cs : List Char) : (Text.replace part new cs).count c = cs.count c :=
  count_replaceAfter hcount hpart 0 cs

theorem count_shortName (hmark : IsMark c) (base : String) :
    (TypeName.shortName base).toList.count c = base.toList.count c := by
  unfold TypeName.shortName
  split
  · rcases hmark with rfl | rfl <;> decide +kernel
  · rcases hmark with rfl | rfl <;> decide +kernel
  · rcases hmark with rfl | rfl <;> decide +kernel
  · rfl

theorem count_cutArguments (hmark : IsMark c) (cs : List Char) :
    (TypeName.cutArguments cs).1.count c + (TypeName.cutArguments cs).2.count c = cs.count c := by
  rw [TypeName.cutArguments, count_trimEnd (isBlank_of_isMark hmark), ← List.count_append,
    List.takeWhile_append_dropWhile]

/-- The normal spelling of a type has as many marks as the type. -/
theorem count_normalize (hmark : IsMark c) (raw : String) :
    (TypeName.normalize raw).toList.count c = raw.toList.count c := by
  have hblank := isBlank_of_isMark hmark
  have hspace : ' ' ≠ c := by rcases hmark with rfl | rfl <;> decide
  have hzone : [')'].count c = ") without time zone".toList.count c := by
    rcases hmark with rfl | rfl <;> decide +kernel
  have hcomma : [','].count c = [',', ' '].count c := by
    rcases hmark with rfl | rfl <;> decide
  have hspaced : ([' '].intercalate (Text.words (Text.lower raw).toList)).count c =
      raw.toList.count c := by
    rw [count_intercalate hspace, flatten_words, List.count_filter (by simp [hblank]), Text.lower,
      String.toList_ofList, count_lowerAfter hmark]
  rw [TypeName.normalize, String.toList_append, List.count_append, count_shortName hmark,
    String.toList_ofList, String.toList_ofList, count_replace hcomma (List.cons_ne_nil _ _),
    count_replace hzone (by decide +kernel), count_cutArguments hmark, hspaced]

end SchemaEvolution.Sql
