import Mathlib.Data.List.TakeWhile
import SchemaEvolution.Proofs.Sql.Row

/-!
# Lexemes before a boundary

A token or a gap that ends before a boundary, such as the end of a line or a closing parenthesis,
does so whatever boundary it is and whatever comes behind it.  So what is cut out of a text, with
nothing reaching over the boundary after it, is cut out of it in every script in which the text
stands before a boundary.
-/

namespace SchemaEvolution.Sql.Lexeme

/-- Between tokens, what is passed is decided by two characters at a time. -/
theorem gapOf_between (c d : Char) (rest : List Char) :
    gapOf .between (c :: d :: rest) =
      if c = '-' ∧ d = '-' then '-' :: '-' :: gapOf .lineComment rest
      else if c = '/' ∧ d = '*' then '/' :: '*' :: gapOf .blockComment rest
      else if Text.isBlank c then c :: gapOf .between (d :: rest)
      else [] := by
  by_cases hline : c = '-' ∧ d = '-'
  · obtain ⟨rfl, rfl⟩ := hline
    rfl
  by_cases hblock : c = '/' ∧ d = '*'
  · obtain ⟨rfl, rfl⟩ := hblock
    rfl
  rw [if_neg hline, if_neg hblock, gapOf]
  · rintro _ rfl heq
    cases heq
    exact hline ⟨rfl, rfl⟩
  · rintro _ rfl heq
    cases heq
    exact hblock ⟨rfl, rfl⟩

theorem gapOf_lineComment (c : Char) (rest : List Char) :
    gapOf .lineComment (c :: rest) =
      c :: gapOf (if c = '\n' then .between else .lineComment) rest := by
  by_cases hline : c = '\n'
  · subst hline
    rfl
  · rw [if_neg hline, gapOf]
    exact hline

theorem gapOf_blockComment (c d : Char) (rest : List Char) :
    gapOf .blockComment (c :: d :: rest) =
      if c = '*' ∧ d = '/' then '*' :: '/' :: gapOf .between rest
      else c :: gapOf .blockComment (d :: rest) := by
  by_cases hclosed : c = '*' ∧ d = '/'
  · obtain ⟨rfl, rfl⟩ := hclosed
    rfl
  · rw [if_neg hclosed, gapOf]
    rintro _ rfl heq
    cases heq
    exact hclosed ⟨rfl, rfl⟩

theorem gapOf_blockComment_ne_nil (c : Char) (rest : List Char) :
    gapOf .blockComment (c :: rest) ≠ [] := by
  cases rest with
  | nil =>
    rw [gapOf]
    · exact List.cons_ne_nil _ _
    · rintro _ rfl ⟨⟩
  | cons d rest =>
    rw [gapOf_blockComment]
    split_ifs <;> exact List.cons_ne_nil _ _

/-- What a boundary is not, so that no token and no comment goes on with it. -/
theorem ne_of_isBoundary {b : Char} (hb : isBoundary b = true) :
    b ≠ '-' ∧ b ≠ '/' ∧ b ≠ '*' ∧ b ≠ '"' ∧ b ≠ '\'' ∧ b ≠ '\\' ∧ b ≠ '$' ∧ b ≠ '.' := by
  simp only [isBoundary, List.contains_iff_mem, List.mem_cons, List.not_mem_nil, or_false] at hb
  rcases hb with rfl | rfl | rfl | rfl | rfl | rfl | rfl | rfl <;> decide

theorem class_of_isBoundary {b : Char} (hb : isBoundary b = true) :
    isTagChar b = false ∧ isOperatorChar b = false ∧ isWordChar b = false := by
  simp only [isBoundary, List.contains_iff_mem, List.mem_cons, List.not_mem_nil, or_false] at hb
  rcases hb with rfl | rfl | rfl | rfl | rfl | rfl | rfl | rfl <;> decide

theorem gapOf_between_boundary {b : Char} (hb : isBoundary b = true) (rest : List Char) :
    gapOf .between (b :: rest) = if Text.isBlank b then b :: gapOf .between rest else [] := by
  obtain ⟨hminus, hslash, -⟩ := ne_of_isBoundary hb
  cases rest with
  | nil =>
    simp [gapOf]
  | cons d rest =>
    rw [gapOf_between, if_neg fun hboth => hminus hboth.1, if_neg fun hboth => hslash hboth.1]

theorem gapOf_between_last {b : Char} (hb : isBoundary b = true) (c : Char) (rest : List Char) :
    gapOf .between (c :: b :: rest) =
      if Text.isBlank c then c :: gapOf .between (b :: rest) else [] := by
  obtain ⟨hminus, -, hstar, -⟩ := ne_of_isBoundary hb
  rw [gapOf_between, if_neg fun hboth => hminus hboth.2, if_neg fun hboth => hstar hboth.2]

theorem untilQuote_pos (quote c : Char) (rest : List Char) :
    0 < (untilQuote quote (c :: rest)).2 := by
  cases rest with
  | nil =>
    rw [untilQuote]
    split_ifs <;> exact Nat.one_pos
  | cons d more =>
    rw [untilQuote]
    split_ifs <;> exact Nat.succ_pos _

theorem untilQuoteEscaped_pos (c : Char) (rest : List Char) :
    0 < (untilQuoteEscaped (c :: rest)).2 := by
  cases rest with
  | nil =>
    rw [untilQuoteEscaped]
    split_ifs <;> exact Nat.one_pos
  | cons d more =>
    rw [untilQuoteEscaped]
    split_ifs <;> exact Nat.succ_pos _

theorem numberLength_le (hasPoint : Bool) (cs : List Char) :
    numberLength hasPoint cs ≤ cs.length := by
  induction cs generalizing hasPoint with
  | nil => exact Nat.le_refl _
  | cons c cs ih =>
    rw [numberLength]
    split_ifs
    · exact Nat.succ_le_succ (ih _)
    · exact Nat.succ_le_succ (ih _)
    · exact Nat.zero_le _

/-! ## Texts of lexemes -/

/-- The lexemes are the same but for their line. -/
def Alike (lexeme other : Lexeme) : Prop :=
  lexeme.gap = other.gap ∧ lexeme.text = other.text ∧ lexeme.token = other.token

/-- The text that some lexemes are cut out of. -/
def spelled (lexemes : List Lexeme) : List Char :=
  lexemes.flatMap fun lexeme => lexeme.gap ++ lexeme.text

@[simp]
theorem spelled_nil : spelled [] = [] := rfl

@[simp]
theorem spelled_cons (lexeme : Lexeme) (more : List Lexeme) :
    spelled (lexeme :: more) = lexeme.gap ++ lexeme.text ++ spelled more := rfl

@[simp]
theorem spelled_append (left right : List Lexeme) :
    spelled (left ++ right) = spelled left ++ spelled right := List.flatMap_append

/-- What is passed over is a part of the text in front of the rest. -/
theorem gapOf_starts (place : GapPlace) (cs : List Char) : gapOf place cs <+: cs := by
  fun_induction gapOf place cs with
  | case1 => exact List.nil_prefix
  | case2 rest ih => exact (List.prefix_append_right_inj ['-', '-']).2 ih
  | case3 rest ih => exact (List.prefix_append_right_inj ['/', '*']).2 ih
  | case4 c rest _ _ _ ih => exact (List.prefix_cons_inj c).2 ih
  | case5 => exact List.nil_prefix
  | case6 rest ih => exact (List.prefix_cons_inj '\n').2 ih
  | case7 c rest _ ih => exact (List.prefix_cons_inj c).2 ih
  | case8 rest ih => exact (List.prefix_append_right_inj ['*', '/']).2 ih
  | case9 c rest _ ih => exact (List.prefix_cons_inj c).2 ih

/-- Nothing of a text is lost in its lexemes. -/
theorem spelled_lexemes (line : Nat) (cs : List Char) : spelled (lexemes line cs) = cs := by
  induction hsize : cs.length using Nat.strong_induction_on generalizing line cs with
  | _ size ih =>
    have hgap := List.prefix_iff_eq_take.1 (gapOf_starts .between cs)
    cases hdrop : cs.drop (gapOf .between cs).length with
    | nil =>
      rw [lexemes_of_end line hdrop, spelled_cons, spelled_nil, List.append_nil, List.append_nil]
      conv => rhs; rw [← List.take_append_drop (gapOf .between cs).length cs]
      rw [hdrop, List.append_nil, ← hgap]
    | cons c rest =>
      have hlength := congrArg List.length hdrop
      rw [List.length_drop, List.length_cons] at hlength
      have hrest : (rest.drop (scan c rest).2).length < size := by
        rw [List.length_drop]
        omega
      rw [lexemes_of_scan line hdrop, spelled_cons, ih _ hrest _ _ rfl, List.append_assoc,
        List.cons_append, List.take_append_drop, ← hdrop]
      conv => rhs; rw [← List.take_append_drop (gapOf .between cs).length cs]
      rw [← hgap]

/-- A lexeme without a text is the last one. -/
theorem text_ne_nil_of_lexemes {line : Nat} {cs : List Char} {body tail : List Lexeme}
    (hlexemes : lexemes line cs = body ++ tail) (htail : tail ≠ []) :
    ∀ lexeme ∈ body, lexeme.text ≠ [] := by
  induction body generalizing line cs with
  | nil => nofun
  | cons first more ih =>
    cases hdrop : cs.drop (gapOf .between cs).length with
    | nil =>
      rw [lexemes_of_end line hdrop] at hlexemes
      obtain ⟨-, hnil⟩ := List.cons.inj hlexemes
      exact absurd (List.append_eq_nil_iff.1 hnil.symm).2 htail
    | cons c rest =>
      rw [lexemes_of_scan line hdrop] at hlexemes
      obtain ⟨rfl, hmore⟩ := List.cons.inj hlexemes
      intro lexeme hmem
      rcases List.mem_cons.1 hmem with rfl | hmem
      · exact List.cons_ne_nil _ _
      · exact ih hmore lexeme hmem

section Before

variable (rest : List Char) {b : Char}

/-- A tag without a boundary is found in front of a boundary or not at all. -/
theorem isPrefixOf_boundary {tag : List Char} (htag : b ∉ tag) (cs : List Char) :
    tag.isPrefixOf (cs ++ b :: rest) = tag.isPrefixOf cs := by
  induction tag generalizing cs with
  | nil => cases cs <;> rfl
  | cons c more ih =>
    rw [List.mem_cons, not_or] at htag
    cases cs with
    | nil =>
      have hne : (c == b) = false := beq_eq_false_iff_ne.2 (Ne.symm htag.1)
      rw [List.nil_append, List.isPrefixOf_cons_cons, hne]
      rfl
    | cons d cs =>
      rw [List.cons_append, List.isPrefixOf_cons_cons, List.isPrefixOf_cons_cons, ih htag.2]

theorem takeWhile_boundary {holds : Char → Bool} (hstop : holds b = false) (cs : List Char) :
    (cs ++ b :: rest).takeWhile holds = cs.takeWhile holds := by
  induction cs with
  | nil => rw [List.nil_append, List.takeWhile_cons_of_neg (by rw [hstop]; decide)]; rfl
  | cons c cs ih =>
    rw [List.cons_append, List.takeWhile_cons, List.takeWhile_cons, ih]

theorem head?_boundary {quote : Char} (hquote : b ≠ quote) (cs : List Char) :
    ((cs ++ b :: rest).head? == some quote) = (cs.head? == some quote) := by
  cases cs with
  | nil => exact beq_eq_false_iff_ne.2 fun heq => hquote (Option.some.inj heq)
  | cons c cs => rfl

variable (hb : isBoundary b = true)

include hb

theorem numberLength_boundary (hasPoint : Bool) (cs : List Char) :
    numberLength hasPoint (cs ++ b :: rest) = numberLength hasPoint cs := by
  induction cs generalizing hasPoint with
  | nil =>
    obtain ⟨hdigit, hpoint⟩ := isDigit_of_isBoundary hb
    have hnot : ¬ (b == '.' && !hasPoint) = true := by simp [hpoint]
    rw [List.nil_append, numberLength.eq_2, if_neg (by rw [hdigit]; decide), if_neg hnot]
    rfl
  | cons c cs ih => simp only [List.cons_append, numberLength, ih]

theorem scanNumber_boundary (lead : List Char) (hasPoint : Bool) (cs : List Char) :
    scanNumber lead hasPoint (cs ++ b :: rest) = scanNumber lead hasPoint cs := by
  rw [scanNumber, scanNumber, numberLength_boundary rest hb,
    List.take_append_of_le_length (numberLength_le hasPoint cs)]

theorem scanOperator_boundary (c : Char) (cs : List Char) :
    scanOperator c (cs ++ b :: rest) = scanOperator c cs := by
  rw [scanOperator, scanOperator, takeWhile_boundary rest (class_of_isBoundary hb).2.1]

theorem startsWithDigit_boundary (cs : List Char) :
    startsWithDigit (cs ++ b :: rest) = startsWithDigit cs := by
  cases cs with
  | nil => exact (isDigit_of_isBoundary hb).1
  | cons c cs => rfl

theorem not_mem_tag (cs : List Char) : b ∉ '$' :: cs.takeWhile isTagChar ++ ['$'] := by
  have hsign := (ne_of_isBoundary hb).2.2.2.2.2.2.1
  intro hmem
  simp only [List.cons_append, List.mem_cons, List.mem_append, List.not_mem_nil, or_false] at hmem
  rcases hmem with heq | hmem | heq
  · exact hsign heq
  · have htag := List.mem_takeWhile_imp hmem
    rw [(class_of_isBoundary hb).1] at htag
    cases htag
  · exact hsign heq

end Before

section Boundary

variable (rest other : List Char) {b b' : Char}

theorem ite_boundary {holds : Prop} [Decidable holds] {yes yes' no no' : Token × Nat} {bound : Nat}
    (hyes : holds → yes.2 ≤ bound → yes' = yes) (hno : no.2 ≤ bound → no' = no)
    (hends : (if holds then yes else no).2 ≤ bound) :
    (if holds then yes' else no') = if holds then yes else no := by
  split_ifs at hends ⊢ with hholds
  · exact hyes hholds hends
  · exact hno hends

/-- A quoted text that is closed before a boundary is the same before another one. -/
theorem untilQuote_boundary {quote : Char} (hquote : b ≠ quote) (hquote' : b' ≠ quote) :
    ∀ cs : List Char, (untilQuote quote (cs ++ b :: rest)).2 ≤ cs.length →
      untilQuote quote (cs ++ b' :: other) = untilQuote quote (cs ++ b :: rest)
  | [], hends => absurd hends (Nat.not_le.2 (untilQuote_pos quote b rest))
  | [c], hends => by
    simp only [List.singleton_append, untilQuote, if_neg hquote, if_neg hquote'] at hends ⊢
    split_ifs at hends ⊢
    · rfl
    · exact absurd hends (Nat.not_le.2 (Nat.succ_lt_succ (untilQuote_pos quote b rest)))
  | c :: d :: cs, hends => by
    have hshort := untilQuote_boundary hquote hquote' cs
    have hlong := untilQuote_boundary hquote hquote' (d :: cs)
    simp only [List.cons_append, untilQuote] at hends hlong ⊢
    split_ifs at hends ⊢
    · rw [hshort (by simpa using hends)]
    · rfl
    · rw [hlong (by simpa using hends)]

/-- A tag that ends before the boundary does so whatever stands behind it. -/
theorem untilTag_boundary {tag : List Char} (htag : b ∉ tag) (htag' : b' ∉ tag)
    (cs : List Char)
    (hends : (untilTag tag (cs ++ b :: rest)).2 ≤ cs.length) :
    untilTag tag (cs ++ b' :: other) = untilTag tag (cs ++ b :: rest) := by
  induction cs with
  | nil =>
    have hfront := isPrefixOf_boundary rest htag []
    have hfront' := isPrefixOf_boundary other htag' []
    rw [List.nil_append] at hfront hfront' hends ⊢
    rw [untilTag, hfront] at hends
    rw [List.nil_append, untilTag, untilTag, hfront, hfront']
    split_ifs at hends ⊢
    · rfl
    · exact absurd hends (Nat.not_succ_le_zero _)
  | cons c cs ih =>
    have hfront := isPrefixOf_boundary rest htag (c :: cs)
    have hfront' := isPrefixOf_boundary other htag' (c :: cs)
    rw [List.cons_append] at hfront hfront' hends ⊢
    rw [List.cons_append]
    rw [untilTag, hfront] at hends
    rw [untilTag, untilTag, hfront, hfront']
    split_ifs at hends ⊢
    · rfl
    · rw [ih (by simpa using hends)]

variable (hb : isBoundary b = true) (hb' : isBoundary b' = true)

include hb hb'

/-- A gap that ends before a boundary is the same before another one, unless that is white space
and goes on with the gap. -/
theorem gapOf_boundary (hblank : Text.isBlank b' = true → Text.isBlank b = true)
    (place : GapPlace) : ∀ cs : List Char,
    (gapOf place (cs ++ b :: rest)).length ≤ cs.length →
      gapOf place (cs ++ b' :: other) = gapOf place (cs ++ b :: rest)
  | [], hends => by
    have hnil := List.eq_nil_of_length_eq_zero (Nat.le_zero.1 hends)
    rw [List.nil_append] at hnil
    cases place with
    | between =>
      have hsolid : ¬ Text.isBlank b = true := fun hwhite => by
        rw [gapOf_between_boundary hb, if_pos hwhite] at hnil
        cases hnil
      rw [List.nil_append, List.nil_append, hnil, gapOf_between_boundary hb',
        if_neg fun hwhite => hsolid (hblank hwhite)]
    | lineComment =>
      rw [gapOf_lineComment] at hnil
      cases hnil
    | blockComment => exact absurd hnil (gapOf_blockComment_ne_nil b rest)
  | [c], hends => by
    have hshort := fun place => gapOf_boundary hblank place []
    have hslash := (ne_of_isBoundary hb).2.1
    have hslash' := (ne_of_isBoundary hb').2.1
    simp only [List.singleton_append, List.nil_append, List.length_nil] at hends hshort ⊢
    cases place with
    | between =>
      rw [gapOf_between_last hb] at hends
      rw [gapOf_between_last hb, gapOf_between_last hb']
      split_ifs at hends ⊢
      · rw [hshort .between (by simpa using hends)]
      · rfl
    | lineComment =>
      rw [gapOf_lineComment] at hends
      rw [gapOf_lineComment, gapOf_lineComment, hshort _ (by simpa using hends)]
    | blockComment =>
      rw [gapOf_blockComment, if_neg fun hboth => hslash hboth.2] at hends
      rw [gapOf_blockComment, gapOf_blockComment, if_neg fun hboth => hslash' hboth.2,
        if_neg fun hboth => hslash hboth.2, hshort .blockComment (by simpa using hends)]
  | c :: d :: cs, hends => by
    have hshort := fun place => gapOf_boundary hblank place cs
    have hlong := fun place => gapOf_boundary hblank place (d :: cs)
    simp only [List.cons_append] at hends hlong ⊢
    cases place with
    | between =>
      rw [gapOf_between] at hends
      rw [gapOf_between, gapOf_between]
      split_ifs at hends ⊢
      · rw [hshort .lineComment (by simpa using hends)]
      · rw [hshort .blockComment (by simpa using hends)]
      · rw [hlong .between (by simpa using hends)]
      · rfl
    | lineComment =>
      rw [gapOf_lineComment] at hends
      rw [gapOf_lineComment, gapOf_lineComment, hlong _ (by simpa using hends)]
    | blockComment =>
      rw [gapOf_blockComment] at hends
      rw [gapOf_blockComment, gapOf_blockComment]
      split_ifs at hends ⊢
      · rw [hshort .between (by simpa using hends)]
      · rw [hlong .blockComment (by simpa using hends)]

/-- A quoted text with escapes that ends before the boundary does so whatever stands behind it. -/
theorem untilQuoteEscaped_boundary : ∀ cs : List Char,
    (untilQuoteEscaped (cs ++ b :: rest)).2 ≤ cs.length →
      untilQuoteEscaped (cs ++ b' :: other) = untilQuoteEscaped (cs ++ b :: rest)
  | [], hends => absurd hends (Nat.not_le.2 (untilQuoteEscaped_pos b rest))
  | [c], hends => by
    have hquote := (ne_of_isBoundary hb).2.2.2.2.1
    have hquote' := (ne_of_isBoundary hb').2.2.2.2.1
    simp only [List.singleton_append, untilQuoteEscaped, if_neg hquote, if_neg hquote'] at hends ⊢
    split_ifs at hends ⊢
    · rfl
    · exact absurd hends (by simp)
    · exact absurd hends (Nat.not_le.2 (Nat.succ_lt_succ (untilQuoteEscaped_pos b rest)))
  | c :: d :: cs, hends => by
    have hshort := untilQuoteEscaped_boundary cs
    have hlong := untilQuoteEscaped_boundary (d :: cs)
    simp only [List.cons_append, untilQuoteEscaped] at hends hlong ⊢
    split_ifs at hends ⊢
    · rw [hshort (by simpa using hends)]
    · rfl
    · rw [hshort (by simpa using hends)]
    · rw [hlong (by simpa using hends)]

/-- A text between tags that ends before the boundary does so whatever stands behind it. -/
theorem scanTagged_boundary (cs : List Char)
    (hends : (scanTagged (cs ++ b :: rest)).2 ≤ cs.length) :
    scanTagged (cs ++ b' :: other) = scanTagged (cs ++ b :: rest) := by
  have hlength : (cs.takeWhile isTagChar).length ≤ cs.length :=
    (List.takeWhile_prefix _).length_le
  have htag := not_mem_tag hb cs
  have htag' := not_mem_tag hb' cs
  have hdollar := (ne_of_isBoundary hb).2.2.2.2.2.2.1
  have hdollar' := (ne_of_isBoundary hb').2.2.2.2.2.2.1
  have hsplit := congrArg List.length (List.take_append_drop (cs.takeWhile isTagChar).length cs)
  simp only [scanTagged, takeWhile_boundary _ (class_of_isBoundary hb).1,
    takeWhile_boundary _ (class_of_isBoundary hb').1,
    List.drop_append_of_le_length hlength] at hends ⊢
  generalize cs.takeWhile isTagChar = tag at *
  by_cases hdigit : (tag.head?.map Char.isDigit).getD false = true
  · rw [if_pos hdigit, if_pos hdigit]
  rw [if_neg hdigit] at hends ⊢
  rw [if_neg hdigit]
  cases hdrop : cs.drop tag.length with
  | nil =>
    rw [List.nil_append, List.nil_append]
    split
    · cases ‹_ :: _ = []›
    · next heq => exact absurd (List.cons.inj heq).1 hdollar'
    · split
      · cases ‹_ :: _ = []›
      · next heq => exact absurd (List.cons.inj heq).1 hdollar
      · rfl
  | cons c body =>
    by_cases hsign : c = '$'
    · subst hsign
      rw [hdrop] at hends hsplit
      have hbody := untilTag_boundary rest other htag htag' body
      simp only [List.cons_append] at hends hbody ⊢
      rw [hbody]
      simp only [List.length_append, List.length_take, List.length_cons] at hsplit
      omega
    · simp only [List.cons_append]
      split
      · cases ‹_ :: _ = []›
      · next heq => exact absurd (List.cons.inj heq).1 hsign
      · split
        · cases ‹_ :: _ = []›
        · next heq => exact absurd (List.cons.inj heq).1 hsign
        · rfl

/-- A token that ends before a boundary is the same before another one. -/
theorem scan_boundary (c : Char) (cs : List Char)
    (hends : (scan c (cs ++ b :: rest)).2 ≤ cs.length) :
    scan c (cs ++ b' :: other) = scan c (cs ++ b :: rest) := by
  obtain ⟨-, -, -, hdouble, hsingle, -⟩ := ne_of_isBoundary hb
  obtain ⟨-, -, -, hdouble', hsingle', -⟩ := ne_of_isBoundary hb'
  have hquoted : ∀ quote : Char, b ≠ quote → b' ≠ quote → ∀ token : List Char → Token,
      (untilQuote quote (cs ++ b :: rest)).2 ≤ cs.length →
        (token (untilQuote quote (cs ++ b' :: other)).1,
          (untilQuote quote (cs ++ b' :: other)).2) =
        (token (untilQuote quote (cs ++ b :: rest)).1,
          (untilQuote quote (cs ++ b :: rest)).2) :=
    fun quote hquote hquote' token hends => by
      rw [untilQuote_boundary rest other hquote hquote' cs hends]
  unfold scan at hends ⊢
  rw [startsWithDigit_boundary rest hb, scanNumber_boundary rest hb, scanNumber_boundary rest hb,
    scanNumber_boundary rest hb, scanOperator_boundary rest hb, head?_boundary rest hsingle,
    takeWhile_boundary rest (class_of_isBoundary hb).2.2] at hends ⊢
  rw [startsWithDigit_boundary other hb', scanNumber_boundary other hb',
    scanNumber_boundary other hb', scanNumber_boundary other hb', scanOperator_boundary other hb',
    head?_boundary other hsingle', takeWhile_boundary other (class_of_isBoundary hb').2.2]
  -- Minus, parentheses, comma, semicolon and point do not look beyond the boundary.
  refine ite_boundary (fun _ _ => rfl) ?_ hends
  refine ite_boundary (fun _ _ => rfl) (ite_boundary (fun _ _ => rfl)
    (ite_boundary (fun _ _ => rfl) (ite_boundary (fun _ _ => rfl)
      (ite_boundary (fun _ _ => rfl) ?_))))
  refine ite_boundary
    (fun _ => hquoted '"' hdouble hdouble' fun value => .quotedName (String.ofList value)) ?_
  refine ite_boundary
    (fun _ => hquoted '\'' hsingle hsingle' fun value => .string (String.ofList value)) ?_
  refine ite_boundary (fun _ => scanTagged_boundary rest other hb hb' cs)
    (ite_boundary (fun _ _ => rfl) ?_)
  refine ite_boundary (fun hescaped hlength => ?_) fun _ => rfl
  cases cs with
  | nil => simp at hescaped
  | cons d cs =>
    have hvalue := untilQuoteEscaped_boundary rest other hb hb' cs (Nat.le_of_succ_le_succ hlength)
    simp only [List.cons_append, List.tail_cons, hvalue]

/-! ## Lexemes -/

/-- Before a boundary, a lexeme that does not reach over it is cut out of the text in front, and so
is what follows it. -/
theorem lexemes_boundary_cons (hblank : Text.isBlank b' = true → Text.isBlank b = true)
    (cs : List Char) {line : Nat} {first : Lexeme} {more : List Lexeme}
    (hlexemes : lexemes line (cs ++ b :: rest) = first :: more) (htext : first.text ≠ [])
    (hlength : first.gap.length + first.text.length ≤ cs.length) :
    ∃ cs' next, cs = first.gap ++ first.text ++ cs' ∧ lexemes next (cs' ++ b :: rest) = more ∧
      ∀ line', ∃ found next', Alike first found ∧
        lexemes line' (cs ++ b' :: other) = found :: lexemes next' (cs' ++ b' :: other) := by
  cases hdrop : (cs ++ b :: rest).drop (gapOf .between (cs ++ b :: rest)).length with
  | nil =>
    rw [lexemes_of_end line hdrop] at hlexemes
    exact absurd (congrArg Lexeme.text (List.head_eq_of_cons_eq hlexemes)).symm htext
  | cons c tail =>
    rw [lexemes_of_scan line hdrop] at hlexemes
    obtain ⟨rfl, rfl⟩ := List.cons.inj hlexemes
    simp only [List.length_cons] at hlength
    have hgap : (gapOf .between (cs ++ b :: rest)).length < cs.length := by omega
    have hgap' := gapOf_boundary rest other hb hb' hblank .between cs hgap.le
    have hfront : (cs ++ b :: rest).take (gapOf .between (cs ++ b :: rest)).length =
        gapOf .between (cs ++ b :: rest) := (List.prefix_iff_eq_take.1 (gapOf_starts _ _)).symm
    rw [List.take_append_of_le_length hgap.le] at hfront
    rw [List.drop_append_of_le_length hgap.le] at hdrop
    cases hinner : cs.drop (gapOf .between (cs ++ b :: rest)).length with
    | nil => exact absurd (List.drop_eq_nil_iff.1 hinner) (Nat.not_le.2 hgap)
    | cons d inner =>
      rw [hinner, List.cons_append] at hdrop
      obtain ⟨rfl, rfl⟩ := List.cons.inj hdrop
      have hinside := congrArg List.length hinner
      rw [List.length_drop, List.length_cons] at hinside
      have hlast : (scan d (inner ++ b :: rest)).2 ≤ inner.length := by
        simp only [List.length_take, List.length_append, List.length_cons] at hlength
        omega
      have hscan := scan_boundary rest other hb hb' d inner hlast
      have hdrop' : (cs ++ b' :: other).drop (gapOf .between (cs ++ b' :: other)).length =
          d :: (inner ++ b' :: other) := by
        rw [hgap', List.drop_append_of_le_length hgap.le, hinner, List.cons_append]
      refine ⟨inner.drop (scan d (inner ++ b :: rest)).2, _, ?_,
        by rw [List.drop_append_of_le_length hlast], fun line' => ?_⟩
      · conv => lhs; rw [← List.take_append_drop (gapOf .between (cs ++ b :: rest)).length cs]
        rw [hfront, hinner, List.take_append_of_le_length hlast, List.append_assoc,
          List.cons_append, List.take_append_drop]
      · have hlexemes' := lexemes_of_scan line' hdrop'
        rw [hgap', hscan, List.drop_append_of_le_length hlast,
          List.take_append_of_le_length hlast] at hlexemes'
        refine ⟨_, _, ?_, hlexemes'⟩
        rw [List.take_append_of_le_length hlast]
        exact ⟨rfl, rfl, rfl⟩

/-- Lexemes that end before a boundary are cut out of the text in front of it, before whatever
boundary that stands. -/
theorem lexemes_boundary (hblank : Text.isBlank b' = true → Text.isBlank b = true)
    (cs : List Char) {line : Nat} {body tail : List Lexeme}
    (hlexemes : lexemes line (cs ++ b :: rest) = body ++ tail)
    (htexts : ∀ lexeme ∈ body, lexeme.text ≠ []) (hlength : (spelled body).length ≤ cs.length) :
    ∃ cs' next, cs = spelled body ++ cs' ∧ lexemes next (cs' ++ b :: rest) = tail ∧
      ∀ line', ∃ others next', List.Forall₂ Alike body others ∧
        lexemes line' (cs ++ b' :: other) = others ++ lexemes next' (cs' ++ b' :: other) := by
  induction body generalizing cs line with
  | nil => exact ⟨cs, line, rfl, hlexemes, fun line' => ⟨[], line', .nil, rfl⟩⟩
  | cons first more ih =>
    rw [spelled_cons, List.length_append, List.length_append] at hlength
    obtain ⟨cs', next, rfl, hmore, hfound⟩ := lexemes_boundary_cons rest other hb hb' hblank cs
      hlexemes (htexts first List.mem_cons_self) (by omega)
    rw [List.length_append, List.length_append] at hlength
    obtain ⟨cs'', last, rfl, htail, hothers⟩ :=
      ih cs' hmore (fun lexeme hmem => htexts lexeme (List.mem_cons_of_mem _ hmem)) (by omega)
    refine ⟨cs'', last, ?_, htail, fun line' => ?_⟩
    · rw [spelled_cons, List.append_assoc (first.gap ++ first.text)]
    · obtain ⟨found, next', halike, hlexemes'⟩ := hfound line'
      obtain ⟨others, final', hmore', hrest⟩ := hothers next'
      exact ⟨found :: others, final', .cons halike hmore', by rw [hlexemes', hrest]; rfl⟩

end Boundary

/-- Lexemes that end right before the end of a line are cut out of it whatever the next line is,
and what follows them starts with the end of that line. -/
theorem lexemes_lineEnd (rest cs : List Char) {line final : Nat} {body : List Lexeme}
    (hlexemes : lexemes line (cs ++ ['\n']) = body ++ [⟨['\n'], [], .eof, final⟩])
    (line' : Nat) :
    ∃ others final', List.Forall₂ Alike body others ∧
      lexemes line' (cs ++ '\n' :: rest) = others ++ lexemes final' ('\n' :: rest) := by
  have hspelled : spelled body = cs := by
    have hall := congrArg spelled hlexemes
    rw [spelled_lexemes, spelled_append] at hall
    exact (List.append_cancel_right hall).symm
  obtain ⟨cs', next, hcs, -, hothers⟩ := lexemes_boundary [] rest rfl rfl id cs hlexemes
    (text_ne_nil_of_lexemes hlexemes (List.cons_ne_nil _ _)) (by rw [hspelled])
  have hnil : cs' = [] := by
    rw [hspelled] at hcs
    exact List.self_eq_append_right.1 hcs
  subst hnil
  obtain ⟨others, final', halike, hlexemes'⟩ := hothers line'
  exact ⟨others, final', halike, hlexemes'⟩

end SchemaEvolution.Sql.Lexeme
