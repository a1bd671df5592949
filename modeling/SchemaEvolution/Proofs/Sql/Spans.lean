import Mathlib.Data.String.Basic
import SchemaEvolution.Proofs.Sql.TokenRow

/-!
# Where tokens stand

A cursor goes through a script character by character and counts its bytes and lines.  The places
where it starts and ends a token are ends of characters, the tokens stand in order, and between two
of them there is nothing but white space and comments.  So texts that are cut out between two
tokens are the texts of the lexemes there, and a token is on the line that is reported for it.
-/

namespace SchemaEvolution.Sql

open String (utf8Len utf8Len_append utf8Len_cons utf8Len_eq_zero)
open String.Pos.Raw (IsValid)

/-- White space and comments, all of them closed; at the end of a text the last one may be open. -/
inductive IsGap (atEnd : Bool) : List Char → Prop
  | nil : IsGap atEnd []
  | blank {c : Char} {rest : List Char} (hblank : Text.isBlank c = true)
      (hrest : IsGap atEnd rest) : IsGap atEnd (c :: rest)
  | line {body rest : List Char} (hbody : '\n' ∉ body) (hrest : IsGap atEnd rest) :
      IsGap atEnd ('-' :: '-' :: body ++ '\n' :: rest)
  | block {body rest : List Char} (hbody : ¬ ['*', '/'] <:+: body) (hrest : IsGap atEnd rest) :
      IsGap atEnd ('/' :: '*' :: body ++ '*' :: '/' :: rest)
  | openLine {body : List Char} (hbody : '\n' ∉ body) (hend : atEnd = true) :
      IsGap atEnd ('-' :: '-' :: body)
  | openBlock {body : List Char} (hbody : ¬ ['*', '/'] <:+: body) (hend : atEnd = true) :
      IsGap atEnd ('/' :: '*' :: body)

namespace Lexeme

/-- What may stand in front of the rest of a gap: the start of the comment that it is in. -/
def Leads (rest : List Char) : GapPlace → List Char → Prop
  | .between, front => front = []
  | .lineComment, front => ∃ body, front = '-' :: '-' :: body ∧ '\n' ∉ body
  | .blockComment, front =>
    ∃ body, front = '/' :: '*' :: body ∧ ¬ ['*', '/'] <:+: body ++ rest.take 1

theorem not_closing_singleton (c : List Char) : ¬ ['*', '/'] <:+: c.take 1 := fun hclosing => by
  have hlength := hclosing.length_le
  rw [List.length_take, List.length_cons, List.length_singleton] at hlength
  omega

/-- No comment is closed by a character that is not a slash behind a star. -/
theorem not_closing_concat {body rest : List Char} {c : Char}
    (hopen : ¬ ['*', '/'] <:+: body ++ [c])
    (hnext : ∀ more, c = '*' → rest = '/' :: more → False) :
    ¬ ['*', '/'] <:+: (body ++ [c]) ++ rest.take 1 := by
  cases rest with
  | nil => rwa [List.take_nil, List.append_nil]
  | cons d more =>
    rw [List.take_succ_cons, List.take_zero, List.infix_concat_iff, not_or]
    refine ⟨fun hsuffix => ?_, hopen⟩
    obtain ⟨front, hfront⟩ := hsuffix
    rw [show ['*', '/'] = ['*'] ++ ['/'] from rfl, ← List.append_assoc] at hfront
    obtain ⟨hbody, hd⟩ := List.append_inj' hfront rfl
    obtain ⟨-, hc⟩ := List.append_inj' hbody rfl
    cases hc
    cases hd
    exact hnext more rfl rfl

/-- What leads up to a lexeme and what is passed over make one gap. -/
theorem isGap_of_leads {place : GapPlace} {cs front : List Char} (hleads : Leads cs place front) :
    IsGap (cs.drop (gapOf place cs).length).isEmpty (front ++ gapOf place cs) := by
  fun_induction gapOf place cs generalizing front with
  | case1 place =>
    rw [List.append_nil]
    cases place with
    | between =>
      obtain rfl : front = [] := hleads
      exact .nil
    | lineComment =>
      obtain ⟨body, rfl, hbody⟩ := hleads
      exact .openLine hbody rfl
    | blockComment =>
      obtain ⟨body, rfl, hbody⟩ := hleads
      rw [List.take_nil, List.append_nil] at hbody
      exact .openBlock hbody rfl
  | case2 rest ih =>
    obtain rfl : front = [] := hleads
    exact ih ⟨[], rfl, List.not_mem_nil⟩
  | case3 rest ih =>
    obtain rfl : front = [] := hleads
    exact ih ⟨[], rfl, not_closing_singleton rest⟩
  | case4 c rest _ _ hblank ih =>
    obtain rfl : front = [] := hleads
    exact .blank hblank (ih rfl)
  | case5 c rest =>
    obtain rfl : front = [] := hleads
    exact .nil
  | case6 rest ih =>
    obtain ⟨body, rfl, hbody⟩ := hleads
    exact .line hbody (ih rfl)
  | case7 c rest hother ih =>
    obtain ⟨body, rfl, hbody⟩ := hleads
    have hgap := ih ⟨body ++ [c], rfl, by
      simp only [List.mem_append, List.mem_singleton, not_or]
      exact ⟨hbody, fun heq => hother heq.symm⟩⟩
    rwa [List.cons_append, List.cons_append, List.append_assoc, List.singleton_append] at hgap
  | case8 rest ih =>
    obtain ⟨body, rfl, hbody⟩ := hleads
    exact .block (fun hclosing => hbody (hclosing.trans (List.prefix_append _ _).isInfix)) (ih rfl)
  | case9 c rest hother ih =>
    obtain ⟨body, rfl, hbody⟩ := hleads
    have hgap := ih ⟨body ++ [c], rfl, not_closing_concat hbody hother⟩
    rwa [List.cons_append, List.cons_append, List.append_assoc, List.singleton_append] at hgap

/-- What is skipped in front of a lexeme is a gap. -/
theorem isGap_gapOf (cs : List Char) :
    IsGap (cs.drop (gapOf .between cs).length).isEmpty (gapOf .between cs) :=
  @isGap_of_leads .between cs [] rfl

end Lexeme

/-- What is left of a script, the number of bytes in front of it, and the line it starts on. -/
structure Cursor where
  rest : List Char
  position : Nat
  line : Nat

/-- A token, the bytes in front of it and up to its end, and the line it starts on. -/
structure Spanned where
  token : Token
  start : Nat
  stop : Nat
  line : Nat
  deriving DecidableEq

namespace Cursor

/-- Goes past the next character. -/
def advance (cursor : Cursor) : Cursor :=
  match cursor.rest with
  | [] => cursor
  | c :: rest =>
    ⟨rest, cursor.position + c.utf8Size, if c = '\n' then cursor.line + 1 else cursor.line⟩

def advanceBy : Nat → Cursor → Cursor
  | 0, cursor => cursor
  | count + 1, cursor => advanceBy count cursor.advance

/-- The cursor counts characters for the rest, bytes for the position and line ends for the line. -/
theorem advanceBy_eq (count : Nat) (cursor : Cursor) :
    advanceBy count cursor = ⟨cursor.rest.drop count,
      cursor.position + utf8Len (cursor.rest.take count),
      cursor.line + Lexeme.newlines (cursor.rest.take count)⟩ := by
  induction count generalizing cursor with
  | zero => rfl
  | succ count ih =>
    obtain ⟨rest, position, line⟩ := cursor
    rw [advanceBy, ih]
    cases rest with
    | nil => simp only [advance, List.drop_nil, List.take_nil]
    | cons c rest =>
      simp only [advance, List.drop_succ_cons, List.take_succ_cons, utf8Len_cons,
        Lexeme.newlines, List.count_cons, beq_iff_eq]
      congr 1
      · omega
      · split <;> omega

/-- Goes past white space and comments. -/
def afterGap (cursor : Cursor) : Cursor :=
  advanceBy (Lexeme.gapOf .between cursor.rest).length cursor

theorem afterGap_eq (cs : List Char) (position line : Nat) :
    afterGap ⟨cs, position, line⟩ = ⟨cs.drop (Lexeme.gapOf .between cs).length,
      position + utf8Len (Lexeme.gapOf .between cs),
      line + Lexeme.newlines (Lexeme.gapOf .between cs)⟩ := by
  rw [afterGap, advanceBy_eq, ← List.prefix_iff_eq_take.1 (Lexeme.gapOf_starts .between cs)]

theorem length_rest_advanceBy (count : Nat) (cursor : Cursor) :
    (advanceBy count cursor).rest.length = cursor.rest.length - count := by
  rw [advanceBy_eq, List.length_drop]

/-- The tokens from a cursor on; the last one is the end. -/
def spans (cursor : Cursor) : List Spanned :=
  match _h : cursor.afterGap.rest with
  | [] => [⟨.eof, cursor.afterGap.position, cursor.afterGap.position, cursor.afterGap.line⟩]
  | c :: rest =>
    let last := advanceBy ((Lexeme.scan c rest).2 + 1) cursor.afterGap
    ⟨(Lexeme.scan c rest).1, cursor.afterGap.position, last.position, cursor.afterGap.line⟩ ::
      spans last
termination_by cursor.rest.length
decreasing_by
  have hrest := congrArg List.length _h
  rw [afterGap, length_rest_advanceBy, List.length_cons] at hrest
  rw [length_rest_advanceBy, afterGap, length_rest_advanceBy]
  omega

end Cursor

namespace Spanned

def ofText (text : String) : List Spanned := Cursor.spans ⟨text.toList, 0, 1⟩

theorem ofText_ofList (chars : List Char) :
    ofText (String.ofList chars) = Cursor.spans ⟨chars, 0, 1⟩ :=
  congrArg (fun cs => Cursor.spans ⟨cs, 0, 1⟩) String.toList_ofList

/-- Where the text of a lexeme stands that starts, with its gap, behind some bytes. -/
def ofLexeme (start : Nat) (lexeme : Lexeme) : Spanned :=
  ⟨lexeme.token, start + utf8Len lexeme.gap,
    start + utf8Len lexeme.gap + utf8Len lexeme.text, lexeme.line⟩

/-- Where lexemes stand that start behind some bytes. -/
def ofLexemes (start : Nat) : List Lexeme → List Spanned
  | [] => []
  | lexeme :: rest => ofLexeme start lexeme :: ofLexemes (ofLexeme start lexeme).stop rest

/-- The cursor finds the lexemes, each at its place. -/
theorem spans_eq (cursor : Cursor) :
    cursor.spans = ofLexemes cursor.position (Lexeme.lexemes cursor.line cursor.rest) := by
  induction hsize : cursor.rest.length using Nat.strong_induction_on generalizing cursor with
  | _ size ih =>
    obtain ⟨cs, position, line⟩ := cursor
    rw [Cursor.spans]
    split
    · next hrest =>
      rw [Cursor.afterGap_eq] at hrest
      rw [lexemes_of_end line hrest, Cursor.afterGap_eq]
      rfl
    · next c rest hrest =>
      have hlength := congrArg List.length hrest
      rw [Cursor.afterGap, Cursor.length_rest_advanceBy, List.length_cons] at hlength
      have hshorter : (Cursor.advanceBy ((Lexeme.scan c rest).2 + 1)
          (Cursor.afterGap ⟨cs, position, line⟩)).rest.length < size := by
        rw [Cursor.length_rest_advanceBy, Cursor.afterGap, Cursor.length_rest_advanceBy]
        omega
      rw [Cursor.afterGap_eq] at hrest
      dsimp only at hrest ⊢
      rw [ih _ hshorter _ rfl, lexemes_of_scan line hrest, Cursor.afterGap_eq, Cursor.advanceBy_eq]
      simp only [hrest, List.take_succ_cons, List.drop_succ_cons]
      rfl

theorem ofText_eq (text : String) : ofText text = ofLexemes 0 (Lexeme.ofText text) :=
  spans_eq ⟨text.toList, 0, 1⟩

theorem ofLexemes_append (start : Nat) (left right : List Lexeme) :
    ofLexemes start (left ++ right) =
      ofLexemes start left ++ ofLexemes (start + utf8Len (Lexeme.spelled left)) right := by
  induction left generalizing start with
  | nil => rfl
  | cons lexeme rest ih =>
    rw [List.cons_append, ofLexemes, ofLexemes, ih, Lexeme.spelled_cons, utf8Len_append,
      utf8Len_append, List.cons_append]
    simp only [ofLexeme, Nat.add_assoc]

theorem length_ofLexemes (start : Nat) (lexemes : List Lexeme) :
    (ofLexemes start lexemes).length = lexemes.length := by
  induction lexemes generalizing start with
  | nil => rfl
  | cons lexeme rest ih => exact congrArg Nat.succ (ih _)

theorem getElem?_ofText {text : String} {front back : List Lexeme} {lexeme : Lexeme}
    (hlexemes : Lexeme.ofText text = front ++ lexeme :: back) :
    (ofText text)[front.length]? = some (ofLexeme (utf8Len (Lexeme.spelled front)) lexeme) := by
  have hlength := length_ofLexemes 0 front
  rw [ofText_eq, hlexemes, ofLexemes_append, Nat.zero_add,
    List.getElem?_append_right (Nat.le_of_eq hlength), hlength, Nat.sub_self]
  rfl

theorem map_token_ofLexemes (start : Nat) (lexemes : List Lexeme) :
    (ofLexemes start lexemes).map Spanned.token = lexemes.map Lexeme.token := by
  induction lexemes generalizing start with
  | nil => rfl
  | cons lexeme rest ih => exact congrArg (lexeme.token :: ·) (ih _)

theorem map_line_ofLexemes (start : Nat) (lexemes : List Lexeme) :
    (ofLexemes start lexemes).map Spanned.line = lexemes.map Lexeme.line := by
  induction lexemes generalizing start with
  | nil => rfl
  | cons lexeme rest ih => exact congrArg (lexeme.line :: ·) (ih _)

/-- What is cut out between two bytes of a text, if these are ends of characters, in order. -/
def slice? (text : String) (start stop : Nat) : Option String :=
  if IsValid text ⟨start⟩ ∧ IsValid text ⟨stop⟩ ∧ start ≤ stop then
    some (String.Pos.Raw.extract text ⟨start⟩ ⟨stop⟩)
  else none

/-- The text from one token up to another one, without white space around it.  There is none where
a token is missing or the text cannot be cut out. -/
def textFrom? (text : String) (spans : List Spanned) (first last : Nat) : Option String :=
  if last ≤ first then some ""
  else do
    let front ← spans[first]?
    let back ← spans[last - 1]?
    let found ← slice? text front.start back.stop
    return String.ofList (Text.trim found.toList)

theorem isValid_between (front back : List Char) :
    IsValid (String.ofList (front ++ back)) ⟨utf8Len front⟩ := by
  rw [String.Pos.Raw.isValid_iff_exists_append]
  exact ⟨String.ofList front, String.ofList back, String.ofList_append,
    (String.rawEndPos_ofList front).symm⟩

theorem slice?_eq (front middle back : List Char) :
    slice? (String.ofList (front ++ middle ++ back)) (utf8Len front)
      (utf8Len front + utf8Len middle) = some (String.ofList middle) := by
  have hstart := isValid_between front (middle ++ back)
  have hstop := isValid_between (front ++ middle) back
  rw [← List.append_assoc] at hstart
  rw [utf8Len_append] at hstop
  rw [slice?, if_pos ⟨hstart, hstop, Nat.le_add_right _ _⟩, String.extract_of_valid]

end Spanned

/-! ## Lexemes in their script -/

/-- What a lexeme is whose gap follows some text, at the end of a script or before it. -/
structure Lexeme.Placed (line : Nat) (before : List Char) (atEnd : Bool) (lexeme : Lexeme) :
    Prop where
  gap : IsGap atEnd lexeme.gap
  line_eq : lexeme.line = line + newlines (before ++ lexeme.gap)
  token_iff : lexeme.token = .eof ↔ atEnd = true
  text_iff : lexeme.text = [] ↔ atEnd = true

theorem Token.ofWord_ne_eof (word : String) : Token.ofWord word ≠ .eof := by
  rw [Token.ofWord]
  split <;> rintro ⟨⟩

theorem ite_fst_ne {holds : Prop} [Decidable holds] {token : Token} {yes no : Token × Nat}
    (hyes : yes.1 ≠ token) (hno : no.1 ≠ token) : (if holds then yes else no).1 ≠ token := by
  split
  · exact hyes
  · exact hno

/-- No character is read as the end. -/
theorem Lexeme.scan_ne_eof (c : Char) (rest : List Char) : (scan c rest).1 ≠ .eof := by
  have hoperator : (scanOperator c rest).1 ≠ .eof := ite_fst_ne (by simp) (by simp)
  have htagged : (scanTagged rest).1 ≠ .eof := by
    refine ite_fst_ne (by simp) ?_
    split <;> simp
  have hnumber (lead : List Char) (hasPoint : Bool) : (scanNumber lead hasPoint rest).1 ≠ .eof := by
    simp [scanNumber]
  rw [scan]
  refine ite_fst_ne (ite_fst_ne (hnumber _ _) hoperator) ?_
  iterate 4 refine ite_fst_ne (by simp) ?_
  refine ite_fst_ne (ite_fst_ne (hnumber _ _) (by simp)) ?_
  iterate 2 refine ite_fst_ne (by simp) ?_
  refine ite_fst_ne htagged (ite_fst_ne (hnumber _ _) (ite_fst_ne (by simp) ?_))
  exact ite_fst_ne (Token.ofWord_ne_eof _) hoperator

theorem Lexeme.lexemes_ne_nil (line : Nat) (cs : List Char) : lexemes line cs ≠ [] := by
  obtain ⟨body, last, hbody, -⟩ := solid_lexemes line cs
  rw [hbody]
  exact List.append_ne_nil_of_right_ne_nil _ (List.cons_ne_nil _ _)

/-- A lexeme stands in its line, with the text of those in front of it before it. -/
theorem Lexeme.placed {line : Nat} {cs : List Char} {front back : List Lexeme} {lexeme : Lexeme}
    (hlexemes : lexemes line cs = front ++ lexeme :: back) :
    lexeme.Placed line (spelled front) back.isEmpty := by
  have hgap := isGap_gapOf cs
  induction front generalizing line cs with
  | nil =>
    cases hdrop : cs.drop (gapOf .between cs).length with
    | nil =>
      rw [lexemes_of_end line hdrop] at hlexemes
      cases hlexemes
      rw [hdrop] at hgap
      exact ⟨hgap, rfl, iff_of_true rfl rfl, iff_of_true rfl rfl⟩
    | cons c rest =>
      rw [lexemes_of_scan line hdrop] at hlexemes
      obtain ⟨rfl, hmore⟩ := List.cons.inj hlexemes
      rw [hdrop] at hgap
      have hback : back.isEmpty = false :=
        Bool.eq_false_iff.2 fun hnil => lexemes_ne_nil _ _ (hmore.trans (List.isEmpty_iff.1 hnil))
      rw [hback]
      exact ⟨hgap, rfl, iff_of_false (scan_ne_eof c rest) nofun,
        iff_of_false (List.cons_ne_nil _ _) nofun⟩
  | cons first front ih =>
    cases hdrop : cs.drop (gapOf .between cs).length with
    | nil =>
      rw [lexemes_of_end line hdrop] at hlexemes
      obtain ⟨-, hnil⟩ := List.cons.inj hlexemes
      exact absurd hnil.symm (List.append_ne_nil_of_right_ne_nil _ (List.cons_ne_nil _ _))
    | cons c rest =>
      rw [lexemes_of_scan line hdrop] at hlexemes
      obtain ⟨rfl, hmore⟩ := List.cons.inj hlexemes
      obtain ⟨hgap, hline, htoken, htext⟩ :=
        ih hmore (isGap_gapOf _)
      refine ⟨hgap, ?_, htoken, htext⟩
      rw [hline, spelled_cons]
      simp only [newlines, List.count_append]
      omega

/-! ## Tokens in their script -/

namespace Spanned

def stopOf (spans : List Spanned) : Nat := (spans.getLast?.map Spanned.stop).getD 0

/-- Tokens tile a text: the last one is its end, every other one has a text of its own, and between
them there are only white space and comments. -/
structure Tiling (text : String) (spans : List Spanned) : Prop where
  ends : ∃ inner last, spans = inner ++ [last] ∧ last.token = .eof ∧
    last.start = text.utf8ByteSize ∧ last.stop = text.utf8ByteSize ∧
      ∀ spanned ∈ inner, spanned.token ≠ .eof ∧ spanned.start < spanned.stop
  boundaries : ∀ spanned ∈ spans, IsValid text ⟨spanned.start⟩ ∧ IsValid text ⟨spanned.stop⟩
  ordered : spans.Pairwise fun spanned later => spanned.stop ≤ later.start
  gaps : ∀ before spanned after, spans = before ++ spanned :: after →
    ∃ gap, slice? text (stopOf before) spanned.start = some gap ∧ IsGap after.isEmpty gap.toList
  lines : ∀ spanned ∈ spans, ∃ before, slice? text 0 spanned.start = some before ∧
    spanned.line = 1 + Lexeme.newlines before.toList

/-- A place among the spans is one among the lexemes. -/
theorem exists_of_split {start : Nat} {lexemes : List Lexeme} {before after : List Spanned}
    {spanned : Spanned} (hspans : ofLexemes start lexemes = before ++ spanned :: after) :
    ∃ front lexeme back, lexemes = front ++ lexeme :: back ∧ before = ofLexemes start front ∧
      spanned = ofLexeme (start + utf8Len (Lexeme.spelled front)) lexeme ∧
        after.isEmpty = back.isEmpty := by
  induction before generalizing start lexemes with
  | nil =>
    cases lexemes with
    | nil => cases hspans
    | cons lexeme rest =>
      cases hspans
      refine ⟨[], lexeme, rest, rfl, rfl, rfl, ?_⟩
      cases rest <;> rfl
  | cons first before ih =>
    cases lexemes with
    | nil => cases hspans
    | cons lexeme rest =>
      obtain ⟨rfl, hrest⟩ := List.cons.inj hspans
      obtain ⟨front, found, back, rfl, rfl, rfl, hempty⟩ := ih hrest
      refine ⟨lexeme :: front, found, back, rfl, rfl, ?_, hempty⟩
      rw [Lexeme.spelled_cons, utf8Len_append, utf8Len_append]
      simp only [ofLexeme, Nat.add_assoc]

/-- The spans end where their text ends. -/
theorem stop_ofLexemes (start : Nat) (lexemes : List Lexeme) :
    (((ofLexemes start lexemes).getLast?).map Spanned.stop).getD start =
      start + utf8Len (Lexeme.spelled lexemes) := by
  induction lexemes generalizing start with
  | nil => rfl
  | cons lexeme rest ih =>
    have hrest := ih (ofLexeme start lexeme).stop
    have hstop : (ofLexeme start lexeme).stop =
        start + utf8Len lexeme.gap + utf8Len lexeme.text := rfl
    rw [ofLexemes, List.getLast?_cons, Lexeme.spelled_cons, utf8Len_append, utf8Len_append,
      Option.map_some, Option.getD_some]
    cases hlast : (ofLexemes (ofLexeme start lexeme).stop rest).getLast? with
    | none =>
      rw [hlast, Option.map_none, Option.getD_none] at hrest
      rw [Option.getD_none]
      omega
    | some last =>
      rw [hlast, Option.map_some, Option.getD_some] at hrest
      rw [Option.getD_some]
      omega

theorem start_le_of_mem {start : Nat} {lexemes : List Lexeme} {spanned : Spanned}
    (hmem : spanned ∈ ofLexemes start lexemes) : start ≤ spanned.start := by
  obtain ⟨before, after, hspans⟩ := List.mem_iff_append.1 hmem
  obtain ⟨front, lexeme, back, -, -, rfl, -⟩ := exists_of_split hspans
  exact Nat.le_trans (Nat.le_add_right _ _) (Nat.le_add_right _ _)

theorem ordered_ofLexemes (start : Nat) (lexemes : List Lexeme) :
    (ofLexemes start lexemes).Pairwise fun spanned later => spanned.stop ≤ later.start := by
  induction lexemes generalizing start with
  | nil => exact .nil
  | cons lexeme rest ih => exact .cons (fun later hmem => start_le_of_mem hmem) (ih _)

theorem text_eq_of_lexemes {text : String} {front back : List Lexeme} {lexeme : Lexeme}
    (hlexemes : Lexeme.ofText text = front ++ lexeme :: back) :
    text = String.ofList (Lexeme.spelled front ++ lexeme.gap ++ lexeme.text ++
      Lexeme.spelled back) := by
  have hspelled := Lexeme.spelled_lexemes 1 text.toList
  rw [show Lexeme.lexemes 1 text.toList = front ++ lexeme :: back from hlexemes,
    Lexeme.spelled_append, Lexeme.spelled_cons] at hspelled
  simp only [List.append_assoc] at hspelled ⊢
  rw [hspelled, String.ofList_toList]

/-- A token of a text with its lexeme, what is in front of it and what is behind it. -/
theorem split_ofText {text : String} {before after : List Spanned} {spanned : Spanned}
    (hspans : ofText text = before ++ spanned :: after) :
    ∃ front lexeme back, Lexeme.ofText text = front ++ lexeme :: back ∧
      before = ofLexemes 0 front ∧
      spanned = ofLexeme (utf8Len (Lexeme.spelled front)) lexeme ∧
      after.isEmpty = back.isEmpty ∧
      text = String.ofList (Lexeme.spelled front ++ lexeme.gap ++ lexeme.text ++
        Lexeme.spelled back) := by
  rw [ofText_eq] at hspans
  obtain ⟨front, lexeme, back, hlexemes, hbefore, hspanned, hafter⟩ := exists_of_split hspans
  rw [Nat.zero_add] at hspanned
  exact ⟨front, lexeme, back, hlexemes, hbefore, hspanned, hafter, text_eq_of_lexemes hlexemes⟩

theorem split_of_mem {text : String} {spanned : Spanned} (hmem : spanned ∈ ofText text) :
    ∃ front lexeme back, Lexeme.ofText text = front ++ lexeme :: back ∧
      spanned = ofLexeme (utf8Len (Lexeme.spelled front)) lexeme ∧
      text = String.ofList (Lexeme.spelled front ++ lexeme.gap ++ lexeme.text ++
        Lexeme.spelled back) := by
  obtain ⟨before, after, hspans⟩ := List.mem_iff_append.1 hmem
  obtain ⟨front, lexeme, back, hlexemes, -, hspanned, -, htext⟩ := split_ofText hspans
  exact ⟨front, lexeme, back, hlexemes, hspanned, htext⟩

/-- The last span is the end of the text, and the others are not empty. -/
theorem ends_ofText (text : String) :
    ∃ inner last, ofText text = inner ++ [last] ∧ last.token = .eof ∧
      last.start = text.utf8ByteSize ∧ last.stop = text.utf8ByteSize ∧
        ∀ spanned ∈ inner, spanned.token ≠ .eof ∧ spanned.start < spanned.stop := by
  obtain ⟨body, last, hbody, -⟩ := solid_lexemes 1 text.toList
  have hlast := Lexeme.placed hbody
  have hnil : last.text = [] := hlast.text_iff.2 rfl
  have hsize : utf8Len (Lexeme.spelled body) + utf8Len last.gap = text.utf8ByteSize := by
    have hspelled := Lexeme.spelled_lexemes 1 text.toList
    rw [hbody, Lexeme.spelled_append, Lexeme.spelled_cons, hnil, Lexeme.spelled_nil,
      List.append_nil, List.append_nil] at hspelled
    rw [← String.utf8Len_toList, ← hspelled, utf8Len_append]
  have hspans : ofText text =
      ofLexemes 0 body ++ [ofLexeme (utf8Len (Lexeme.spelled body)) last] := by
    rw [ofText_eq, Lexeme.ofText, hbody, ofLexemes_append, Nat.zero_add]
    rfl
  refine ⟨_, _, hspans, hlast.token_iff.2 rfl, hsize, ?_, fun spanned hmem => ?_⟩
  · rw [ofLexeme, hnil]
    exact hsize
  · obtain ⟨before, after, hinner⟩ := List.mem_iff_append.1 hmem
    obtain ⟨front, lexeme, back, rfl, -, rfl, -⟩ := exists_of_split hinner
    rw [List.append_assoc, List.cons_append] at hbody
    obtain ⟨-, -, htoken, htext⟩ := Lexeme.placed hbody
    have hend : (back ++ [last]).isEmpty ≠ true := by simp
    refine ⟨mt htoken.1 hend, Nat.lt_add_of_pos_right (Nat.pos_of_ne_zero ?_)⟩
    exact mt (fun hlen => htext.1 (utf8Len_eq_zero.1 hlen)) hend

/-- The spans of a text and the gaps between them make up the text. -/
theorem tiling_ofText (text : String) : Tiling text (ofText text) := by
  refine ⟨ends_ofText text, fun spanned hmem => ?_, ?_, fun before spanned after hspans => ?_,
    fun spanned hmem => ?_⟩
  · obtain ⟨front, lexeme, back, -, rfl, htext⟩ := split_of_mem hmem
    have hstart := isValid_between (Lexeme.spelled front ++ lexeme.gap)
      (lexeme.text ++ Lexeme.spelled back)
    have hstop := isValid_between (Lexeme.spelled front ++ lexeme.gap ++ lexeme.text)
      (Lexeme.spelled back)
    rw [← List.append_assoc, utf8Len_append] at hstart
    rw [utf8Len_append, utf8Len_append] at hstop
    rw [htext]
    exact ⟨hstart, hstop⟩
  · rw [ofText_eq]
    exact ordered_ofLexemes 0 _
  · obtain ⟨front, lexeme, back, hlexemes, rfl, rfl, hafter, htext⟩ := split_ofText hspans
    have hstop := stop_ofLexemes 0 front
    rw [Nat.zero_add] at hstop
    refine ⟨String.ofList lexeme.gap, ?_, ?_⟩
    · rw [stopOf, hstop, htext, List.append_assoc (_ ++ _)]
      exact slice?_eq _ _ _
    · rw [hafter, String.toList_ofList]
      exact (Lexeme.placed hlexemes).gap
  · obtain ⟨front, lexeme, back, hlexemes, rfl, htext⟩ := split_of_mem hmem
    have hslice := slice?_eq [] (Lexeme.spelled front ++ lexeme.gap)
      (lexeme.text ++ Lexeme.spelled back)
    rw [List.nil_append, ← List.append_assoc, ← htext, utf8Len_append, String.utf8Len_nil,
      Nat.zero_add] at hslice
    refine ⟨String.ofList (Lexeme.spelled front ++ lexeme.gap), hslice, ?_⟩
    rw [String.toList_ofList]
    exact (Lexeme.placed hlexemes).line_eq

/-- The text between two tokens is that of the lexemes between them. -/
theorem textFrom?_ofText {text : String} {front taken back : List Lexeme}
    (hlexemes : Lexeme.ofText text = front ++ (taken ++ back)) :
    textFrom? text (ofText text) front.length (front ++ taken).length = some (textOf taken) := by
  rcases List.eq_nil_or_concat taken with rfl | ⟨inner, last, rfl⟩
  · rw [textFrom?, if_pos (by rw [List.append_nil])]
    rfl
  · obtain ⟨first, more, hfirst⟩ : ∃ first more, inner ++ [last] = first :: more :=
      List.exists_cons_of_ne_nil (List.append_ne_nil_of_right_ne_nil _ (List.cons_ne_nil _ _))
    rw [List.concat_eq_append] at hlexemes ⊢
    have hfront : Lexeme.ofText text = front ++ first :: (more ++ back) := by
      rw [hlexemes, hfirst, List.cons_append]
    have hback : Lexeme.ofText text = (front ++ inner) ++ last :: back := by
      rw [hlexemes, List.append_assoc, List.append_assoc, List.singleton_append]
    have hindex : (front ++ (inner ++ [last])).length - 1 = (front ++ inner).length := by
      rw [← List.append_assoc, List.length_append, List.length_singleton, Nat.add_sub_cancel]
    have hbefore : ¬ (front ++ (inner ++ [last])).length ≤ front.length := by
      simp only [List.length_append, List.length_singleton]
      omega
    have htext := text_eq_of_lexemes hfront
    rw [Lexeme.spelled_append, List.append_assoc, ← List.append_assoc first.text,
      ← List.append_assoc] at htext
    have hstart : (ofLexeme (utf8Len (Lexeme.spelled front)) first).start =
        utf8Len (Lexeme.spelled front ++ first.gap) := (utf8Len_append _ _).symm
    have hstop : (ofLexeme (utf8Len (Lexeme.spelled (front ++ inner))) last).stop =
        utf8Len (Lexeme.spelled front ++ first.gap) +
          utf8Len (first.text ++ Lexeme.spelled more) := by
      have hlengths := congrArg (fun row => utf8Len (Lexeme.spelled row)) hfirst
      simp only [Lexeme.spelled_append, Lexeme.spelled_cons, Lexeme.spelled_nil, List.append_nil,
        utf8Len_append] at hlengths
      simp only [ofLexeme, Lexeme.spelled_append, utf8Len_append]
      omega
    have hslice := slice?_eq (Lexeme.spelled front ++ first.gap)
      (first.text ++ Lexeme.spelled more) (Lexeme.spelled back)
    rw [← htext, ← hstop, ← hstart] at hslice
    rw [textFrom?, if_neg hbefore, hindex, getElem?_ofText hfront, getElem?_ofText hback, hfirst]
    change (slice? text _ _).bind _ = _
    rw [hslice, Option.bind_some, String.toList_ofList]
    rfl

end Spanned

/-- The tokens of every text tile it.  Whatever lexemes are read together, their text can be cut
out of the text between their tokens, and each line that is reported is that of a token. -/
theorem spans_tile (text : String) :
    Spanned.Tiling text (Spanned.ofText text) ∧
      (Spanned.ofText text).map Spanned.token = (Lexeme.ofText text).map Lexeme.token ∧
      (∀ front taken back, Lexeme.ofText text = front ++ (taken ++ back) →
        Spanned.textFrom? text (Spanned.ofText text) front.length (front ++ taken).length =
          some (textOf taken)) ∧
      ∀ front rest, Lexeme.ofText text = front ++ rest →
        line? rest = ((Spanned.ofText text)[front.length]?).map Spanned.line := by
  refine ⟨Spanned.tiling_ofText text, ?_, fun front taken back => Spanned.textFrom?_ofText,
    fun front rest hlexemes => ?_⟩
  · rw [Spanned.ofText_eq, Spanned.map_token_ofLexemes]
  · rw [← List.getElem?_map, Spanned.ofText_eq, Spanned.map_line_ofLexemes, hlexemes,
      List.getElem?_map, List.getElem?_append_right (Nat.le_refl _), Nat.sub_self,
      ← List.head?_eq_getElem?]
    rfl

/-- A text with characters of two bytes, and with a comment that is not closed. -/
def openCommentText : String := "'ü' -- é\n/* b */ x /* c"

def openCommentLexemes : List Lexeme :=
  [⟨[], ['\'', 'ü', '\''], .string "ü", 1⟩, ⟨" -- é\n/* b */ ".toList, ['x'], .word "x", 2⟩,
    ⟨" /* c".toList, [], .eof, 2⟩]

theorem spans_tile_openCommentText :
    Spanned.ofText openCommentText =
        [⟨.string "ü", 0, 4, 1⟩, ⟨.word "x", 19, 20, 2⟩, ⟨.eof, 25, 25, 2⟩] ∧
      Spanned.textFrom? openCommentText (Spanned.ofText openCommentText) 0 2 =
        some "'ü' -- é\n/* b */ x" ∧
      line? (openCommentLexemes.drop 1) = some 2 := by
  have hspans : Spanned.ofText openCommentText =
      [⟨.string "ü", 0, 4, 1⟩, ⟨.word "x", 19, 20, 2⟩, ⟨.eof, 25, 25, 2⟩] :=
    (Spanned.ofText_ofList _).trans (by decide +kernel)
  have hlexemes : Lexeme.ofText openCommentText = openCommentLexemes :=
    (Lexeme.ofText_ofList _).trans (by decide +kernel)
  obtain ⟨-, -, htexts, hlines⟩ := spans_tile openCommentText
  refine ⟨hspans, ?_, ?_⟩
  · have htext := htexts [] (openCommentLexemes.take 2) (openCommentLexemes.drop 2) hlexemes
    exact htext.trans (congrArg some (by decide +kernel))
  · have hline := hlines (openCommentLexemes.take 1) (openCommentLexemes.drop 1) hlexemes
    rw [hspans] at hline
    exact hline

end SchemaEvolution.Sql
