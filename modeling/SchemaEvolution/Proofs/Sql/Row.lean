import Mathlib.Data.List.Forall2
import SchemaEvolution.Proofs.Sql.Piece
import SchemaEvolution.Sql.Clause

/-!
# Rows of pieces

A script is a row of pieces, each with the white space before it.  Where every piece ends
before the next one starts, the lexemes of the script are its pieces.  No text breaks out of its
quotes: whatever a name or a literal holds, its quoted form is one lexeme, and what follows is
read as if it stood alone, unless it starts with the same quote.
-/

namespace SchemaEvolution.Sql

/-- A piece and the white space before it. -/
structure Spaced where
  gap : List Char
  piece : Piece

def Spaced.chars (spaced : Spaced) : List Char := spaced.gap ++ spaced.piece.chars

def rowChars (row : List Spaced) : List Char := row.flatMap Spaced.chars

/-- Every piece of the row ends before the next one starts, and the last one before `tail`. -/
def Fits (tail : List Char) : List Spaced → Prop
  | [] => True
  | spaced :: rest =>
    isBlankText spaced.gap ∧ spaced.piece.Sound ∧
      spaced.piece.EndsBefore (rowChars rest ++ tail) ∧ Fits tail rest

@[simp]
theorem rowChars_nil : rowChars [] = [] := rfl

@[simp]
theorem rowChars_append (left right : List Spaced) :
    rowChars (left ++ right) = rowChars left ++ rowChars right := List.flatMap_append

theorem fits_append {left right : List Spaced} {tail : List Char} :
    Fits tail (left ++ right) ↔ Fits (rowChars right ++ tail) left ∧ Fits tail right := by
  induction left with
  | nil => simp [Fits]
  | cons spaced rest ih =>
    simp only [List.cons_append, Fits, ih, rowChars_append, List.append_assoc, and_assoc]

/-- The lexeme is the piece, on whatever line. -/
def Spaced.IsLexeme (spaced : Spaced) (lexeme : Lexeme) : Prop :=
  lexeme.gap = spaced.gap ∧ lexeme.text = spaced.piece.chars ∧ lexeme.token = spaced.piece.token

/-- The lexemes are the pieces of the row. -/
def Places (row : List Spaced) (lexemes : List Lexeme) : Prop :=
  List.Forall₂ Spaced.IsLexeme row lexemes

theorem lexemes_of_end (line : Nat) {cs : List Char}
    (hend : cs.drop (Lexeme.gapOf .between cs).length = []) :
    Lexeme.lexemes line cs = [⟨Lexeme.gapOf .between cs, [], .eof,
      line + Lexeme.newlines (Lexeme.gapOf .between cs)⟩] := by
  unfold Lexeme.lexemes
  dsimp only
  split
  · rfl
  · next heq =>
    rw [hend] at heq
    cases heq

/-- The first lexeme takes the gap and what is scanned after it. -/
theorem lexemes_of_scan (line : Nat) {cs : List Char} {c : Char} {rest : List Char}
    (hcs : cs.drop (Lexeme.gapOf .between cs).length = c :: rest) :
    Lexeme.lexemes line cs =
      ⟨Lexeme.gapOf .between cs, c :: rest.take (Lexeme.scan c rest).2, (Lexeme.scan c rest).1,
        line + Lexeme.newlines (Lexeme.gapOf .between cs)⟩ ::
          Lexeme.lexemes (line + Lexeme.newlines (Lexeme.gapOf .between cs) +
            Lexeme.newlines (c :: rest.take (Lexeme.scan c rest).2))
              (rest.drop (Lexeme.scan c rest).2) := by
  conv => lhs; unfold Lexeme.lexemes
  dsimp only
  split
  · next heq =>
    rw [hcs] at heq
    cases heq
  · next heq =>
    rw [hcs] at heq
    cases heq
    rfl

/-- The lexemes of a row of pieces are these pieces and then those of what follows. -/
theorem lexemes_append {tail : List Char} {row : List Spaced} (hfits : Fits tail row) (line : Nat) :
    ∃ lexemes next, Places row lexemes ∧
      Lexeme.lexemes line (rowChars row ++ tail) = lexemes ++ Lexeme.lexemes next tail := by
  induction row generalizing line with
  | nil => exact ⟨[], line, .nil, rfl⟩
  | cons spaced rest ih =>
    obtain ⟨hblank, hsound, hends, hrest⟩ := hfits
    obtain ⟨c, more, hchars, hscan⟩ := Piece.scan hsound hends
    have hgap : Lexeme.gapOf .between (rowChars (spaced :: rest) ++ tail) = spaced.gap := by
      rw [rowChars, List.flatMap_cons, Spaced.chars, List.append_assoc, List.append_assoc]
      exact gapOf_append hblank (Piece.gapOf hsound _)
    have hdrop : (rowChars (spaced :: rest) ++ tail).drop
        (Lexeme.gapOf .between (rowChars (spaced :: rest) ++ tail)).length =
          c :: (more ++ (rowChars rest ++ tail)) := by
      rw [hgap, rowChars, List.flatMap_cons, Spaced.chars, List.append_assoc, List.append_assoc,
        List.drop_left, hchars]
      rfl
    have hlexemes := lexemes_of_scan line hdrop
    rw [hscan, hgap, List.take_left, List.drop_left, ← hchars] at hlexemes
    obtain ⟨taken, next, hplaces, htaken⟩ := ih hrest
      (line + Lexeme.newlines spaced.gap + Lexeme.newlines spaced.piece.chars)
    rw [htaken] at hlexemes
    exact ⟨_ :: taken, next, .cons ⟨rfl, rfl, rfl⟩ hplaces, hlexemes⟩

/-- White space at the end of a script stands before the end. -/
theorem lexemes_blank {last : List Char} (hlast : isBlankText last) (line : Nat) :
    Lexeme.lexemes line last = [⟨last, [], .eof, line + Lexeme.newlines last⟩] := by
  have hgap : Lexeme.gapOf .between last = last := by
    have happend : Lexeme.gapOf .between (last ++ []) = last := gapOf_append hlast rfl
    rwa [List.append_nil] at happend
  have hend : last.drop (Lexeme.gapOf .between last).length = [] := by
    rw [hgap, List.drop_length]
  have hlexemes := lexemes_of_end line hend
  rwa [hgap] at hlexemes

/-- The lexemes of a row of pieces are these pieces and then the end of the script. -/
theorem lexemes_of_fits {last : List Char} (hlast : isBlankText last) {row : List Spaced}
    (hfits : Fits last row) (line : Nat) : ∃ lexemes final, Places row lexemes ∧
      Lexeme.lexemes line (rowChars row ++ last) = lexemes ++ [⟨last, [], .eof, final⟩] := by
  obtain ⟨lexemes, next, hplaces, hlexemes⟩ := lexemes_append hfits line
  exact ⟨lexemes, _, hplaces, by rw [hlexemes, lexemes_blank hlast]⟩

/-- What comes next starts with a boundary, if anything does. -/
def Closes (text : List Char) : Prop := ∀ c ∈ text.head?, isBoundary c = true

theorem closes_nil : Closes [] := nofun

theorem closes_cons {c : Char} (hboundary : isBoundary c = true) (rest : List Char) :
    Closes (c :: rest) := by
  intro other hother
  cases hother
  exact hboundary

theorem Piece.endsBefore_of_closes (piece : Piece) {tail : List Char} (hcloses : Closes tail) :
    piece.EndsBefore tail := by
  cases piece with
  | name label => exact fun c hmem => .inl (hcloses c hmem)
  | dot => exact fun c hmem => (isDigit_of_isBoundary (hcloses c hmem)).1
  | word spelling => exact hcloses
  | literal value => exact hcloses
  | number digits => exact hcloses
  | _ => trivial

/-- The piece comes after white space or is a sign that ends what stands before it. -/
def Spaced.isSeparate (spaced : Spaced) : Bool :=
  match spaced.gap, spaced.piece with
  | c :: _, _ => isBoundary c
  | [], .leftParen | [], .rightParen | [], .leftBracket | [], .rightBracket | [], .comma
  | [], .semicolon => true
  | [], _ => false

theorem Spaced.closes {spaced : Spaced} (hseparate : spaced.isSeparate = true)
    (rest : List Spaced) (tail : List Char) : Closes (rowChars (spaced :: rest) ++ tail) := by
  obtain ⟨gap, piece⟩ := spaced
  cases gap with
  | cons c more => exact closes_cons hseparate _
  | nil =>
    cases piece with
    | word | name | literal | number | dot => cases hseparate
    | _ => exact closes_cons rfl _

/-- The row fits before anything that starts with a boundary, and starts with one itself. -/
structure Sturdy (row : List Spaced) : Prop where
  fits : ∀ tail, Closes tail → Fits tail row
  closes : ∀ tail, Closes tail → Closes (rowChars row ++ tail)

theorem sturdy_nil : Sturdy [] := ⟨fun _ _ => trivial, fun _ hcloses => hcloses⟩

theorem fits_cons {spaced : Spaced} {rest : List Spaced} (hgap : isBlankText spaced.gap)
    (hsound : spaced.piece.Sound) (hrest : Sturdy rest) {tail : List Char}
    (hcloses : Closes tail) : Fits tail (spaced :: rest) :=
  ⟨hgap, hsound, spaced.piece.endsBefore_of_closes (hrest.closes tail hcloses),
    hrest.fits tail hcloses⟩

theorem Sturdy.cons {spaced : Spaced} {rest : List Spaced} (hgap : isBlankText spaced.gap)
    (hsound : spaced.piece.Sound) (hseparate : spaced.isSeparate = true) (hrest : Sturdy rest) :
    Sturdy (spaced :: rest) :=
  ⟨fun _ => fits_cons hgap hsound hrest, fun tail _ => spaced.closes hseparate rest tail⟩

theorem Sturdy.append {left right : List Spaced} (hleft : Sturdy left) (hright : Sturdy right) :
    Sturdy (left ++ right) := by
  refine ⟨fun tail hcloses => ?_, fun tail hcloses => ?_⟩
  · exact fits_append.2 ⟨hleft.fits _ (hright.closes tail hcloses), hright.fits tail hcloses⟩
  · rw [rowChars_append, List.append_assoc]
    exact hleft.closes _ (hright.closes tail hcloses)

theorem sturdy_flatMap {α : Type} {items : List α} {row : α → List Spaced}
    (hrow : ∀ item ∈ items, Sturdy (row item)) : Sturdy (items.flatMap row) := by
  induction items with
  | nil => exact sturdy_nil
  | cons item rest ih =>
    rw [List.flatMap_cons]
    exact (hrow item List.mem_cons_self).append
      (ih fun other hmem => hrow other (List.mem_cons_of_mem _ hmem))

theorem isBlankText_nil : isBlankText [] := nofun

theorem isBlankText_space : isBlankText [' '] := List.all_eq_true.1 rfl

theorem isBlankText_newline : isBlankText ['\n'] := List.all_eq_true.1 rfl

def after (piece : Piece) : Spaced := ⟨[' '], piece⟩

def tight (piece : Piece) : Spaced := ⟨[], piece⟩

@[simp]
theorem rowChars_after (piece : Piece) (rest : List Spaced) :
    rowChars (after piece :: rest) = ' ' :: (piece.chars ++ rowChars rest) := rfl

@[simp]
theorem rowChars_tight (piece : Piece) (rest : List Spaced) :
    rowChars (tight piece :: rest) = piece.chars ++ rowChars rest := rfl

theorem Sturdy.after {piece : Piece} {rest : List Spaced} (hsound : piece.Sound)
    (hrest : Sturdy rest) : Sturdy (Sql.after piece :: rest) :=
  .cons isBlankText_space hsound rfl hrest

theorem Sturdy.tight {piece : Piece} {rest : List Spaced} (hsound : piece.Sound)
    (hseparate : (Sql.tight piece).isSeparate = true) (hrest : Sturdy rest) :
    Sturdy (Sql.tight piece :: rest) :=
  .cons isBlankText_nil hsound hseparate hrest

def moreRow (gap : List Char) (items : List Piece) : List Spaced :=
  items.flatMap fun piece => [tight .comma, ⟨gap, piece⟩]

/-- Pieces with a comma after each but the last one. -/
def listRow (gap : List Char) : List Piece → List Spaced
  | [] => []
  | first :: more => tight first :: moreRow gap more

theorem intercalate_cons (separator first : List Char) (more : List (List Char)) :
    separator.intercalate (first :: more) = first ++ more.flatMap (separator ++ ·) := by
  induction more generalizing first with
  | nil => simp [List.intercalate]
  | cons second rest ih =>
    rw [List.intercalate_cons_cons, ih, List.flatMap_cons, List.append_assoc, List.append_assoc]

theorem rowChars_listRow (gap : List Char) (items : List Piece) :
    rowChars (listRow gap items) = (',' :: gap).intercalate (items.map Piece.chars) := by
  cases items with
  | nil => rfl
  | cons first more =>
    rw [List.map_cons, intercalate_cons, listRow, rowChars_tight, moreRow, rowChars,
      List.flatMap_assoc, List.flatMap_map]
    simp [Spaced.chars, tight]

/-- A list of pieces ends before the parenthesis that closes it. -/
theorem fits_listRow {gap : List Char} (hgap : isBlankText gap) {items : List Piece}
    (hitems : ∀ item ∈ items, item.Sound) {tail : List Char} (hcloses : Closes tail) :
    Fits tail (listRow gap items) := by
  cases items with
  | nil => trivial
  | cons first more =>
    refine fits_cons isBlankText_nil (hitems first List.mem_cons_self)
      (sturdy_flatMap fun piece hmem => ?_) hcloses
    refine ⟨fun tail hcloses => ?_, fun tail _ => closes_cons rfl _⟩
    exact ⟨isBlankText_nil, trivial, trivial, fits_cons hgap
      (hitems piece (List.mem_cons_of_mem _ hmem)) sturdy_nil hcloses⟩

def groupRow (before between : List Char) (items : List Piece) : List Spaced :=
  ⟨before, .leftParen⟩ :: (listRow between items ++ [tight .rightParen])

@[simp]
theorem rowChars_groupRow (before between : List Char) (items : List Piece) :
    rowChars (groupRow before between items) =
      before ++ '(' :: ((',' :: between).intercalate (items.map Piece.chars) ++ [')']) := by
  rw [← rowChars_listRow]
  simp [groupRow, rowChars, Spaced.chars, tight, Piece.chars]

theorem sturdy_groupRow {before between : List Char} (hbefore : isBlankText before)
    (hseparate : Spaced.isSeparate ⟨before, .leftParen⟩ = true) (hbetween : isBlankText between)
    {items : List Piece} (hitems : ∀ item ∈ items, item.Sound) :
    Sturdy (groupRow before between items) := by
  have hlast : Sturdy [tight .rightParen] := .tight trivial rfl sturdy_nil
  refine ⟨fun tail hcloses => ⟨hbefore, trivial, trivial, fits_append.2 ⟨?_, ?_⟩⟩,
    fun tail _ => Spaced.closes hseparate _ tail⟩
  · exact fits_listRow hbetween hitems (hlast.closes tail hcloses)
  · exact hlast.fits tail hcloses

/-! ## Lexemes that open with a row

A reader of a statement is described by what it does to lexemes that open with a row of
pieces: what it reads from the first of them, and with which row the lexemes it leaves open. -/

section Opening

/-- The lexemes are the pieces of the row and then the rest. -/
def Opens (row : List Spaced) (rest lexemes : List Lexeme) : Prop :=
  ∃ taken, Places row taken ∧ lexemes = taken ++ rest

variable {spaced : Spaced} {row : List Spaced} {rest lexemes : List Lexeme}

theorem opens_nil_iff : Opens [] rest lexemes ↔ lexemes = rest := by
  constructor
  · rintro ⟨taken, hplaces, rfl⟩
    cases hplaces
    rfl
  · rintro rfl
    exact ⟨[], .nil, rfl⟩

theorem Opens.cons (hopens : Opens (spaced :: row) rest lexemes) :
    ∃ lexeme more, spaced.IsLexeme lexeme ∧ Opens row rest more ∧ lexemes = lexeme :: more := by
  obtain ⟨taken, hplaces, rfl⟩ := hopens
  cases hplaces with
  | cons hlexeme hmore => exact ⟨_, _, hlexeme, ⟨_, hmore, rfl⟩, rfl⟩

theorem Opens.append {left right : List Spaced} (hopens : Opens (left ++ right) rest lexemes) :
    ∃ taken more, Places left taken ∧ Opens right rest more ∧ lexemes = taken ++ more := by
  induction left generalizing lexemes with
  | nil => exact ⟨[], lexemes, .nil, hopens, rfl⟩
  | cons spaced others ih =>
    obtain ⟨lexeme, following, hlexeme, hfollowing, rfl⟩ := hopens.cons
    obtain ⟨taken, more, hplaces, hmore, rfl⟩ := ih hfollowing
    exact ⟨lexeme :: taken, more, .cons hlexeme hplaces, hmore, rfl⟩

theorem Opens.length_eq (hopens : Opens row rest lexemes) :
    lexemes.length = row.length + rest.length := by
  obtain ⟨taken, hplaces, rfl⟩ := hopens
  rw [List.length_append, hplaces.length_eq]

theorem Opens.next (hopens : Opens (spaced :: row) rest lexemes) :
    next lexemes = spaced.piece.token := by
  obtain ⟨lexeme, more, hlexeme, -, rfl⟩ := hopens.cons
  exact hlexeme.2.2

theorem Opens.tail (hopens : Opens (spaced :: row) rest lexemes) : Opens row rest lexemes.tail := by
  obtain ⟨lexeme, more, -, hmore, rfl⟩ := hopens.cons
  exact hmore

theorem Opens.eat? {token : Token} (htoken : spaced.piece.token = token)
    (hopens : Opens (spaced :: row) rest lexemes) : eat? token lexemes = some lexemes.tail := by
  obtain ⟨lexeme, more, hlexeme, -, rfl⟩ := hopens.cons
  rw [Sql.eat?, if_pos (hlexeme.2.2.trans htoken)]
  rfl

theorem Opens.eat?_none {token : Token} (htoken : spaced.piece.token ≠ token)
    (hopens : Opens (spaced :: row) rest lexemes) : Sql.eat? token lexemes = none := by
  obtain ⟨lexeme, more, hlexeme, -, rfl⟩ := hopens.cons
  rw [Sql.eat?, if_neg (by rw [hlexeme.2.2]; exact htoken)]

theorem Opens.skip {token : Token} (htoken : spaced.piece.token = token)
    (hopens : Opens (spaced :: row) rest lexemes) : skip token lexemes = lexemes.tail := by
  rw [Sql.skip, hopens.eat? htoken]
  rfl

theorem Opens.skip_none {token : Token} (htoken : spaced.piece.token ≠ token)
    (hopens : Opens (spaced :: row) rest lexemes) : Sql.skip token lexemes = lexemes := by
  rw [Sql.skip, hopens.eat?_none htoken]
  rfl

theorem Opens.skipWord_none {word : String} (hword : spaced.piece.token.isWord word = false)
    (hopens : Opens (spaced :: row) rest lexemes) : skipWord word lexemes = lexemes := by
  rw [skipWord, hopens.next, hword]
  rfl

variable {σ ε : Type} {step : σ → List Lexeme → Except ε (Turn σ × List Lexeme)}
variable {state turned : σ} {left : List Spaced} {others : List Lexeme}

/-- A turn that leaves less to read is followed by the others. -/
theorem repeatedly_again (hshorter : others.length < lexemes.length)
    (hstep : step state lexemes = .ok (.again turned, others)) :
    repeatedly step state lexemes = repeatedly step turned others := by
  conv => lhs; unfold repeatedly
  simp only [hstep, if_pos hshorter]

theorem Opens.repeatedly_again (hopens : Opens row rest lexemes) (hothers : Opens left rest others)
    (hlength : left.length < row.length)
    (hstep : step state lexemes = .ok (.again turned, others)) :
    repeatedly step state lexemes = repeatedly step turned others := by
  refine Sql.repeatedly_again ?_ hstep
  rw [hopens.length_eq, hothers.length_eq]
  omega

theorem repeatedly_done (hstep : step state lexemes = .ok (.done turned, others)) :
    repeatedly step state lexemes = .ok (turned, others) := by
  unfold repeatedly
  simp only [hstep]

def keyword (known : Keyword) : Spaced := after (.word known.spelling)

@[simp]
theorem rowChars_keyword (known : Keyword) (rest : List Spaced) :
    rowChars (keyword known :: rest) = ' ' :: (known.spelling.toList ++ rowChars rest) := rfl

theorem token_keyword (known : Keyword) :
    (Piece.word known.spelling).token = .keyword known := by
  cases known <;> rfl

theorem sound_keyword (known : Keyword) : (Piece.word known.spelling).Sound := by
  cases known <;> rfl

theorem Opens.next_keyword {known : Keyword} (hopens : Opens (keyword known :: row) rest lexemes) :
    Sql.next lexemes = .keyword known :=
  hopens.next.trans (token_keyword known)

theorem Opens.eat?_keyword {known : Keyword} (hopens : Opens (keyword known :: row) rest lexemes) :
    Sql.eat? (.keyword known) lexemes = some lexemes.tail :=
  hopens.eat? (token_keyword known)

/-- Where no dot follows, the last name is the first one. -/
theorem lastName_of_next (name : String) (hdot : next lexemes ≠ .dot) :
    lastName name lexemes = (name, lexemes) := by
  match lexemes, hdot with
  | [], _ => rfl
  | [lexeme], hdot =>
    have htoken : lexeme.token ≠ .dot := hdot
    rw [lastName, if_neg htoken]
  | lexeme :: other :: more, hdot =>
    have htoken : lexeme.token ≠ .dot := hdot
    rw [lastName, if_neg htoken]

theorem Opens.qualifiedName? {name : String} (hname : spaced.piece.token.name? = some name)
    (hopens : Opens (spaced :: row) rest lexemes) (hdot : Sql.next lexemes.tail ≠ .dot) :
    Sql.qualifiedName? lexemes = some (name, lexemes.tail) := by
  rw [Sql.qualifiedName?, hopens.next, hname, Option.map_some, lastName_of_next name hdot]

theorem Opens.next_ne {token : Token} (htoken : spaced.piece.token ≠ token)
    (hopens : Opens (spaced :: row) rest lexemes) : Sql.next lexemes ≠ token := by
  rw [hopens.next]
  exact htoken

theorem Opens.optionalName {name : String} (hname : spaced.piece.token.name? = some name)
    (hopens : Opens (spaced :: row) rest lexemes) :
    optionalName lexemes = (some name, lexemes.tail) := by
  rw [Sql.optionalName, hopens.next, hname]

/-- The names that follow in a list are read up to its bracket. -/
theorem Opens.namesInside_more {gap : List Char} {names : List String}
    (hopens : Opens (moreRow gap (names.map .name) ++ tight .rightParen :: row) rest lexemes) :
    ∃ after, namesInside lexemes = (names, after) ∧ Opens row rest after := by
  induction names generalizing lexemes with
  | nil =>
    obtain ⟨closing, after, hclosing, hafter, rfl⟩ := hopens.cons
    refine ⟨after, ?_, hafter⟩
    simp only [namesInside, hclosing.2.2, tight, Piece.token]
  | cons name more ih =>
    obtain ⟨comma, others, hcomma, hothers, rfl⟩ := hopens.cons
    obtain ⟨lexeme, following, hlexeme, hfollowing, rfl⟩ := hothers.cons
    obtain ⟨after, hread, hafter⟩ := ih hfollowing
    refine ⟨after, ?_, hafter⟩
    simp only [namesInside, hcomma.2.2, hlexeme.2.2, tight, Piece.token, hread]
    rfl

/-- Names between parentheses are read in their order. -/
theorem Opens.nameList {before between : List Char} {names : List String}
    (hopens : Opens (groupRow before between (names.map .name) ++ row) rest lexemes) :
    ∃ after, nameList lexemes = (names, after) ∧ Opens row rest after := by
  rw [groupRow, List.cons_append, List.append_assoc] at hopens
  have hopening : Sql.eat? .leftParen lexemes = some lexemes.tail := hopens.eat? rfl
  rw [Sql.nameList, hopening]
  cases names with
  | nil =>
    have hinside : Opens (moreRow between (([] : List String).map .name) ++
        tight .rightParen :: row) rest lexemes.tail := hopens.tail
    exact hinside.namesInside_more
  | cons name more =>
    obtain ⟨lexeme, others, hlexeme, hothers, hlexemes⟩ := hopens.tail.cons
    obtain ⟨after, hread, hafter⟩ := Opens.namesInside_more hothers
    refine ⟨after, ?_, hafter⟩
    simp only [hlexemes, namesInside, hlexeme.2.2, tight, Piece.token, hread]
    rfl

end Opening

/-! ## Quoted texts as lexemes -/

/-- The text is one lexeme before `tail`, and the lexemes after it are those of `tail`. -/
def IsLexemeBefore (tail text : List Char) (token : Token) : Prop :=
  ∀ line, Lexeme.lexemes line (text ++ tail) =
    ⟨[], text, token, line⟩ :: Lexeme.lexemes (line + Lexeme.newlines text) tail

/-- A third quote goes on with the value: what is read is longer than the quoted text. -/
theorem length_untilQuote_quote (quote : Char) (value rest : List Char) :
    (doubled quote value).length + 1 <
      (Lexeme.untilQuote quote (doubled quote value ++ quote :: quote :: rest)).2 := by
  induction value with
  | nil => simp [doubled, Lexeme.untilQuote]
  | cons c more ih =>
    by_cases hquote : c = quote
    · subst hquote
      simp only [doubled, if_true, List.cons_append, Lexeme.untilQuote, List.length_cons]
      omega
    · obtain ⟨next, others, hmore⟩ :
          ∃ next others, doubled quote more ++ quote :: quote :: rest = next :: others := by
        cases doubled quote more with
        | nil => exact ⟨quote, quote :: rest, rfl⟩
        | cons next others => exact ⟨next, others ++ quote :: quote :: rest, rfl⟩
      rw [hmore] at ih
      rw [doubled, if_neg hquote, List.cons_append, hmore, Lexeme.untilQuote, if_neg hquote,
        List.length_cons]
      exact Nat.succ_lt_succ ih

section Between

variable {quote : Char} {token : String → Token}

/-- The character opens a lexeme that ends at the first such character not written twice. -/
structure IsQuote (quote : Char) (token : String → Token) : Prop where
  visible : Text.isBlank quote = false
  ne_slash : quote ≠ '/'
  ne_minus : quote ≠ '-'
  scan : ∀ rest, Lexeme.scan quote rest =
    (token (String.ofList (Lexeme.untilQuote quote rest).1), (Lexeme.untilQuote quote rest).2)

theorem IsQuote.lexemes (hquote : IsQuote quote token) (line : Nat) (rest : List Char) :
    Lexeme.lexemes line (quote :: rest) =
      ⟨[], quote :: rest.take (Lexeme.untilQuote quote rest).2,
        token (String.ofList (Lexeme.untilQuote quote rest).1), line⟩ ::
          Lexeme.lexemes (line + Lexeme.newlines
            (quote :: rest.take (Lexeme.untilQuote quote rest).2))
              (rest.drop (Lexeme.untilQuote quote rest).2) := by
  have hgap : Lexeme.gapOf .between (quote :: rest) = [] :=
    gapOf_eq_nil hquote.visible hquote.ne_slash fun heq => absurd heq hquote.ne_minus
  have hlexemes := lexemes_of_scan line
    (show (quote :: rest).drop (Lexeme.gapOf .between (quote :: rest)).length = quote :: rest by
      rw [hgap, List.length_nil, List.drop_zero])
  rw [hgap, hquote.scan] at hlexemes
  exact hlexemes

/-- A quoted text is one lexeme exactly where the same quote does not follow. -/
theorem isLexemeBefore_between_iff (hquote : IsQuote quote token) (text : String)
    (tail : List Char) :
    IsLexemeBefore tail (between quote text).toList (token text) ↔ tail.head? ≠ some quote := by
  have hchars : (between quote text).toList ++ tail =
      quote :: (doubled quote text.toList ++ quote :: tail) := by
    rw [toList_between, List.cons_append, List.append_assoc, List.singleton_append]
  constructor
  · rintro hlexeme hsame
    cases tail with
    | nil => cases hsame
    | cons c rest =>
      cases hsame
      have hlength := length_untilQuote_quote quote text.toList rest
      have hfirst := hlexeme 1
      rw [hchars, hquote.lexemes] at hfirst
      have htexts := congrArg (fun lexemes => (lexemes.head?.map Lexeme.text).getD []) hfirst
      have hlengths := congrArg List.length htexts
      simp only [List.head?_cons, Option.map_some, Option.getD_some, toList_between,
        List.length_cons, List.length_take, List.length_append, List.length_nil] at hlengths
      omega
  · intro htail line
    have huntil := untilQuote_doubled quote text.toList tail
      fun c hc hsame => htail (hsame ▸ hc)
    rw [hchars, hquote.lexemes, huntil]
    have htaken : (doubled quote text.toList ++ quote :: tail).take
        ((doubled quote text.toList).length + 1) = doubled quote text.toList ++ [quote] := by
      rw [List.take_length_add_append]
      rfl
    have hleft : (doubled quote text.toList ++ quote :: tail).drop
        ((doubled quote text.toList).length + 1) = tail := by
      rw [List.drop_length_add_append]
      rfl
    rw [htaken, hleft, String.ofList_toList, toList_between]

end Between

theorem isQuote_name : IsQuote '"' .quotedName :=
  ⟨by decide, by decide, by decide, fun _ => rfl⟩

theorem isQuote_literal : IsQuote '\'' .string :=
  ⟨by decide, by decide, by decide, fun _ => rfl⟩

/-- Any text between quotes is one lexeme with that text, and the lexemes after it are those of
what follows: a name where no other double quote follows, a literal where no other single quote
does, and in no other case. -/
theorem quoted_isLexemeBefore_iff (text : String) (tail : List Char) :
    (IsLexemeBefore tail (quoteIdent text).toList (.quotedName text) ↔ tail.head? ≠ some '"') ∧
      (IsLexemeBefore tail (quoteLiteral text).toList (.string text) ↔
        tail.head? ≠ some '\'') :=
  ⟨isLexemeBefore_between_iff isQuote_name text tail,
    isLexemeBefore_between_iff isQuote_literal text tail⟩

end SchemaEvolution.Sql
