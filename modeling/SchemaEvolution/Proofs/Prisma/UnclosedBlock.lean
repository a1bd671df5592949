import SchemaEvolution.Proofs.Prisma.FieldReading
import SchemaEvolution.Proofs.Prisma.KeyPlacement

/-!
# Blocks without a closing brace

A schema is read block by block, and the lines of a block one after the other.  A model that is not
closed ends where the next block begins: it is reported, and the next block is read, though without
the comments before it.  An enum that is not closed goes on to the next closing brace: the first
words of the lines up to there become its values, and nothing is reported unless the source ends.
-/

namespace SchemaEvolution.Prisma

variable {rest lexemes : List Lexeme} {token : Token} {left right spelling : List Token}

/-- The token is the first one of a line of a block, closes the block or is the end. -/
inductive StartsLine : Token → Prop
  | word (name : String) : StartsLine (.word name)
  | atAt : StartsLine .atAt
  | rightBrace : StartsLine .rightBrace
  | eof : StartsLine .eof

theorem docLines_of_startsLine (hstarts : StartsLine (next lexemes)) :
    docLines lexemes = ([], lexemes) := by
  cases lexemes with
  | nil => rfl
  | cons lexeme more =>
    obtain ⟨token, line, startsLine⟩ := lexeme
    cases hstarts <;> rfl

/-- Comments and blank lines in front of a block give its documentation. -/
theorem docLines_fillers {fillers : List Filler}
    (hbegins : Begins rest (fillers.map Filler.token) lexemes) (hstarts : StartsLine (next rest)) :
    docLines lexemes = (fillers.filterMap Filler.comment?, rest) := by
  induction fillers generalizing lexemes with
  | nil =>
    obtain _ | _ := hbegins
    exact docLines_of_startsLine hstarts
  | cons filler more ih =>
    cases filler with
    | newline =>
      obtain _ | hmore := hbegins
      rw [docLines]
      exact ih hmore
    | comment text =>
      obtain _ | hmore := hbegins
      rw [docLines]
      dsimp only [Filler.token]
      rw [ih hmore]
      rfl

theorem documentation_fillers {fillers : List Filler}
    (hbegins : Begins rest (fillers.map Filler.token) lexemes) (hstarts : StartsLine (next rest)) :
    documentation lexemes = (docOf fillers, rest) := by
  rw [documentation, docLines_fillers hbegins hstarts]
  rfl

theorem Begins.next_ne (hbegins : Begins rest spelling lexemes)
    (hother : ∀ other ∈ spelling, other ≠ token) (hnext : next rest ≠ token) :
    next lexemes ≠ token := by
  cases hbegins with
  | nil => exact hnext
  | cons hmore => exact hother _ List.mem_cons_self

theorem isCalm_comment (comment : Option String) :
    ∀ token ∈ commentTokens comment, IsCalm token ∧ token ≠ .newline := by
  cases comment with
  | none => exact nofun
  | some text => exact List.forall_mem_singleton.2 ⟨by constructor <;> rintro ⟨⟩, nofun⟩

/-- A line that starts with a field does not open a block. -/
theorem opensBlock_field {field : FieldSyntax} {comment : Option String} (first : Lexeme)
    (hbegins : Begins rest (field.tokens ++ commentTokens comment) lexemes)
    (hnext : next rest = .newline) : opensBlock (first :: lexemes) = false := by
  obtain ⟨tail, htail⟩ : ∃ tail, field.tokens = .word field.type.head :: tail := ⟨_, rfl⟩
  have hcalm := List.forall_mem_append.2
    ⟨field.isCalm, fun other hmem => (isCalm_comment comment other hmem).1⟩
  rw [htail, List.cons_append] at hbegins hcalm
  obtain ⟨line, startsLine, more, rfl, hmore⟩ := hbegins.exists_cons
  have hthird : next more ≠ .leftBrace := hmore.next_ne
    (fun other hmem => (hcalm other (List.mem_cons_of_mem _ hmem)).leftBrace)
    (by rw [hnext]; rintro ⟨⟩)
  unfold opensBlock
  split
  · next heq =>
    cases heq
    exact absurd rfl hthird
  · rfl

theorem map_token_fillers (ending : Ending) :
    ending.fillers.map Filler.token =
      commentTokens ending.comment ++ (Filler.newline :: ending.behind).map Filler.token := by
  rw [Ending.fillers, List.map_append]
  cases ending.comment <;> rfl

theorem extendModel_newline (model : Model) (pending : List Filler)
    (lines : List (ModelContent × Ending)) :
    extendModel model (.newline :: pending) lines = extendModel model pending lines := by
  cases lines with
  | nil => rfl
  | cons line more =>
    obtain ⟨content, ending⟩ := line
    cases content <;> rfl

/-- A field with its comment is one step of the loop over a model. -/
theorem modelStep_field {declared : FieldSyntax} {comment : Option String} {pending : List Filler}
    {name : String} (start : Nat) (model : Model) (diagnostics : List Diagnostic)
    (hbegins : Begins rest
      (pending.map Filler.token ++ .word name :: (declared.tokens ++ commentTokens comment)) lexemes)
    (hnext : next rest = .newline) :
    ∃ line, modelStep start (model, diagnostics) lexemes = .ok (.again
      ({ model with
          fields := model.fields ++
            [{ declared.value name ((docOf pending).or comment) with line := line }] },
        diagnostics), rest) := by
  obtain ⟨here, hpending, hline⟩ := hbegins.append
  obtain ⟨line, startsLine, inside, rfl, hfield⟩ := hline.exists_cons
  have hdocumentation := documentation_fillers hpending (.word name)
  have hopens := opensBlock_field ⟨.word name, line, startsLine⟩ hfield hnext
  have hread := Field.read_eq name (docOf pending) line hfield hnext
  refine ⟨line, ?_⟩
  rw [modelStep, hdocumentation]
  simp only [next, hopens, Bool.false_eq_true, if_false, List.tail_cons, lineOf, List.head?_cons,
    Option.map_some, Option.getD_some, hread]

theorem modelStep_attr {declared : AttributeSyntax} {pending : List Filler} (start : Nat)
    (model : Model) (diagnostics : List Diagnostic)
    (hbegins : Begins rest
      (pending.map Filler.token ++ .atAt :: declared.tokens) lexemes)
    (hends : EndsAttribute (next rest)) :
    modelStep start (model, diagnostics) lexemes = .ok (.again
      ({ model with attributes := model.attributes ++ [declared.value] }, diagnostics), rest) := by
  obtain ⟨here, hpending, hline⟩ := hbegins.append
  obtain ⟨line, startsLine, inside, rfl, hattr⟩ := hline.exists_cons
  have hdocumentation := documentation_fillers hpending .atAt
  have hread := AttributeSyntax.reads hattr (hends.ne (.inl rfl)) (hends.ne (.inr (.inl rfl)))
  rw [modelStep, hdocumentation]
  simp only [next, List.tail_cons, hread]

theorem endsAttribute_fillers {ending : Ending} {following : List Token}
    (hbegins : Begins rest (ending.fillers.map Filler.token ++ following) lexemes) :
    EndsAttribute (next lexemes) := by
  rw [map_token_fillers] at hbegins
  cases hcomment : ending.comment with
  | none =>
    rw [hcomment] at hbegins
    rw [hbegins.next_eq]
    exact .newline
  | some text =>
    rw [hcomment] at hbegins
    rw [hbegins.next_eq]
    exact .doc text

theorem lineTokens_cons {α : Type} (tokens : α → List Token) (content : α) (ending : Ending)
    (more : List (α × Ending)) :
    lineTokens tokens ((content, ending) :: more) =
      tokens content ++ (ending.fillers.map Filler.token ++ lineTokens tokens more) :=
  List.append_assoc ..

/-- Fields and attributes are read line by line, and what stands between the lines goes with the
next one. -/
theorem turns_modelLines (start : Nat) (diagnostics : List Diagnostic)
    (lines : List (ModelContent × Ending)) (model : Model) (pending : List Filler)
    (hbegins : Begins rest
      (pending.map Filler.token ++ lineTokens ModelContent.tokens lines) lexemes) :
    ∃ (last : Model) (fillers : List Filler) (middle : List Lexeme),
      Turns (modelStep start) (model, diagnostics) lexemes (last, diagnostics) middle ∧
        last.unlined = extendModel model.unlined pending lines ∧
        Begins rest (fillers.map Filler.token) middle := by
  induction lines generalizing lexemes pending model with
  | nil =>
    rw [lineTokens, List.flatMap_nil, List.append_nil] at hbegins
    exact ⟨model, pending, lexemes, .none _ _, rfl, hbegins⟩
  | cons line more ih =>
    obtain ⟨content, ending⟩ := line
    rw [lineTokens_cons, ← List.append_assoc] at hbegins
    cases content with
    | field name declared =>
      -- the field takes the comment at the end of its line, and leaves the end itself
      have hbegins : Begins rest ((pending.map Filler.token ++
          .word name :: (declared.tokens ++ commentTokens ending.comment)) ++
            ((Filler.newline :: ending.behind).map Filler.token ++
              lineTokens ModelContent.tokens more)) lexemes := by
        rw [map_token_fillers] at hbegins
        simpa only [ModelContent.tokens, List.append_assoc, List.cons_append] using hbegins
      obtain ⟨middle, hfield, hmore⟩ := hbegins.append
      obtain ⟨line, hstep⟩ := modelStep_field start model diagnostics hfield hmore.next_eq
      obtain ⟨last, fillers, after, hturns, hlast, hafter⟩ := ih _ _ hmore
      refine ⟨last, fillers, after, .more hstep ?_ hturns, ?_, hafter⟩
      · rw [hfield.length_eq, List.length_append, List.length_cons]
        omega
      · rw [hlast, extendModel_newline, extendModel, Model.unlined, List.map_append]
        rfl
    | attr declared =>
      obtain ⟨middle, hattr, hmore⟩ := hbegins.append
      have hstep := modelStep_attr start model diagnostics hattr (endsAttribute_fillers hmore)
      obtain ⟨last, fillers, after, hturns, hlast, hafter⟩ := ih _ _ hmore
      refine ⟨last, fillers, after, .more hstep ?_ hturns, hlast, hafter⟩
      rw [hattr.length_eq, List.length_append, ModelContent.tokens, List.length_cons]
      omega

theorem name_extendModel (model : Model) (pending : List Filler)
    (lines : List (ModelContent × Ending)) : (extendModel model pending lines).name = model.name := by
  induction lines generalizing model pending with
  | nil => rfl
  | cons line more ih =>
    obtain ⟨content, ending⟩ := line
    cases content <;> exact ih _ _

/-- What is inside of a block comes after its name and the opening brace. -/
theorem exists_inside {name : String} (kind : String) (start : Nat)
    (hbegins : Begins rest (.word name :: .leftBrace :: spelling) lexemes) :
    ∃ inside, readHeader kind start lexemes = .ok (name, inside) ∧ Begins rest spelling inside ∧
      inside.length < lexemes.length := by
  obtain ⟨_, _, _, rfl, hname⟩ := hbegins.exists_cons
  obtain ⟨_, _, inside, rfl, hinside⟩ := hname.exists_cons
  refine ⟨inside, ?_, hinside, ?_⟩
  · rw [readHeader, word?]
    dsimp only
    rw [eat?_self]
  · rw [List.length_cons, List.length_cons]
    omega

/-- A model has been read up to where its lines end. -/
theorem turns_model {name : String} {opening : Ending} {lines : List (ModelContent × Ending)}
    {inside : List Lexeme} (doc : Option String) (start : Nat)
    (hbegins : Begins rest
      (opening.fillers.map Filler.token ++ lineTokens ModelContent.tokens lines) inside) :
    ∃ (last : Model) (fillers : List Filler) (middle : List Lexeme),
      Turns (modelStep start) (⟨name, [], [], doc⟩, []) inside (last, []) middle ∧
        last.unlined = extendModel ⟨name, [], [], doc⟩ opening.fillers lines ∧
        last.name = name ∧ Begins rest (fillers.map Filler.token) middle := by
  obtain ⟨last, fillers, middle, hturns, hlast, hmiddle⟩ :=
    turns_modelLines start [] lines ⟨name, [], [], doc⟩ opening.fillers hbegins
  exact ⟨last, fillers, middle, hturns, hlast,
    (congrArg Model.name hlast).trans (name_extendModel _ _ _), hmiddle⟩

/-- A model that is closed is read as it is written, up to its lines. -/
theorem Model.read_eq {name : String} {opening : Ending} {lines : List (ModelContent × Ending)}
    (doc : Option String) (start : Nat)
    (hbegins : Begins rest (.word name :: .leftBrace :: (opening.fillers.map Filler.token ++
      lineTokens ModelContent.tokens lines ++ [.rightBrace])) lexemes) :
    ∃ model, Model.read doc start lexemes = .ok ((model, []), rest) ∧
      model.unlined = extendModel ⟨name, [], [], doc⟩ opening.fillers lines := by
  obtain ⟨inside, hheader, hinside, -⟩ := exists_inside "model" start hbegins
  obtain ⟨closing, hlines, hclosing⟩ := hinside.append
  obtain ⟨last, fillers, middle, hturns, hlast, -, hmiddle⟩ := turns_model doc start hlines
  obtain ⟨_, _, _, rfl, hrest⟩ := hclosing.exists_cons
  obtain _ | _ := hrest
  have hdone : modelStep start (last, []) middle = .ok (.done (last, []), rest) := by
    rw [modelStep, documentation_fillers hmiddle .rightBrace]
    rfl
  refine ⟨last, ?_, hlast⟩
  rw [Model.read, hheader]
  change repeatedly (modelStep start) (⟨name, [], [], doc⟩, []) inside = _
  rw [hturns.repeatedly_eq]
  unfold repeatedly
  rw [hdone]

/-- What is reported of a block without its closing brace. -/
def unclosedMessage (kind name : String) : String :=
  kind ++ " " ++ name ++ " is missing its closing brace"

theorem exists_word_of_opensBlock (hopens : opensBlock lexemes = true) :
    ∃ kind, next lexemes = .word kind := by
  unfold opensBlock at hopens
  split at hopens
  · exact ⟨_, rfl⟩
  · cases hopens

/-- A model that is not closed ends where the source ends or another block begins.  The comments
before that block have been read. -/
theorem Model.read_unclosed {name : String} {opening : Ending}
    {lines : List (ModelContent × Ending)} {fillers : List Filler} (doc : Option String)
    (start : Nat) (hbegins : Begins rest (.word name :: .leftBrace ::
      (opening.fillers.map Filler.token ++ lineTokens ModelContent.tokens lines ++
        fillers.map Filler.token)) lexemes)
    (hrest : next rest = .eof ∨ opensBlock rest = true) :
    Model.read doc start lexemes = .error ⟨[.error (unclosedMessage "model" name) start], rest⟩ := by
  obtain ⟨inside, hheader, hinside, -⟩ := exists_inside "model" start hbegins
  obtain ⟨closing, hlines, hclosing⟩ := hinside.append
  obtain ⟨last, before, middle, hturns, -, hname, hmiddle⟩ := turns_model doc start hlines
  have hfillers : Begins rest ((before ++ fillers).map Filler.token) middle := by
    rw [List.map_append]
    exact hmiddle.concat hclosing
  have hfault : modelStep start (last, []) middle =
      .error ⟨[.error (unclosedMessage "model" name) start], rest⟩ := by
    rcases hrest with heof | hopens
    · rw [modelStep, documentation_fillers hfillers (by rw [heof]; exact .eof)]
      simp only [heof, hname]
      rfl
    · obtain ⟨kind, hkind⟩ := exists_word_of_opensBlock hopens
      rw [modelStep, documentation_fillers hfillers (by rw [hkind]; exact .word kind)]
      simp only [hkind, hopens, hname, if_true]
      rfl
  rw [Model.read, hheader]
  exact hturns.repeatedly_error hfault

/-- A line is skipped up to its end. -/
theorem skipLine_eq (hbegins : Begins rest spelling lexemes)
    (hline : ∀ token ∈ spelling, token ≠ .newline ∧ token ≠ .eof) (hnext : next rest = .newline) :
    skipLine lexemes = rest := by
  induction hbegins with
  | nil =>
    cases rest with
    | nil => rfl
    | cons lexeme more =>
      rw [skipLine, List.dropWhile_cons_of_neg]
      simp [show lexeme.token = .newline from hnext]
  | @cons token tokens line startsLine lexemes hmore ih =>
    have htoken := hline token List.mem_cons_self
    rw [skipLine, List.dropWhile_cons_of_pos]
    · exact ih fun other hmem => hline other (List.mem_cons_of_mem _ hmem)
    · simp [htoken]

theorem commentTokens_ne (comment : Option String) :
    ∀ token ∈ commentTokens comment, token ≠ .newline ∧ token ≠ .eof :=
  fun token hmem => ⟨(isCalm_comment comment token hmem).2, (isCalm_comment comment token hmem).1.eof⟩

theorem turns_fillers {fillers : List Filler} (start : Nat) (block : EnumBlock)
    (hbegins : Begins rest (fillers.map Filler.token) lexemes) :
    Turns (enumStep start) block lexemes block rest := by
  induction fillers generalizing lexemes with
  | nil =>
    obtain _ | _ := hbegins
    exact .none _ _
  | cons filler more ih =>
    obtain ⟨line, startsLine, behind, rfl, hmore⟩ := hbegins.exists_cons
    refine .more ?_ (Nat.lt_succ_self _) (ih hmore)
    cases filler <;> rfl

/-- The lines of an enum are read one after the other. -/
theorem turns_enumLines (start : Nat) (lines : List (EnumContent × Ending)) (block : EnumBlock)
    (hbegins : Begins rest (lineTokens EnumContent.tokens lines) lexemes) :
    Turns (enumStep start) block lexemes (extendEnum block lines) rest := by
  induction lines generalizing lexemes block with
  | nil =>
    obtain _ | _ := hbegins
    exact .none _ _
  | cons line more ih =>
    obtain ⟨content, ending⟩ := line
    rw [lineTokens_cons] at hbegins
    obtain ⟨behind, hcontent, hbehind⟩ := hbegins.append
    obtain ⟨after, hends, hmore⟩ := hbehind.append
    cases content with
    | value name row hcalm =>
      rw [map_token_fillers] at hends
      obtain ⟨lineEnd, hcomment, hnewline⟩ := hends.append
      have hskipped := skipLine_eq (hcontent.concat hcomment) (List.forall_mem_append.2
        ⟨List.forall_mem_cons.2 ⟨⟨nofun, nofun⟩, fun other hmem =>
            ⟨(hcalm other hmem).2, (hcalm other hmem).1.eof⟩⟩,
          commentTokens_ne ending.comment⟩) hnewline.next_eq
      obtain ⟨line, startsLine, inside, rfl, hinside⟩ := hcontent.exists_cons
      have hstep : enumStep start block (⟨.word name, line, startsLine⟩ :: inside) =
          .ok (.again { block with values := block.values ++ [name] }, lineEnd) := by
        simp only [enumStep, next, hskipped]
      refine .more hstep ?_ ((turns_fillers start _ hnewline).trans (ih _ hmore))
      rw [List.length_cons, hinside.length_eq, hcomment.length_eq]
      omega
    | attr declared =>
      obtain ⟨line, startsLine, inside, rfl, hinside⟩ := hcontent.exists_cons
      have hlast := endsAttribute_fillers hbehind
      have hread := AttributeSyntax.reads hinside (hlast.ne (.inl rfl)) (hlast.ne (.inr (.inl rfl)))
      have hstep : enumStep start block (⟨.atAt, line, startsLine⟩ :: inside) = .ok (.again
          (if declared.value.name == "map" then
            { block with mapped := declared.value.positional?.bind Expression.string? }
          else block), behind) := by
        simp only [enumStep, next, List.tail_cons, hread]
      refine .more hstep ?_ ((turns_fillers start _ hends).trans (ih _ hmore))
      rw [List.length_cons, hinside.length_eq]
      omega

/-- The enum has been extended by further values, and may have another name in the database. -/
def EnumBlock.GrownTo (block grown : EnumBlock) : Prop :=
  ∃ values mapped, grown = { block with values := block.values ++ values, mapped := mapped }

theorem EnumBlock.GrownTo.refl (block : EnumBlock) : block.GrownTo block :=
  ⟨[], block.mapped, by rw [List.append_nil]⟩

theorem EnumBlock.GrownTo.trans {first second third : EnumBlock} (hfirst : first.GrownTo second)
    (hsecond : second.GrownTo third) : first.GrownTo third := by
  obtain ⟨values, mapped, rfl⟩ := hfirst
  obtain ⟨others, mapped', rfl⟩ := hsecond
  exact ⟨values ++ others, mapped', by rw [List.append_assoc]⟩

theorem grownTo_extendEnum (block : EnumBlock) (lines : List (EnumContent × Ending)) :
    block.GrownTo (extendEnum block lines) := by
  induction lines generalizing block with
  | nil => exact .refl block
  | cons line more ih =>
    obtain ⟨content, ending⟩ := line
    cases content with
    | value name row hcalm => exact .trans ⟨[name], block.mapped, rfl⟩ (ih _)
    | attr declared =>
      refine .trans ?_ (ih _)
      split
      · exact ⟨[], _, by rw [List.append_nil]⟩
      · exact .refl block

/-- An enum that is closed is read as it is written. -/
theorem EnumBlock.read_eq {name : String} {opening : Ending} {lines : List (EnumContent × Ending)}
    (doc : Option String) (start : Nat)
    (hbegins : Begins rest (.word name :: .leftBrace :: (opening.fillers.map Filler.token ++
      lineTokens EnumContent.tokens lines ++ [.rightBrace])) lexemes) :
    EnumBlock.read doc start lexemes = .ok (extendEnum ⟨name, [], none, doc⟩ lines, rest) := by
  obtain ⟨inside, hheader, hinside, -⟩ := exists_inside "enum" start hbegins
  obtain ⟨closing, hbody, hclosing⟩ := hinside.append
  obtain ⟨middle, hopening, hlines⟩ := hbody.append
  have hturns := (turns_fillers start ⟨name, [], none, doc⟩ hopening).trans
    (turns_enumLines start lines _ hlines)
  obtain ⟨_, _, _, rfl, hrest⟩ := hclosing.exists_cons
  obtain _ | _ := hrest
  rw [EnumBlock.read, hheader]
  change repeatedly (enumStep start) ⟨name, [], none, doc⟩ inside = _
  rw [hturns.repeatedly_eq]
  unfold repeatedly
  rfl

/-- An enum that is not closed at the end of the source is reported. -/
theorem EnumBlock.read_unclosed {name : String} {opening : Ending}
    {lines : List (EnumContent × Ending)} {fillers : List Filler} (doc : Option String)
    (start : Nat) (hbegins : Begins rest (.word name :: .leftBrace ::
      (opening.fillers.map Filler.token ++ lineTokens EnumContent.tokens lines ++
        fillers.map Filler.token)) lexemes)
    (hrest : next rest = .eof) :
    EnumBlock.read doc start lexemes =
      .error ⟨[.error (unclosedMessage "enum" name) start], rest⟩ := by
  obtain ⟨inside, hheader, hinside, -⟩ := exists_inside "enum" start hbegins
  obtain ⟨closing, hbody, hclosing⟩ := hinside.append
  obtain ⟨middle, hopening, hlines⟩ := hbody.append
  have hturns := ((turns_fillers start ⟨name, [], none, doc⟩ hopening).trans
    (turns_enumLines start lines _ hlines)).trans (turns_fillers start _ hclosing)
  have hname : (extendEnum ⟨name, [], none, doc⟩ lines).name = name := by
    obtain ⟨values, mapped, hgrown⟩ := grownTo_extendEnum ⟨name, [], none, doc⟩ lines
    rw [hgrown]
  have hfault : enumStep start (extendEnum ⟨name, [], none, doc⟩ lines) rest =
      .error ⟨[.error (unclosedMessage "enum" name) start], rest⟩ := by
    simp only [enumStep, hrest, hname]
    rfl
  rw [EnumBlock.read, hheader]
  exact hturns.repeatedly_error hfault

/-- Within lines without the end of the source, skipping stops at the end of a line. -/
theorem exists_skipLine_append {row : List Lexeme}
    (hrow : ∀ lexeme ∈ row, IsCalm lexeme.token) (hnext : next rest = .newline) :
    ∃ left, left <:+ row ∧ skipLine (row ++ rest) = left ++ rest := by
  have hrest : skipLine rest = rest := skipLine_eq .nil nofun hnext
  induction row with
  | nil => exact ⟨[], List.suffix_refl _, hrest⟩
  | cons lexeme more ih =>
    by_cases hnewline : lexeme.token = .newline
    · refine ⟨lexeme :: more, List.suffix_refl _, List.dropWhile_cons_of_neg ?_⟩
      simp [hnewline]
    · obtain ⟨left, hsuffix, hskip⟩ := ih fun other hmem => hrow other (List.mem_cons_of_mem _ hmem)
      refine ⟨left, hsuffix.trans (List.suffix_cons _ _), ?_⟩
      rw [← hskip]
      exact List.dropWhile_cons_of_pos (by simp [hnewline, (hrow lexeme List.mem_cons_self).eof])

/-- An enum takes the first words of lines without braces as values and passes over the rest. -/
theorem turns_calm (start : Nat) (row : List Lexeme) (block : EnumBlock)
    (hrow : ∀ lexeme ∈ row, IsCalm lexeme.token) (hnext : next rest = .newline) :
    ∃ grown, block.GrownTo grown ∧ Turns (enumStep start) block (row ++ rest) grown rest := by
  induction hsize : row.length using Nat.strongRecOn generalizing row block with
  | _ size ih =>
    cases row with
    | nil => exact ⟨block, .refl block, .none _ _⟩
    | cons lexeme more =>
      have hmore : ∀ other ∈ more, IsCalm other.token :=
        fun other hmem => hrow other (List.mem_cons_of_mem _ hmem)
      rw [List.length_cons] at hsize
      by_cases hword : ∃ name, lexeme.token = .word name
      · obtain ⟨name, hname⟩ := hword
        have hother : lexeme.token ≠ .newline := by rw [hname]; rintro ⟨⟩
        obtain ⟨left, hsuffix, hskip⟩ := exists_skipLine_append hmore hnext
        have hlength := hsuffix.length_le
        obtain ⟨grown, hgrown, hturns⟩ := ih left.length (by omega) left
          { block with values := block.values ++ [name] }
          (fun other hmem => hmore other (hsuffix.mem hmem)) rfl
        refine ⟨grown, .trans ⟨[name], block.mapped, rfl⟩ hgrown, .more ?_ ?_ hturns⟩
        · rw [enumStep, List.cons_append]
          simp only [next, hname]
          rw [← hskip]
          congr 2
          exact List.dropWhile_cons_of_pos (by simp [hname])
        · rw [List.length_append, List.length_append, List.length_cons]
          omega
      · obtain ⟨grown, hgrown, hturns⟩ := ih more.length (by omega) more block hmore rfl
        refine ⟨grown, hgrown, .more ?_ (Nat.lt_succ_self _) hturns⟩
        have hcalm := hrow lexeme List.mem_cons_self
        rw [enumStep, List.cons_append]
        simp only [next]
        cases htoken : lexeme.token with
        | word name => exact absurd ⟨name, htoken⟩ hword
        | rightBrace => exact absurd htoken hcalm.rightBrace
        | atAt => exact absurd htoken hcalm.atAt
        | eof => exact absurd htoken hcalm.eof
        | _ => rfl

theorem turns_calm_of_begins {middle : List Lexeme} (start : Nat) (block : EnumBlock)
    (hbegins : Begins middle spelling lexemes) (hcalm : ∀ token ∈ spelling, IsCalm token)
    (hnext : next middle = .newline) :
    ∃ grown, block.GrownTo grown ∧ Turns (enumStep start) block lexemes grown middle := by
  obtain ⟨row, hspelling, rfl⟩ := hbegins.exists_row
  refine turns_calm start row block (fun lexeme hmem => hcalm _ ?_) hnext
  rw [← hspelling]
  exact List.mem_map_of_mem hmem

/-- The lines of a model give an open enum values and nothing else, but for its name in the
database. -/
theorem turns_modelTaken (start : Nat) (lines : List (ModelContent × Ending)) (block : EnumBlock)
    (hbegins : Begins rest (lineTokens ModelContent.tokens lines) lexemes) :
    ∃ grown, block.GrownTo grown ∧ Turns (enumStep start) block lexemes grown rest := by
  induction lines generalizing lexemes block with
  | nil =>
    obtain _ | _ := hbegins
    exact ⟨block, .refl block, .none _ _⟩
  | cons line more ih =>
    obtain ⟨content, ending⟩ := line
    rw [lineTokens_cons] at hbegins
    cases content with
    | field name declared =>
      rw [map_token_fillers, List.append_assoc, ← List.append_assoc] at hbegins
      obtain ⟨lineEnd, hline, hbehind⟩ := hbegins.append
      obtain ⟨after, hfillers, hmore⟩ := hbehind.append
      obtain ⟨grown, hgrown, hturns⟩ := turns_calm_of_begins start block hline
        (List.forall_mem_append.2 ⟨List.forall_mem_cons.2
          ⟨by constructor <;> rintro ⟨⟩, declared.isCalm⟩,
          fun other hmem => (isCalm_comment ending.comment other hmem).1⟩) hbehind.next_eq
      obtain ⟨last, hlast, hrest⟩ := ih grown hmore
      exact ⟨last, hgrown.trans hlast, (hturns.trans (turns_fillers start _ hfillers)).trans hrest⟩
    | attr declared =>
      -- an attribute is read in the same way by both kinds of blocks
      obtain ⟨behind, hcontent, hbehind⟩ := hbegins.append
      obtain ⟨after, hends, hmore⟩ := hbehind.append
      have hattr : Begins after
          (lineTokens EnumContent.tokens [(EnumContent.attr declared, ending)]) lexemes := by
        rw [lineTokens_cons]
        exact hcontent.concat (hends.concat .nil)
      have hturns := turns_enumLines start _ block hattr
      obtain ⟨last, hlast, hrest⟩ := ih _ hmore
      exact ⟨last, (grownTo_extendEnum block _).trans hlast, hturns.trans hrest⟩

theorem BlockSyntax.openTokens_eq (block : BlockSyntax) :
    block.openTokens = (block.lead.map Filler.token ++ [.word block.kind]) ++ block.innerTokens := by
  rw [BlockSyntax.openTokens, List.append_assoc]
  rfl

/-- A block is read after its documentation and its kind. -/
theorem schemaStep_eq {block : BlockSyntax} {inner : List Lexeme} (blocks : List Block)
    (diagnostics : List Diagnostic)
    (hbegins : Begins inner (block.lead.map Filler.token ++ [.word block.kind]) lexemes) :
    ∃ line, schemaStep (blocks, diagnostics) lexemes =
      match readBlock block.kind block.documentation line inner with
      | .ok ((found, faults), rest) =>
        .ok (.again (blocks ++ found.toList, diagnostics ++ faults), rest)
      | .error broken => .ok (.again (blocks, diagnostics ++ broken.diagnostics), broken.rest) := by
  obtain ⟨here, hlead, hkind⟩ := hbegins.append
  obtain ⟨line, startsLine, behind, rfl, hinner⟩ := hkind.exists_cons
  obtain _ | _ := hinner
  refine ⟨line, ?_⟩
  rw [schemaStep, documentation_fillers hlead (.word block.kind)]
  rfl

/-- A block is one step of the loop over the schema. -/
theorem turns_block {block : BlockSyntax} (blocks : List Block) (diagnostics : List Diagnostic)
    (hbegins : Begins rest block.tokens lexemes) :
    ∃ found, found.unlined = block.value ∧
      Turns schemaStep (blocks, diagnostics) lexemes (blocks ++ [found], diagnostics) rest := by
  rw [BlockSyntax.tokens, BlockSyntax.openTokens_eq, List.append_assoc] at hbegins
  obtain ⟨inner, hkind, hinner⟩ := hbegins.append
  obtain ⟨line, hstep⟩ := schemaStep_eq blocks diagnostics hkind
  have hshorter : rest.length < lexemes.length := by
    rw [hkind.length_eq, hinner.length_eq, List.length_append, List.length_append]
    simp only [List.length_cons, List.length_nil]
    omega
  obtain ⟨lead, name, opening, body⟩ := block
  cases body with
  | model lines =>
    obtain ⟨model, hread, hmodel⟩ := Model.read_eq (docOf lead) line hinner
    refine ⟨.model model, congrArg Block.model hmodel, .single ?_ hshorter⟩
    rw [hstep]
    simp only [BlockSyntax.kind, BlockSyntax.isModel, if_true, BlockSyntax.documentation, readBlock,
      hread]
    exact congrArg (fun ds => Except.ok (Turn.again (blocks ++ [_], ds), rest)) (List.append_nil _)
  | enum lines =>
    have hread := EnumBlock.read_eq (docOf lead) line hinner
    refine ⟨.enum (extendEnum ⟨name, [], none, docOf lead⟩ lines), rfl, .single ?_ hshorter⟩
    rw [hstep]
    simp only [BlockSyntax.kind, BlockSyntax.isModel, Bool.false_eq_true, if_false,
      BlockSyntax.documentation, readBlock, hread]
    exact congrArg (fun ds => Except.ok (Turn.again (blocks ++ [_], ds), rest)) (List.append_nil _)

/-- Blocks are read one after the other. -/
theorem turns_blocks (list : List BlockSyntax) (blocks : List Block)
    (diagnostics : List Diagnostic)
    (hbegins : Begins rest (list.flatMap BlockSyntax.tokens) lexemes) :
    ∃ found, found.map Block.unlined = list.map BlockSyntax.value ∧
      Turns schemaStep (blocks, diagnostics) lexemes (blocks ++ found, diagnostics) rest := by
  induction list generalizing lexemes blocks with
  | nil =>
    obtain _ | _ := hbegins
    exact ⟨[], rfl, by rw [List.append_nil]; exact .none _ _⟩
  | cons block more ih =>
    obtain ⟨middle, hblock, hmore⟩ := hbegins.append
    obtain ⟨first, hfirst, hturn⟩ := turns_block blocks diagnostics hblock
    obtain ⟨others, hothers, hturns⟩ := ih (blocks ++ [first]) hmore
    refine ⟨first :: others, by rw [List.map_cons, List.map_cons, hfirst, hothers], ?_⟩
    rw [List.append_assoc] at hturns
    exact hturn.trans hturns

/-- A block that is not closed is reported where the source ends, and a model also where another
block begins. -/
theorem turns_unclosed {block : BlockSyntax} {fillers : List Filler} (blocks : List Block)
    (diagnostics : List Diagnostic)
    (hbegins : Begins rest (block.openTokens ++ fillers.map Filler.token) lexemes)
    (hrest : next rest = .eof ∨ block.isModel = true ∧ opensBlock rest = true) :
    ∃ line : Nat, Turns schemaStep (blocks, diagnostics) lexemes
      (blocks, diagnostics ++ [.error (unclosedMessage block.kind block.name) line]) rest := by
  rw [BlockSyntax.openTokens_eq, List.append_assoc] at hbegins
  obtain ⟨inner, hkind, hinner⟩ := hbegins.append
  obtain ⟨line, hstep⟩ := schemaStep_eq blocks diagnostics hkind
  have hshorter : rest.length < lexemes.length := by
    rw [hkind.length_eq, hinner.length_eq, List.length_append, List.length_append]
    simp only [List.length_cons, List.length_nil]
    omega
  refine ⟨line, .single ?_ hshorter⟩
  obtain ⟨lead, name, opening, body⟩ := block
  cases body with
  | model lines =>
    have hread := Model.read_unclosed (docOf lead) line hinner (hrest.imp_right And.right)
    rw [hstep]
    simp only [BlockSyntax.kind, BlockSyntax.isModel, if_true, BlockSyntax.documentation, readBlock,
      hread]
    rfl
  | enum lines =>
    have heof := hrest.resolve_right fun hmodel => nomatch hmodel.1
    have hread := EnumBlock.read_unclosed (docOf lead) line hinner heof
    rw [hstep]
    simp only [BlockSyntax.kind, BlockSyntax.isModel, Bool.false_eq_true, if_false,
      BlockSyntax.documentation, readBlock, hread]
    rfl

/-- An enum with everything that it takes of the next block: at least the word that says what kind
of block that is. -/
def BlockSyntax.Takes (block following : BlockSyntax) (taken : EnumBlock) : Prop :=
  ∃ own : EnumBlock, block.value = .enum own ∧
    { own with values := own.values ++ [following.kind] }.GrownTo taken

/-- The lines of a block give an open enum values and nothing else, but for its name in the
database. -/
theorem turns_bodyTaken {following : BlockSyntax} (start : Nat) (block : EnumBlock)
    (hbegins : Begins rest following.bodyTokens lexemes) :
    ∃ grown, block.GrownTo grown ∧ Turns (enumStep start) block lexemes grown rest := by
  obtain ⟨lead, name, opening, body⟩ := following
  cases body with
  | model lines => exact turns_modelTaken start lines block hbegins
  | enum lines => exact ⟨_, grownTo_extendEnum block lines, turns_enumLines start lines block hbegins⟩

/-- The first line of a block gives an open enum one value, the kind of the block. -/
theorem turns_openTaken {following : BlockSyntax} (start : Nat) (block : EnumBlock)
    (hbegins : Begins rest following.openTokens lexemes) :
    ∃ grown, { block with values := block.values ++ [following.kind] }.GrownTo grown ∧
      Turns (enumStep start) block lexemes grown rest := by
  obtain ⟨header, hlead, hopen⟩ := hbegins.append
  rw [BlockSyntax.innerTokens, map_token_fillers] at hopen
  have hopen : Begins rest ((.word following.kind :: .word following.name :: .leftBrace ::
      commentTokens following.opening.comment) ++
        ((Filler.newline :: following.opening.behind).map Filler.token ++
          following.bodyTokens)) header := by
    simpa only [List.append_assoc, List.cons_append] using hopen
  obtain ⟨lineEnd, hline, hbehind⟩ := hopen.append
  obtain ⟨body, hfillers, hbody⟩ := hbehind.append
  have hskipped : skipLine header = lineEnd := skipLine_eq hline (by
    simpa using commentTokens_ne following.opening.comment) hbehind.next_eq
  have hshorter : lineEnd.length < header.length := by
    rw [hline.length_eq, List.length_cons]
    omega
  obtain ⟨line, startsLine, inside, rfl, -⟩ := hline.exists_cons
  have hstep : enumStep start block (⟨.word following.kind, line, startsLine⟩ :: inside) =
      .ok (.again { block with values := block.values ++ [following.kind] }, lineEnd) := by
    simp only [enumStep, next, hskipped]
  obtain ⟨grown, hgrown, hturns⟩ := turns_bodyTaken start _ hbody
  exact ⟨grown, hgrown, ((turns_fillers start block hlead).trans (.single hstep hshorter)).trans
    ((turns_fillers start _ hfillers).trans hturns)⟩

/-- An enum that is not closed is closed by the brace of the next block. -/
theorem EnumBlock.read_taken {name : String} {opening : Ending} {following : BlockSyntax}
    {lines : List (EnumContent × Ending)} (doc : Option String) (start : Nat)
    (hbegins : Begins rest (.word name :: .leftBrace :: (opening.fillers.map Filler.token ++
      lineTokens EnumContent.tokens lines ++ following.tokens)) lexemes) :
    ∃ taken, EnumBlock.read doc start lexemes = .ok (taken, rest) ∧
      { extendEnum ⟨name, [], none, doc⟩ lines with
        values := (extendEnum ⟨name, [], none, doc⟩ lines).values ++ [following.kind] }.GrownTo
          taken := by
  obtain ⟨inside, hheader, hinside, -⟩ := exists_inside "enum" start hbegins
  obtain ⟨behind, hbody, hbehind⟩ := hinside.append
  obtain ⟨middle, hopening, hlines⟩ := hbody.append
  obtain ⟨closing, hopen, hclosing⟩ := hbehind.append
  obtain ⟨taken, htaken, hopenTurns⟩ := turns_openTaken start
    (extendEnum ⟨name, [], none, doc⟩ lines) hopen
  have hturns := ((turns_fillers start ⟨name, [], none, doc⟩ hopening).trans
    (turns_enumLines start lines _ hlines)).trans hopenTurns
  obtain ⟨_, _, _, rfl, hrest⟩ := hclosing.exists_cons
  obtain _ | _ := hrest
  refine ⟨taken, ?_, htaken⟩
  rw [EnumBlock.read, hheader]
  change repeatedly (enumStep start) ⟨name, [], none, doc⟩ inside = _
  rw [hturns.repeatedly_eq]
  unfold repeatedly
  rfl

/-- An enum that is not closed takes the next block, up to its closing brace. -/
theorem turns_taken {block following : BlockSyntax} (blocks : List Block)
    (diagnostics : List Diagnostic) (henum : block.isModel = false)
    (hbegins : Begins rest (block.openTokens ++ following.tokens) lexemes) :
    ∃ taken, block.Takes following taken ∧
      Turns schemaStep (blocks, diagnostics) lexemes (blocks ++ [.enum taken], diagnostics) rest := by
  rw [BlockSyntax.openTokens_eq, List.append_assoc] at hbegins
  obtain ⟨inner, hkind, hinner⟩ := hbegins.append
  obtain ⟨line, hstep⟩ := schemaStep_eq blocks diagnostics hkind
  have hshorter : rest.length < lexemes.length := by
    rw [hkind.length_eq, hinner.length_eq, List.length_append, List.length_append]
    simp only [List.length_cons, List.length_nil]
    omega
  obtain ⟨lead, name, opening, body⟩ := block
  cases body with
  | model lines => cases henum
  | enum lines =>
    obtain ⟨taken, hread, htaken⟩ := EnumBlock.read_taken (docOf lead) line hinner
    refine ⟨taken, ⟨_, rfl, htaken⟩, .single ?_ hshorter⟩
    rw [hstep]
    simp only [BlockSyntax.kind, BlockSyntax.isModel, Bool.false_eq_true, if_false,
      BlockSyntax.documentation, readBlock, hread]
    exact congrArg (fun ds => Except.ok (Turn.again (blocks ++ [_], ds), rest)) (List.append_nil _)

/-! ## Reading sources -/

theorem BlockSyntax.tokens_eq (block : BlockSyntax) :
    block.tokens = block.lead.map Filler.token ++ block.undocumented.tokens := by
  rw [BlockSyntax.tokens, BlockSyntax.openTokens, List.append_assoc]
  rfl

theorem opensBlock_undocumented {block : BlockSyntax}
    (hbegins : Begins rest (block.undocumented.tokens ++ right) lexemes) :
    opensBlock lexemes = true := by
  obtain ⟨lead, name, opening, body⟩ := block
  obtain ⟨_, _, _, rfl, hname⟩ := hbegins.exists_cons
  obtain ⟨_, _, _, rfl, hbrace⟩ := hname.exists_cons
  obtain ⟨_, _, _, rfl, -⟩ := hbrace.exists_cons
  cases body <;> rfl

theorem begins_ofText {text : String} (htext : (Lexeme.ofText text).map Lexeme.token = spelling) :
    Begins [] spelling (Lexeme.ofText text) := by
  have hbegins : Begins [] spelling (Lexeme.ofText text ++ []) := begins_of_map htext
  rwa [List.append_nil] at hbegins

/-- A source has been read where only comments are left before its end. -/
theorem readBlocks_of_turns {text : String} {state : Blocks} {trailing : List Filler}
    (hturns : Turns schemaStep ([], []) (Lexeme.ofText text) state lexemes)
    (hbegins : Begins rest (trailing.map Filler.token ++ [.eof]) lexemes) :
    readBlocks text = state := by
  obtain ⟨last, htrailing, hlast⟩ := hbegins.append
  have hdone : schemaStep state lexemes = .ok (.done state, last) := by
    rw [schemaStep, documentation_fillers htrailing (by rw [hlast.next_eq]; exact .eof)]
    simp only [hlast.next_eq]
  rw [readBlocks, hturns.repeatedly_eq]
  unfold repeatedly
  rw [hdone]

/-- Blocks that are all closed are read without a report. -/
theorem readBlocks_source {list : List BlockSyntax} {trailing : List Filler} {text : String}
    (htext : (Lexeme.ofText text).map Lexeme.token = sourceTokens list trailing) :
    (readBlocks text).1.map Block.unlined = list.map BlockSyntax.value ∧
      (readBlocks text).2 = [] := by
  obtain ⟨middle, hlist, htrailing⟩ := (begins_ofText htext).append
  obtain ⟨found, hfound, hturns⟩ := turns_blocks list [] [] hlist
  rw [readBlocks_of_turns hturns htrailing]
  exact ⟨hfound, rfl⟩

section Unclosed

variable {before after : List BlockSyntax} {broken following : BlockSyntax}
  {trailing : List Filler} {text : String}

/-- The tokens of a source with one block that is not closed. -/
def unclosedTokens (before : List BlockSyntax) (broken : BlockSyntax) (after : List BlockSyntax)
    (trailing : List Filler) : List Token :=
  before.flatMap BlockSyntax.tokens ++ (broken.openTokens ++ sourceTokens after trailing)

/-- A last block without its closing brace is reported and left out. -/
theorem readBlocks_unclosed_last
    (htext : (Lexeme.ofText text).map Lexeme.token = unclosedTokens before broken [] trailing) :
    (readBlocks text).1.map Block.unlined = before.map BlockSyntax.value ∧
      ∃ line : Nat, (readBlocks text).2 =
        [.error (unclosedMessage broken.kind broken.name) line] := by
  obtain ⟨middle, hbefore, hbroken⟩ := (begins_ofText htext).append
  rw [sourceTokens, List.flatMap_nil, List.nil_append, ← List.append_assoc] at hbroken
  obtain ⟨last, hopen, hlast⟩ := hbroken.append
  obtain ⟨found, hfound, hturns⟩ := turns_blocks before [] [] hbefore
  obtain ⟨line, hunclosed⟩ := turns_unclosed ([] ++ found) [] hopen (.inl hlast.next_eq)
  have hend : Begins [] (([] : List Filler).map Filler.token ++ [.eof]) last := hlast
  rw [readBlocks_of_turns (hturns.trans hunclosed) hend]
  exact ⟨hfound, line, rfl⟩

/-- A model without its closing brace is reported and left out, with the comments before the next
block. -/
theorem readBlocks_unclosed_model (hmodel : broken.isModel = true)
    (htext : (Lexeme.ofText text).map Lexeme.token =
      unclosedTokens before broken (following :: after) trailing) :
    (readBlocks text).1.map Block.unlined =
        before.map BlockSyntax.value ++
          following.undocumented.value :: after.map BlockSyntax.value ∧
      ∃ line : Nat, (readBlocks text).2 =
        [.error (unclosedMessage broken.kind broken.name) line] := by
  obtain ⟨middle, hbefore, hbroken⟩ := (begins_ofText htext).append
  have hbroken : Begins [] ((broken.openTokens ++ following.lead.map Filler.token) ++
      sourceTokens (following.undocumented :: after) trailing) middle := by
    simpa only [sourceTokens, List.flatMap_cons, following.tokens_eq, List.append_assoc]
      using hbroken
  obtain ⟨header, hopen, hafter⟩ := hbroken.append
  obtain ⟨last, hblocks, hlast⟩ := hafter.append
  obtain ⟨found, hfound, hturns⟩ := turns_blocks before [] [] hbefore
  obtain ⟨line, hunclosed⟩ := turns_unclosed ([] ++ found) [] hopen
    (.inr ⟨hmodel, opensBlock_undocumented hblocks⟩)
  obtain ⟨others, hothers, hmore⟩ := turns_blocks (following.undocumented :: after)
    ([] ++ found) _ hblocks
  rw [readBlocks_of_turns ((hturns.trans hunclosed).trans hmore) hlast]
  refine ⟨?_, line, rfl⟩
  rw [List.nil_append, List.map_append, hfound, hothers, List.map_cons]

/-- An enum without its closing brace takes the next block, and nothing is reported. -/
theorem readBlocks_unclosed_enum (henum : broken.isModel = false)
    (htext : (Lexeme.ofText text).map Lexeme.token =
      unclosedTokens before broken (following :: after) trailing) :
    (∃ taken, broken.Takes following taken ∧
        (readBlocks text).1.map Block.unlined =
          before.map BlockSyntax.value ++ .enum taken :: after.map BlockSyntax.value) ∧
      (readBlocks text).2 = [] := by
  obtain ⟨middle, hbefore, hbroken⟩ := (begins_ofText htext).append
  have hbroken : Begins [] ((broken.openTokens ++ following.tokens) ++
      sourceTokens after trailing) middle := by
    simpa only [sourceTokens, List.flatMap_cons, List.append_assoc] using hbroken
  obtain ⟨header, hopen, hafter⟩ := hbroken.append
  obtain ⟨last, hblocks, hlast⟩ := hafter.append
  obtain ⟨found, hfound, hturns⟩ := turns_blocks before [] [] hbefore
  obtain ⟨taken, htaken, hunclosed⟩ := turns_taken ([] ++ found) [] henum hopen
  obtain ⟨others, hothers, hmore⟩ := turns_blocks after (([] ++ found) ++ [.enum taken]) _ hblocks
  rw [readBlocks_of_turns ((hturns.trans hunclosed).trans hmore) hlast]
  refine ⟨⟨taken, htaken, ?_⟩, rfl⟩
  rw [List.nil_append, List.map_append, List.map_append, hfound, hothers, List.append_assoc]
  rfl

end Unclosed

/-! ## Documentation -/

theorem doc_extendModel (model : Model) (pending : List Filler)
    (lines : List (ModelContent × Ending)) : (extendModel model pending lines).doc = model.doc := by
  induction lines generalizing model pending with
  | nil => rfl
  | cons line more ih =>
    obtain ⟨content, ending⟩ := line
    cases content <;> exact ih _ _

theorem doc_extendEnum (block : EnumBlock) (lines : List (EnumContent × Ending)) :
    (extendEnum block lines).doc = block.doc := by
  obtain ⟨values, mapped, hgrown⟩ := grownTo_extendEnum block lines
  rw [hgrown]

/-- Leaving out the comments before a block shows just where they document it. -/
theorem value_undocumented_iff (block : BlockSyntax) :
    block.undocumented.value = block.value ↔ block.documentation = none := by
  obtain ⟨lead, name, opening, body⟩ := block
  cases body with
  | model lines =>
    constructor
    · intro heq
      have hdoc := congrArg Model.doc (Block.model.inj heq)
      rw [doc_extendModel, doc_extendModel] at hdoc
      exact hdoc.symm
    · intro hnone
      simp only [BlockSyntax.value, hnone]
      rfl
  | enum lines =>
    constructor
    · intro heq
      have hdoc := congrArg EnumBlock.doc (Block.enum.inj heq)
      rw [doc_extendEnum, doc_extendEnum] at hdoc
      exact hdoc.symm
    · intro hnone
      simp only [BlockSyntax.value, hnone]
      rfl

/-! ## One block without its closing brace -/

/-- The block that is not closed is reported, and all others are read as they are without it, just
where nothing follows it or it is a model and no comments stand before the next block.  A model
takes only those comments with it; an enum takes the whole next block, and nothing is reported. -/
theorem unclosed_recovers_iff {before after : List BlockSyntax} {broken : BlockSyntax}
    {trailing : List Filler} {text whole : String}
    (htext : (Lexeme.ofText text).map Lexeme.token = unclosedTokens before broken after trailing)
    (hwhole : (Lexeme.ofText whole).map Lexeme.token = sourceTokens (before ++ after) trailing) :
    (((∃ fault ∈ (readBlocks text).2, fault.severity = .error) ∧
          (readBlocks text).1.map Block.unlined = (readBlocks whole).1.map Block.unlined) ↔
        ∀ following ∈ after.head?,
          broken.isModel = true ∧ following.documentation = none) ∧
      ((readBlocks whole).1.map Block.unlined = (before ++ after).map BlockSyntax.value ∧
        (readBlocks whole).2 = []) ∧
      ∀ following ∈ after.head?,
        (broken.isModel = true →
          (readBlocks text).1.map Block.unlined = before.map BlockSyntax.value ++
              following.undocumented.value :: after.tail.map BlockSyntax.value ∧
            ∃ line : Nat, (readBlocks text).2 =
              [.error (unclosedMessage broken.kind broken.name) line]) ∧
        (broken.isModel = false →
          (∃ taken, broken.Takes following taken ∧ (readBlocks text).1.map Block.unlined =
              before.map BlockSyntax.value ++ .enum taken :: after.tail.map BlockSyntax.value) ∧
            (readBlocks text).2 = []) := by
  have hsource := readBlocks_source hwhole
  rw [hsource.1, List.map_append]
  cases after with
  | nil =>
    obtain ⟨hblocks, line, hfaults⟩ := readBlocks_unclosed_last htext
    refine ⟨iff_of_true ⟨?_, ?_⟩ nofun, ⟨rfl, hsource.2⟩, nofun⟩
    · rw [hfaults]
      exact ⟨_, List.mem_singleton_self _, rfl⟩
    · rw [hblocks, List.map_nil, List.append_nil]
  | cons following more =>
    rw [List.head?_cons]
    cases hkind : broken.isModel with
    | true =>
      obtain ⟨hblocks, line, hfaults⟩ := readBlocks_unclosed_model hkind htext
      refine ⟨⟨?_, ?_⟩, ⟨rfl, hsource.2⟩, ?_⟩
      · rintro ⟨-, heq⟩ _ ⟨⟩
        rw [hblocks, List.map_cons] at heq
        have hsame := List.head_eq_of_cons_eq (List.append_cancel_left heq)
        exact ⟨rfl, (value_undocumented_iff following).1 hsame⟩
      · intro hnone
        refine ⟨?_, ?_⟩
        · rw [hfaults]
          exact ⟨_, List.mem_singleton_self _, rfl⟩
        · rw [hblocks, (value_undocumented_iff following).2 (hnone following rfl).2, List.map_cons]
      · rintro _ ⟨⟩
        exact ⟨fun _ => ⟨hblocks, line, hfaults⟩, nofun⟩
    | false =>
      obtain ⟨htaken, hfaults⟩ := readBlocks_unclosed_enum hkind htext
      refine ⟨iff_of_false ?_ ?_, ⟨rfl, hsource.2⟩, ?_⟩
      · rintro ⟨⟨fault, hmem, -⟩, -⟩
        rw [hfaults] at hmem
        cases hmem
      · intro hmodel
        cases (hmodel following rfl).1
      · rintro _ ⟨⟩
        exact ⟨nofun, fun _ => ⟨htaken, hfaults⟩⟩

/-- An enum without its closing brace, before a model. -/
theorem unclosed_recovers_iff_enum :
    let text := "enum A \x7b\n  X\n\nmodel B \x7b\n  id Int @id\n\x7d\n"
    let whole := "model B \x7b\n  id Int @id\n\x7d\n"
    let model : BlockSyntax := ⟨[], "B", ⟨none, []⟩, .model [(.field "id"
      ⟨⟨"Int", []⟩, none, false, false, [⟨⟨"id", []⟩, none⟩]⟩, ⟨none, []⟩)]⟩
    (readBlocks text).2 = [] ∧
      (∃ taken : EnumBlock, (readBlocks text).1.map Block.unlined = [.enum taken]) ∧
      (readBlocks whole).1.map Block.unlined = [model.value] := by
  intro text whole model
  let broken : BlockSyntax :=
    ⟨[], "A", ⟨none, []⟩, .enum [(.value "X" [] nofun, ⟨none, [.newline]⟩)]⟩
  have htext : (Lexeme.ofText text).map Lexeme.token =
      unclosedTokens [] broken [model] [.newline] := by decide +kernel
  have hwhole : (Lexeme.ofText whole).map Lexeme.token =
      sourceTokens ([] ++ [model]) [.newline] := by decide +kernel
  obtain ⟨-, ⟨hblocks', -⟩, htaken⟩ := unclosed_recovers_iff htext hwhole
  obtain ⟨⟨taken, -, hblocks⟩, hfaults⟩ := (htaken model rfl).2 rfl
  exact ⟨hfaults, ⟨taken, hblocks⟩, hblocks'⟩

end SchemaEvolution.Prisma
