import SchemaEvolution.Proofs.Prisma.BlockSyntax
import SchemaEvolution.Repeated

/-!
# Reading fields

A reader that comes to the tokens of a part gives its value, and goes no further than to the end of
the part: first arguments and attributes, which may go on over several lines, and then fields, which
end with their line.
-/

namespace SchemaEvolution.Prisma

/-- The lexemes are some with the given tokens, and then the rest. -/
inductive Begins (rest : List Lexeme) : List Token → List Lexeme → Prop
  | nil : Begins rest [] rest
  | cons {token : Token} {tokens : List Token} {line : Nat} {startsLine : Bool}
      {lexemes : List Lexeme} (hmore : Begins rest tokens lexemes) :
      Begins rest (token :: tokens) (⟨token, line, startsLine⟩ :: lexemes)

variable {rest lexemes : List Lexeme} {token : Token} {left right spelling : List Token}

theorem Begins.append (hbegins : Begins rest (left ++ right) lexemes) :
    ∃ middle, Begins middle left lexemes ∧ Begins rest right middle := by
  induction left generalizing lexemes with
  | nil => exact ⟨lexemes, .nil, hbegins⟩
  | cons first more ih =>
    obtain _ | hmore := hbegins
    obtain ⟨middle, hleft, hright⟩ := ih hmore
    exact ⟨middle, .cons hleft, hright⟩

theorem Begins.concat {middle : List Lexeme} (hleft : Begins middle left lexemes)
    (hright : Begins rest right middle) : Begins rest (left ++ right) lexemes := by
  induction hleft with
  | nil => exact hright
  | cons _ ih => exact .cons ih

theorem begins_of_map {row : List Lexeme} (htokens : row.map Lexeme.token = spelling) :
    Begins rest spelling (row ++ rest) := by
  subst htokens
  induction row with
  | nil => exact .nil
  | cons lexeme more ih => exact .cons ih

theorem Begins.exists_row (hbegins : Begins rest spelling lexemes) :
    ∃ row : List Lexeme, row.map Lexeme.token = spelling ∧ row ++ rest = lexemes := by
  induction hbegins with
  | nil => exact ⟨[], rfl, rfl⟩
  | @cons token _ line startsLine _ _ ih =>
    obtain ⟨row, rfl, rfl⟩ := ih
    exact ⟨⟨token, line, startsLine⟩ :: row, rfl, rfl⟩

theorem Begins.exists_cons (hbegins : Begins rest (token :: spelling) lexemes) :
    ∃ line startsLine more, lexemes = ⟨token, line, startsLine⟩ :: more ∧
      Begins rest spelling more := by
  obtain _ | hmore := hbegins
  exact ⟨_, _, _, rfl, hmore⟩

theorem Begins.length_eq (hbegins : Begins rest spelling lexemes) :
    lexemes.length = spelling.length + rest.length := by
  induction hbegins with
  | nil => exact (Nat.zero_add _).symm
  | cons _ ih => rw [List.length_cons, List.length_cons, ih, Nat.add_right_comm]

theorem Begins.next_eq (hbegins : Begins rest (token :: spelling) lexemes) :
    next lexemes = token := by
  obtain _ | hmore := hbegins
  rfl

/-- A term may end here: no dot and no opening parenthesis goes on with it, and no colon makes it
the name of an argument. -/
structure EndsTerm (token : Token) : Prop where
  dot : token ≠ .dot
  leftParen : token ≠ .leftParen
  colon : token ≠ .colon

/-- The token is the first one of a term. -/
inductive StartsTerm : Token → Prop
  | word (name : String) : StartsTerm (.word name)
  | string (value : String) : StartsTerm (.string value)
  | number (digits : String) : StartsTerm (.number digits)
  | list : StartsTerm .leftBracket

theorem StartsTerm.endsTerm (hstarts : StartsTerm token) : EndsTerm token := by
  cases hstarts <;> exact ⟨nofun, nofun, nofun⟩

theorem Term.exists_tokens (term : Term) :
    ∃ first more, term.tokens = first :: more ∧ StartsTerm first := by
  cases term with
  | word path => exact ⟨_, _, rfl, .word _⟩
  | string value => exact ⟨_, _, rfl, .string _⟩
  | number digits => exact ⟨_, _, rfl, .number _⟩
  | list items => exact ⟨_, _, rfl, .list⟩
  | call path arguments => exact ⟨_, _, rfl, .word _⟩

theorem Terms.exists_tokens (items : Terms) :
    ∃ first more, items.tokens = first :: more ∧ EndsTerm first := by
  cases items with
  | done | comma | newline => exact ⟨_, _, rfl, nofun, nofun, nofun⟩
  | item term more =>
    obtain ⟨first, others, htokens, hstarts⟩ := term.exists_tokens
    exact ⟨first, others ++ more.tokens, by rw [Terms.tokens, htokens]; rfl, hstarts.endsTerm⟩

theorem Arguments.exists_tokens (arguments : Arguments) :
    ∃ first more, arguments.tokens = first :: more ∧ EndsTerm first := by
  cases arguments with
  | done | comma | newline => exact ⟨_, _, rfl, nofun, nofun, nofun⟩
  | argument name term more =>
    cases name with
    | some name => exact ⟨_, _, rfl, nofun, nofun, nofun⟩
    | none =>
      obtain ⟨first, others, htokens, hstarts⟩ := term.exists_tokens
      exact ⟨first, others ++ more.tokens, by rw [Arguments.tokens, htokens]; rfl,
        hstarts.endsTerm⟩

theorem Terms.endsTerm_next {items : Terms} (hbegins : Begins rest items.tokens lexemes) :
    EndsTerm (next lexemes) := by
  obtain ⟨first, more, htokens, hends⟩ := items.exists_tokens
  rw [htokens] at hbegins
  rwa [hbegins.next_eq]

theorem Arguments.endsTerm_next {arguments : Arguments}
    (hbegins : Begins rest arguments.tokens lexemes) : EndsTerm (next lexemes) := by
  obtain ⟨first, more, htokens, hends⟩ := arguments.exists_tokens
  rw [htokens] at hbegins
  rwa [hbegins.next_eq]

/-- The parts of a dotted name are read up to the first lexeme that is not a dot. -/
theorem dottedName_eq {parts : List String} (name : String)
    (hbegins : Begins rest (parts.flatMap fun part => [.dot, .word part]) lexemes)
    (hnext : next rest ≠ .dot) :
    dottedName name lexemes = (parts.foldl (fun done part => done ++ "." ++ part) name, rest) := by
  induction parts generalizing name lexemes with
  | nil =>
    obtain _ | _ := hbegins
    match rest with
    | [] => rfl
    | [lexeme] => exact congrArg (Prod.mk name) (if_neg hnext)
    | lexeme :: part :: more => exact if_neg hnext
  | cons part more ih =>
    obtain _ | _ | hmore := hbegins
    rw [dottedName, if_pos rfl]
    exact ih _ hmore

/-- A path that no bracket follows is read as a word. -/
theorem readExpression?_path {path : Path}
    (hbegins : Begins rest path.tokens lexemes) (hdot : next rest ≠ .dot)
    (hparen : next rest ≠ .leftParen) :
    readExpression? lexemes = some (.word path.name, rest) := by
  obtain _ | hmore := hbegins
  have hname := dottedName_eq path.head hmore hdot
  rw [readExpression?]
  dsimp only
  split
  · next hrest =>
    rw [hname] at hrest ⊢
    cases hrest
    rfl
  · next opening inside hrest =>
    rw [hname] at hrest ⊢
    cases hrest
    exact if_neg hparen

/-- A path in front of a bracket is read as a call. -/
theorem readExpression?_call {path : Path} {values : List Argument} {inside : List Lexeme}
    (hbegins : Begins inside (path.tokens ++ [.leftParen]) lexemes)
    (harguments : readArguments inside = (values, rest)) :
    readExpression? lexemes = some (.call path.name values, rest) := by
  obtain ⟨middle, hpath, hopening⟩ := hbegins.append
  obtain _ | hmore := hpath
  obtain _ | hinside := hopening
  obtain _ | _ := hinside
  have hname := dottedName_eq path.head hmore nofun
  rw [readExpression?]
  dsimp only
  split
  · next hrest =>
    rw [hname] at hrest
    cases hrest
  · next opening after hrest =>
    rw [hname] at hrest ⊢
    cases hrest
    rw [if_pos rfl, harguments]
    rfl

/-- The items of a list are read one by one. -/
theorem readItems_item {lexeme : Lexeme} {more after last : List Lexeme} {item : Expression}
    {items : List Expression} (hstarts : StartsTerm lexeme.token)
    (hitem : readExpression? (lexeme :: more) = some (item, after))
    (hshorter : after.length < (lexeme :: more).length) (hitems : readItems after = (items, last)) :
    readItems (lexeme :: more) = (item :: items, last) := by
  rw [readItems]
  cases htoken : lexeme.token with
  | word | string | number | leftBracket =>
    dsimp only
    rw [hitem]
    dsimp only
    rw [if_pos hshorter, hitems]
  | _ =>
    rw [htoken] at hstarts
    cases hstarts

/-- The arguments of a call are read one by one, with their names. -/
theorem readArguments_argument (name : Option String) {lexeme : Lexeme}
    {more after last : List Lexeme} {value : Expression} {values : List Argument} (hstarts : StartsTerm lexeme.token)
    (hargument : match name with
      | none => argumentName? (lexeme :: more) = none ∧
        readExpression? (lexeme :: more) = some (value, after)
      | some name => ∃ inside, argumentName? (lexeme :: more) = some (name, inside) ∧
        readExpression? inside = some (value, after))
    (hshorter : after.length < (lexeme :: more).length)
    (hvalues : readArguments after = (values, last)) :
    readArguments (lexeme :: more) = ((name, value) :: values, last) := by
  rw [readArguments]
  cases htoken : lexeme.token with
  | word | string | number | leftBracket =>
    dsimp only
    split
    · next found inside hfound =>
      cases name with
      | none =>
        rw [hargument.1] at hfound
        cases hfound
      | some name =>
        obtain ⟨start, hname, hvalue⟩ := hargument
        rw [hname] at hfound
        cases hfound
        rw [hvalue]
        dsimp only
        rw [if_pos hshorter, hvalues]
    · next hfound =>
      cases name with
      | none =>
        rw [hargument.2]
        dsimp only
        rw [if_pos hshorter, hvalues]
      | some name =>
        obtain ⟨start, hname, -⟩ := hargument
        rw [hname] at hfound
        cases hfound
  | _ =>
    rw [htoken] at hstarts
    cases hstarts

/-- A term is not the name of an argument, unless a colon follows. -/
theorem argumentName?_eq_none {term : Term} (hbegins : Begins rest term.tokens lexemes)
    (hends : EndsTerm (next rest)) : argumentName? lexemes = none := by
  cases term with
  | word path =>
    obtain ⟨head, _ | ⟨part, parts⟩⟩ := path
    · obtain _ | _ | _ := hbegins
      cases rest with
      | nil => rfl
      | cons =>
        unfold argumentName?
        split
        · next heq =>
          cases heq
          exact absurd rfl hends.colon
        · rfl
    · obtain _ | _ | _ := hbegins
      rfl
  | string | number | list =>
    obtain _ | _ := hbegins
    rfl
  | call path arguments =>
    obtain ⟨head, _ | ⟨part, parts⟩⟩ := path <;>
    · obtain _ | _ | _ := hbegins
      rfl

mutual

/-- A term is read for its value, whatever follows that can end it. -/
theorem Term.reads (term : Term) {lexemes rest : List Lexeme}
    (hbegins : Begins rest term.tokens lexemes) (hends : EndsTerm (next rest)) :
    readExpression? lexemes = some (term.value, rest) := by
  cases term with
  | word path => exact readExpression?_path hbegins hends.dot hends.leftParen
  | string | number =>
    obtain _ | _ | _ := hbegins
    rw [readExpression?]
    rfl
  | list items =>
    obtain _ | hmore := hbegins
    have hitems := items.reads hmore
    rw [readExpression?]
    dsimp only
    rw [hitems]
    rfl
  | call path arguments =>
    rw [Term.tokens, List.append_cons] at hbegins
    obtain ⟨inside, hopening, harguments⟩ := hbegins.append
    exact readExpression?_call hopening (arguments.reads harguments)

theorem Terms.reads (items : Terms) {lexemes rest : List Lexeme}
    (hbegins : Begins rest items.tokens lexemes) : readItems lexemes = (items.values, rest) := by
  cases items with
  | done =>
    obtain _ | _ | _ := hbegins
    rw [readItems]
    rfl
  | comma more | newline more =>
    obtain _ | hmore := hbegins
    rw [readItems]
    exact more.reads hmore
  | item term more =>
    obtain ⟨middle, hterm, hmore⟩ := hbegins.append
    have hitem := term.reads hterm (Terms.endsTerm_next hmore)
    have hlength := hterm.length_eq
    obtain ⟨first, others, htokens, hstarts⟩ := term.exists_tokens
    rw [htokens] at hterm hlength
    obtain _ | _ := hterm
    exact readItems_item hstarts hitem (by rw [hlength, List.length_cons]; omega) (more.reads hmore)

theorem Arguments.reads (arguments : Arguments) {lexemes rest : List Lexeme}
    (hbegins : Begins rest arguments.tokens lexemes) :
    readArguments lexemes = (arguments.values, rest) := by
  cases arguments with
  | done =>
    obtain _ | _ | _ := hbegins
    rw [readArguments]
    rfl
  | comma more | newline more =>
    obtain _ | hmore := hbegins
    rw [readArguments]
    exact more.reads hmore
  | argument name term more =>
    cases name with
    | none =>
      obtain ⟨middle, hterm, hmore⟩ := hbegins.append
      have hends := Arguments.endsTerm_next hmore
      have hvalue := term.reads hterm hends
      have hname := argumentName?_eq_none hterm hends
      have hlength := hterm.length_eq
      obtain ⟨first, others, htokens, hstarts⟩ := term.exists_tokens
      rw [htokens] at hterm hlength
      obtain _ | _ := hterm
      exact readArguments_argument none hstarts ⟨hname, hvalue⟩
        (by rw [hlength, List.length_cons]; omega) (more.reads hmore)
    | some name =>
      obtain _ | _ | hvalue := hbegins
      obtain ⟨middle, hterm, hmore⟩ := hvalue.append
      have hvalue := term.reads hterm (Arguments.endsTerm_next hmore)
      have hlength := hterm.length_eq
      exact readArguments_argument (some name) (.word name) ⟨_, rfl, hvalue⟩
        (by rw [List.length_cons, List.length_cons, hlength]; omega) (more.reads hmore)

end

/-! ## Reading attributes and fields -/

theorem eat?_self (token : Token) (line : Nat) (startsLine : Bool) (rest : List Lexeme) :
    eat? token (⟨token, line, startsLine⟩ :: rest) = some rest := if_pos rfl

theorem eat?_eq_none (hnext : next lexemes ≠ token) : eat? token lexemes = none := by
  cases lexemes with
  | nil => rfl
  | cons lexeme more => exact if_neg hnext

/-- A field's type or attribute reads its group of arguments, if it has one. -/
theorem optionalArguments_eq {arguments : Option Arguments}
    (hbegins : Begins rest (groupTokens arguments) lexemes) (hparen : next rest ≠ .leftParen) :
    optionalArguments lexemes = (groupValues arguments, rest) := by
  cases arguments with
  | none =>
    obtain _ | _ := hbegins
    rw [optionalArguments, eat?_eq_none hparen]
    rfl
  | some arguments =>
    obtain _ | hmore := hbegins
    rw [optionalArguments, eat?, if_pos rfl]
    exact arguments.reads hmore

theorem groupTokens_ne_dot {arguments : Option Arguments}
    (hbegins : Begins rest (groupTokens arguments) lexemes) (hdot : next rest ≠ .dot) :
    next lexemes ≠ .dot := by
  cases arguments with
  | none =>
    obtain _ | _ := hbegins
    exact hdot
  | some arguments =>
    obtain _ | _ := hbegins
    rintro ⟨⟩

theorem AttributeSyntax.reads {attr : AttributeSyntax} (hbegins : Begins rest attr.tokens lexemes)
    (hdot : next rest ≠ .dot) (hparen : next rest ≠ .leftParen) :
    Attribute.read? lexemes = some (attr.value, rest) := by
  obtain ⟨middle, hpath, harguments⟩ := hbegins.append
  obtain _ | hparts := hpath
  have hname := dottedName_eq attr.path.head hparts (groupTokens_ne_dot harguments hdot)
  have hvalues := optionalArguments_eq harguments hparen
  simp only [Attribute.read?, word?, Option.bind_eq_bind, Option.bind_some, hname, hvalues]
  rfl

def commentTokens (comment : Option String) : List Token := (comment.map Token.doc).toList

/-- What a field may be followed by on its line: another attribute, a comment, or the end. -/
inductive EndsAttribute : Token → Prop
  | at : EndsAttribute .at
  | doc (text : String) : EndsAttribute (.doc text)
  | newline : EndsAttribute .newline

/-- The attributes of a field are collected in order. -/
theorem turns_attributes {attributes : List AttributeSyntax} (field : Field)
    (hbegins : Begins rest (attributes.flatMap fun attr => .at :: attr.tokens) lexemes)
    (hends : EndsAttribute (next rest)) :
    Turns fieldStep field lexemes
      { field with attributes := field.attributes ++ attributes.map AttributeSyntax.value } rest ∧
    EndsAttribute (next lexemes) := by
  induction attributes generalizing field lexemes with
  | nil =>
    obtain _ | _ := hbegins
    rw [List.map_nil, List.append_nil]
    exact ⟨.none _ _, hends⟩
  | cons attr more ih =>
    obtain ⟨middle, hattr, hmore⟩ := hbegins.append
    obtain _ | hattr := hattr
    obtain ⟨hturns, hmiddle⟩ :=
      ih { field with attributes := field.attributes ++ [attr.value] } hmore
    have hdot : next middle ≠ .dot := fun heq => by rw [heq] at hmiddle; cases hmiddle
    have hparen : next middle ≠ .leftParen := fun heq => by rw [heq] at hmiddle; cases hmiddle
    have hread := AttributeSyntax.reads hattr hdot hparen
    refine ⟨.more ?_ ?_ (by simpa only [List.map_cons, List.append_assoc, List.singleton_append] using hturns), .at⟩
    · simp only [fieldStep, next, List.tail_cons, hread]
    · rw [List.length_cons, hattr.length_eq]
      omega

theorem EndsAttribute.ne {last : Token} (hends : EndsAttribute token)
    (hother : last = .dot ∨ last = .leftParen ∨ last = .leftBracket ∨ last = .question) :
    token ≠ last := by
  rintro rfl
  rcases hother with rfl | rfl | rfl | rfl <;> cases hends

/-- The tokens before a mark or an attribute do not open anything. -/
theorem marks_ne {field : FieldSyntax} (hbegins : Begins rest field.marks lexemes)
    (hends : EndsAttribute (next rest)) : next lexemes ≠ .dot ∧ next lexemes ≠ .leftParen := by
  rw [FieldSyntax.marks] at hbegins
  cases hlist : field.isList with
  | true =>
    rw [hlist] at hbegins
    obtain _ | _ := hbegins
    exact ⟨nofun, nofun⟩
  | false =>
    rw [hlist] at hbegins
    cases hoptional : field.isOptional with
    | true =>
      rw [hoptional] at hbegins
      obtain _ | _ := hbegins
      exact ⟨nofun, nofun⟩
    | false =>
      rw [hoptional] at hbegins
      obtain _ | _ := hbegins
      exact ⟨hends.ne (.inl rfl), hends.ne (.inr (.inl rfl))⟩

/-- The comment of a field is its documentation, if there is none before it. -/
theorem repeatedly_comment {comment : Option String} (field : Field)
    (hbegins : Begins rest (commentTokens comment) lexemes) (hnext : next rest = .newline) :
    repeatedly fieldStep field lexemes =
      .ok ({ field with doc := field.doc.or comment }, rest) := by
  have hdone (field : Field) : repeatedly fieldStep field rest = .ok (field, rest) := by
    unfold repeatedly
    rw [fieldStep, hnext]
  cases comment with
  | none =>
    obtain _ | _ := hbegins
    rw [Option.or_none]
    exact hdone field
  | some text =>
    obtain _ | _ | _ := hbegins
    rw [Turns.repeatedly_eq (.single rfl (Nat.lt_succ_self _)), List.tail_cons, hdone]
    cases field.doc <;> rfl

/-- A field is read up to the end of its line. -/
theorem Field.read_eq {field : FieldSyntax} {comment : Option String} (name : String)
    (doc : Option String) (line : Nat)
    (hbegins : Begins rest (field.tokens ++ commentTokens comment) lexemes)
    (hnext : next rest = .newline) :
    Field.read name doc line lexemes =
      .ok ({ field.value name (doc.or comment) with line := line }, rest) := by
  obtain ⟨behind, hfield, hcomment⟩ := hbegins.append
  obtain ⟨afterType, htype, hfield⟩ := hfield.append
  obtain ⟨afterArguments, harguments, hfield⟩ := hfield.append
  obtain ⟨afterMarks, hmarks, hattributes⟩ := hfield.append
  have hbehind : EndsAttribute (next behind) := by
    cases comment with
    | none =>
      obtain _ | _ := hcomment
      rw [hnext]
      exact .newline
    | some text =>
      obtain _ | _ := hcomment
      exact .doc text
  have hafterMarks (start : Field) := turns_attributes start hattributes hbehind
  have hends := (hafterMarks (field.value name doc)).2
  obtain ⟨hdot, hparen⟩ := marks_ne hmarks hends
  have hbracket := eat?_eq_none (hends.ne (.inr (.inr (.inl rfl))))
  have hquestion := eat?_eq_none (hends.ne (.inr (.inr (.inr rfl))))
  have hlast (start : Field) := (hafterMarks start).1.repeatedly_eq.trans
    (repeatedly_comment _ hcomment hnext)
  obtain _ | hparts := htype
  have hname := dottedName_eq field.type.head hparts (groupTokens_ne_dot harguments hdot)
  have hvalues := optionalArguments_eq harguments hparen
  rw [Field.read]
  simp only [word?, hname, hvalues]
  obtain ⟨type, typeArguments, isList, isOptional, attributes⟩ := field
  cases isList <;> cases isOptional
  · obtain _ | _ := hmarks
    simp only [hbracket, hquestion, hlast]
    rfl
  · obtain _ | _ | _ := hmarks
    have hother (line : Nat) (startsLine : Bool) :
        eat? .leftBracket (⟨.question, line, startsLine⟩ :: afterMarks) = none :=
      eat?_eq_none Token.noConfusion
    simp only [hother, eat?_self, hlast]
    rfl
  · obtain _ | _ | _ | _ := hmarks
    simp only [eat?_self, Option.getD_some, hquestion, hlast]
    rfl
  · obtain _ | _ | _ | _ | _ := hmarks
    simp only [eat?_self, Option.getD_some, hlast]
    rfl

/-! ## Calm tokens -/

theorem isCalm_path (path : Path) : ∀ token ∈ path.tokens, IsCalm token := by
  intro token hmem
  rcases List.mem_cons.1 hmem with rfl | hparts
  · constructor <;> rintro ⟨⟩
  · obtain ⟨part, -, hpart⟩ := List.mem_flatMap.1 hparts
    simp only [List.mem_cons, List.not_mem_nil, or_false] at hpart
    rcases hpart with rfl | rfl <;> constructor <;> rintro ⟨⟩

mutual

theorem Term.isCalm (term : Term) : ∀ token ∈ term.tokens, IsCalm token := by
  cases term with
  | word path => exact isCalm_path path
  | string | number => exact List.forall_mem_singleton.2 (by constructor <;> rintro ⟨⟩)
  | list items => exact List.forall_mem_cons.2 ⟨by constructor <;> rintro ⟨⟩, items.isCalm⟩
  | call path arguments =>
    exact List.forall_mem_append.2 ⟨isCalm_path path,
      List.forall_mem_cons.2 ⟨by constructor <;> rintro ⟨⟩, arguments.isCalm⟩⟩

theorem Terms.isCalm (items : Terms) : ∀ token ∈ items.tokens, IsCalm token := by
  cases items with
  | done => exact List.forall_mem_singleton.2 (by constructor <;> rintro ⟨⟩)
  | comma more | newline more =>
    exact List.forall_mem_cons.2 ⟨by constructor <;> rintro ⟨⟩, more.isCalm⟩
  | item term more => exact List.forall_mem_append.2 ⟨term.isCalm, more.isCalm⟩

/-- No lexeme of an argument list opens or closes a block. -/
theorem Arguments.isCalm (arguments : Arguments) : ∀ token ∈ arguments.tokens, IsCalm token := by
  cases arguments with
  | done => exact List.forall_mem_singleton.2 (by constructor <;> rintro ⟨⟩)
  | comma more | newline more =>
    exact List.forall_mem_cons.2 ⟨by constructor <;> rintro ⟨⟩, more.isCalm⟩
  | argument name term more =>
    have hvalue := List.forall_mem_append.2 ⟨term.isCalm, more.isCalm⟩
    cases name with
    | none => exact hvalue
    | some name =>
      exact List.forall_mem_cons.2 ⟨by constructor <;> rintro ⟨⟩,
        List.forall_mem_cons.2 ⟨by constructor <;> rintro ⟨⟩, hvalue⟩⟩

end

theorem isCalm_group (arguments : Option Arguments) :
    ∀ token ∈ groupTokens arguments, IsCalm token := by
  cases arguments with
  | none => exact nofun
  | some arguments =>
    exact List.forall_mem_cons.2 ⟨by constructor <;> rintro ⟨⟩, arguments.isCalm⟩

theorem FieldSyntax.isCalm (field : FieldSyntax) : ∀ token ∈ field.tokens, IsCalm token := by
  have hmarks : ∀ token ∈ field.marks, IsCalm token := by
    intro token hmem
    rw [FieldSyntax.marks] at hmem
    cases hlist : field.isList <;> cases hoptional : field.isOptional <;>
      simp only [hlist, hoptional, Bool.false_eq_true, if_true, if_false, List.nil_append,
        List.append_nil, List.cons_append, List.mem_cons, List.not_mem_nil, or_false] at hmem <;>
      rcases hmem with rfl | rfl | rfl <;> constructor <;> rintro ⟨⟩
  have hattributes : ∀ token ∈ field.attributeTokens, IsCalm token := by
    intro token hmem
    obtain ⟨attr, -, hattr⟩ := List.mem_flatMap.1 hmem
    rcases List.mem_cons.1 hattr with rfl | hinside
    · constructor <;> rintro ⟨⟩
    · exact List.forall_mem_append.2 ⟨isCalm_path attr.path, isCalm_group attr.arguments⟩ token
        hinside
  exact List.forall_mem_append.2 ⟨isCalm_path field.type, List.forall_mem_append.2
    ⟨isCalm_group field.typeArguments, List.forall_mem_append.2 ⟨hmarks, hattributes⟩⟩⟩

end SchemaEvolution.Prisma
