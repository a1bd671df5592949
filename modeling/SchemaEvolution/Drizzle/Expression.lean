import SchemaEvolution.Drizzle.Nesting

/-!
# Expressions of Drizzle schemas

Calls, members, literals, lists, objects, functions and templates: what the declarations of tables
are made of.  A reader gives what is left even where it fails, since reading goes on from there.
-/

namespace SchemaEvolution.Drizzle

inductive Expression where
  | word (name : String)
  | string (value : String)
  | number (digits : String)
  | boolean (value : Bool)
  | null
  /-- The text of a template after an expression. -/
  | sql (text : String)
  | list (items : List Expression)
  | object (entries : List (String × Expression))
  | call (callee : Expression) (arguments : List Expression)
  | member (object : Expression) (property : String)
  | arrow (parameters : List String) (body : Expression)
  | unknown

mutual

/-- Whether two expressions are the same, constructor by constructor. -/
def Expression.decEq (left right : Expression) : Decidable (left = right) :=
  if hkind : left.ctorIdx = right.ctorIdx then
    match left, right, hkind with
    | .word name, .word other, _ => decidable_of_iff (name = other) (by simp)
    | .string value, .string other, _ => decidable_of_iff (value = other) (by simp)
    | .number digits, .number other, _ => decidable_of_iff (digits = other) (by simp)
    | .boolean value, .boolean other, _ => decidable_of_iff (value = other) (by simp)
    | .null, .null, _ | .unknown, .unknown, _ => isTrue rfl
    | .sql text, .sql other, _ => decidable_of_iff (text = other) (by simp)
    | .list items, .list others, _ =>
      haveI := Expression.decEqItems items others
      decidable_of_iff (items = others) (by simp)
    | .object entries, .object others, _ =>
      haveI := Expression.decEqEntries entries others
      decidable_of_iff (entries = others) (by simp)
    | .call callee arguments, .call other others, _ =>
      haveI := callee.decEq other
      haveI := Expression.decEqItems arguments others
      decidable_of_iff (callee = other ∧ arguments = others) (by simp)
    | .member owner property, .member other key, _ =>
      haveI := owner.decEq other
      decidable_of_iff (owner = other ∧ property = key) (by simp)
    | .arrow parameters body, .arrow others other, _ =>
      haveI := body.decEq other
      decidable_of_iff (parameters = others ∧ body = other) (by simp)
  else isFalse fun heq => hkind (congrArg _ heq)

def Expression.decEqItems : (left right : List Expression) → Decidable (left = right)
  | [], [] => isTrue rfl
  | [], _ :: _ | _ :: _, [] => isFalse nofun
  | item :: items, other :: others =>
    haveI := item.decEq other
    haveI := Expression.decEqItems items others
    decidable_of_iff (item = other ∧ items = others) (by simp)

def Expression.decEqEntries :
    (left right : List (String × Expression)) → Decidable (left = right)
  | [], [] => isTrue rfl
  | [], _ :: _ | _ :: _, [] => isFalse nofun
  | (key, value) :: entries, (name, other) :: others =>
    haveI := value.decEq other
    haveI := Expression.decEqEntries entries others
    decidable_of_iff ((key = name ∧ value = other) ∧ entries = others) (by simp)

end

instance : DecidableEq Expression := Expression.decEq

/-- A call of a method on the result of the calls before it. -/
structure Link where
  method : String
  arguments : List Expression
  deriving DecidableEq

/-- A call and the calls of methods on its result. -/
structure Chain where
  base : String
  arguments : List Expression
  links : List Link
  deriving DecidableEq

namespace Expression

def string? : Expression → Option String
  | .string value => some value
  | _ => none

/-- The value of a property of an object; the first one counts. -/
def property? (key : String) : Expression → Option Expression
  | .object entries => (entries.find? fun entry => entry.1 == key).map Prod.snd
  | _ => none

/-- The items of a list; none for anything else. -/
def items : Expression → List Expression
  | .list items => items
  | _ => []

/-- A member of a variable: the variable and the property. -/
def member? : Expression → Option (String × String)
  | .member (.word owner) property => some (owner, property)
  | _ => none

/-- The chain of calls that an expression is.  A member that is not called is passed over. -/
def chain? : Expression → Option Chain
  | .call (.word base) arguments => some ⟨base, arguments, []⟩
  | .call (.member inner property) arguments =>
    inner.chain?.map fun chain => { chain with links := chain.links ++ [⟨property, arguments⟩] }
  | .member inner _ => inner.chain?
  | _ => none

end Expression

namespace Chain

/-- The last call of a method. -/
def link? (chain : Chain) (method : String) : Option (List Expression) :=
  (chain.links.reverse.find? fun link => link.method == method).map Link.arguments

def has (chain : Chain) (method : String) : Bool :=
  chain.links.any fun link => link.method == method

end Chain

/-! ## Reading -/

def wordExpression : String → Expression
  | "true" => .boolean true
  | "false" => .boolean false
  | "null" | "undefined" => .null
  | name => .word name

/-- Whether a function comes next: a word before an arrow, or a group before an arrow or a type. -/
def isArrowAhead : List Lexeme → Bool
  | [] => false
  | lexeme :: rest =>
    match lexeme.token with
    | .word _ => next rest = .arrow
    | .leftParen =>
      match closing? 1 rest with
      | some (_, after) => next after = .arrow || next after = .colon
      | none => false
    | _ => false

/-- The names among the parameters of a function; a word right after a colon is a type. -/
def parameterNames (before : Token) : List Lexeme → List String
  | [] => []
  | lexeme :: rest =>
    let others := parameterNames lexeme.token rest
    match lexeme.token with
    | .word name => if before = .colon then others else name :: others
    | _ => others

/-- The parameters of a function, and what follows the arrow after them. -/
def readParameters (lexemes : List Lexeme) : Option (List String) × List Lexeme :=
  let arrow (names : List String) (rest : List Lexeme) : Option (List String) × List Lexeme :=
    if next rest = .arrow then (some names, rest.tail) else (none, rest)
  match lexemes with
  | [] => (none, [])
  | lexeme :: rest =>
    match lexeme.token with
    | .word name => arrow [name] rest
    | .leftParen =>
      match closing? 1 rest with
      | none => (none, lexeme :: rest)
      | some (inside, after) =>
        let names := parameterNames .leftParen inside
        arrow names (if next after = .colon then skipType after.tail else after)
    | _ => (none, lexeme :: rest)

/-- What follows the first `return` before the end of a body with a given number of lexemes. -/
def afterReturn? (size : Nat) (lexemes : List Lexeme) : Option (List Lexeme) :=
  let before := (lexemes.take size).takeWhile fun lexeme => lexeme.token != .word "return"
  if before.length < size then some (lexemes.drop (before.length + 1)) else none

theorem length_of_afterReturn? {size : Nat} {lexemes after : List Lexeme}
    (h : afterReturn? size lexemes = some after) : after.length ≤ lexemes.length := by
  dsimp only [afterReturn?] at h
  split at h
  · obtain rfl := Option.some.inj h
    simp
  · exact absurd h (by simp)

mutual

/-- Reads an expression with everything that is done to it. -/
def readExpression (lexemes : List Lexeme) : Option Expression × List Lexeme :=
  match readPrimary lexemes with
  | (some value, rest) =>
    if rest.length < lexemes.length then readTrailer value rest else (none, rest)
  | (none, rest) => (none, rest)
termination_by 4 * lexemes.length + 2
decreasing_by
  all_goals omega

/-- Reads the members, calls, templates and types that follow an expression. -/
def readTrailer (value : Expression) (lexemes : List Lexeme) :
    Option Expression × List Lexeme :=
  match lexemes with
  | [] => (some value, [])
  | lexeme :: rest =>
    match lexeme.token with
    | .dot =>
      match rest with
      | [] => (none, [])
      | property :: more =>
        match property.token with
        | .word name => readTrailer (.member value name) (skipOptionalTypeArguments more)
        | _ => (none, property :: more)
    | .leftParen =>
      match readArguments .rightParen rest with
      | (some arguments, after) =>
        if after.length < (lexeme :: rest).length then readTrailer (.call value arguments) after
        else (none, after)
      | (none, after) => (none, after)
    | .template text => readTrailer (.sql text) rest
    | .bang => readTrailer value rest
    | .word name =>
      if name == "as" || name == "satisfies" then readTrailer value (skipType rest)
      else (some value, lexeme :: rest)
    | _ => (some value, lexeme :: rest)
termination_by 4 * lexemes.length
decreasing_by
  all_goals simp only [List.length_cons] at *
  · have := length_skipOptionalTypeArguments_le more
    omega
  · omega
  · omega
  · omega
  · omega
  · have := length_skipType_le rest
    omega

def readPrimary (lexemes : List Lexeme) : Option Expression × List Lexeme :=
  if isArrowAhead lexemes then readArrow lexemes
  else
    match lexemes with
    | [] => (none, [])
    | lexeme :: rest =>
      match lexeme.token with
      | .word "new" => readExpression rest
      | .word name => (some (wordExpression name), rest)
      | .string value => (some (.string value), rest)
      | .template text => (some (.string text), rest)
      | .number digits => (some (.number digits), rest)
      | .operator "-" =>
        match next rest with
        | .number digits => (some (.number ("-" ++ digits)), rest.tail)
        | _ => (some .unknown, rest)
      | .leftBracket =>
        let (items, after) := readArguments .rightBracket rest
        (items.map .list, after)
      | .leftBrace =>
        let (entries, after) := readEntries rest
        (entries.map .object, after)
      | .leftParen =>
        let (value, after) := readExpression rest
        (value, if value.isSome then skip .rightParen after else after)
      | _ => (none, lexeme :: rest)
termination_by 4 * lexemes.length + 1
decreasing_by
  · omega
  all_goals
    simp only [List.length_cons]
    omega

/-- Reads a function.  The value of a body in braces is what it returns. -/
def readArrow (lexemes : List Lexeme) : Option Expression × List Lexeme :=
  match readParameters lexemes with
  | (none, rest) => (none, rest)
  | (some _, []) => (none, [])
  | (some names, lexeme :: body) =>
    if (lexeme :: body).length < lexemes.length then
      if lexeme.token = .leftBrace then
        match closing? 1 body with
        | none => (none, lexeme :: body)
        | some (inside, after) =>
          match _h : afterReturn? inside.length body with
          | none => (some (.arrow names .unknown), after)
          | some returned =>
            have : returned.length < (lexeme :: body).length :=
              Nat.lt_succ_of_le (length_of_afterReturn? _h)
            (some (.arrow names ((readExpression returned).1.getD .unknown)), after)
      else
        let (value, after) := readExpression (lexeme :: body)
        (value.map (.arrow names), after)
    else (none, lexeme :: body)
termination_by 4 * lexemes.length
decreasing_by
  all_goals
    simp only [List.length_cons] at *
    omega

/-- Reads expressions up to a closing bracket; spread ones are dropped. -/
def readArguments (close : Token) (lexemes : List Lexeme) :
    Option (List Expression) × List Lexeme :=
  match lexemes with
  | [] => (none, [])
  | lexeme :: rest =>
    if lexeme.token = close then (some [], rest)
    else
      match lexeme.token with
      | .comma => readArguments close rest
      | .eof => (none, lexeme :: rest)
      | .spread =>
        match readExpression rest with
        | (some _, after) =>
          if after.length < (lexeme :: rest).length then readArguments close after
          else (none, after)
        | (none, after) => (none, after)
      | _ =>
        match readExpression (lexeme :: rest) with
        | (some item, after) =>
          if after.length < (lexeme :: rest).length then
            let (items, after) := readArguments close after
            (items.map (item :: ·), after)
          else (none, after)
        | (none, after) => (none, after)
termination_by 4 * lexemes.length + 3
decreasing_by
  all_goals
    simp only [List.length_cons] at *
    omega

/-- Reads the entries of an object up to its closing brace.  Methods, spread values and entries
with computed names are dropped. -/
def readEntries (lexemes : List Lexeme) :
    Option (List (String × Expression)) × List Lexeme :=
  match lexemes with
  | [] => (none, [])
  | lexeme :: rest =>
    match lexeme.token with
    | .rightBrace => (some [], rest)
    | .comma => readEntries rest
    | .spread =>
      match readExpression rest with
      | (some _, after) =>
        if after.length < (lexeme :: rest).length then readEntries after else (none, after)
      | (none, after) => (none, after)
    | .word key | .string key | .number key =>
      match rest with
      | [] => (none, [])
      | sign :: more =>
        if sign.token = .colon then
          match readExpression more with
          | (some value, after) =>
            if after.length < (lexeme :: sign :: more).length then
              let (entries, after) := readEntries after
              (entries.map ((key, value) :: ·), after)
            else (none, after)
          | (none, after) => (none, after)
        else if sign.token = .leftParen then
          match _h : closing? 1 more with
          | none => (none, sign :: more)
          | some (_, after) =>
            if next after = .leftBrace then
              match _h' : afterGroup? after with
              | none => (none, after)
              | some rest =>
                have := length_of_closing? _h
                have := length_of_afterGroup? _h'
                readEntries rest
            else
              have := length_of_closing? _h
              readEntries after
        else
          let (entries, after) := readEntries (sign :: more)
          (entries.map ((key, .word key) :: ·), after)
    | .leftBracket =>
      match _h : closing? 1 rest with
      | none => (none, lexeme :: rest)
      | some (_, after) =>
        let afterColon := skip .colon after
        if afterColon.length < (lexeme :: rest).length then
          match readExpression afterColon with
          | (some _, after) =>
            if after.length < (lexeme :: rest).length then readEntries after else (none, after)
          | (none, after) => (none, after)
        else (none, afterColon)
    | _ => (none, lexeme :: rest)
termination_by 4 * lexemes.length + 3
decreasing_by
  all_goals
    simp +zetaDelta only [List.length_cons] at *
    omega

end

end SchemaEvolution.Drizzle
