import SchemaEvolution.Json.Skipper

/-!
# Shapes of typed JSON

A `Shape α` says which JSON stands for a value of type `α`.  It has two interpretations:
`decode` takes a value that was already read, and `read` takes the text directly and puts
its faults in their places.  A record may be written as an object, in which unknown names
are passed over, or as the list of its fields in order.
-/

namespace SchemaEvolution.Json

mutual

/-- What JSON stands for a value of type `α`. -/
inductive Shape : Type → Type 1 where
  | text : Shape String
  | flag : Shape Bool
  | word : Shape UInt32
  /-- Any value, looked at as a whole. -/
  | whole {α : Type} (view : Json → Except Fault α) : Shape α
  /-- One of several names. -/
  | choice {α : Type} (variants : List (String × α)) : Shape α
  /-- `null` or a value. -/
  | optional {α : Type} (shape : Shape α) : Shape (Option α)
  | list {α : Type} (shape : Shape α) : Shape (List α)
  | keyed {α : Type} (shape : Shape α) : Shape (Keyed α)
  | record {α β σ : Type} (name : String) (fields : Fields α σ) (make : α → β) : Shape β
  /-- A record whose other fields depend on the variant that one field names. -/
  | tagged {α : Type} (name tag : String) (variants : List (String × (Json → Except Fault α))) :
    Shape α

/-- The fields of a record: the type of their values together, and of the values found so far. -/
inductive Fields : Type → Type → Type 1 where
  | nil : Fields Unit Unit
  | cons {α β σ : Type} (name : String) (shape : Shape α) (absent : Option α)
    (rest : Fields β σ) : Fields (α × β) (Option α × σ)

end

/-- Whether a value belongs to a document or to a tagged record that was set aside to find its
tag.  The two differ in how surplus items are reported and in the long form of a choice. -/
inductive Origin where
  | document
  | setAside
  deriving DecidableEq

def Shape.wanted : {α : Type} → Shape α → String
  | _, .text => "a string"
  | _, .flag => "a boolean"
  | _, .word => "u32"
  | _, .whole _ => "any value"
  | _, .choice _ => "string or map"
  | _, .optional _ => "option"
  | _, .list _ => "a sequence"
  | _, .keyed _ => "a map"
  | _, .record name _ _ => name
  | _, .tagged name _ _ => "internally tagged enum " ++ name

/-- The value of a name among the variants, which are listed in the refusal. -/
def variantOf {α : Type} (variants : List (String × α)) (name : String) : Except Fault α :=
  match Keyed.find? name variants with
  | some value => .ok value
  | none => .error (.unknownVariant name (variants.map Prod.fst))

/-- A number within 32 bits. -/
def wordOf : Number → Except Fault UInt32
  | .integer value =>
    if 0 ≤ value && value < UInt32.size then .ok value.toNat.toUInt32
    else .error (.wrongValue (.number (.integer value)) "u32")
  | .double value => .error (.wrongType (.number (.double value)) "u32")

/-- The variant that the tag of a record names; the tag is a string. -/
def tagOf {α : Type} (variants : List (String × α)) : Json → Except Fault α
  | .string name => variantOf variants name
  | other => .error (.wrongType (.of other) "variant identifier")

/-- How many items a list must have to stand for a record. -/
def countMessage (name : String) (count : Nat) : String :=
  name ++ " with " ++ toString count ++ (if count = 1 then " element" else " elements")

namespace Fields

def size : {α σ : Type} → Fields α σ → Nat
  | _, _, .nil => 0
  | _, _, .cons _ _ _ rest => rest.size + 1

/-- No field found yet. -/
def unfilled : {α σ : Type} → Fields α σ → σ
  | _, _, .nil => ()
  | _, _, .cons _ _ _ rest => (none, rest.unfilled)

/-- The values of all fields; one that was not found must be allowed to be absent. -/
def complete : {α σ : Type} → Fields α σ → σ → Except Fault α
  | _, _, .nil, _ => .ok ()
  | _, _, .cons name _ absent rest, (found, others) => do
    let value ← match found, absent with
      | some value, _ => .ok value
      | none, some value => .ok value
      | none, none => .error (.missingField name)
    return (value, ← rest.complete others)

/-- The values of all fields when a list ended before the first of them. -/
def allAbsent (record : String) (count index : Nat) :
    {α σ : Type} → Fields α σ → Except Fault α
  | _, _, .nil => .ok ()
  | _, _, .cons _ _ absent rest =>
    match absent with
    | some value => do return (value, ← allAbsent record count (index + 1) rest)
    | none => .error (.wrongLength index (countMessage record count))

end Fields

/-- The items of a list beyond those that a record has. -/
def surplus (origin : Origin) (taken length : Nat) : Fault :=
  match origin with
  | .document => .wrongLength length "fewer elements in array"
  | .setAside =>
    .wrongLength length
      (toString taken ++ (if taken = 1 then " element in sequence" else " elements in sequence"))

/-- A choice in its long form is an object with one member that says nothing more. -/
def choiceOf {α : Type} (origin : Origin) (variants : List (String × α)) :
    Json → Except Fault α
  | .string name => variantOf variants name
  | .object [(name, payload)] => do
    let value ← variantOf variants name
    match payload with
    | .null => .ok value
    | .object [] =>
      if origin = .setAside then .ok value else .error (.wrongType .map "unit")
    | other => .error (.wrongType (.of other) "unit")
  | .object _ => .error (.wrongValue .map "map with a single key")
  | other => .error (.wrongType (.of other) "string or map")

/-- The tag of a record and its other members, in order. -/
def splitTag {α : Type} (tag : String) (variants : List (String × α)) :
    Option α → List (String × Json) → List (String × Json) → Except Fault (α × List (String × Json))
  | some found, done, [] => .ok (found, done.reverse)
  | none, _, [] => .error (.missingField tag)
  | found, done, (name, value) :: rest =>
    if name = tag then
      match found with
      | some _ => .error (.duplicateField tag)
      | none => do splitTag tag variants (some (← tagOf variants value)) done rest
    else splitTag tag variants found ((name, value) :: done) rest

mutual

def Shape.decode (origin : Origin) : {α : Type} → Shape α → Json → Except Fault α
  | _, .text, value =>
    match value with
    | .string text => .ok text
    | other => .error (.wrongType (.of other) "a string")
  | _, .flag, value =>
    match value with
    | .bool flag => .ok flag
    | other => .error (.wrongType (.of other) "a boolean")
  | _, .word, value =>
    match value with
    | .number n => wordOf n
    | other => .error (.wrongType (.of other) "u32")
  | _, .whole view, value => view value
  | _, .choice variants, value => choiceOf origin variants value
  | _, .optional shape, value =>
    match value with
    | .null => .ok none
    | other => (shape.decode origin other).map some
  | _, .list shape, value =>
    match value with
    | .array items => items.mapM (shape.decode origin)
    | other => .error (.wrongType (.of other) "a sequence")
  | _, .keyed shape, value =>
    match value with
    | .object members =>
      members.foldlM (fun (done : Keyed _) member => do
        return done.insert member.1 (← shape.decode origin member.2)) Keyed.empty
    | other => .error (.wrongType (.of other) "a map")
  | _, .record name fields make, value =>
    match value with
    | .array items => do
      let (values, taken) ← fields.decodeItems origin name fields.size 0 items
      if taken < items.length then .error (surplus origin taken items.length)
      else return make values
    | .object members => do
      let found ← members.foldlM
        (fun done member => fields.decodeMember origin done member.1 member.2) fields.unfilled
      return make (← fields.complete found)
    | other => .error (.wrongType (.of other) name)
  | _, .tagged name tag variants, value =>
    match value with
    | .array [] => .error (.missingField tag)
    | .array (first :: rest) => do (← tagOf variants first) (.array rest)
    | .object members => do
      let (view, others) ← splitTag tag variants none [] members
      view (.object others)
    | other => .error (.wrongType (.of other) ("internally tagged enum " ++ name))

/-- The fields in order from a list, and how many items they took. -/
def Fields.decodeItems (origin : Origin) (record : String) (count index : Nat) :
    {α σ : Type} → Fields α σ → List Json → Except Fault (α × Nat)
  | _, _, .nil, _ => .ok ((), index)
  | _, _, .cons name shape absent rest, items =>
    match items with
    | [] => do return (← Fields.allAbsent record count index (.cons name shape absent rest), index)
    | item :: items => do
      let value ← shape.decode origin item
      let (others, taken) ← rest.decodeItems origin record count (index + 1) items
      return ((value, others), taken)

def Fields.decodeMember (origin : Origin) :
    {α σ : Type} → Fields α σ → σ → String → Json → Except Fault σ
  | _, _, .nil, found, _, _ => .ok found
  | _, _, .cons field shape _ rest, (found, others), name, value =>
    if name = field then
      match found with
      | some _ => .error (.duplicateField field)
      | none => do return (some (← shape.decode origin value), others)
    else do return (found, ← rest.decodeMember origin others name value)

end

/-! ## Reading text -/

/-- The refusal of the value at the cursor, which is read if it is a word, number or string. -/
def wrongTypeAt (wanted : String) (c : Cursor) : ReadFault :=
  let refuse (found : Found) (c : Cursor) : ReadFault := .located (.wrongType found wanted) c.here
  let afterWord (letters : List Char) (found : Found) : ReadFault :=
    match readIdent letters c.advance with
    | .ok c => refuse found c
    | .error fault => fault
  let afterNumber (outcome : Except ReadFault (Number × Cursor)) : ReadFault :=
    match outcome with
    | .ok (value, c) => refuse (.number value) c
    | .error fault => fault
  match c.rest with
  | 'n' :: _ => afterWord ['u', 'l', 'l'] .null
  | 't' :: _ => afterWord ['r', 'u', 'e'] (.bool true)
  | 'f' :: _ => afterWord ['a', 'l', 's', 'e'] (.bool false)
  | '-' :: _ => afterNumber (readNumber true c.advance)
  | '"' :: _ =>
    match readString c.advance with
    | .ok (value, c) => refuse (.string value) c
    | .error fault => fault
  | '[' :: _ => refuse .sequence c
  | '\x7b' :: _ => refuse .map c
  | first :: _ =>
    if first.isDigit then afterNumber (readNumber false c) else c.failNext .expectedValue
  | [] => c.failNext .eofInValue

def atCursor {α : Type} (c : Cursor) : Except Fault α → Except ReadFault (α × Cursor)
  | .ok value => .ok (value, c)
  | .error fault => .error (.pending fault c)

def placedAt {α : Type} (c : Cursor) : Except Fault α → Except ReadFault (α × Cursor)
  | .ok value => .ok (value, c)
  | .error fault => .error (.located fault c.here)

/-- Reads a string and looks at it; anything else is refused. -/
def readWord {α : Type} (wanted : String) (view : String → Except Fault α) (c : Cursor) :
    Except ReadFault (α × Cursor) :=
  let c := c.skipGap
  match c.rest with
  | [] => .error (c.failNext .eofInValue)
  | '"' :: _ => do
    let (value, c) ← readString c.advance
    placedAt c (view value)
  | _ => .error (wrongTypeAt wanted c)

def nextItem (first : Bool) (c : Cursor) : Except ReadFault (Bool × Cursor) :=
  let c := c.skipGap
  match c.rest with
  | [] => .error (c.failNext .eofInList)
  | ']' :: _ => .ok (false, c)
  | next :: _ =>
    if first then .ok (true, c)
    else if next = ',' then
      let c := c.advance.skipGap
      match c.rest with
      | [] => .error (c.failNext .eofInValue)
      | ']' :: _ => .error (c.failNext .trailingComma)
      | _ => .ok (true, c)
    else .error (c.failNext .expectedListCommaOrEnd)

/-- Reads the rest of a tagged record written as an object. -/
def readTagged {α : Type} (depth : Nat) (tag : String) (variants : List (String × α)) (c : Cursor) :
    Except ReadFault ((α × List (String × Json)) × Cursor) := do
  let member (done : Option α × List (String × Json)) (name : String) (c : Cursor) :
      Except ReadFault ((Option α × List (String × Json)) × Cursor) :=
    if name = tag then
      if done.1.isSome then .error (.pending (.duplicateField tag) c)
      else do
        let (found, c) ← readWord "variant identifier" (variantOf variants) (← readColon c)
        return ((some found, done.2), c)
    else do
      let (value, c) ← readAny depth (← readColon c)
      return ((done.1, (name, value) :: done.2), c)
  let ((found, others), c) ← readMembers member (c.rest.length + 1) true (none, []) c
  match found with
  | some found => .ok ((found, others.reverse), c)
  | none => .error (.pending (.missingField tag) c)

/-- Reads the rest of a tagged record written as a list, the tag first. -/
def readTaggedItems {α : Type} (depth : Nat) (tag : String) (variants : List (String × α))
    (c : Cursor) : Except ReadFault ((α × List Json) × Cursor) := do
  let (more, c) ← nextItem true c
  if !more then .error (.pending (.missingField tag) c)
  else
    let (found, c) ← readWord "variant identifier" (variantOf variants) c
    let (items, c) ← readItems (fun done c => do
      let (value, c) ← readAny depth c
      return (value :: done, c)) (c.rest.length + 1) false [] c
    return ((found, items.reverse), c)

mutual

/-- Reads a value within `depth` levels of brackets. -/
def Shape.read : {α : Type} → Shape α → Nat → Cursor → Except ReadFault (α × Cursor)
  | _, .text, _, c => readWord "a string" .ok c
  | _, .flag, _, c =>
    let c := c.skipGap
    match c.rest with
    | [] => .error (c.failNext .eofInValue)
    | 't' :: _ => do return (true, ← readIdent ['r', 'u', 'e'] c.advance)
    | 'f' :: _ => do return (false, ← readIdent ['a', 'l', 's', 'e'] c.advance)
    | _ => .error (wrongTypeAt "a boolean" c)
  | _, .word, _, c =>
    let c := c.skipGap
    match c.rest with
    | [] => .error (c.failNext .eofInValue)
    | '-' :: _ => do
      let (value, c) ← readNumber true c.advance
      placedAt c (wordOf value)
    | first :: _ =>
      if first.isDigit then do
        let (value, c) ← readNumber false c
        placedAt c (wordOf value)
      else .error (wrongTypeAt "u32" c)
  | _, .whole view, depth, c => do
    let (value, c) ← readAny depth c
    atCursor c (view value)
  | _, .choice variants, depth, c => do
    let (value, c) ← readAny depth c
    atCursor c (choiceOf .document variants value)
  | _, .optional shape, depth, c =>
    let c := c.skipGap
    match c.rest with
    | 'n' :: _ => do return (none, ← readIdent ['u', 'l', 'l'] c.advance)
    | _ => do
      let (value, c) ← shape.read depth c
      return (some value, c)
  | _, .list shape, depth, c =>
    let c := c.skipGap
    match c.rest with
    | [] => .error (c.failNext .eofInValue)
    | '[' :: _ =>
      if depth ≤ 1 then .error (c.failNext .tooDeep)
      else do
        let (items, c) ← enclosed closeList <|
          readItems (fun done c => do
            let (value, c) ← shape.read (depth - 1) c
            return (value :: done, c)) (c.rest.length + 1) true [] c.advance
        return (items.reverse, c)
    | _ => .error (wrongTypeAt "a sequence" c)
  | _, .keyed shape, depth, c =>
    let c := c.skipGap
    match c.rest with
    | [] => .error (c.failNext .eofInValue)
    | '\x7b' :: _ =>
      if depth ≤ 1 then .error (c.failNext .tooDeep)
      else
        enclosed closeObject <|
          readMembers (fun (done : Keyed _) name c => do
            let (value, c) ← shape.read (depth - 1) (← readColon c)
            return (done.insert name value, c)) (c.rest.length + 1) true Keyed.empty c.advance
    | _ => .error (wrongTypeAt "a map" c)
  | _, .record name fields make, depth, c =>
    let c := c.skipGap
    match c.rest with
    | [] => .error (c.failNext .eofInValue)
    | '[' :: _ =>
      if depth ≤ 1 then .error (c.failNext .tooDeep)
      else do
        let (values, c) ← enclosed closeList <|
          fields.readItems name fields.size 0 (depth - 1) c.advance
        return (make values, c)
    | '\x7b' :: _ =>
      if depth ≤ 1 then .error (c.failNext .tooDeep)
      else
        enclosed closeObject <| do
          let (found, c) ← readMembers
            (fun done field c => fields.readMember (depth - 1) done field c)
            (c.rest.length + 1) true fields.unfilled c.advance
          let (values, c) ← atCursor c (fields.complete found)
          return (make values, c)
    | _ => .error (wrongTypeAt name c)
  | _, .tagged name tag variants, depth, c =>
    let c := c.skipGap
    match c.rest with
    | [] => .error (c.failNext .eofInValue)
    | '[' :: _ =>
      if depth ≤ 1 then .error (c.failNext .tooDeep)
      else do
        let ((view, items), c) ← enclosed closeList <|
          readTaggedItems (depth - 1) tag variants c.advance
        atCursor c (view (.array items))
    | '\x7b' :: _ =>
      if depth ≤ 1 then .error (c.failNext .tooDeep)
      else do
        let ((view, members), c) ← enclosed closeObject <|
          readTagged (depth - 1) tag variants c.advance
        atCursor c (view (.object members))
    | _ => .error (wrongTypeAt ("internally tagged enum " ++ name) c)

def Fields.readItems (record : String) (count index : Nat) :
    {α σ : Type} → Fields α σ → Nat → Cursor → Except ReadFault (α × Cursor)
  | _, _, .nil, _, c => .ok ((), c)
  | _, _, .cons name shape absent rest, depth, c => do
    let (more, c) ← nextItem (index == 0) c
    if more then
      let (value, c) ← shape.read depth c
      let (others, c) ← rest.readItems record count (index + 1) depth c
      return ((value, others), c)
    else atCursor c (Fields.allAbsent record count index (.cons name shape absent rest))

/-- Reads a member into its field; one that has no field is passed over. -/
def Fields.readMember : {α σ : Type} → Fields α σ → Nat → σ → String → Cursor →
    Except ReadFault (σ × Cursor)
  | _, _, .nil, _, found, _, c => do return (found, ← skipValue (← readColon c))
  | _, _, .cons field shape _ rest, depth, (found, others), name, c =>
    if name = field then
      match found with
      | some _ => .error (.pending (.duplicateField field) c)
      | none => do
        let (value, c) ← shape.read depth (← readColon c)
        return ((some value, others), c)
    else do
      let (others, c) ← rest.readMember depth others name c
      return ((found, others), c)

end

def Shape.parse {α : Type} (shape : Shape α) (text : String) : Except ReadFault α :=
  readText (shape.read depthLimit) text

/-- Any value, with distinct names. -/
def Shape.any : Shape Json := .whole fun value => .ok value.distinct

/-- The view of the set-aside part of a tagged record through a shape. -/
def Shape.body {α β : Type} (shape : Shape α) (make : α → β) (value : Json) : Except Fault β :=
  (shape.decode .setAside value).map make

end SchemaEvolution.Json
