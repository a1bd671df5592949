import SchemaEvolution.Json.Fault

/-!
# A place in a JSON text

A cursor is what is left to read together with its line and column.  Lines count from one;
a column is the number of bytes of the line before the cursor.  A fault found while reading
has a place; one found in the shape of what was read is given a place by the value around it.
-/

namespace SchemaEvolution.Json

structure Position where
  line : Nat
  column : Nat
  deriving DecidableEq, Repr

structure Cursor where
  rest : List Char
  line : Nat
  column : Nat

namespace Cursor

def start (text : String) : Cursor := ⟨text.toList, 1, 0⟩

def here (c : Cursor) : Position := ⟨c.line, c.column⟩

/-- The cursor after the next character. -/
def advance (c : Cursor) : Cursor :=
  match c.rest with
  | [] => c
  | '\n' :: rest => ⟨rest, c.line + 1, 0⟩
  | char :: rest => ⟨rest, c.line, c.column + char.utf8Size⟩

/-- The cursor after the next `count` characters. -/
def skip : Nat → Cursor → Cursor
  | 0, c => c
  | count + 1, c => skip count c.advance

def peekPosition (c : Cursor) : Position :=
  match c.rest with
  | [] => c.here
  | '\n' :: _ => ⟨c.line + 1, 0⟩
  | _ :: _ => ⟨c.line, c.column + 1⟩

/-- The position after the next `count` bytes of `cs`. -/
def bytesAfter : Nat → Position → List Char → Position
  | 0, start, _ => start
  | _ + 1, start, [] => start
  | count + 1, start, '\n' :: rest => bytesAfter count ⟨start.line + 1, 0⟩ rest
  | count + 1, start, char :: rest =>
    let taken := min char.utf8Size (count + 1)
    bytesAfter (count + 1 - taken) ⟨start.line, start.column + taken⟩ rest
termination_by count _ cs => (cs.length, count)

def isGap (char : Char) : Bool := char == ' ' || char == '\n' || char == '\t' || char == '\r'

def skipGap (c : Cursor) : Cursor := c.skip (c.rest.takeWhile isGap).length

/-- The run of decimal digits at the cursor and the cursor after it. -/
def digits (c : Cursor) : List Char × Cursor :=
  let run := c.rest.takeWhile Char.isDigit
  (run, ⟨c.rest.drop run.length, c.line, c.column + run.length⟩)

end Cursor

/-- A fault while reading: with its place, or still without one and with the cursor at which
it was noticed. -/
inductive ReadFault where
  | located (fault : Fault) (position : Position)
  | pending (fault : Fault) (cursor : Cursor)

namespace ReadFault

def fault : ReadFault → Fault
  | .located fault _ => fault
  | .pending fault _ => fault

/-- Gives a pending fault the place of its cursor. -/
def locate : ReadFault → ReadFault
  | .located fault position => .located fault position
  | .pending fault cursor => .located fault cursor.here

/-- The line of the fault; zero when it has no place. -/
def line : ReadFault → Nat
  | .located _ position => position.line
  | .pending _ _ => 0

def message : ReadFault → String
  | .located fault position =>
    fault.message ++ " at line " ++ toString position.line ++ " column " ++ toString position.column
  | .pending fault _ => fault.message

end ReadFault

namespace Cursor

def failHere (c : Cursor) (cause : Malformed) : ReadFault := .located (.malformed cause) c.here

def failNext (c : Cursor) (cause : Malformed) : ReadFault :=
  .located (.malformed cause) c.peekPosition

end Cursor

end SchemaEvolution.Json
