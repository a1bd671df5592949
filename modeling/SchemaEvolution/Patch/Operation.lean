import SchemaEvolution.Json.Shape
import SchemaEvolution.Patch.Path

/-!
# Patch operations

An operation adds, removes or replaces what a path leads to.  It is kept as it was
written; only when it is applied is its path read and its value decoded.
-/

namespace SchemaEvolution.Patch

inductive Verb where
  | add
  | remove
  | replace
  deriving DecidableEq, Repr

def Verb.label : Verb → String
  | .add => "add"
  | .remove => "remove"
  | .replace => "replace"

/-- What is done at a path, and the value that it is done with. -/
inductive Action where
  | add (value : Json)
  | remove
  | replace (value : Json)

structure Operation where
  path : String
  action : Action

namespace Operation

def add (path : Path) (value : Json) : Operation := ⟨path.text, .add value⟩

def remove (path : Path) : Operation := ⟨path.text, .remove⟩

def replace (path : Path) (value : Json) : Operation := ⟨path.text, .replace value⟩

def verb (op : Operation) : Verb :=
  match op.action with
  | .add _ => .add
  | .remove => .remove
  | .replace _ => .replace

def value? (op : Operation) : Option Json :=
  match op.action with
  | .add value => some value
  | .remove => none
  | .replace value => some value

def path? (op : Operation) : Option Path := (Path.parse op.path).toOption

def toJson (op : Operation) : Json :=
  .object <| [("op", .string op.verb.label), ("path", .string op.path)] ++
    match op.value? with
    | some value => [("value", value)]
    | none => []

open Json (Shape)

def withValueShape (record : String) (make : Json → Action) : Shape Operation :=
  .record record (.cons "path" .text none (.cons "value" .any none .nil))
    fun (path, value, ()) => ⟨path, make value⟩

def withoutValueShape (record : String) (action : Action) : Shape Operation :=
  .record record (.cons "path" .text none .nil) fun (path, ()) => ⟨path, action⟩

def shape : Shape Operation :=
  .tagged "Operation" "op"
    [("add", (withValueShape "struct variant Operation::Add" .add).decode .setAside),
      ("remove", (withoutValueShape "struct variant Operation::Remove" .remove).decode .setAside),
      ("replace", (withValueShape "struct variant Operation::Replace" .replace).decode .setAside)]

def parseAll (text : String) : Except Json.ReadFault (List Operation) :=
  (Shape.list shape).parse text

end Operation

end SchemaEvolution.Patch
