import SchemaEvolution.Exchange
import SchemaEvolution.Program.Arguments
import SchemaEvolution.Sql.Export

/-!
# Running a command

What a command prints and writes, given what the files it names hold.  Diagnostics and
refusals go to the error output; a command that fails says why, last.
-/

namespace SchemaEvolution.Program

/-- The text of a file, or why it can not be read. -/
abbrev Files := String → Except String String

/-- What a command has written to the error output, and its result or why it failed. -/
structure Report (α : Type) where
  notes : List String
  result : Except String α

namespace Report

def pure {α : Type} (value : α) : Report α := ⟨[], .ok value⟩

def fail {α : Type} (message : String) : Report α := ⟨[], .error message⟩

def note (notes : List String) : Report Unit := ⟨notes, .ok ()⟩

def bind {α β : Type} (report : Report α) (next : α → Report β) : Report β :=
  match report.result with
  | .ok value => ⟨report.notes ++ (next value).notes, (next value).result⟩
  | .error message => ⟨report.notes, .error message⟩

instance : Monad Report where
  pure := Report.pure
  bind := Report.bind

end Report

def fileText (files : Files) (path : String) : Report String :=
  match files path with
  | .ok text => .pure text
  | .error reason => .fail ("failed to read " ++ path ++ ": " ++ reason)

/-- Reads the schema of a file; it fails only if nothing at all could be understood. -/
def loadSchema (files : Files) (path : String) (format : Format) : Report Schema := do
  let source ← fileText files path
  let result := importSource format source
  Report.note (result.diagnostics.map fun d => path ++ ": " ++ d.display)
  if result.hasErrors && result.schema.isEmpty then
    Report.fail ("could not parse any schema from " ++ path)
  else return result.schema

def jsonText (value : Json) (pretty : Bool) : String :=
  (if pretty then value.indented else value.compact) ++ "\n"

def Command.content (files : Files) (options : Options) : Command → Report String
  | .parse input => return jsonText (← loadSchema files input options.format).toJson options.pretty
  | .detect input => return (Format.detect (← fileText files input)).label ++ "\n"
  | .ddl input => return Sql.exportScript (← loadSchema files input options.format)
  | .diff before after => do
    let before ← loadSchema files before options.format
    let after ← loadSchema files after options.format
    return jsonText (.array ((Patch.diff before after).map Patch.Operation.toJson)) options.pretty
  | .migrate before after => do
    let before ← loadSchema files before options.format
    let after ← loadSchema files after options.format
    let migration := Sql.migrationBetween before after
    Report.note (migration.messages.map fun message => "skipped: " ++ message)
    return migration.script
  | .apply schema operations => do
    let base ← loadSchema files schema options.format
    match Patch.Operation.parseAll (← fileText files operations) with
    | .error fault =>
      Report.fail ("invalid operations in " ++ operations ++ ": " ++ fault.message)
    | .ok ops =>
      let outcome := Patch.applyAll base ops
      Report.note (outcome.refusals.map fun refusal => "dropped: " ++ refusal.message)
      return jsonText outcome.schema.toJson options.pretty

/-- What remains to be done at the end of a run: lines for the error output, text for the standard
output, a file to write, and the exit code. -/
structure Ending where
  code : UInt8
  stdout : String
  stderr : String
  write : Option (String × String)

def lines (notes : List String) : String := String.join (notes.map (· ++ "\n"))

def Request.execute (files : Files) : Request → Ending
  | .usage => ⟨2, "", "", none⟩
  | .version => ⟨0, "schemaflow 0.1.0\n", "", none⟩
  | .run options command =>
    let report := command.content files options
    match report.result, options.output with
    | .error message, _ => ⟨1, "", lines (report.notes ++ ["error: " ++ message]), none⟩
    | .ok content, none => ⟨0, content, lines report.notes, none⟩
    | .ok content, some path => ⟨0, "", lines report.notes, some (path, content)⟩

/-- The ending of a run whose file could not be written. -/
def Ending.unwritten (ending : Ending) (path reason : String) : Ending :=
  { ending with
    code := 1
    stderr := ending.stderr ++ lines ["error: failed to write " ++ path ++ ": " ++ reason]
    write := none }

end SchemaEvolution.Program
