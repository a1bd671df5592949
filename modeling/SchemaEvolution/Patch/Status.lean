import SchemaEvolution.Patch.Operation

/-!
# Change status

How the parts of a schema fare under a list of operations.  The fate of a table decides
that of everything inside it, the fate of an entry that of its fields; only then do the
operations on the part itself count.
-/

namespace SchemaEvolution.Patch

inductive ChangeStatus where
  | added
  | removed
  | modified
  | unchanged
  deriving DecidableEq, Repr

namespace ChangeStatus

def label : ChangeStatus → String
  | .added => "added"
  | .removed => "removed"
  | .modified => "modified"
  | .unchanged => "unchanged"

/-- Whether something came into being or ceased to be. -/
def isLifecycle : ChangeStatus → Bool
  | .added | .removed => true
  | _ => false

/-- The status of what is not replaced, from whether it is added and removed. -/
def ofLifecycle (adds removes : Bool) : ChangeStatus :=
  match adds, removes with
  | false, false => .unchanged
  | true, false => .added
  | false, true => .removed
  | true, true => .modified

/-- The status after operations that add and remove or not, and further ones: a single pass, which
ends at the first replacement. -/
def scan (adds removes : Bool) : List Operation → ChangeStatus
  | [] => ofLifecycle adds removes
  | op :: rest =>
    match op.verb with
    | .replace => .modified
    | .add => scan true removes rest
    | .remove => scan adds true rest

/-- Only adds add, only removes remove; a replacement, or both of them, modify. -/
def ofOperations (ops : List Operation) : ChangeStatus := scan false false ops

end ChangeStatus

/-- The operations whose path can be read and is kept. -/
def selectPaths (keep : Path → Bool) (ops : List Operation) : List Operation :=
  ops.filter fun op => op.path?.any keep

def Path.inTable (table : String) (path : Path) : Bool := path.table? == some table

def Path.inColumn (table column : String) : Path → Bool
  | .table owner (.column name _) => owner == table && name == column
  | _ => false

def Path.inIndex (table index : String) : Path → Bool
  | .table owner (.index name _) => owner == table && name == index
  | _ => false

def Path.inConstraint (table constraint : String) : Path → Bool
  | .table owner (.constraint name _) => owner == table && name == constraint
  | _ => false

def statusAt (path : Path) (ops : List Operation) : ChangeStatus :=
  .ofOperations (selectPaths (· == path) ops)

/-- The status of an entry: of its table first, then of the entry as a whole, then whether
anything inside it was touched. -/
def entryStatus (table : String) (whole : Path) (inside : Path → Bool) (ops : List Operation) :
    ChangeStatus :=
  let tableStatus := statusAt (.table table .whole) ops
  if tableStatus.isLifecycle then tableStatus
  else
    let entryStatus := statusAt whole ops
    if entryStatus != .unchanged then entryStatus
    else if (selectPaths inside ops).isEmpty then .unchanged
    else .modified

def tableStatus (table : String) (ops : List Operation) : ChangeStatus :=
  let status := statusAt (.table table .whole) ops
  if status.isLifecycle then status
  else if (selectPaths (Path.inTable table) ops).isEmpty then .unchanged
  else .modified

def columnStatus (table column : String) (ops : List Operation) : ChangeStatus :=
  entryStatus table (.table table (.column column .whole)) (Path.inColumn table column) ops

def indexStatus (table index : String) (ops : List Operation) : ChangeStatus :=
  entryStatus table (.table table (.index index .whole)) (Path.inIndex table index) ops

def constraintStatus (table constraint : String) (ops : List Operation) : ChangeStatus :=
  entryStatus table (.table table (.constraint constraint .whole))
    (Path.inConstraint table constraint) ops

/-- The status of one field of a column: of the table and of the column first, then of the field. -/
def attributeStatus (table column : String) (field : ColumnField) (ops : List Operation) :
    ChangeStatus :=
  let tableStatus := statusAt (.table table .whole) ops
  if tableStatus.isLifecycle then tableStatus
  else
    let columnStatus := statusAt (.table table (.column column .whole)) ops
    if columnStatus.isLifecycle then columnStatus
    else statusAt (.table table (.column column (.field field))) ops

end SchemaEvolution.Patch
