import SchemaEvolution.Patch.Apply

/-!
# Accepted and refused operations

A tolerant run leaves out the operations that are refused.  A refused operation leaves no trace
in the schema, so the operations that are accepted make a strict run with the same result, and
the strict run of all operations ends at the first refusal of the tolerant one.
-/

namespace SchemaEvolution.Patch

variable {op : Operation} {schema next : Schema} {refusal : Refusal}

theorem Outcome.step_of_ok (happly : op.apply schema = .ok next) (refusals : List Refusal) :
    Outcome.step ⟨schema, refusals⟩ op = ⟨next, refusals⟩ := by
  rw [step, happly]

theorem Outcome.step_of_error (happly : op.apply schema = .error refusal)
    (refusals : List Refusal) :
    Outcome.step ⟨schema, refusals⟩ op = ⟨schema, refusals ++ [refusal]⟩ := by
  rw [step, happly]

/-- Refusals of earlier operations stay in front of the later ones and have no influence. -/
theorem foldl_step (ops : List Operation) (schema : Schema) (refusals : List Refusal) :
    ops.foldl Outcome.step ⟨schema, refusals⟩ =
      ⟨(applyAll schema ops).schema, refusals ++ (applyAll schema ops).refusals⟩ := by
  induction ops generalizing schema refusals with
  | nil => simp [applyAll]
  | cons op rest ih =>
    rw [applyAll, List.foldl_cons, List.foldl_cons]
    cases happly : op.apply schema with
    | ok next => rw [Outcome.step_of_ok happly, Outcome.step_of_ok happly, ih, ih next []]; rfl
    | error refusal =>
      rw [Outcome.step_of_error happly, Outcome.step_of_error happly, ih, ih schema ([] ++ _)]
      simp

@[simp]
theorem applyAll_nil (schema : Schema) : applyAll schema [] = ⟨schema, []⟩ := rfl

theorem applyAll_cons_of_ok (happly : op.apply schema = .ok next) (rest : List Operation) :
    applyAll schema (op :: rest) = applyAll next rest := by
  rw [applyAll, List.foldl_cons, Outcome.step_of_ok happly]
  rfl

theorem applyAll_cons_of_error (happly : op.apply schema = .error refusal)
    (rest : List Operation) :
    applyAll schema (op :: rest) =
      ⟨(applyAll schema rest).schema, refusal :: (applyAll schema rest).refusals⟩ := by
  rw [applyAll, List.foldl_cons, Outcome.step_of_error happly, foldl_step]
  rfl

/-- A tolerant run may be interrupted and taken up again. -/
theorem applyAll_append (schema : Schema) (front back : List Operation) :
    applyAll schema (front ++ back) =
      ⟨(applyAll (applyAll schema front).schema back).schema,
        (applyAll schema front).refusals ++
          (applyAll (applyAll schema front).schema back).refusals⟩ := by
  rw [applyAll, List.foldl_append]
  exact foldl_step back _ _

/-- Whether a tolerant run takes an operation in without a further refusal. -/
def Outcome.accepts (outcome : Outcome) (op : Operation) : Bool :=
  (outcome.step op).refusals.length == outcome.refusals.length

/-- The operations that the rest of a tolerant run accepts, in order. -/
def acceptedFrom (outcome : Outcome) : List Operation → List Operation
  | [] => []
  | op :: rest =>
    if outcome.accepts op then op :: acceptedFrom (outcome.step op) rest
    else acceptedFrom (outcome.step op) rest

/-- The operations that a tolerant run accepts, in order. -/
def accepted (schema : Schema) (ops : List Operation) : List Operation :=
  acceptedFrom ⟨schema, []⟩ ops

theorem Outcome.accepts_of_ok (happly : op.apply schema = .ok next) (refusals : List Refusal) :
    Outcome.accepts ⟨schema, refusals⟩ op = true := by
  rw [accepts, step_of_ok happly]
  exact beq_self_eq_true _

theorem Outcome.accepts_of_error (happly : op.apply schema = .error refusal)
    (refusals : List Refusal) : Outcome.accepts ⟨schema, refusals⟩ op = false := by
  rw [accepts, step_of_error happly]
  simp

/-- Carrying on from refusals accepts what starting afresh accepts. -/
theorem acceptedFrom_eq (ops : List Operation) (schema : Schema) (refusals : List Refusal) :
    acceptedFrom ⟨schema, refusals⟩ ops = accepted schema ops := by
  induction ops generalizing schema refusals with
  | nil => rfl
  | cons op rest ih =>
    rw [accepted, acceptedFrom, acceptedFrom]
    cases happly : op.apply schema with
    | ok next =>
      rw [Outcome.accepts_of_ok happly, Outcome.accepts_of_ok happly, Outcome.step_of_ok happly,
        Outcome.step_of_ok happly, ih, ih]
    | error refusal =>
      rw [Outcome.accepts_of_error happly, Outcome.accepts_of_error happly,
        Outcome.step_of_error happly, Outcome.step_of_error happly, ih, ih]

theorem accepted_cons_of_ok (happly : op.apply schema = .ok next) (rest : List Operation) :
    accepted schema (op :: rest) = op :: accepted next rest := by
  rw [accepted, acceptedFrom, if_pos (Outcome.accepts_of_ok happly []),
    Outcome.step_of_ok happly, acceptedFrom_eq]

theorem accepted_cons_of_error (happly : op.apply schema = .error refusal)
    (rest : List Operation) : accepted schema (op :: rest) = accepted schema rest := by
  rw [accepted, acceptedFrom, if_neg (by rw [Outcome.accepts_of_error happly]; decide),
    Outcome.step_of_error happly, acceptedFrom_eq]

theorem accepted_sublist (ops : List Operation) (schema : Schema) :
    (accepted schema ops).Sublist ops := by
  induction ops generalizing schema with
  | nil => exact List.Sublist.slnil
  | cons op rest ih =>
    cases happly : op.apply schema with
    | ok next => rw [accepted_cons_of_ok happly]; exact (ih next).cons_cons op
    | error refusal => rw [accepted_cons_of_error happly]; exact (ih schema).cons op

/-- Every operation is either accepted or the cause of one refusal. -/
theorem length_accepted_add (ops : List Operation) (schema : Schema) :
    (accepted schema ops).length + (applyAll schema ops).refusals.length = ops.length := by
  induction ops generalizing schema with
  | nil => rfl
  | cons op rest ih =>
    cases happly : op.apply schema with
    | ok next =>
      rw [accepted_cons_of_ok happly, applyAll_cons_of_ok happly, List.length_cons,
        List.length_cons, ← ih next]
      omega
    | error refusal =>
      rw [accepted_cons_of_error happly, applyAll_cons_of_error happly, List.length_cons,
        List.length_cons, ← ih schema]
      omega

/-! ## Strict runs -/

theorem applyStrictly_cons_of_ok (happly : op.apply schema = .ok next) (rest : List Operation) :
    applyStrictly schema (op :: rest) = applyStrictly next rest := by
  rw [applyStrictly, List.foldlM_cons, happly]
  rfl

theorem applyStrictly_cons_of_error (happly : op.apply schema = .error refusal)
    (rest : List Operation) : applyStrictly schema (op :: rest) = .error refusal := by
  rw [applyStrictly, List.foldlM_cons, happly]
  rfl

/-- The accepted operations are applied strictly, with the result of the tolerant run. -/
theorem applyStrictly_accepted (ops : List Operation) (schema : Schema) :
    applyStrictly schema (accepted schema ops) = .ok (applyAll schema ops).schema := by
  induction ops generalizing schema with
  | nil => rfl
  | cons op rest ih =>
    cases happly : op.apply schema with
    | ok next =>
      rw [accepted_cons_of_ok happly, applyStrictly_cons_of_ok happly,
        applyAll_cons_of_ok happly, ih]
    | error refusal =>
      rw [accepted_cons_of_error happly, applyAll_cons_of_error happly, ih]

/-- A strict run gives the schema of the tolerant run, or its first refusal if it has one. -/
theorem applyStrictly_eq (ops : List Operation) (schema : Schema) :
    applyStrictly schema ops =
      match (applyAll schema ops).refusals with
      | [] => .ok (applyAll schema ops).schema
      | first :: _ => .error first := by
  induction ops generalizing schema with
  | nil => rfl
  | cons op rest ih =>
    cases happly : op.apply schema with
    | ok next => rw [applyStrictly_cons_of_ok happly, applyAll_cons_of_ok happly, ih]
    | error refusal =>
      rw [applyStrictly_cons_of_error happly, applyAll_cons_of_error happly]

/-- The tolerant and the strict run agree.  What the tolerant run accepts is applied strictly with
the same result; the strict run of all operations succeeds exactly when the tolerant one refuses
none, and then with the same result; and when it fails, it fails with the first refusal. -/
theorem applyStrictly_iff_applyAll (schema : Schema) (ops : List Operation) :
    ((accepted schema ops).Sublist ops ∧
      (accepted schema ops).length + (applyAll schema ops).refusals.length = ops.length) ∧
    applyStrictly schema (accepted schema ops) = .ok (applyAll schema ops).schema ∧
    ((∃ result, applyStrictly schema ops = .ok result) ↔ (applyAll schema ops).refusals = []) ∧
    (∀ result, applyStrictly schema ops = .ok result → result = (applyAll schema ops).schema) ∧
    ∀ refusal, applyStrictly schema ops = .error refusal →
      (applyAll schema ops).refusals.head? = some refusal := by
  refine ⟨⟨accepted_sublist ops schema, length_accepted_add ops schema⟩,
    applyStrictly_accepted ops schema, ?_⟩
  rw [applyStrictly_eq]
  cases (applyAll schema ops).refusals with
  | nil => simp
  | cons first rest => simp

end SchemaEvolution.Patch
