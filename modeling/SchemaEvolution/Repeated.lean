/-!
# Repeated reading

A reading step takes what is left to read and leaves less of it.  A step that is repeated says
after each turn whether there is to be another one; a turn that leaves as much as it found is
the last one, so every repetition ends.  What a repetition gives has come through every one of its
turns: a property of the state that each turn keeps is kept by the whole repetition, wherever it
ends.
-/

namespace SchemaEvolution

universe u v w x

/-- The state after a turn, and whether there is to be another turn. -/
inductive Turn (σ : Type u) where
  | again (state : σ)
  | done (state : σ)
  deriving DecidableEq

/-- Repeats a step until it is done, fails, or leaves as much to read as it found. -/
def repeatedly {σ : Type u} {τ : Type v} {ε : Type w}
    (step : σ → List τ → Except ε (Turn σ × List τ)) (state : σ) (rest : List τ) :
    Except ε (σ × List τ) :=
  match step state rest with
  | .error fault => .error fault
  | .ok (.done state, after) => .ok (state, after)
  | .ok (.again state, after) =>
    if after.length < rest.length then repeatedly step state after else .ok (state, after)
termination_by rest.length

theorem exists_of_bind_eq_ok {ε : Type u} {α β : Type v} {outcome : Except ε α}
    {next : α → Except ε β} {result : β} (hbind : (outcome >>= next) = .ok result) :
    ∃ value, outcome = .ok value ∧ next value = .ok result := by
  cases outcome with
  | error fault => cases hbind
  | ok value => exact ⟨value, rfl, hbind⟩

theorem exists_of_map_eq_ok {ε : Type u} {α : Type v} {β : Type w} {outcome : Except ε α}
    {change : α → β} {result : β} (hmap : outcome.map change = .ok result) :
    ∃ value, outcome = .ok value ∧ change value = result := by
  cases outcome with
  | error fault => cases hmap
  | ok value => exact ⟨value, rfl, Except.ok.inj hmap⟩

/-- What holds of every value that a last step can give holds of the result. -/
theorem holds_of_bind_pure {ε : Type u} {α β : Type v} {outcome : Except ε α} {last : α → β}
    {result : β} {property : β → Prop}
    (hbind : (outcome >>= fun value => pure (last value)) = .ok result)
    (hlast : ∀ value, property (last value)) : property result := by
  obtain ⟨value, -, hvalue⟩ := exists_of_bind_eq_ok hbind
  cases hvalue
  exact hlast value

/-- The state after a turn, whether or not there is to be another one. -/
def Turn.state {σ : Type u} : Turn σ → σ
  | .again state | .done state => state

/-- What every turn keeps of the state and what is left to read, the repetition keeps. -/
theorem repeatedly_keeps_left {σ : Type u} {τ : Type v} {ε : Type w} (keeps : σ → List τ → Prop)
    {step : σ → List τ → Except ε (Turn σ × List τ)}
    (hstep : ∀ state rest turn after, keeps state rest → step state rest = .ok (turn, after) →
      keeps turn.state after)
    {state result : σ} {rest after : List τ} (hstate : keeps state rest)
    (hread : repeatedly step state rest = .ok (result, after)) : keeps result after := by
  fun_induction repeatedly step state rest with
  | case1 state rest fault hfault => cases hread
  | case2 state rest last after' hturn =>
    cases hread
    exact hstep state rest _ _ hstate hturn
  | case3 state rest next after' hturn hshorter ih =>
    exact ih (hstep state rest _ _ hstate hturn) hread
  | case4 state rest last after' hturn hlength =>
    cases hread
    exact hstep state rest _ _ hstate hturn

/-- What every turn keeps, the repetition keeps. -/
theorem repeatedly_keeps {σ : Type u} {τ : Type v} {ε : Type w} (keeps : σ → Prop)
    {step : σ → List τ → Except ε (Turn σ × List τ)}
    (hstep : ∀ state rest turn after, keeps state → step state rest = .ok (turn, after) →
      keeps turn.state)
    {state result : σ} {rest after : List τ} (hstate : keeps state)
    (hread : repeatedly step state rest = .ok (result, after)) : keeps result :=
  repeatedly_keeps_left (fun state _ => keeps state) hstep hstate hread

/-- A turn whose state is looked at otherwise. -/
def Turn.map {σ : Type u} {τ : Type v} (view : σ → τ) : Turn σ → Turn τ
  | .again state => .again (view state)
  | .done state => .done (view state)

/-- A step that does to a view of the state what another one does to the state, does so when it is
repeated. -/
theorem repeatedly_map {σ : Type u} {υ : Type x} {τ : Type v} {ε : Type w} (view : σ → υ)
    {step : σ → List τ → Except ε (Turn σ × List τ)}
    {viewed : υ → List τ → Except ε (Turn υ × List τ)}
    (hstep : ∀ state rest,
      viewed (view state) rest = (step state rest).map (Prod.map (Turn.map view) id))
    (state : σ) (rest : List τ) :
    repeatedly viewed (view state) rest = (repeatedly step state rest).map (Prod.map view id) := by
  fun_induction repeatedly step state rest with
  | case1 state rest fault hfault =>
    unfold repeatedly
    rw [hstep, hfault]
    rfl
  | case2 state rest last after hturn =>
    unfold repeatedly
    rw [hstep, hturn]
    rfl
  | case3 state rest next after hturn hshorter ih =>
    rw [← ih]
    conv => lhs; unfold repeatedly
    rw [hstep, hturn]
    exact if_pos hshorter
  | case4 state rest last after hturn hlength =>
    unfold repeatedly
    rw [hstep, hturn]
    exact if_neg hlength

/-- By turns that leave less to read, the repetition comes from one state to another. -/
inductive Turns {σ : Type u} {τ : Type v} {ε : Type w}
    (step : σ → List τ → Except ε (Turn σ × List τ)) : σ → List τ → σ → List τ → Prop
  | none (state : σ) (rest : List τ) : Turns step state rest state rest
  | more {state next last : σ} {rest after left : List τ}
      (hturn : step state rest = .ok (.again next, after)) (hshorter : after.length < rest.length)
      (hmore : Turns step next after last left) : Turns step state rest last left

section Turns

variable {σ : Type u} {τ : Type v} {ε : Type w}
  {step : σ → List τ → Except ε (Turn σ × List τ)} {first middle last : σ}
  {rest between left : List τ}

theorem Turns.trans (hfirst : Turns step first rest middle between)
    (hsecond : Turns step middle between last left) : Turns step first rest last left := by
  induction hfirst with
  | none => exact hsecond
  | more hturn hshorter _ ih => exact .more hturn hshorter (ih hsecond)

theorem Turns.single (hturn : step first rest = .ok (.again last, left))
    (hshorter : left.length < rest.length) : Turns step first rest last left :=
  .more hturn hshorter (.none last left)

theorem Turns.length_le (hturns : Turns step first rest last left) :
    left.length ≤ rest.length := by
  induction hturns with
  | none => exact Nat.le_refl _
  | more _ hshorter _ ih => exact Nat.le_trans ih (Nat.le_of_lt hshorter)

/-- Of two places that the repetition comes to, it comes to the later one from the earlier one. -/
theorem Turns.later {other : σ} {after : List τ} (hturns : Turns step first rest middle between)
    (hother : Turns step first rest other after) (hlength : after.length ≤ between.length) :
    Turns step middle between other after := by
  induction hturns with
  | none => exact hother
  | more hturn hshorter hmore ih =>
    cases hother with
    | none =>
      have hle := hmore.length_le
      omega
    | more hturn' _ hmore' =>
      rw [hturn] at hturn'
      cases hturn'
      exact ih hmore' hlength

/-- What the repetition gives is what it gives from any state that it comes to. -/
theorem Turns.repeatedly_eq (hturns : Turns step first rest last left) :
    repeatedly step first rest = repeatedly step last left := by
  induction hturns with
  | none => rfl
  | more hturn hshorter _ ih =>
    conv => lhs; unfold repeatedly
    simp only [hturn, if_pos hshorter, ih]

/-- A repetition that comes to a turn that fails has failed. -/
theorem Turns.repeatedly_error {fault : ε} (hturns : Turns step first rest last left)
    (hfault : step last left = .error fault) : repeatedly step first rest = .error fault := by
  rw [hturns.repeatedly_eq]
  unfold repeatedly
  rw [hfault]

end Turns

end SchemaEvolution
