/-!
# Runs seen part by part

A state may be looked at in parts such that every step of a run touches some of the parts
and does to each of them what that part alone decides.  Then a whole run is known from its
parts: it succeeds exactly when, on every part, the steps that touch it do, and it leaves
every part as those steps leave it.
-/

namespace SchemaEvolution.Parts

universe u v w x

variable {S : Type u} {ω : Type v} {P : Type w} {V : P → Type u}
variable (view : (p : P) → S → V p) (touches : P → ω → Bool)
variable (effect : (p : P) → V p → ω → Option (V p))

/-- What a step makes of a state agrees with what it does to each part: where it succeeds, the
parts it touches are changed by their effects and the others not at all; where it fails, so does
the effect on some part. -/
def Agrees (item : ω) (state : S) : Option S → Prop
  | some after =>
    ∀ p, if touches p item then effect p (view p state) item = some (view p after)
      else view p after = view p state
  | none => ∃ p, touches p item = true ∧ effect p (view p state) item = none

/-- A step that touches one part only, and is left out where it fails, changes that part by its
effect where there is one, and the others not at all. -/
theorem view_getD [DecidableEq P] {item : ω} {own : P}
    (hown : ∀ p, touches p item = decide (own = p)) {state : S} {result : Option S}
    (hagrees : Agrees view touches effect item state result) (p : P) :
    view p (result.getD state) =
      if own = p then (effect p (view p state) item).getD (view p state) else view p state := by
  cases result with
  | none =>
    obtain ⟨q, htouch, hnone⟩ := hagrees
    obtain rfl : own = q := of_decide_eq_true ((hown q).symm.trans htouch)
    split
    · next hp =>
      subst hp
      rw [hnone]
      rfl
    · rfl
  | some after =>
    have hp := hagrees p
    rw [hown] at hp
    by_cases heq : own = p
    · rw [if_pos (decide_eq_true heq)] at hp
      rw [if_pos heq, hp]
      rfl
    · rw [if_neg (by simpa using heq)] at hp
      rw [if_neg heq, Option.getD_some, hp]

/-- The steps that touch a part, run on that part alone. -/
def runPart (p : P) (items : List ω) (value : V p) : Option (V p) :=
  (items.filter (touches p)).foldlM (effect p) value

theorem runPart_cons_of_touches {p : P} {item : ω} (htouch : touches p item = true)
    (rest : List ω) (value : V p) :
    runPart touches effect p (item :: rest) value =
      (effect p value item).bind (runPart touches effect p rest) := by
  rw [runPart, List.filter_cons_of_pos htouch, List.foldlM_cons]
  rfl

theorem runPart_cons_of_not_touches {p : P} {item : ω} (htouch : touches p item = false)
    (rest : List ω) (value : V p) :
    runPart touches effect p (item :: rest) value = runPart touches effect p rest value := by
  rw [runPart, List.filter_cons_of_neg (by simp [htouch])]
  rfl

/-- A run is known from its parts. -/
theorem foldlM_agrees (step : S → ω → Option S) (items : List ω)
    (hstep : ∀ item ∈ items, ∀ state, Agrees view touches effect item state (step state item))
    (state : S) :
    match items.foldlM step state with
    | some after => ∀ p, runPart touches effect p items (view p state) = some (view p after)
    | none => ∃ p, runPart touches effect p items (view p state) = none := by
  induction items generalizing state with
  | nil => exact fun p => rfl
  | cons item rest ih =>
    have hitem := hstep item List.mem_cons_self state
    have hrest := ih fun other hmem => hstep other (List.mem_cons_of_mem _ hmem)
    rw [List.foldlM_cons]
    cases hnext : step state item with
    | none =>
      rw [hnext] at hitem
      obtain ⟨p, htouch, hnone⟩ := hitem
      exact ⟨p, by rw [runPart_cons_of_touches touches effect htouch, hnone]; rfl⟩
    | some next =>
      rw [hnext] at hitem
      have hpart : ∀ p, runPart touches effect p (item :: rest) (view p state) =
          runPart touches effect p rest (view p next) := by
        intro p
        have hp := hitem p
        cases htouch : touches p item with
        | true =>
          rw [htouch, if_pos rfl] at hp
          rw [runPart_cons_of_touches touches effect htouch, hp]
          rfl
        | false =>
          rw [htouch, if_neg (by simp)] at hp
          rw [runPart_cons_of_not_touches touches effect htouch, hp]
      simp only [hpart]
      exact hrest next

/-- A run that succeeds on every part succeeds, and leaves every part as it is left alone. -/
theorem exists_foldlM_eq_some (step : S → ω → Option S) (items : List ω)
    (hstep : ∀ item ∈ items, ∀ state, Agrees view touches effect item state (step state item))
    {state : S}
    (hparts : ∀ p, ∃ value, runPart touches effect p items (view p state) = some value) :
    ∃ after, items.foldlM step state = some after ∧
      ∀ p, runPart touches effect p items (view p state) = some (view p after) := by
  have hrun := foldlM_agrees view touches effect step items hstep state
  cases hafter : items.foldlM step state with
  | none =>
    rw [hafter] at hrun
    obtain ⟨p, hnone⟩ := hrun
    obtain ⟨value, hvalue⟩ := hparts p
    rw [hnone] at hvalue
    cases hvalue
  | some after =>
    rw [hafter] at hrun
    exact ⟨after, rfl, hrun⟩

/-- A run that fails on some part fails. -/
theorem foldlM_eq_none (step : S → ω → Option S) (items : List ω)
    (hstep : ∀ item ∈ items, ∀ state, Agrees view touches effect item state (step state item))
    {state : S} {p : P} (hpart : runPart touches effect p items (view p state) = none) :
    items.foldlM step state = none := by
  have hrun := foldlM_agrees view touches effect step items hstep state
  cases hafter : items.foldlM step state with
  | none => rfl
  | some after =>
    rw [hafter] at hrun
    rw [hrun p] at hpart
    cases hpart

end SchemaEvolution.Parts
