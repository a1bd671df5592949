import Mathlib.Data.List.Induction
import Mathlib.Data.Set.Insert

/-!
# Functions that overwrite

Functions overwrite one another if it is in vain to do one of them that is done again later,
whatever is done in between.  Then a run of them that is done twice does what it does once.
-/

namespace SchemaEvolution

universe u v w

variable {α : Type u} {family : Set (α → α)}

/-- To do one of the functions is in vain if it is done again later. -/
structure Overwriting (family : Set (α → α)) : Prop where
  again : ∀ f ∈ family, ∀ value, f (f value) = f value
  later : ∀ f ∈ family, ∀ g ∈ family, ∀ value, f (g (f value)) = f (g value)

/-- Does the functions in turn. -/
def inTurn (fs : List (α → α)) (value : α) : α := fs.foldl (fun value f => f value) value

theorem inTurn_cons (f : α → α) (fs : List (α → α)) (value : α) :
    inTurn (f :: fs) value = inTurn fs (f value) := rfl

theorem inTurn_concat (fs : List (α → α)) (f : α → α) (value : α) :
    inTurn (fs ++ [f]) value = f (inTurn fs value) := by
  rw [inTurn, List.foldl_append]
  rfl

namespace Overwriting

variable (hover : Overwriting family)

include hover

/-- What a function makes equal stays equal for it. -/
theorem congr_inTurn {f : α → α} (hf : f ∈ family) {gs : List (α → α)}
    (hgs : ∀ g ∈ gs, g ∈ family) {left right : α} (hsame : f left = f right) :
    f (inTurn gs left) = f (inTurn gs right) := by
  induction gs generalizing left right with
  | nil => exact hsame
  | cons g rest ih =>
    have hg := hgs g List.mem_cons_self
    rw [inTurn_cons, inTurn_cons]
    refine ih (fun h hmem => hgs h (List.mem_cons_of_mem _ hmem)) ?_
    calc
      f (g left) = f (g (f left)) := (hover.later f hf g hg left).symm
      _ = f (g (f right)) := by rw [hsame]
      _ = f (g right) := hover.later f hf g hg right

/-- A run that is done twice does what it does once. -/
theorem inTurn_inTurn {fs : List (α → α)} (hfs : ∀ f ∈ fs, f ∈ family) (value : α) :
    inTurn fs (inTurn fs value) = inTurn fs value := by
  induction fs using List.reverseRecOn with
  | nil => rfl
  | append_singleton front f ih =>
    have hf := hfs f (by simp)
    have hfront : ∀ g ∈ front, g ∈ family := fun g hmem => hfs g (by simp [hmem])
    rw [inTurn_concat, inTurn_concat]
    calc
      f (inTurn front (f (inTurn front value))) = f (inTurn front (inTurn front value)) :=
        hover.congr_inTurn hf hfront (hover.again f hf _)
      _ = f (inTurn front value) := by rw [ih hfront]

/-- So it is with a run of steps, if each of them does one of the functions to what is looked at. -/
theorem foldl_foldl {σ : Type v} {ω : Type w} (step : σ → ω → σ) (content : σ → α)
    {items : List ω}
    (hstep : ∀ item ∈ items, ∃ f ∈ family, ∀ state, content (step state item) = f (content state))
    (state : σ) :
    content (items.foldl step (items.foldl step state)) = content (items.foldl step state) := by
  obtain ⟨fs, hfs, hrun⟩ : ∃ fs : List (α → α), (∀ f ∈ fs, f ∈ family) ∧
      ∀ state, content (items.foldl step state) = inTurn fs (content state) := by
    clear hover
    induction items with
    | nil => exact ⟨[], by simp, fun _ => rfl⟩
    | cons item rest ih =>
      obtain ⟨f, hf, hitem⟩ := hstep item List.mem_cons_self
      obtain ⟨fs, hfs, hrest⟩ := ih fun other hmem => hstep other (List.mem_cons_of_mem _ hmem)
      refine ⟨f :: fs, List.forall_mem_cons.2 ⟨hf, hfs⟩, fun state => ?_⟩
      rw [List.foldl_cons, hrest, hitem, inTurn_cons]
  rw [hrun, hrun, hover.inTurn_inTurn hfs]

/-- To do nothing may be added. -/
theorem insert_id : Overwriting (insert id family) where
  again f hf value := by
    rcases hf with rfl | hf
    · rfl
    · exact hover.again f hf value
  later f hf g hg value := by
    rcases hf with rfl | hf
    · rfl
    · rcases hg with rfl | hg
      · exact hover.again f hf value
      · exact hover.later f hf g hg value

end Overwriting

/-- What may be done to a value that may be absent: to give one or to take it away, whatever there
is, or to do one of the functions to the value that there is. -/
def orAbsent (family : Set (α → α)) : Set (Option α → Option α) :=
  { f | (∃ value, f = fun _ => value) ∨ ∃ g ∈ family, f = Option.map g }

/-- Whoever overwrites what is there overwrites it also where it can be absent. -/
theorem Overwriting.orAbsent (hover : Overwriting family) :
    Overwriting (orAbsent family) where
  again := by
    rintro _ (⟨new, rfl⟩ | ⟨f, hf, rfl⟩) (_ | value)
    · rfl
    · rfl
    · rfl
    · exact congrArg some (hover.again f hf value)
  later := by
    rintro _ (⟨new, rfl⟩ | ⟨f, hf, rfl⟩) _ (⟨other, rfl⟩ | ⟨g, hg, rfl⟩) (_ | value)
    any_goals rfl
    exact congrArg some (hover.later f hf g hg value)

section Pointwise

variable {P : Type v} {V : P → Type w}

/-- What may be done to several values at once, each on its own. -/
def pointwise (family : (p : P) → Set (V p → V p)) : Set (((p : P) → V p) → (p : P) → V p) :=
  { f | ∃ g : (p : P) → V p → V p, (∀ p, g p ∈ family p) ∧ f = fun value p => g p (value p) }

theorem Overwriting.pointwise {family : (p : P) → Set (V p → V p)}
    (hover : ∀ p, Overwriting (family p)) : Overwriting (pointwise family) where
  again := by
    rintro _ ⟨f, hf, rfl⟩ value
    funext p
    exact (hover p).again (f p) (hf p) (value p)
  later := by
    rintro _ ⟨f, hf, rfl⟩ _ ⟨g, hg, rfl⟩ value
    funext p
    exact (hover p).later (f p) (hf p) (g p) (hg p) (value p)

end Pointwise

end SchemaEvolution
