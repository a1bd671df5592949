import Mathlib.Data.List.DropRight
import SchemaEvolution.Json.Reader

/-!
# What a reader takes from its cursor

Whether a reader succeeds, and with which value, depends only on what is left to read.  A
cursor stands at a text when that is what is left, up to white space.  A reader reads a text
as a value when it gives the value and stops at whatever comes after the text.
-/

namespace SchemaEvolution.Json

variable {α : Type}

namespace Cursor

@[simp]
theorem rest_advance (c : Cursor) : c.advance.rest = c.rest.tail := by
  obtain ⟨rest, line, column⟩ := c
  simp only [advance]
  split <;> simp_all

@[simp]
theorem rest_skip (count : Nat) (c : Cursor) : (c.skip count).rest = c.rest.drop count := by
  induction count generalizing c with
  | zero => rfl
  | succ count ih => rw [skip, ih, rest_advance, List.drop_tail]

theorem drop_length_takeWhile (holds : Char → Bool) (text : List Char) :
    text.drop (text.takeWhile holds).length = text.dropWhile holds := by
  conv => lhs; arg 2; rw [← List.takeWhile_append_dropWhile (p := holds) (l := text)]
  rw [List.drop_left]

@[simp]
theorem rest_skipGap (c : Cursor) : c.skipGap.rest = c.rest.dropWhile isGap := by
  rw [skipGap, rest_skip, drop_length_takeWhile]

theorem rest_skipGap_skipGap (c : Cursor) : c.skipGap.skipGap.rest = c.skipGap.rest := by
  rw [rest_skipGap, rest_skipGap, List.dropWhile_idempotent]

theorem fst_digits (c : Cursor) : c.digits.1 = c.rest.takeWhile Char.isDigit := rfl

/-- The text is what is left to read, up to white space. -/
def At (c : Cursor) (text : List Char) : Prop :=
  c.rest.dropWhile isGap = text.dropWhile isGap

variable {c : Cursor} {text : List Char}

theorem At.of_rest (hrest : c.rest = text) : c.At text := by
  rw [At, hrest]

theorem at_start (text : String) : (start text).At text.toList := At.of_rest rfl

theorem dropWhile_isGap_append {gap : List Char} (hgap : ∀ char ∈ gap, isGap char = true)
    (text : List Char) : (gap ++ text).dropWhile isGap = text.dropWhile isGap :=
  List.dropWhile_append_of_pos hgap

/-- White space before the text makes no difference. -/
theorem at_gap_append {gap : List Char} (hgap : ∀ char ∈ gap, isGap char = true) :
    c.At (gap ++ text) ↔ c.At text := by
  rw [At, dropWhile_isGap_append hgap, At]

theorem At.skipGap (hat : c.At text) : c.skipGap.At text := by
  rw [At, rest_skipGap, List.dropWhile_idempotent, hat]

/-- What a reader looks at first when it stands at a text. -/
theorem At.rest_skipGap (hat : c.At text) : c.skipGap.rest = text.dropWhile isGap := by
  rw [Cursor.rest_skipGap, hat]

theorem At.rest_cons {char : Char} {rest : List Char} (hat : c.At (char :: rest))
    (hchar : isGap char = false) : c.skipGap.rest = char :: rest := by
  rw [hat.rest_skipGap, List.dropWhile_cons_of_neg (by rw [hchar]; decide)]

end Cursor

/-- What may stand after a value. -/
def terminators : List Char := [',', ']', '\x7d', ' ', '\n', '\t', '\r']

/-- What may come after a value: a separator, a closing bracket, white space or nothing. -/
def Follows (tail : List Char) : Prop := ∀ char ∈ tail.head?, char ∈ terminators

theorem follows_nil : Follows [] := nofun

theorem follows_cons {char : Char} (hchar : char ∈ terminators) (rest : List Char) :
    Follows (char :: rest) := by
  intro other hother
  cases hother
  exact hchar

theorem isGap_mem_terminators {char : Char} (hchar : Cursor.isGap char = true) :
    char ∈ terminators := by
  simp only [Cursor.isGap, Bool.or_eq_true, beq_iff_eq] at hchar
  rcases hchar with ((rfl | rfl) | rfl) | rfl <;> decide

/-- White space may come between a value and what follows it. -/
theorem Follows.gap_append {gap tail : List Char} (hfollows : Follows tail)
    (hgap : ∀ char ∈ gap, Cursor.isGap char = true) : Follows (gap ++ tail) := by
  cases gap with
  | nil => exact hfollows
  | cons char rest => exact follows_cons (isGap_mem_terminators (hgap char List.mem_cons_self)) _

/-- The reader takes the text, whatever follows it, and gives the value. -/
def Reads (reader : Cursor → Except ReadFault (α × Cursor)) (text : List Char) (value : α) :
    Prop :=
  ∀ (c : Cursor) (tail : List Char), c.At (text ++ tail) → Follows tail →
    ∃ after, reader c = .ok (value, after) ∧ after.At tail

/-- A reader of a whole text passes over white space at its end. -/
theorem readText_of_reads_gap {reader : Cursor → Except ReadFault (α × Cursor)} {source : String}
    {text gap : List Char} {value : α} (hreads : Reads reader text value)
    (hsource : source.toList = text ++ gap) (hgap : ∀ char ∈ gap, Cursor.isGap char = true) :
    readText reader source = .ok value := by
  have hat : (Cursor.start source).At (text ++ gap) := hsource ▸ Cursor.at_start source
  have hfollows : Follows gap := by
    have hend := follows_nil.gap_append hgap
    rwa [List.append_nil] at hend
  obtain ⟨after, hread, hafter⟩ := hreads _ gap hat hfollows
  have hend : after.skipGap.rest = [] := by
    rw [hafter.rest_skipGap, List.dropWhile_eq_nil_iff]
    exact hgap
  simp only [readText, hread]
  change (if after.skipGap.rest.isEmpty then _ else _) = _
  rw [hend]
  rfl

/-- A reader of a whole text gives what it reads from the text. -/
theorem readText_of_reads {reader : Cursor → Except ReadFault (α × Cursor)} {text : String}
    {value : α} (hreads : Reads reader text.toList value) : readText reader text = .ok value :=
  readText_of_reads_gap hreads (List.append_nil _).symm nofun

/-- A word is read letter by letter. -/
theorem readIdent_of_rest (letters tail : List Char) {c : Cursor}
    (hrest : c.rest = letters ++ tail) :
    ∃ after, readIdent letters c = .ok after ∧ after.rest = tail := by
  induction letters generalizing c with
  | nil => exact ⟨c, rfl, hrest⟩
  | cons letter more ih =>
    have hadvance : c.advance.rest = more ++ tail := by
      rw [Cursor.rest_advance, hrest]
      rfl
    obtain ⟨after, hread, hafter⟩ := ih hadvance
    refine ⟨after, ?_, hafter⟩
    rw [readIdent, hrest]
    simp only [List.cons_append, if_true]
    exact hread

/-- The rest of a word is read after its first letter. -/
theorem readIdent_of_at {first : Char} (letters tail : List Char) {c : Cursor}
    (hat : c.At (first :: letters ++ tail)) (hfirst : Cursor.isGap first = false) :
    c.skipGap.rest = first :: (letters ++ tail) ∧
      ∃ after, readIdent letters c.skipGap.advance = .ok after ∧ after.rest = tail := by
  have hrest := hat.rest_cons hfirst
  refine ⟨hrest, readIdent_of_rest letters tail ?_⟩
  rw [Cursor.rest_advance, hrest, List.tail_cons]
  rfl

/-- The colon after a name is passed over. -/
theorem readColon_of_at {c : Cursor} {text : List Char} (hat : c.At (':' :: text)) :
    ∃ after, readColon c = .ok after ∧ after.rest = text := by
  have hrest := hat.rest_cons rfl
  refine ⟨c.skipGap.advance, ?_, ?_⟩
  · simp only [readColon, hrest]
  · rw [Cursor.rest_advance, hrest]
    rfl

end SchemaEvolution.Json
