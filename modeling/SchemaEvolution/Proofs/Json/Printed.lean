import Mathlib.Data.List.Forall2
import SchemaEvolution.Proofs.Json.Brackets
import SchemaEvolution.Proofs.Json.Number

/-!
# Printed values are read back

A text writes a value when it is the value's text with any white space around items and
members.  Such a text is read as the value by a reader that goes as deep as the value nests.
-/

namespace SchemaEvolution.Json

open Cursor (isGap)

variable {α β σ : Type}

theorem Reads.map {reader : Cursor → Except ReadFault (α × Cursor)} {text : List Char}
    {value : α} (hreads : Reads reader text value) (make : α → β) :
    Reads (fun c => do let (value, c) ← reader c; return (make value, c)) text (make value) := by
  intro c tail hat hfollows
  obtain ⟨after, hread, hafter⟩ := hreads c tail hat hfollows
  refine ⟨after, ?_, hafter⟩
  simp only [hread]
  rfl

/-- The colon before a value is passed over. -/
theorem Reads.colon {reader : Cursor → Except ReadFault (α × Cursor)} {text gap : List Char}
    {value : α} (hreads : Reads reader text value) (hgap : ∀ char ∈ gap, isGap char = true) :
    Reads (fun c => do reader (← readColon c)) (':' :: gap ++ text) value := by
  intro c tail hat hfollows
  rw [List.cons_append, List.cons_append, List.append_assoc] at hat
  obtain ⟨next, hcolon, hnext⟩ := readColon_of_at hat
  obtain ⟨after, hread, hafter⟩ :=
    hreads next tail ((Cursor.at_gap_append hgap).1 (.of_rest hnext)) hfollows
  refine ⟨after, ?_, hafter⟩
  simp only [hcolon]
  exact hread

/-- Items that are read on their own are collected in order. -/
theorem readsItems_collect {reader : Cursor → Except ReadFault (α × Cursor)} {values : List α}
    {pieces : List (List Char)}
    (hpieces : List.Forall₂ (fun value piece => Reads reader piece value ∧ StartsItem piece)
      values pieces) (done : List α) :
    ReadsItems (fun done c => do let (value, c) ← reader c; return (value :: done, c)) done
      pieces (values.reverse ++ done) := by
  induction hpieces generalizing done with
  | nil => exact .nil done
  | @cons value piece values pieces hpiece _ ih =>
    rw [List.reverse_cons, List.append_assoc]
    exact .cons (hpiece.1.map fun value => value :: done) hpiece.2 (ih (value :: done))

/-- Members whose values are read on their own are put together in order. -/
theorem readsMembers_collect {reader : Cursor → Except ReadFault (α × Cursor)} {gap : List Char}
    (hgap : ∀ char ∈ gap, isGap char = true) (put : σ → String → α → σ)
    {entries : List (String × α)} {pieces : List (String × List Char)}
    (hpieces : List.Forall₂ (fun entry piece => piece.1 = entry.1 ∧
      ∃ text, piece.2 = ':' :: gap ++ text ∧ Reads reader text entry.2) entries pieces)
    (done : σ) :
    ReadsMembers (fun done name c => do
        let (value, c) ← reader (← readColon c)
        return (put done name value, c)) done pieces
      (entries.foldl (fun done entry => put done entry.1 entry.2) done) := by
  induction hpieces generalizing done with
  | nil => exact .nil done
  | @cons entry piece entries pieces hpiece _ ih =>
    obtain ⟨name, _⟩ := piece
    obtain ⟨rfl, text, rfl, hreads⟩ := hpiece
    refine .cons ?_ (ih _)
    intro c tail hat hfollows
    obtain ⟨after, hread, hafter⟩ :=
      ((hreads.colon hgap).map fun value => put done entry.1 value) c tail hat hfollows
    refine ⟨after, ?_, hafter⟩
    simpa only [bind_assoc] using hread

/-- The text writes the value, whose brackets nest to at most `depth` levels and whose numbers
are read back from their texts. -/
inductive Written : Nat → Json → List Char → Prop where
  | null {depth : Nat} : Written depth .null "null".toList
  | bool {depth : Nat} (value : Bool) : Written depth (.bool value) (compactChars (.bool value))
  | number {depth : Nat} {number : Number} (hback : number.ReadsBack) :
    Written depth (.number number) number.text.toList
  | string {depth : Nat} (text : String) : Written depth (.string text) (stringChars text)
  | array {depth : Nat} {items : List Json} {print : Json → List Char} {gap last : List Char}
    (hgap : ∀ char ∈ gap, isGap char = true) (hlast : ∀ char ∈ last, isGap char = true)
    (hitems : ∀ item ∈ items, Written depth item (print item)) :
    Written (depth + 1) (.array items) ('[' :: separated gap (items.map print) ++ last ++ [']'])
  | object {depth : Nat} {members : List (String × Json)} {print : Json → List Char}
    {gap colon last : List Char} (hgap : ∀ char ∈ gap, isGap char = true)
    (hcolon : ∀ char ∈ colon, isGap char = true) (hlast : ∀ char ∈ last, isGap char = true)
    (hmembers : ∀ member ∈ members, Written depth member.2 (print member.2)) :
    Written (depth + 1) (.object members)
      ('\x7b' :: separated gap ((members.map fun member =>
        (member.1, ':' :: colon ++ print member.2)).map memberChars) ++ last ++ ['\x7d'])

/-- The text of a value starts with something else than a closing bracket, and the text of a
value other than `null` with something else than its first letter. -/
theorem Written.starts {depth : Nat} {value : Json} {text : List Char}
    (hwritten : Written depth value text) :
    ∃ first rest, text.dropWhile isGap = first :: rest ∧ first ≠ ']' ∧
      (first = 'n' → value = .null) := by
  cases hwritten with
  | null => exact ⟨'n', _, rfl, by decide, fun _ => rfl⟩
  | bool value =>
    cases value with
    | true => exact ⟨'t', _, rfl, by decide, nofun⟩
    | false => exact ⟨'f', _, rfl, by decide, nofun⟩
  | number hback =>
    obtain ⟨first, rest, heq, hfirst⟩ := hback.starts
    refine ⟨first, rest, heq, ?_, ?_⟩
    · rintro rfl
      exact absurd hfirst (by decide)
    · rintro rfl
      exact absurd hfirst (by decide)
  | string text => exact ⟨'"', _, rfl, by decide, nofun⟩
  | array hgap hlast hitems => exact ⟨'[', _, rfl, by decide, nofun⟩
  | object hgap hcolon hlast hmembers => exact ⟨'\x7b', _, rfl, by decide, nofun⟩

theorem Written.startsItem {depth : Nat} {value : Json} {text : List Char}
    (hwritten : Written depth value text) : StartsItem text := by
  obtain ⟨first, rest, heq, hfirst, -⟩ := hwritten.starts
  exact ⟨first, rest, heq, hfirst⟩

/-- A value is read back from its text, whatever follows. -/
theorem Written.reads {depth : Nat} {value : Json} {text : List Char}
    (hwritten : Written depth value text) : Reads (readAny (depth + 1)) text value := by
  induction hwritten with
  | null =>
    intro c tail hat hfollows
    obtain ⟨hrest, after, hread, hafter⟩ := readIdent_of_at ['u', 'l', 'l'] tail hat rfl
    refine ⟨after, ?_, .of_rest hafter⟩
    simp only [readAny, hrest, hread]
    rfl
  | bool value =>
    intro c tail hat hfollows
    cases value with
    | true =>
      obtain ⟨hrest, after, hread, hafter⟩ := readIdent_of_at ['r', 'u', 'e'] tail hat rfl
      refine ⟨after, ?_, .of_rest hafter⟩
      simp only [readAny, hrest, hread]
      rfl
    | false =>
      obtain ⟨hrest, after, hread, hafter⟩ := readIdent_of_at ['a', 'l', 's', 'e'] tail hat rfl
      refine ⟨after, ?_, .of_rest hafter⟩
      simp only [readAny, hrest, hread]
      rfl
  | number hback => exact hback.reads _
  | string text =>
    intro c tail hat hfollows
    have hrest : c.skipGap.rest = stringChars text ++ tail := hat.rest_cons rfl
    obtain ⟨after, hread, hafter⟩ := readString_stringChars text tail hrest
    refine ⟨after, ?_, .of_rest hafter⟩
    simp only [stringChars, List.cons_append] at hrest
    simp only [readAny, hrest, hread]
    rfl
  | @array depth items print gap last hgap hlast hitems ih =>
    intro c tail hat hfollows
    simp only [List.cons_append, List.append_assoc, List.nil_append] at hat
    have hrest := hat.rest_cons rfl
    have hpieces : List.Forall₂ (fun item piece => Reads (readAny (depth + 1)) piece item ∧
        StartsItem piece) items (items.map print) := by
      rw [List.forall₂_map_right_iff, List.forall₂_same]
      exact fun item hmem => ⟨ih item hmem, (hitems item hmem).startsItem⟩
    obtain ⟨after, hread, hafter⟩ :=
      (readsItems_collect hpieces []).enclosed hgap hlast hrest
    refine ⟨after, ?_, .of_rest hafter⟩
    rw [hrest] at hread
    unfold readAny
    simp only [hrest, Nat.succ_ne_zero, if_false, hread]
    rw [List.append_nil]
    change Except.ok (Json.array items.reverse.reverse, after) = _
    rw [List.reverse_reverse]
  | @object depth members print gap colon last hgap hcolon hlast hmembers ih =>
    intro c tail hat hfollows
    simp only [List.cons_append, List.append_assoc, List.nil_append] at hat
    have hrest := hat.rest_cons rfl
    have hpieces : List.Forall₂ (fun (entry : String × Json) (piece : String × List Char) =>
        piece.1 = entry.1 ∧ ∃ text, piece.2 = ':' :: colon ++ text ∧
          Reads (readAny (depth + 1)) text entry.2)
        members (members.map fun member => (member.1, ':' :: (colon ++ print member.2))) := by
      rw [List.forall₂_map_right_iff, List.forall₂_same]
      exact fun member hmem => ⟨rfl, print member.2, rfl, ih member hmem⟩
    have hcollect := readsMembers_collect hcolon
      (fun done name value => (name, value) :: done) hpieces []
    obtain ⟨close, hmembersRead, hclose⟩ :=
      hcollect.readMembers_of_opening hgap hlast (Nat.le_succ _) hrest
    obtain ⟨after, hread, hafter⟩ := enclosed_closeObject hmembersRead hclose
    refine ⟨after, ?_, .of_rest hafter⟩
    rw [hrest] at hread
    unfold readAny
    simp only [hrest, Nat.succ_ne_zero, if_false, hread]
    rw [List.foldl_flip_cons_eq_append', List.append_nil]
    change Except.ok (Json.object members.reverse.reverse, after) = _
    rw [List.reverse_reverse]

/-- The value nests to at most `depth` levels of brackets and its numbers are read back from
their texts. -/
inductive Legible : Nat → Json → Prop where
  | null {depth : Nat} : Legible depth .null
  | bool {depth : Nat} (value : Bool) : Legible depth (.bool value)
  | number {depth : Nat} {number : Number} (hback : number.ReadsBack) :
    Legible depth (.number number)
  | string {depth : Nat} (text : String) : Legible depth (.string text)
  | array {depth : Nat} {items : List Json} (hitems : ∀ item ∈ items, Legible depth item) :
    Legible (depth + 1) (.array items)
  | object {depth : Nat} {members : List (String × Json)}
    (hmembers : ∀ member ∈ members, Legible depth member.2) :
    Legible (depth + 1) (.object members)

theorem isGap_newLine (depth : Nat) : ∀ char ∈ newLine depth, isGap char = true := by
  intro char hmem
  rcases List.mem_cons.1 hmem with rfl | hmem
  · rfl
  · rw [List.eq_of_mem_replicate hmem]
    rfl

theorem indentedItems_eq (depth : Nat) (items : List Json) :
    indentedItems depth items = separated (newLine depth) (items.map (indentedChars depth)) := by
  match items with
  | [] => rfl
  | [item] => simp [indentedItems, separated, continued]
  | item :: next :: rest =>
    rw [indentedItems, indentedItems_eq depth (next :: rest)]
    · simp [separated, continued]
    · exact List.cons_ne_nil _ _

theorem indentedMembers_eq (depth : Nat) (members : List (String × Json)) :
    indentedMembers depth members =
      separated (newLine depth) ((members.map fun member =>
        (member.1, ':' :: [' '] ++ member.2.indentedChars depth)).map memberChars) := by
  match members with
  | [] => rfl
  | [(name, value)] => simp [indentedMembers, separated, continued, memberChars]
  | (name, value) :: next :: rest =>
    rw [indentedMembers, indentedMembers_eq depth (next :: rest)]
    · simp [separated, continued, memberChars]
    · exact List.cons_ne_nil _ _

/-- The indented form of a value writes it. -/
theorem Legible.written_indented {depth : Nat} {value : Json} (hlegible : Legible depth value) :
    ∀ indent : Nat, Written depth value (value.indentedChars indent) := by
  induction hlegible with
  | null => exact fun _ => .null
  | bool value => exact fun _ => .bool value
  | number hback => exact fun _ => .number hback
  | string text => exact fun _ => .string text
  | @array depth items hitems ih =>
    intro indent
    cases items with
    | nil =>
      exact @Written.array depth [] (indentedChars indent) [] [] (List.forall_mem_nil _)
        (List.forall_mem_nil _) (List.forall_mem_nil _)
    | cons item rest =>
      rw [indentedChars, indentedItems_eq]
      · exact .array (isGap_newLine _) (isGap_newLine _) fun item hmem => ih item hmem _
      · exact List.cons_ne_nil _ _
  | @object depth members hmembers ih =>
    intro indent
    cases members with
    | nil =>
      exact @Written.object depth [] (indentedChars indent) [] [] [] (List.forall_mem_nil _)
        (List.forall_mem_nil _) (List.forall_mem_nil _) (List.forall_mem_nil _)
    | cons member rest =>
      rw [indentedChars, indentedMembers_eq]
      · exact .object (isGap_newLine _) (List.forall_mem_singleton.2 rfl) (isGap_newLine _)
          fun member hmem => ih member hmem _
      · exact List.cons_ne_nil _ _

theorem compactItems_eq (items : List Json) :
    compactItems items = separated [] (items.map compactChars) := by
  match items with
  | [] => rfl
  | [item] => simp [compactItems, separated, continued]
  | item :: next :: rest =>
    rw [compactItems, compactItems_eq (next :: rest)]
    · simp [separated, continued]
    · exact List.cons_ne_nil _ _

theorem compactMembers_eq (members : List (String × Json)) :
    compactMembers members =
      separated [] ((members.map fun member =>
        (member.1, ':' :: [] ++ member.2.compactChars)).map memberChars) := by
  match members with
  | [] => rfl
  | [(name, value)] => simp [compactMembers, separated, continued, memberChars]
  | (name, value) :: next :: rest =>
    rw [compactMembers, compactMembers_eq (next :: rest)]
    · simp [separated, continued, memberChars]
    · exact List.cons_ne_nil _ _

/-- The compact form of a value writes it. -/
theorem Legible.written_compact {depth : Nat} {value : Json} (hlegible : Legible depth value) :
    Written depth value value.compactChars := by
  induction hlegible with
  | null => exact .null
  | bool value => exact .bool value
  | number hback => exact .number hback
  | string text => exact .string text
  | @array depth items hitems ih =>
    have hwritten := @Written.array depth items compactChars [] [] (List.forall_mem_nil _)
      (List.forall_mem_nil _) ih
    rw [← compactItems_eq, List.append_nil] at hwritten
    exact hwritten
  | @object depth members hmembers ih =>
    have hwritten := @Written.object depth members compactChars [] [] [] (List.forall_mem_nil _)
      (List.forall_mem_nil _) (List.forall_mem_nil _) ih
    rw [← compactMembers_eq, List.append_nil] at hwritten
    exact hwritten

/-! ## Whole texts -/

/-- The texts that are printed for a document: compact or indented, with or without a line break
at the end. -/
def Prints (document : Json) (text : String) : Prop :=
  ∃ body ∈ [document.compact, document.indented], text = body ∨ text = body ++ "\n"

theorem prints_compact (document : Json) : document.Prints document.compact :=
  ⟨document.compact, List.mem_cons_self, .inl rfl⟩

theorem prints_indented (document : Json) : document.Prints document.indented :=
  ⟨document.indented, List.mem_cons_of_mem _ List.mem_cons_self, .inl rfl⟩

/-- A reader that reads every writing of a document reads every text printed for it. -/
theorem Prints.readText {document : Json} {text : String} {depth : Nat}
    (hprints : document.Prints text) (hlegible : Legible depth document)
    {reader : Cursor → Except ReadFault (α × Cursor)} {value : α}
    (hreads : ∀ chars, Written depth document chars → Reads reader chars value) :
    Json.readText reader text = .ok value := by
  obtain ⟨body, hbody, htext⟩ := hprints
  have hwritten : Written depth document body.toList := by
    rcases List.mem_pair.1 hbody with rfl | rfl
    · rw [compact, String.toList_ofList]
      exact hlegible.written_compact
    · rw [indented, String.toList_ofList]
      exact hlegible.written_indented 0
  rcases htext with rfl | rfl
  · exact readText_of_reads (hreads _ hwritten)
  · exact readText_of_reads_gap (hreads _ hwritten) String.toList_append
      (List.forall_mem_singleton.2 rfl)

end SchemaEvolution.Json
