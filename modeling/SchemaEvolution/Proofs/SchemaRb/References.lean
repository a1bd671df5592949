import SchemaEvolution.Proofs.CheckNames

/-!
# References and their keys

A reference in the block of a table adds a column, its index and a foreign key to the table whose
name is the reference with an `s`.  The same can be said with the column and the index in the block
and the key outside of it; the column of the key is then found by taking the name of its target in
the singular.  Both files define the same, whatever else is in them, where the singular takes back
the plural.  It does so for every word but those in `ie`, whose plural it takes for the plural of a
word in `y`: a movie becomes a movy.
-/

namespace SchemaEvolution.SchemaRb

open Table Sql

/-- The item is no table of the given name, and gives the name of the constraint to no other
constraint of that table. -/
def Item.Spares (owner name : String) : Item → Prop
  | table other _ _ _ => other ≠ owner
  | outside call => call.ownConstraint? ≠ some (owner, name)

/-- The schema with a constraint more in one of its tables, if it has the table. -/
def addKey (owner : String) (key : Constraint) (schema : Schema) : Schema :=
  editTable schema owner fun _ => [.constraint key]

theorem independent_of_ne {key : Constraint} {edits : List Edit}
    (hne : ∀ constraint, .constraint constraint ∈ edits → constraint.name ≠ key.name) :
    ∀ edit ∈ edits, (Edit.constraint key).Independent edit := by
  intro edit hmem
  cases edit with
  | constraint constraint => exact (hne constraint hmem).symm
  | column _ | require _ | index _ => trivial

/-- A call may edit a table before a key is added whose name it does not give. -/
theorem edited_addConstraint {call : Call} {change : String × (Table → List Edit)}
    {key : Constraint} {table : Table} (hchange : call.change? = some change)
    (hlast : key.name.toList.getLast? = some 'y')
    (hown : call.ownConstraint? ≠ some (change.1, key.name)) :
    ((table.addConstraint key).edited (change.2 (table.addConstraint key))).SameEntries
      ((table.edited (change.2 table)).addConstraint key) := by
  rw [← Call.change?_congr hchange (SameChecks.addConstraint hlast)]
  refine edited_cons_comm (independent_of_ne fun constraint hmem hname => ?_)
  rcases Call.name_of_mem_change hchange hmem with hconstraint | hcheck
  · exact hown (hname ▸ hconstraint)
  · exact (Naming.isTableCheck_tableCheck table).ne hlast (hname.symm.trans hcheck)

/-- A key may be added to a table that is there, or to the one that is stored with it. -/
theorem alike_addKey_addTable {owner : String} {key : Constraint} {keyed plain : Table}
    (hname : plain.name = owner) (hsame : keyed.SameEntries (plain.addConstraint key))
    (schema : Schema) :
    Alike (schema.addTable keyed) (addKey owner key (schema.addTable plain)) := by
  refine ⟨fun name => ?_, rfl, rfl⟩
  have hkeyed : keyed.name = owner := hsame.name.trans hname
  simp only [addKey, editTable, Schema.addTable, Keyed.get?_update, Keyed.get?_insert, hkeyed,
    hname]
  by_cases howner : owner = name
  · simp only [howner, if_true]
    exact .some hsame
  · simp only [howner, Ne.symm howner, if_false]
    exact Alike.rel_refl _

theorem define_addKey (call : Call) (owner : String) (key : Constraint) (schema : Schema) :
    call.define (addKey owner key schema) = addKey owner key (call.define schema) := by
  rw [Call.define, Call.define]
  split
  · cases call.argumentText? 0 <;> rfl
  · cases call.argumentText? 0 <;> rfl
  · rfl

/-- A key may be added after an item that spares it. -/
theorem Item.Spares.addTo_addKey {owner : String} {key : Constraint} {item : Item}
    (hspares : item.Spares owner key.name) (hlast : key.name.toList.getLast? = some 'y')
    (schema : Schema) :
    Alike (item.addTo (addKey owner key schema)) (addKey owner key (item.addTo schema)) := by
  cases item with
  | table name receiver call body =>
    refine ⟨fun other => ?_, rfl, rfl⟩
    simp only [Item.addTo, addKey, editTable, Schema.addTable, Keyed.get?_insert,
      Keyed.get?_update, name_tableOf]
    by_cases hother : other = owner
    · have hne : ¬ name = other := fun hsame => hspares (hsame.trans hother)
      simp only [hother, hother ▸ hne, if_true, if_false]
      exact Alike.rel_refl _
    · simp only [hother, if_false]
      exact Alike.rel_refl _
  | outside call =>
    rw [addTo_outside, addTo_outside]
    cases hchange : call.change? with
    | none =>
      rw [Option.elim_none, Option.elim_none, define_addKey]
      exact .refl _
    | some change =>
      refine ⟨fun other => ?_, rfl, rfl⟩
      simp only [Option.elim_some, addKey, editTable, Keyed.get?_update]
      by_cases hother : other = owner
      · by_cases hname : other = change.1
        · simp only [hother, hother ▸ hname, if_true, Option.map_map]
          cases schema.tables.get? change.1 with
          | none => exact .none
          | some table =>
            refine .some (edited_addConstraint hchange hlast fun hown => hspares ?_)
            rw [hown, ← hname, hother]
        · simp only [hother, hother ▸ hname, if_true, if_false]
          exact Alike.rel_refl _
      · simp only [hother, if_false]
        exact Alike.rel_refl _

/-- A key may be added after all items that spare it. -/
theorem alike_addKey_foldl (owner : String) (key : Constraint) {items : List Item}
    (hspares : ∀ item ∈ items, item.Spares owner key.name)
    (hlast : key.name.toList.getLast? = some 'y') {left right : Schema}
    (halike : Alike left (addKey owner key right)) :
    Alike (items.foldl Item.addTo left) (addKey owner key (items.foldl Item.addTo right)) := by
  induction items generalizing left right with
  | nil => exact halike
  | cons item more ih =>
    have hitem := (hspares item List.mem_cons_self).addTo_addKey hlast right
    exact ih (fun other hmem => hspares other (List.mem_cons_of_mem _ hmem))
      ((halike.addTo item).trans hitem)

def createTableCall (table : String) : Call := ⟨"create_table", [.string table], [], 0⟩

/-- A reference with a foreign key, in the block of a table. -/
def referencesCall (reference : String) : Call :=
  ⟨"references", [.string reference], [("foreign_key", .boolean true)], 0⟩

def columnCall (reference : String) : Call :=
  ⟨"bigint", [.string (reference ++ "_id")], [], 0⟩

def indexCall (reference : String) : Call :=
  ⟨"index", [.array [.string (reference ++ "_id")]], [], 0⟩

def addForeignKeyCall (table reference : String) : Call :=
  ⟨"add_foreign_key", [.string table, .string (reference ++ "s")], [], 0⟩

theorem getLast?_referenceKeyName (table reference : String) :
    (referenceKeyName table reference).toList.getLast? = some 'y' :=
  Naming.getLast?_append_of (by decide)

/-- The primary key has another name. -/
theorem primaryKey_ne_referenceKeyName (table reference : String) :
    Naming.primaryKey table ≠ referenceKeyName table reference := by
  intro hsame
  have hjoined : Naming.joined [reference ++ "_id"] = reference ++ "_id" := rfl
  rw [Naming.primaryKey, referenceKeyName, Naming.foreignKey, hjoined, String.append_assoc,
    String.append_assoc] at hsame
  have hlength := congrArg List.length ((String.append_right_inj table).1 hsame ▸ rfl :
    "_pkey".toList = ("_" ++ (reference ++ "_id" ++ "_fkey")).toList)
  simp [String.toList_append] at hlength

/-- The calls for a reference do the same, but for the key. -/
theorem blockEdits_references (reference : String) (back : List Call) (found : Table) :
    ∃ entries, ∃ after : Table, after.name = found.name ∧
      blockEdits (referencesCall reference :: back) found =
        entries ++ .constraint (referenceKey found.name reference (reference ++ "s")) ::
          blockEdits back after ∧
      blockEdits (columnCall reference :: indexCall reference :: back) found =
        entries ++ blockEdits back after := by
  let key := referenceKey found.name reference (reference ++ "s")
  let column := referenceColumn reference (referencesCall reference)
  let index : Index := ⟨indexName found.name [reference ++ "_id"], false, [reference ++ "_id"],
    "btree"⟩
  let after := (found.addColumn column).addIndex index
  have hafter : SameChecks after (after.addConstraint key) :=
    .addConstraint (getLast?_referenceKeyName _ _)
  have hcolumn : (columnCall reference).edits found = [.column column] := rfl
  have hreferences : (referencesCall reference).edits found =
      [.column column, .index index, .constraint key] := rfl
  have hindex : (indexCall reference).edits (found.addColumn column) = [.index index] := rfl
  refine ⟨[.column column, .index index], after, rfl, ?_, ?_⟩
  · rw [blockEdits, hreferences, blockEdits_of_sameChecks hafter]
    rfl
  · rw [blockEdits, hcolumn, blockEdits]
    exact congrArg (.column column :: ·) (congrArg (· ++ blockEdits back after) hindex)

/-- The key of a reference may be added to the table of its column when the table is there. -/
theorem tableOf_references {table reference : String} (receiver : String) (call : Call)
    (front : List Call) {back : List Call}
    (hback : ∀ call ∈ back, call.constraintName? table ≠ some (referenceKeyName table reference)) :
    (tableOf table receiver call (front ++ referencesCall reference :: back)).1.SameEntries
      ((tableOf table receiver call
        (front ++ columnCall reference :: indexCall reference :: back)).1.addConstraint
          (referenceKey table reference (reference ++ "s"))) := by
  obtain ⟨entries, after, hafter, hreferences, hcolumn⟩ :=
    blockEdits_references reference back
      ((startTable table call).edited (blockEdits front (startTable table call)))
  rw [name_edited, name_startTable] at hafter hreferences
  -- Nothing behind the key is given its name, neither in the block nor by a composite key, so the
  -- key may as well come last.
  have hfree : ∀ edit ∈ blockEdits back after ++ finishEdits table call,
      (Edit.constraint (referenceKey table reference (reference ++ "s"))).Independent edit := by
    refine independent_of_ne fun constraint hmem => ?_
    rcases List.mem_append.1 hmem with hbody | hfinish
    · obtain ⟨inner, hinner, found, hname⟩ := name_of_mem_blockEdits hbody
      rw [hname, hafter]
      cases hown : inner.constraintName? table with
      | some own => exact fun hsame => hback inner hinner (hown.trans (congrArg some hsame))
      | none =>
        exact ((Naming.isTableCheck_tableCheck found).ne (getLast?_referenceKeyName _ _)).symm
    · rw [name_of_mem_finishEdits hfinish]
      exact primaryKey_ne_referenceKeyName table reference
  have hlast : ((bareTable table call).edited ((startEdits table call ++
      (blockEdits front (startTable table call) ++ entries)) ++ _)).SameEntries _ :=
    edited_last hfree
  rw [tableOf_eq_edited, tableOf_eq_edited, tableEdits, tableEdits, blockEdits_append,
    blockEdits_append, hreferences, hcolumn]
  simpa only [List.append_assoc, List.cons_append, Table.edit] using hlast

/-- An appended `s` is taken off again, unless it has made an ending in `ies`. -/
theorem singular_plural_eq_iff (word : String) :
    singular (word ++ "s") = word ↔ ¬ ['i', 'e'] <:+ word.toList := by
  have hlist : (word ++ "s").toList = word.toList ++ ['s'] := String.toList_append
  have hies : "ies".toList <:+ word.toList ++ ['s'] ↔ ['i', 'e'] <:+ word.toList :=
    @List.suffix_append_self_iff _ ['i', 'e'] word.toList ['s']
  rw [singular, hlist, Text.stripEnd?, Text.stripEnd?, ← hies]
  by_cases hending : "ies".toList <:+ word.toList ++ ['s']
  · rw [if_pos (List.isSuffixOf_iff_suffix.2 hending)]
    refine iff_of_false (fun hsame => ?_) (not_not_intro hending)
    -- The stem with a `y` is one character shorter than the word.
    obtain ⟨stem, hstem⟩ := hies.1 hending
    have htake : (word.toList ++ ['s']).take ((word.toList ++ ['s']).length - "ies".toList.length) =
        stem := by
      rw [← hstem, List.append_assoc]
      exact List.take_left' (by simp)
    rw [htake] at hsame
    have hlists := congrArg String.toList hsame
    rw [String.toList_ofList, ← hstem, List.append_cancel_left_eq] at hlists
    cases hlists
  · rw [if_neg fun hsuffix => hending (List.isSuffixOf_iff_suffix.1 hsuffix),
      if_pos (List.isSuffixOf_iff_suffix.2 (List.suffix_append _ _))]
    refine iff_of_true ?_ hending
    simp only [List.length_append, List.length_singleton, Nat.add_sub_cancel,
      List.take_left', String.ofList_toList]

/-- The files say the same, but for the reference: in one it is a call in the block of the table,
in the other its column and its index are there, and its key comes later.  Nothing that comes
between is given the name of the key. -/
inductive Respelled (table reference : String) : List Item → List Item → Prop
  | intro (before : List Item) (receiver : String) (call : Call) (front back : List Call)
    (between after : List Item)
    (hback : ∀ call ∈ back,
      call.constraintName? table ≠ some (referenceKeyName table reference))
    (hbetween : ∀ item ∈ between, item.Spares table (referenceKeyName table reference)) :
    Respelled table reference
      (before ++ .table table receiver call (front ++ referencesCall reference :: back) ::
        (between ++ after))
      (before ++ .table table receiver call
          (front ++ columnCall reference :: indexCall reference :: back) ::
        (between ++ .outside (addForeignKeyCall table reference) :: after))

theorem addTo_addForeignKeyCall (table reference : String) (schema : Schema) :
    (Item.outside (addForeignKeyCall table reference)).addTo schema =
      addKey table (foreignKeyOf table (reference ++ "s") (addForeignKeyCall table reference))
        schema :=
  addTo_outside schema _

/-- Where the singular of the plural is the reference, its key is the one that the block has. -/
theorem foreignKeyOf_addForeignKeyCall {table reference : String}
    (hsingular : singular (reference ++ "s") = reference) :
    foreignKeyOf table (reference ++ "s") (addForeignKeyCall table reference) =
      referenceKey table reference (reference ++ "s") := by
  change Constraint.foreignKey (Naming.foreignKey table [singular (reference ++ "s") ++ "_id"])
    ⟨[singular (reference ++ "s") ++ "_id"], _, _, _, _⟩ = _
  rw [hsingular]
  rfl

/-- Both spellings define the same, up to the order in the tables. -/
theorem Respelled.alike {table reference : String} {first second : List Item}
    (hspelled : Respelled table reference first second)
    (hsingular : singular (reference ++ "s") = reference) (schema : Schema) :
    Alike (first.foldl Item.addTo schema) (second.foldl Item.addTo schema) := by
  obtain ⟨before, receiver, call, front, back, between, after, hback, hbetween⟩ := hspelled
  have htable := alike_addKey_addTable (name_tableOf _ _ _ _)
    (tableOf_references receiver call front hback) (before.foldl Item.addTo schema)
  have hlater := alike_addKey_foldl table (referenceKey table reference (reference ++ "s"))
    hbetween (getLast?_referenceKeyName table reference) htable
  rw [List.foldl_append, List.foldl_append, List.foldl_cons, List.foldl_cons, List.foldl_append,
    List.foldl_append, List.foldl_cons, addTo_addForeignKeyCall,
    foreignKeyOf_addForeignKeyCall hsingular]
  exact hlater.foldl_addTo after

namespace Lexeme

/-- The first lexemes of a text, and where the others start; none where the text has fewer. -/
def firstLexemes? : Nat → Nat → Bool → List Char →
    Option (List Lexeme × Nat × Bool × List Char)
  | 0, line, startsLine, cs => some ([], line, startsLine, cs)
  | n + 1, line, startsLine, cs =>
    match cs.drop (gapOf false cs).length with
    | [] => none
    | c :: rest =>
      let (token, length) := scan c rest
      (firstLexemes? n (line + (c :: rest.take length).count '\n') (token == .newline)
        (rest.drop length)).map fun (more, left) => (⟨token, line, startsLine⟩ :: more, left)

/-- A text starts with its first lexemes. -/
theorem lexemes_eq_append {n line next : Nat} {startsLine nextStarts : Bool}
    {cs rest : List Char} {first : List Lexeme}
    (hfirst : firstLexemes? n line startsLine cs = some (first, next, nextStarts, rest)) :
    lexemes line startsLine cs = first ++ lexemes next nextStarts rest := by
  induction n generalizing line startsLine cs first with
  | zero =>
    cases hfirst
    rfl
  | succ n ih =>
    rw [firstLexemes?] at hfirst
    rw [lexemes]
    cases hcs : cs.drop (gapOf false cs).length with
    | nil =>
      rw [hcs] at hfirst
      cases hfirst
    | cons c inside =>
      rw [hcs] at hfirst
      obtain ⟨⟨more, left⟩, hmore, hleft⟩ := Option.map_eq_some_iff.1 hfirst
      cases hleft
      exact congrArg (_ :: ·) (ih hmore)

theorem lexemes_nil (line : Nat) (startsLine : Bool) :
    lexemes line startsLine [] = [⟨.eof, line, startsLine⟩] := by
  rw [lexemes]
  rfl

theorem lexemes_blank (line : Nat) (startsLine : Bool) (cs : List Char) :
    lexemes line startsLine (' ' :: cs) = lexemes line startsLine cs := by
  have hgap : gapOf false (' ' :: cs) = ' ' :: gapOf false cs := rfl
  rw [lexemes, hgap, List.length_cons, List.drop_succ_cons]
  conv => rhs; rw [lexemes]

end Lexeme

/-- A text between quotes as it is written: quotes and backslashes come behind a backslash. -/
def escaped : List Char → List Char
  | [] => []
  | c :: rest => if c = '"' ∨ c = '\\' then '\\' :: c :: escaped rest else c :: escaped rest

def quoted (text : String) : String := "\"" ++ String.ofList (escaped text.toList) ++ "\""

/-- A text is read back up to its quote, and no quote inside of it ends it. -/
theorem untilQuote_escaped (cs rest : List Char) :
    Lexeme.untilQuote '"' (escaped cs ++ '"' :: rest) = (cs, (escaped cs).length + 1) := by
  induction cs with
  | nil => cases rest <;> rfl
  | cons c more ih =>
    by_cases hc : c = '"' ∨ c = '\\'
    · rw [escaped, if_pos hc, List.cons_append, List.cons_append, Lexeme.untilQuote, ih]
      rcases hc with rfl | rfl <;> rfl
    · obtain ⟨hquote, hbackslash⟩ := not_or.1 hc
      obtain ⟨d, others, hmore⟩ : ∃ d others, escaped more ++ '"' :: rest = d :: others :=
        List.exists_cons_of_ne_nil (List.append_ne_nil_of_right_ne_nil _ (List.cons_ne_nil _ _))
      rw [escaped, if_neg hc, List.cons_append, hmore, Lexeme.untilQuote, if_neg hquote,
        if_neg hbackslash, ← hmore, ih]
      rfl

/-- A quoted text is read as that text, whatever comes behind it. -/
theorem lexemes_quoted (line : Nat) (startsLine : Bool) (text : String) :
    ∃ next, ∀ rest, Lexeme.lexemes line startsLine ((quoted text).toList ++ rest) =
      ⟨.string text, line, startsLine⟩ :: Lexeme.lexemes next false rest := by
  let body := escaped text.toList ++ ['"']
  refine ⟨line + ('"' :: body).count '\n', fun rest => ?_⟩
  have hquoted : (quoted text).toList ++ rest = '"' :: (body ++ rest) := by
    simp [quoted, body, String.toList_append]
  have hscan : Lexeme.scan '"' (body ++ rest) = (.string text, body.length) := by
    change (Token.string (Lexeme.scanString '"' _).1, (Lexeme.scanString '"' _).2) = _
    simp only [body, List.append_assoc, List.singleton_append, Lexeme.scanString,
      untilQuote_escaped, String.ofList_toList, List.length_append, List.length_singleton]
  have hgap : Lexeme.gapOf false ('"' :: (body ++ rest)) = [] := rfl
  rw [hquoted, Lexeme.lexemes, hgap, List.length_nil, List.drop_zero]
  simp only [hscan, List.take_left, List.drop_left]
  rfl

/-- A part of a call as it is written: a text, a list of one text, an option whose value is a word,
or a comma. -/
inductive Part where
  | text (value : String)
  | list (value : String)
  | option (key word : String)
  | comma

namespace Part

def tokens : Part → List Token
  | text value => [.string value]
  | list value => [.leftBracket, .string value, .rightBracket]
  | option key word => [.label key, .word word]
  | comma => [.comma]

def addTo (call : Call) : Part → Call
  | text value => { call with arguments := call.arguments ++ [.string value] }
  | list value => { call with arguments := call.arguments ++ [.array [.string value]] }
  | option key word => { call with options := call.options ++ [(key, wordValue word)] }
  | comma => call

end Part

/-- The call ends before these lexemes: at the end of a line or before a block. -/
def EndsCall (lexemes : List Lexeme) : Prop :=
  next lexemes = .newline ∨ next lexemes = .eof ∨ next lexemes = .word "do"

/-- A value that is no option becomes an argument. -/
theorem step_value {call : Call} {lexemes after : List Lexeme} {value : Value}
    (hnext : (∃ text, next lexemes = .string text) ∨ next lexemes = .leftBracket)
    (hvalue : readValue lexemes = (value, after)) (hafter : next after ≠ .rocket) :
    Call.step false call lexemes =
      .ok (.again { call with arguments := call.arguments ++ [value] }, after) := by
  rcases hnext with ⟨text, hnext⟩ | hnext <;>
    simp only [Call.step, hnext, hvalue, if_neg hafter]

/-- A part of a call is read in one turn. -/
theorem step_part {part : Part} {call : Call} {lexemes after : List Lexeme}
    (htokens : lexemes.map Lexeme.token = part.tokens) (hafter : next after ≠ .rocket) :
    Call.step false call (lexemes ++ after) = .ok (.again (part.addTo call), after) := by
  cases part with
  | text value =>
    obtain ⟨lexeme, rest, rfl, htoken, hrest⟩ := List.map_eq_cons_iff.1 htokens
    cases List.map_eq_nil_iff.1 hrest
    have hvalue : readValue (lexeme :: after) = (.string value, after) := by
      rw [readValue, htoken]
    exact step_value (.inl ⟨value, htoken⟩) hvalue hafter
  | list value =>
    obtain ⟨opening, rest, rfl, hopening, hrest⟩ := List.map_eq_cons_iff.1 htokens
    obtain ⟨lexeme, rest, rfl, htoken, hrest⟩ := List.map_eq_cons_iff.1 hrest
    obtain ⟨closing, rest, rfl, hclosing, hrest⟩ := List.map_eq_cons_iff.1 hrest
    cases List.map_eq_nil_iff.1 hrest
    have hitem : readValue (lexeme :: closing :: after) = (.string value, closing :: after) := by
      rw [readValue, htoken]
    have hnone : readItems (closing :: after) = ([], after) := by
      rw [readItems, hclosing]
    have hitems : readItems (lexeme :: closing :: after) = ([.string value], after) := by
      rw [readItems, htoken]
      simp only [hitem, List.length_cons, Nat.lt_succ_self, if_true, hnone]
    have hvalue : readValue (opening :: lexeme :: closing :: after) =
        (.array [.string value], after) := by
      rw [readValue, hopening]
      simp only [hitems]
    exact step_value (.inr hopening) hvalue hafter
  | option key word =>
    obtain ⟨label, rest, rfl, hlabel, hrest⟩ := List.map_eq_cons_iff.1 htokens
    obtain ⟨lexeme, rest, rfl, htoken, hrest⟩ := List.map_eq_cons_iff.1 hrest
    cases List.map_eq_nil_iff.1 hrest
    have hvalue : readValue (lexeme :: after) = (wordValue word, after) := by
      rw [readValue, htoken]
    have hnext : next (label :: lexeme :: after) = .label key := hlabel
    simp only [List.cons_append, List.nil_append, Call.step, hnext, List.tail_cons, hvalue]
    rfl
  | comma =>
    obtain ⟨lexeme, rest, rfl, htoken, hrest⟩ := List.map_eq_cons_iff.1 htokens
    cases List.map_eq_nil_iff.1 hrest
    have hnext : next (lexeme :: after) = .comma := htoken
    simp only [List.cons_append, List.nil_append, Call.step, hnext, List.tail_cons]
    rfl

/-- Neither an arrow nor a parenthesis starts a part or comes after a call. -/
theorem next_parts {parts : List Part} {lexemes after : List Lexeme}
    (htokens : lexemes.map Lexeme.token = parts.flatMap Part.tokens) (hafter : EndsCall after) :
    next (lexemes ++ after) ≠ .rocket ∧ next (lexemes ++ after) ≠ .leftParen := by
  cases parts with
  | nil =>
    cases List.map_eq_nil_iff.1 htokens
    rcases hafter with hnext | hnext | hnext <;> simp [hnext]
  | cons part more =>
    cases part <;>
      obtain ⟨lexeme, rest, rfl, htoken, -⟩ := List.map_eq_cons_iff.1 htokens <;>
      simp [next, htoken]

/-- The parts of a call are read one after the other. -/
theorem turns_parts {parts : List Part} (call : Call) {lexemes after : List Lexeme}
    (htokens : lexemes.map Lexeme.token = parts.flatMap Part.tokens) (hafter : EndsCall after) :
    Turns (Call.step false) call (lexemes ++ after) (parts.foldl Part.addTo call) after := by
  induction parts generalizing call lexemes with
  | nil =>
    cases List.map_eq_nil_iff.1 htokens
    exact .none call after
  | cons part more ih =>
    obtain ⟨first, others, rfl, hfirst, hothers⟩ := List.map_eq_append_iff.1 htokens
    have hlength : 0 < first.length := by
      rw [← List.length_map (f := Lexeme.token), hfirst]
      cases part <;> exact Nat.succ_pos _
    rw [List.append_assoc]
    refine .more (step_part hfirst (next_parts hothers hafter).1) ?_ (ih _ hothers)
    simp only [List.length_append]
    omega

/-- A call is read up to where it ends. -/
theorem read_parts (name : String) {parts : List Part} (line : Nat) (startsLine : Bool)
    {lexemes after : List Lexeme} (htokens : lexemes.map Lexeme.token = parts.flatMap Part.tokens)
    (hafter : EndsCall after) :
    Call.read (⟨.word name, line, startsLine⟩ :: (lexemes ++ after)) =
      (parts.foldl Part.addTo ⟨name, [], [], line⟩, after) := by
  have hparen := (next_parts htokens hafter).2
  have hends (call : Call) : repeatedly (Call.step false) call after = .ok (call, after) := by
    have hstep : Call.step false call after = .ok (.done call, after) := by
      rcases hafter with hnext | hnext | hnext <;> simp [Call.step, hnext]
    unfold repeatedly
    rw [hstep]
  have hread := (turns_parts ⟨name, [], [], line⟩ htokens hafter).repeatedly_eq
  rw [hends] at hread
  have hskip : skip .leftParen (lexemes ++ after) = lexemes ++ after := if_neg hparen
  have hname : next (⟨.word name, line, startsLine⟩ :: (lexemes ++ after)) = .word name := rfl
  have hline : lineOf (⟨.word name, line, startsLine⟩ :: (lexemes ++ after)) = line := rfl
  rw [Call.read]
  simp only [hname, hline, List.tail_cons, hskip, hparen, decide_false, hread]

/-! ## Blocks and files of such calls -/

section Turns

variable {name : String} {after : List Lexeme} (parts : List Part) (lexemes : List Lexeme)

/-- A line of a block is one call. -/
theorem turns_line {calls : List Call} {line dotLine : Nat} {newline receiver : Lexeme}
    (hnewline : newline.token = .newline) (hreceiver : receiver.token = .word "t")
    (htokens : lexemes.map Lexeme.token = parts.flatMap Part.tokens) (hafter : EndsCall after) :
    Turns (blockStep "t") calls
      (newline :: receiver :: ⟨.dot, dotLine, false⟩ :: ⟨.word name, line, false⟩ ::
        (lexemes ++ after))
      (calls ++ [parts.foldl Part.addTo ⟨name, [], [], line⟩]) after := by
  have hread := read_parts name line false htokens hafter
  have hskip : blockStep "t" calls (newline :: receiver :: ⟨.dot, dotLine, false⟩ ::
      ⟨.word name, line, false⟩ :: (lexemes ++ after)) = .ok (.again calls, receiver ::
        ⟨.dot, dotLine, false⟩ :: ⟨.word name, line, false⟩ :: (lexemes ++ after)) := by
    simp only [blockStep, next, hnewline, List.tail_cons]
  have hcall : blockStep "t" calls (receiver :: ⟨.dot, dotLine, false⟩ ::
      ⟨.word name, line, false⟩ :: (lexemes ++ after)) =
        .ok (.again (calls ++ [parts.foldl Part.addTo ⟨name, [], [], line⟩]), after) := by
    simp only [blockStep, next, hreceiver, List.tail_cons, hread]
    rfl
  refine .more hskip (Nat.lt_succ_self _) (.single hcall ?_)
  simp only [List.length_cons, List.length_append]
  omega

/-- A block ends with its last line. -/
theorem repeatedly_end {calls : List Call} {newline close : Lexeme}
    (hnewline : newline.token = .newline) (hclose : close.token = .word "end") :
    repeatedly (blockStep "t") calls (newline :: close :: after) = .ok (calls, after) := by
  have hskip : blockStep "t" calls (newline :: close :: after) =
      .ok (.again calls, close :: after) := by
    simp only [blockStep, next, hnewline, List.tail_cons]
  rw [(Turns.single hskip (Nat.lt_succ_self _)).repeatedly_eq]
  unfold repeatedly
  simp only [blockStep, next, hclose, List.tail_cons]
  rfl

/-- A table of a file is one item. -/
theorem turns_table {items : List Item} {table : String} {line : Nat} {body : List Call}
    {inside : List Lexeme} {newline close : Lexeme}
    (hbody : Turns (blockStep "t") [] inside body (newline :: close :: after))
    (hnewline : newline.token = .newline) (hclose : close.token = .word "end") :
    Turns itemStep items
      (⟨.word "create_table", 1, true⟩ :: ⟨.string table, 1, false⟩ :: ⟨.word "do", line, false⟩ ::
        ⟨.pipe, line, false⟩ :: ⟨.word "t", line, false⟩ :: ⟨.pipe, line, false⟩ :: inside)
      (items ++ [.table table "t" ⟨"create_table", [.string table], [], 1⟩ body]) after := by
  let block : List Lexeme := ⟨.word "do", line, false⟩ :: ⟨.pipe, line, false⟩ ::
    ⟨.word "t", line, false⟩ :: ⟨.pipe, line, false⟩ :: inside
  let lexemes : List Lexeme := ⟨.word "create_table", 1, true⟩ :: ⟨.string table, 1, false⟩ :: block
  have hread : Call.read lexemes = (⟨"create_table", [.string table], [], 1⟩, block) :=
    @read_parts "create_table" [.text table] 1 true [⟨.string table, 1, false⟩] block rfl
      (.inr (.inr rfl))
  have hreceiver : blockReceiver block.tail = ("t", inside) := rfl
  have hends := hbody.repeatedly_eq.trans (repeatedly_end hnewline hclose)
  have htable : tableAt? lexemes =
      some (.table table "t" ⟨"create_table", [.string table], [], 1⟩ body) := by
    rw [tableAt?]
    simp only [hread, hreceiver, hends]
    rfl
  have hafter : (readTable ⟨.empty, []⟩ lexemes).2 = after := by
    rw [readTable]
    simp only [hread, hreceiver, hends]
    rfl
  have hstep : itemStep items lexemes =
      .ok (.again (items ++ (tableAt? lexemes).toList), (readTable ⟨.empty, []⟩ lexemes).2) := rfl
  rw [htable, hafter] at hstep
  refine .single hstep ?_
  have hlength : after.length + 2 ≤ inside.length := hbody.length_le
  change after.length < inside.length + 6
  omega

/-- A call outside of the tables is one item. -/
theorem turns_outside {items : List Item} {line : Nat}
    (hname : topLevelCalls.contains name = true)
    (htokens : lexemes.map Lexeme.token = parts.flatMap Part.tokens) (hafter : EndsCall after) :
    Turns itemStep items (⟨.word name, line, true⟩ :: (lexemes ++ after))
      (items ++ [.outside (parts.foldl Part.addTo ⟨name, [], [], line⟩)]) after := by
  have hread := read_parts name line true htokens hafter
  have htable : (name == "create_table") = false := by
    refine beq_eq_false_iff_ne.2 ?_
    rintro rfl
    revert hname
    decide
  refine .single ?_ ?_
  · simp only [itemStep, fileStep, itemAt?, htable, hname, hread]
    rfl
  · simp only [List.length_cons, List.length_append]
    omega

/-- An empty line of a file is skipped. -/
theorem turns_newline {items : List Item} {newline : Lexeme} (hnewline : newline.token = .newline) :
    Turns itemStep items (newline :: after) items after := by
  refine .single ?_ (Nat.lt_succ_self _)
  simp only [itemStep, fileStep, itemAt?, hnewline]
  exact congrArg (fun found => Except.ok (Turn.again found, after)) (List.append_nil items)

/-- A file ends where nothing is left. -/
theorem repeatedly_eof {items : List Item} {eof : Lexeme} (heof : eof.token = .eof) :
    repeatedly itemStep items [eof] = .ok (items, [eof]) := by
  unfold repeatedly
  simp only [itemStep, fileStep, itemAt?, heof]
  exact congrArg (fun found => Except.ok (found, [eof])) (List.append_nil items)

end Turns

/-- A file with a table whose block has a reference with a foreign key. -/
def referencesFile (table reference : String) : String :=
  "create_table " ++ quoted table ++ " do |t|\n" ++
    "  t.references " ++ quoted reference ++ ", foreign_key: true\n" ++
    "end\n"

/-- A file with the same table, where the reference is spelled by its parts. -/
def foreignKeyFile (table reference : String) : String :=
  "create_table " ++ quoted table ++ " do |t|\n" ++
    "  t.bigint " ++ quoted (reference ++ "_id") ++ "\n" ++
    "  t.index [" ++ quoted (reference ++ "_id") ++ "]\n" ++
    "end\n" ++
    "\n" ++
    "add_foreign_key " ++ quoted table ++ ", " ++ quoted (reference ++ "s") ++ "\n"

/-- The first lexemes of both files. -/
theorem lexemes_createTable (table : String) :
    ∃ line, ∀ rest, Lexeme.lexemes 1 true ("create_table ".toList ++
        ((quoted table).toList ++ (" do |t|\n".toList ++ rest))) =
      ⟨.word "create_table", 1, true⟩ :: ⟨.string table, 1, false⟩ :: ⟨.word "do", line, false⟩ ::
        ⟨.pipe, line, false⟩ :: ⟨.word "t", line, false⟩ :: ⟨.pipe, line, false⟩ ::
        ⟨.newline, line, false⟩ :: Lexeme.lexemes (line + 1) true rest := by
  have hstart (rest : List Char) : Lexeme.firstLexemes? 1 1 true ("create_table ".toList ++ rest) =
      some ([⟨.word "create_table", 1, true⟩], 1, false, ' ' :: rest) := rfl
  have hblock (line : Nat) (rest : List Char) :
      Lexeme.firstLexemes? 5 line false (" do |t|\n".toList ++ rest) =
        some ([⟨.word "do", line, false⟩, ⟨.pipe, line, false⟩, ⟨.word "t", line, false⟩,
          ⟨.pipe, line, false⟩, ⟨.newline, line, false⟩], line + 1, true, rest) := rfl
  obtain ⟨line, hline⟩ := lexemes_quoted 1 false table
  refine ⟨line, fun rest => ?_⟩
  rw [Lexeme.lexemes_eq_append (hstart _), Lexeme.lexemes_blank, hline,
    Lexeme.lexemes_eq_append (hblock line rest)]
  rfl

/-- The lexemes of the file with the reference. -/
theorem ofText_referencesFile (table reference : String) :
    ∃ first second, Lexeme.ofText (referencesFile table reference) =
      [⟨.word "create_table", 1, true⟩, ⟨.string table, 1, false⟩, ⟨.word "do", first, false⟩,
        ⟨.pipe, first, false⟩, ⟨.word "t", first, false⟩, ⟨.pipe, first, false⟩,
        ⟨.newline, first, false⟩, ⟨.word "t", first + 1, true⟩, ⟨.dot, first + 1, false⟩,
        ⟨.word "references", first + 1, false⟩, ⟨.string reference, first + 1, false⟩,
        ⟨.comma, second, false⟩, ⟨.label "foreign_key", second, false⟩,
        ⟨.word "true", second, false⟩, ⟨.newline, second, false⟩,
        ⟨.word "end", second + 1, true⟩, ⟨.newline, second + 1, false⟩,
        ⟨.eof, second + 2, true⟩] := by
  have hmethod (line : Nat) (rest : List Char) :
      Lexeme.firstLexemes? 3 line true ("  t.references ".toList ++ rest) =
        some ([⟨.word "t", line, true⟩, ⟨.dot, line, false⟩, ⟨.word "references", line, false⟩],
          line, false, ' ' :: rest) := rfl
  have hends (line : Nat) : Lexeme.firstLexemes? 6 line false ", foreign_key: true\nend\n".toList =
      some ([⟨.comma, line, false⟩, ⟨.label "foreign_key", line, false⟩,
        ⟨.word "true", line, false⟩, ⟨.newline, line, false⟩, ⟨.word "end", line + 1, true⟩,
        ⟨.newline, line + 1, false⟩], line + 2, true, []) := rfl
  have hfile : (referencesFile table reference).toList =
      "create_table ".toList ++ ((quoted table).toList ++ (" do |t|\n".toList ++
        ("  t.references ".toList ++ ((quoted reference).toList ++
          ", foreign_key: true\nend\n".toList)))) := by
    unfold referencesFile
    simp only [String.toList_append, List.append_assoc]
    rfl
  obtain ⟨first, hfirst⟩ := lexemes_createTable table
  obtain ⟨second, hsecond⟩ := lexemes_quoted (first + 1) false reference
  refine ⟨first, second, ?_⟩
  rw [Lexeme.ofText, hfile, hfirst, Lexeme.lexemes_eq_append (hmethod _ _),
    Lexeme.lexemes_blank, hsecond, Lexeme.lexemes_eq_append (hends _), Lexeme.lexemes_nil]
  rfl

/-- The file has one table, with the reference in its block. -/
theorem outline_referencesFile (table reference : String) :
    outline (referencesFile table reference) =
      [.table table "t" (createTableCall table) [referencesCall reference]] := by
  obtain ⟨first, second, hlexemes⟩ := ofText_referencesFile table reference
  have hread : repeatedly itemStep [] (Lexeme.ofText (referencesFile table reference)) =
      .ok ([.table table "t" ⟨"create_table", [.string table], [], 1⟩
        [⟨"references", [.string reference], [("foreign_key", .boolean true)], first + 1⟩]],
        [⟨.eof, second + 2, true⟩]) := by
    rw [hlexemes]
    refine (Turns.repeatedly_eq ?_).trans (repeatedly_eof rfl)
    refine (turns_table (turns_line [.text reference, .comma, .option "foreign_key" "true"]
      [⟨.string reference, first + 1, false⟩, ⟨.comma, second, false⟩,
        ⟨.label "foreign_key", second, false⟩, ⟨.word "true", second, false⟩] rfl rfl rfl
        (.inl rfl)) rfl rfl).trans ?_
    exact turns_newline rfl
  exact outline_eq hread

/-- The lexemes of the file with the parts of the reference. -/
theorem ofText_foreignKeyFile (table reference : String) :
    ∃ first second third fourth fifth, Lexeme.ofText (foreignKeyFile table reference) =
      [⟨.word "create_table", 1, true⟩, ⟨.string table, 1, false⟩, ⟨.word "do", first, false⟩,
        ⟨.pipe, first, false⟩, ⟨.word "t", first, false⟩, ⟨.pipe, first, false⟩,
        ⟨.newline, first, false⟩, ⟨.word "t", first + 1, true⟩, ⟨.dot, first + 1, false⟩,
        ⟨.word "bigint", first + 1, false⟩, ⟨.string (reference ++ "_id"), first + 1, false⟩,
        ⟨.newline, second, false⟩, ⟨.word "t", second + 1, true⟩, ⟨.dot, second + 1, false⟩,
        ⟨.word "index", second + 1, false⟩, ⟨.leftBracket, second + 1, false⟩,
        ⟨.string (reference ++ "_id"), second + 1, false⟩, ⟨.rightBracket, third, false⟩,
        ⟨.newline, third, false⟩, ⟨.word "end", third + 1, true⟩, ⟨.newline, third + 1, false⟩,
        ⟨.newline, third + 2, true⟩, ⟨.word "add_foreign_key", third + 3, true⟩,
        ⟨.string table, third + 3, false⟩, ⟨.comma, fourth, false⟩,
        ⟨.string (reference ++ "s"), fourth, false⟩, ⟨.newline, fifth, false⟩,
        ⟨.eof, fifth + 1, true⟩] := by
  have hmethod (line : Nat) (rest : List Char) :
      Lexeme.firstLexemes? 3 line true ("  t.bigint ".toList ++ rest) =
        some ([⟨.word "t", line, true⟩, ⟨.dot, line, false⟩, ⟨.word "bigint", line, false⟩],
          line, false, ' ' :: rest) := rfl
  have hindex (line : Nat) (rest : List Char) :
      Lexeme.firstLexemes? 5 line false ("\n  t.index [".toList ++ rest) =
        some ([⟨.newline, line, false⟩, ⟨.word "t", line + 1, true⟩, ⟨.dot, line + 1, false⟩,
          ⟨.word "index", line + 1, false⟩, ⟨.leftBracket, line + 1, false⟩], line + 1, false,
          rest) := rfl
  have hends (line : Nat) (rest : List Char) :
      Lexeme.firstLexemes? 6 line false ("]\nend\n\nadd_foreign_key ".toList ++ rest) =
        some ([⟨.rightBracket, line, false⟩, ⟨.newline, line, false⟩,
          ⟨.word "end", line + 1, true⟩, ⟨.newline, line + 1, false⟩, ⟨.newline, line + 2, true⟩,
          ⟨.word "add_foreign_key", line + 3, true⟩], line + 3, false, ' ' :: rest) := rfl
  have hcomma (line : Nat) (rest : List Char) :
      Lexeme.firstLexemes? 1 line false (", ".toList ++ rest) =
        some ([⟨.comma, line, false⟩], line, false, ' ' :: rest) := rfl
  have hnewline (line : Nat) : Lexeme.firstLexemes? 1 line false "\n".toList =
      some ([⟨.newline, line, false⟩], line + 1, true, []) := rfl
  have hfile : (foreignKeyFile table reference).toList =
      "create_table ".toList ++ ((quoted table).toList ++ (" do |t|\n".toList ++
        ("  t.bigint ".toList ++ ((quoted (reference ++ "_id")).toList ++
          ("\n  t.index [".toList ++ ((quoted (reference ++ "_id")).toList ++
            ("]\nend\n\nadd_foreign_key ".toList ++ ((quoted table).toList ++ (", ".toList ++
              ((quoted (reference ++ "s")).toList ++ "\n".toList)))))))))) := by
    unfold foreignKeyFile
    simp only [String.toList_append, List.append_assoc]
    rfl
  obtain ⟨first, hfirst⟩ := lexemes_createTable table
  obtain ⟨second, hsecond⟩ := lexemes_quoted (first + 1) false (reference ++ "_id")
  obtain ⟨third, hthird⟩ := lexemes_quoted (second + 1) false (reference ++ "_id")
  obtain ⟨fourth, hfourth⟩ := lexemes_quoted (third + 3) false table
  obtain ⟨fifth, hfifth⟩ := lexemes_quoted fourth false (reference ++ "s")
  refine ⟨first, second, third, fourth, fifth, ?_⟩
  rw [Lexeme.ofText, hfile, hfirst, Lexeme.lexemes_eq_append (hmethod _ _),
    Lexeme.lexemes_blank, hsecond, Lexeme.lexemes_eq_append (hindex _ _), hthird,
    Lexeme.lexemes_eq_append (hends _ _), Lexeme.lexemes_blank, hfourth,
    Lexeme.lexemes_eq_append (hcomma _ _), Lexeme.lexemes_blank, hfifth,
    Lexeme.lexemes_eq_append (hnewline _), Lexeme.lexemes_nil]
  rfl

/-- The file has the table with the column and the index, and the key outside of it. -/
theorem outline_foreignKeyFile (table reference : String) :
    outline (foreignKeyFile table reference) =
      [.table table "t" (createTableCall table) [columnCall reference, indexCall reference],
        .outside (addForeignKeyCall table reference)] := by
  obtain ⟨first, second, third, fourth, fifth, hlexemes⟩ := ofText_foreignKeyFile table reference
  let column := reference ++ "_id"
  let target := reference ++ "s"
  have hread : repeatedly itemStep [] (Lexeme.ofText (foreignKeyFile table reference)) =
      .ok ([.table table "t" ⟨"create_table", [.string table], [], 1⟩
        [⟨"bigint", [.string column], [], first + 1⟩,
          ⟨"index", [.array [.string column]], [], second + 1⟩],
        .outside ⟨"add_foreign_key", [.string table, .string target], [], third + 3⟩],
        [⟨.eof, fifth + 1, true⟩]) := by
    rw [hlexemes]
    -- A block of two calls, the empty line behind it, and the call outside.
    refine (Turns.repeatedly_eq ?_).trans (repeatedly_eof rfl)
    refine (turns_table ((turns_line [.text column] [⟨.string column, first + 1, false⟩] rfl rfl
      rfl (.inl rfl)).trans (turns_line [.list column] [⟨.leftBracket, second + 1, false⟩,
        ⟨.string column, second + 1, false⟩, ⟨.rightBracket, third, false⟩] rfl rfl rfl
        (.inl rfl))) rfl rfl).trans ?_
    refine (turns_newline rfl).trans ((turns_newline rfl).trans ?_)
    exact (turns_outside [.text table, .comma, .text target] [⟨.string table, third + 3, false⟩,
      ⟨.comma, fourth, false⟩, ⟨.string target, fourth, false⟩] (by decide) rfl
      (.inl rfl)).trans (turns_newline rfl)
  exact outline_eq hread

/-! ## Equal schemas -/

/-- The two files differ in the spelling of the reference only. -/
theorem respelled_files (table reference : String) :
    Respelled table reference (outline (referencesFile table reference))
      (outline (foreignKeyFile table reference)) := by
  rw [outline_referencesFile, outline_foreignKeyFile]
  exact .intro [] "t" (createTableCall table) [] [] [] [] nofun nofun

/-- The names of keys tell their references apart. -/
theorem foreignKey_inj {table first second : String}
    (hsame : Naming.foreignKey table [first ++ "_id"] = Naming.foreignKey table [second ++ "_id"]) :
    first = second := by
  change table ++ "_" ++ (first ++ "_id") ++ "_fkey" = table ++ "_" ++ (second ++ "_id") ++ "_fkey"
    at hsame
  simpa only [String.append_left_inj, String.append_right_inj] using hsame

/-- The file with the reference has its key under the name for the reference. -/
theorem constraint?_referencesFile (table reference : String) :
    (Schema.ofSchemaRb (referencesFile table reference)).schema.constraint? table
        (referenceKeyName table reference) =
      some (referenceKey table reference (reference ++ "s")) := by
  have hsame := (@tableOf_references table reference "t" (createTableCall table) [] []
    nofun).constraints (referenceKeyName table reference)
  rw [schema_ofSchemaRb, outline_referencesFile]
  simp only [List.foldl_cons, List.foldl_nil, Item.addTo, Schema.constraint?, Schema.addTable,
    name_tableOf, Keyed.get?_insert, if_true, Option.bind_some]
  exact hsame.trans ((Keyed.get?_insert _ _ _ _).trans (if_pos rfl))

/-- The other file has no constraint of that name, unless the singular of the plural is the
reference. -/
theorem constraint?_foreignKeyFile {table reference : String}
    (hsingular : singular (reference ++ "s") ≠ reference) :
    (Schema.ofSchemaRb (foreignKeyFile table reference)).schema.constraint? table
      (referenceKeyName table reference) = none := by
  let plain := (tableOf table "t" (createTableCall table)
    [columnCall reference, indexCall reference]).1
  have hplain : plain.constraints.get? (referenceKeyName table reference) = none :=
    (Keyed.get?_insert _ _ _ _).trans (if_neg (primaryKey_ne_referenceKeyName table reference))
  have hname : (foreignKeyOf table (reference ++ "s") (addForeignKeyCall table reference)).name ≠
      referenceKeyName table reference := fun hsame => hsingular (foreignKey_inj hsame)
  rw [schema_ofSchemaRb, outline_foreignKeyFile, List.foldl_cons, List.foldl_cons, List.foldl_nil,
    addTo_addForeignKeyCall]
  simp only [Item.addTo, Schema.constraint?, addKey, editTable, Schema.addTable, name_tableOf,
    Keyed.get?_update, Keyed.get?_insert, if_true, Option.map_some, Option.bind_some]
  exact ((Keyed.get?_insert _ _ _ _).trans (if_neg hname)).trans hplain

/-- The two spellings of a reference define the same, wherever they stand in files that are the same
otherwise, unless the plural of the reference ends in `ies`.  Where it does, files with nothing else
in them differ. -/
theorem references_respelled (table reference : String) :
    (∀ first second : String, Respelled table reference (outline first) (outline second) →
      ¬ ['i', 'e'] <:+ reference.toList →
        ((Schema.ofSchemaRb first).schema == (Schema.ofSchemaRb second).schema) = true) ∧
    (((Schema.ofSchemaRb (referencesFile table reference)).schema ==
      (Schema.ofSchemaRb (foreignKeyFile table reference)).schema) = true ↔
        ¬ ['i', 'e'] <:+ reference.toList) := by
  have hequal (first second : String)
      (hspelled : Respelled table reference (outline first) (outline second))
      (hending : ¬ ['i', 'e'] <:+ reference.toList) :
      ((Schema.ofSchemaRb first).schema == (Schema.ofSchemaRb second).schema) = true := by
    rw [schema_ofSchemaRb, schema_ofSchemaRb]
    exact (hspelled.alike ((singular_plural_eq_iff reference).2 hending) .empty).beq
  refine ⟨hequal, fun hsame hending => ?_, hequal _ _ (respelled_files table reference)⟩
  have hsingular : singular (reference ++ "s") ≠ reference := fun hword =>
    (singular_plural_eq_iff reference).1 hword hending
  have hkey := Schema.constraint?_of_beq hsame table (referenceKeyName table reference)
  rw [constraint?_referencesFile, constraint?_foreignKeyFile hsingular] at hkey
  cases hkey

/-- The reference to a user is respelled, and the one to a movie is not. -/
theorem references_respelled_user_movie :
    ((Schema.ofSchemaRb (referencesFile "posts" "user")).schema ==
      (Schema.ofSchemaRb (foreignKeyFile "posts" "user")).schema) = true ∧
    ((Schema.ofSchemaRb (referencesFile "posters" "movie")).schema ==
      (Schema.ofSchemaRb (foreignKeyFile "posters" "movie")).schema) = false :=
  ⟨(references_respelled "posts" "user").1 _ _ (respelled_files "posts" "user") (by decide),
    Bool.eq_false_iff.2 fun hsame =>
      (references_respelled "posters" "movie").2.1 hsame (by decide)⟩

end SchemaEvolution.SchemaRb
