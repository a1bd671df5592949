import SchemaEvolution.Proofs.Schema.StaysKeyed
import SchemaEvolution.Repeated
import SchemaEvolution.Sql.Import

/-!
# Scripts give well-keyed schemas

Whatever a script contains, each of its statements keeps the schema well keyed: a statement that
is understood stores what it defines under the name it has, and one that is not leaves the schema
as it was.  Nothing is asked of the lexemes, so this holds of unfinished statements and of whatever
is read after an error as well.
-/

namespace SchemaEvolution.Sql

variable {line : Option Nat} {schema next : Schema} {lexemes rest : List Lexeme}

theorem TableClause.staysKeyed_addTo (clause : TableClause) (label : Option String)
    (table : Table) : table.StaysKeyed (clause.addTo label table) := by
  cases clause with
  | primaryKey columns => exact table.staysKeyed_addKey columns _
  | unique _ | foreignKey _ _ | check _ => exact table.staysKeyed_addConstraint _

theorem ColumnDefinition.staysKeyed_addTo (d : ColumnDefinition) (table : Table) :
    table.StaysKeyed (d.addTo table) :=
  (Table.staysKeyed_foldl Table.staysKeyed_addConstraint _ table).trans
    (Table.staysKeyed_addColumn _ _)

namespace TableDefinition

theorem table_addClause (d : TableDefinition) (label : Option String)
    (clause : Option TableClause) : (d.addClause label clause).table = d.table := by
  cases clause <;> rfl

/-- An element of a table changes the table only where it defines a column. -/
theorem element_staysKeyed {d : TableDefinition} {turn : Turn TableDefinition}
    (hread : element line d lexemes = .ok (turn, rest)) :
    d.table.StaysKeyed turn.state.table := by
  rw [element] at hread
  split at hread
  -- the closing parenthesis, a comma, three ways to break off, five openings of a constraint, and
  -- whatever else a lexeme may be
  case h_1 | h_2 =>
    cases hread
    exact .refl _
  case h_3 | h_4 | h_5 => cases hread
  case h_6 | h_7 | h_8 | h_9 | h_10 =>
    obtain ⟨⟨clause, after⟩, -, hturn⟩ := exists_of_bind_eq_ok hread
    cases hturn
    exact table_addClause d _ clause ▸ .refl _
  case h_11 =>
    split at hread
    · cases hread
      exact .refl _
    · split at hread
      · obtain ⟨⟨definition, after⟩, -, hturn⟩ := exists_of_bind_eq_ok hread
        cases hturn
        exact definition.staysKeyed_addTo d.table
      · cases hread
        exact .refl _

/-- The constraints of a table come after all of its elements. -/
theorem staysKeyed_finish (d : TableDefinition) : d.table.StaysKeyed d.finish :=
  Table.staysKeyed_foldl (fun table clause => clause.2.staysKeyed_addTo clause.1 table) _ _

theorem elements_staysKeyed {d after : TableDefinition}
    (hread : repeatedly (element line) d lexemes = .ok (after, rest)) :
    d.table.StaysKeyed after.finish :=
  have helements : d.table.StaysKeyed after.table :=
    repeatedly_keeps (fun reached : TableDefinition => d.table.StaysKeyed reached.table)
      (fun _ _ _ _ hreached helement => hreached.trans (element_staysKeyed helement))
      (.refl _) hread
  helements.trans after.staysKeyed_finish

end TableDefinition

/-- A table that is read is stored under its name, as are its columns and constraints. -/
theorem createTable_wellKeyed (hkeyed : schema.WellKeyed)
    (hread : createTable line schema lexemes = .ok (next, rest)) : next.WellKeyed := by
  simp only [createTable] at hread
  split at hread
  · cases hread
  · next name inside _ =>
    split at hread
    · cases hread
      exact hkeyed
    · obtain ⟨⟨d, after⟩, helements, hnext⟩ := exists_of_bind_eq_ok hread
      dsimp only at hnext
      split at hnext
      · cases hnext
      · cases hnext
        exact hkeyed.addTable
          ((TableDefinition.elements_staysKeyed helements).wellKeyed (Table.wellKeyed_empty name))

/-- An index is stored under its name. -/
theorem createIndex_wellKeyed (hkeyed : schema.WellKeyed)
    (hread : createIndex line schema lexemes = .ok (next, rest)) : next.WellKeyed := by
  simp only [createIndex] at hread
  split at hread
  · cases hread
  · split at hread
    · cases hread
    · obtain ⟨⟨columns, after⟩, -, hnext⟩ := exists_of_bind_eq_ok hread
      dsimp only at hnext
      split at hnext
      · cases hnext
      · cases hnext
        exact hkeyed.updateTable _ fun table => table.staysKeyed_addIndex _

/-- A type is stored under its name. -/
theorem createType_wellKeyed (hkeyed : schema.WellKeyed)
    (hread : createType line schema lexemes = .ok (next, rest)) : next.WellKeyed := by
  rw [createType] at hread
  split at hread
  · cases hread
  · split at hread
    · cases hread
      exact hkeyed
    · split at hread
      · cases hread
        exact hkeyed
      · split at hread
        · cases hread
          exact hkeyed.addEnum _
        · obtain ⟨⟨values, after⟩, -, hnext⟩ := exists_of_bind_eq_ok hread
          cases hnext
          exact hkeyed.addEnum _

theorem createExtension_wellKeyed (hkeyed : schema.WellKeyed)
    (hread : createExtension line schema lexemes = .ok (next, rest)) : next.WellKeyed := by
  simp only [createExtension] at hread
  split at hread
  · cases hread
  · obtain ⟨⟨extension, after⟩, -, hnext⟩ := exists_of_bind_eq_ok hread
    cases hnext
    exact hkeyed.addExtension extension

/-- What is created is stored under its name. -/
theorem create_wellKeyed (hkeyed : schema.WellKeyed)
    (hread : create schema lexemes = .ok (next, rest)) : next.WellKeyed := by
  simp only [create] at hread
  split at hread
  · exact createTable_wellKeyed hkeyed hread
  · exact createIndex_wellKeyed hkeyed hread
  · exact createIndex_wellKeyed hkeyed hread
  · exact createType_wellKeyed hkeyed hread
  · exact createExtension_wellKeyed hkeyed hread
  · cases hread
    exact hkeyed

/-- No change of a column gives it another name. -/
theorem staysKeyed_alterColumn (table : Table) (column : String) (lexemes : List Lexeme) :
    table.StaysKeyed (alterColumn table column lexemes).1 := by
  have hchange {change : Column → Column} (hname : ∀ found, (change found).name = found.name) :=
    table.staysKeyed_updateColumn column hname
  simp only [alterColumn]
  split
  · exact .refl table
  · split
    · split
      · exact hchange fun _ => rfl
      · split
        · exact hchange fun _ => rfl
        · exact .refl table
    · exact hchange fun _ => rfl
    · split
      · exact .refl table
      · exact hchange fun _ => rfl
    · exact .refl table

/-- An action of an alteration keeps the keys of its table. -/
theorem alterAction_staysKeyed {table after : Table}
    (hread : alterAction table lexemes = .ok (after, rest)) : table.StaysKeyed after := by
  simp only [alterAction] at hread
  split at hread
  · split at hread
    case h_1 | h_2 | h_3 | h_4 | h_5 =>
      obtain ⟨⟨clause, after⟩, -, hafter⟩ := exists_of_bind_eq_ok hread
      cases hafter
      cases clause with
      | none => exact .refl table
      | some clause => exact clause.staysKeyed_addTo _ table
    case h_6 =>
      obtain ⟨⟨definition, after⟩, -, hafter⟩ := exists_of_bind_eq_ok hread
      cases hafter
      exact definition.staysKeyed_addTo table
  · obtain ⟨hafter, -⟩ := Prod.mk.inj (Except.ok.inj hread)
    exact hafter ▸ staysKeyed_alterColumn table _ _
  · cases hread
    exact .refl table

theorem alterStep_staysKeyed {table : Table} {turn : Turn Table}
    (hread : alterStep table lexemes = .ok (turn, rest)) : table.StaysKeyed turn.state := by
  obtain ⟨⟨after, left⟩, haction, hturn⟩ := exists_of_bind_eq_ok hread
  have hafter := alterAction_staysKeyed haction
  dsimp only at hturn
  split at hturn
  all_goals
    cases hturn
    exact hafter

theorem actions_staysKeyed {table after : Table}
    (hread : repeatedly alterStep table lexemes = .ok (after, rest)) : table.StaysKeyed after :=
  repeatedly_keeps table.StaysKeyed
    (fun _ _ _ _ hreached hstep => hreached.trans (alterStep_staysKeyed hstep)) (.refl table) hread

/-- The copy that the actions have changed takes the place of the table. -/
theorem alter_wellKeyed (hkeyed : schema.WellKeyed)
    (hread : alter line schema lexemes = .ok (next, rest)) : next.WellKeyed := by
  simp only [alter] at hread
  split at hread
  · cases hread
    exact hkeyed
  · split at hread
    · cases hread
    · split at hread
      · cases hread
      · next table htable =>
        obtain ⟨⟨after, left⟩, hactions, hnext⟩ := exists_of_bind_eq_ok hread
        cases hnext
        exact hkeyed.addTable ((actions_staysKeyed hactions).wellKeyed (hkeyed.table htable))

/-- A comment does not move what it describes. -/
theorem addComment_wellKeyed (hkeyed : schema.WellKeyed) {target : Token} {parts : List String}
    {comment : Option String} (hadd : addComment schema target parts comment = .ok next) :
    next.WellKeyed := by
  have hlevels := (Schema.wellKeyed_iff_keyedWith schema).1 hkeyed
  unfold addComment at hadd
  split at hadd
  · split at hadd
    · cases hadd
      exact hkeyed.updateTable _ fun table => table.staysKeyed_comment comment
    · cases hadd
  · split at hadd
    · cases hadd
      exact hkeyed
    · split at hadd
      · cases hadd
      · next table htable =>
        split at hadd
        · cases hadd
          -- the change puts back the columns of the table that was looked up, so it is their
          -- names that count, not those of the table that is changed
          have hcolumns := ((Table.wellKeyed_iff_holds table).1 (hkeyed.table htable)).1
          exact hkeyed.updateTable _ fun found => Table.staysKeyed_columns fun _ =>
            hcolumns.update _ fun column hname => hname
        · cases hadd
  · cases hadd
    rw [Schema.wellKeyed_iff_keyedWith]
    exact ⟨hlevels.1, hlevels.2.1.update _ fun type hname => hname, hlevels.2.2⟩
  · cases hadd
    rw [Schema.wellKeyed_iff_keyedWith]
    exact ⟨hlevels.1, hlevels.2.1, hlevels.2.2.update _ fun extension hname => hname⟩
  · cases hadd
    exact hkeyed

theorem comment_wellKeyed (hkeyed : schema.WellKeyed)
    (hread : comment line schema lexemes = .ok (next, rest)) : next.WellKeyed := by
  simp only [comment] at hread
  split at hread
  · cases hread
    exact hkeyed
  · split at hread
    · cases hread
    · split at hread
      · next hadd =>
        cases hread
        exact addComment_wellKeyed hkeyed hadd
      · cases hread

/-! ## Scripts -/

theorem statement_wellKeyed (hkeyed : schema.WellKeyed)
    (hread : statement schema lexemes = .ok (next, rest)) : next.WellKeyed := by
  rw [statement] at hread
  split at hread
  · exact create_wellKeyed hkeyed hread
  · exact alter_wellKeyed hkeyed hread
  · exact comment_wellKeyed hkeyed hread
  · cases hread
    exact hkeyed

/-- A statement that is refused leaves the schema as it was. -/
theorem scriptStep_wellKeyed {state : Import} {turn : Turn Import}
    (hkeyed : state.schema.WellKeyed) (hstep : scriptStep state lexemes = .ok (turn, rest)) :
    turn.state.schema.WellKeyed := by
  rw [scriptStep] at hstep
  split at hstep
  · cases hstep
    exact hkeyed
  · split at hstep
    · next hread =>
      cases hstep
      exact statement_wellKeyed hkeyed hread
    · cases hstep
      exact hkeyed

theorem resolveReferences_wellKeyed (hkeyed : schema.WellKeyed) :
    (resolveReferences schema).WellKeyed := by
  refine hkeyed.mapTables fun table => Table.staysKeyed_constraints fun hconstraints => ?_
  refine hconstraints.map fun key constraint hname => ?_
  rw [← hname]
  split
  · split <;> rfl
  · rfl

theorem ofSql_wellKeyed (script : String) : (Schema.ofSql script).schema.WellKeyed := by
  rw [Schema.ofSql]
  split
  next result rest hread =>
  have hresult : result.schema.WellKeyed :=
    repeatedly_keeps (fun state : Import => state.schema.WellKeyed)
      (fun _ _ _ _ hkeyed hstep => scriptStep_wellKeyed hkeyed hstep)
      Schema.wellKeyed_empty hread
  exact resolveReferences_wellKeyed hresult

end SchemaEvolution.Sql
