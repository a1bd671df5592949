import SchemaEvolution.Proofs.Sql.Progress
import SchemaEvolution.Proofs.Sql.TokenRow

/-!
# Reading the statement of a table

Lexemes that begin with the tokens of a part of a statement are read as that part, up to what
follows it.  Of a column and of a constraint this says under which names the constraints are that
they declare.
-/

namespace SchemaEvolution.Sql

open Syntax

variable {token : Token} {tokens : List Token} {rest lexemes : List Lexeme}

/-- A row of parts is read part by part where every part is read in one turn. -/
theorem turns_row {α σ ω : Type} {step : σ → List Lexeme → Except Halt (Turn σ × List Lexeme)}
    {marked : α → Marked} {fits : α → List Token → Prop} (view : σ → ω) (effect : ω → α → ω)
    (hsome : ∀ part, (marked part).tokens ≠ [])
    (hpart : ∀ part state rest lexemes, fits part (rest.map Lexeme.token) →
      Begins (marked part).tokens rest lexemes →
        ∃ after, step state lexemes = .ok (.again after, rest) ∧
          view after = effect (view state) part)
    (state : σ) {parts : List α} (hfits : RowFits marked fits parts (rest.map Lexeme.token))
    (hbegins : Begins (row marked parts).tokens rest lexemes) :
    ∃ after, Turns step state lexemes after rest ∧
      view after = parts.foldl effect (view state) := by
  induction parts generalizing state lexemes with
  | nil =>
    obtain rfl := begins_nil_iff.1 hbegins
    exact ⟨state, .none _ _, rfl⟩
  | cons part more ih =>
    rw [row_cons, tokens_append] at hbegins
    obtain ⟨middle, hfirst, hmore⟩ := hbegins.split
    obtain ⟨hfit, hfits⟩ := hfits
    rw [← hmore.tokens_eq] at hfit
    obtain ⟨next, hturn, hnext⟩ := hpart part state middle lexemes hfit hfirst
    obtain ⟨after, hturns, hafter⟩ := ih next hfits hmore
    exact ⟨after, .more hturn (hfirst.length_lt (hsome part)) hturns,
      by rw [hafter, hnext, List.foldl_cons]⟩

section Written

variable {α σ : Type} (marked : α → Marked) (apply : α → List Lexeme → σ → σ)

/-- What the parts of a row do one after the other, each with the lexemes it is written in. -/
def applyRow : List α → List Lexeme → σ → σ
  | [], _, state => state
  | part :: more, taken, state =>
    applyRow more (taken.drop (marked part).tokens.length)
      (apply part (taken.take (marked part).tokens.length) state)

variable {marked apply}

theorem applyRow_append {parts more : List α} {taken : List Lexeme} {state : σ} :
    applyRow marked apply (parts ++ more) taken state =
      applyRow marked apply more (taken.drop (row marked parts).tokens.length)
        (applyRow marked apply parts (taken.take (row marked parts).tokens.length) state) := by
  induction parts generalizing taken state with
  | nil => rfl
  | cons part others ih =>
    rw [List.cons_append, applyRow, ih, applyRow, row_cons, tokens_append, List.length_append,
      List.drop_drop, List.take_take, List.drop_take, Nat.min_eq_left (Nat.le_add_right _ _),
      Nat.add_sub_cancel_left]

/-- What a row does is independent of the lines on which it stands. -/
theorem applyRow_of_alike {parts : List α} {taken taken' : List Lexeme} {state : σ}
    (hsame : ∀ part taken taken' state, List.Forall₂ Lexeme.Alike taken taken' →
      apply part taken state = apply part taken' state)
    (halike : List.Forall₂ Lexeme.Alike taken taken') :
    applyRow marked apply parts taken state = applyRow marked apply parts taken' state := by
  induction parts generalizing taken taken' state with
  | nil => rfl
  | cons part more ih =>
    rw [applyRow, applyRow, hsame part _ _ state (List.forall₂_take _ halike)]
    exact ih (List.forall₂_drop _ halike)

/-- A row that is written is read part by part into what its parts do. -/
theorem turns_applyRow {step : σ → List Lexeme → Except Halt (Turn σ × List Lexeme)}
    {fits : α → List Token → Prop} (hsome : ∀ part, (marked part).tokens ≠ [])
    (hpart : ∀ part state taken rest, fits part (rest.map Lexeme.token) →
      Spells (marked part).tokens taken →
        step state (taken ++ rest) = .ok (.again (apply part taken state), rest))
    (state : σ) {parts : List α} {taken : List Lexeme}
    (hfits : RowFits marked fits parts (rest.map Lexeme.token))
    (hspells : Spells (row marked parts).tokens taken) :
    Turns step state (taken ++ rest) (applyRow marked apply parts taken state) rest := by
  induction parts generalizing state taken with
  | nil =>
    obtain rfl := List.map_eq_nil_iff.1 hspells.1
    exact .none _ _
  | cons part more ih =>
    rw [row_cons, tokens_append] at hspells
    obtain ⟨hfit, hfits⟩ := hfits
    rw [← (hspells.drop.begins rest).tokens_eq] at hfit
    have hturn := hpart part state _ _ hfit hspells.take
    have hshorter := (hspells.take.begins
      (taken.drop (marked part).tokens.length ++ rest)).length_lt (hsome part)
    have hturns := Turns.more hturn hshorter (ih _ hfits hspells.drop)
    rw [← List.append_assoc, List.take_append_drop] at hturns
    exact hturns

end Written

theorem exists_of_isWord {word : String} (hword : token.isWord word = true) :
    ∃ spelling, token = .word spelling ∧ spelling.toLower = word := by
  cases token with
  | word spelling => exact ⟨spelling, rfl, beq_iff_eq.1 hword⟩
  | _ => cases hword

/-- No token is two words. -/
theorem isWord_of_isWord {word other : String} (hword : token.isWord word = true)
    (hne : word ≠ other) : token.isWord other = false := by
  obtain ⟨spelling, rfl, rfl⟩ := exists_of_isWord hword
  exact beq_eq_false_iff_ne.2 hne

theorem exists_of_isOneOf {words : List String} (hword : token.isOneOf words = true) :
    ∃ word ∈ words, token.isWord word = true := List.any_eq_true.1 hword

/-! ## References -/

namespace Syntax

def Action.value : Action → ForeignKeyAction
  | .cascade => .cascade
  | .restrict => .restrict
  | .set _ .null _ => .setNull
  | .set _ _ _ => .setDefault
  | .none _ _ => .noAction

def ReferenceOption.apply (reference : Reference) : ReferenceOption → Reference
  | .on .delete action => { reference with onDelete := action.value }
  | .on _ action => { reference with onUpdate := action.value }
  | .matching _ _ | .timing _ | .notDeferrable _ => reference

def Target.reference (target : Target) : Reference :=
  target.options.foldl ReferenceOption.apply
    ⟨target.table.name, (target.columns.getD []).filterMap Token.name?, .noAction, .noAction⟩

end Syntax

/-- An action is read as it is written, if what follows fits. -/
theorem Begins.readAction {action : Action} (hfits : action.Fits (rest.map Lexeme.token))
    (hbegins : Begins action.marked.tokens rest lexemes) :
    readAction lexemes = (action.value, rest) := by
  cases action with
  | cascade =>
    have hword : Begins [.keyword .cascade] rest lexemes := hbegins
    simp only [Sql.readAction, hword.next, hword.tail_eq, Action.value]
  | restrict =>
    have hword : Begins [.keyword .restrict] rest lexemes := hbegins
    simp only [Sql.readAction, hword.next, hword.tail_eq, Action.value]
  | none no action =>
    obtain ⟨hno, haction⟩ := hfits
    have hwords : Begins [no, action] rest lexemes := hbegins
    have hset := isWord_of_isWord hno (by decide : "no" ≠ "set")
    obtain ⟨spelling, rfl, -⟩ := exists_of_isWord hno
    simp only [Sql.readAction, hwords.next, hset, hno, Bool.false_eq_true, if_false, if_true,
      skipWord, hwords.tail.next, haction, hwords.tail.tail_eq, Action.value]
  | set word value columns =>
    obtain ⟨hset, hvalue, hcolumns, hbehind⟩ := hfits
    rw [Action.marked, tokens_append, tokens_seen] at hbegins
    have hgroup : (if Sql.next lexemes.tail.tail = .leftParen then Sql.skipGroup lexemes.tail.tail
        else lexemes.tail.tail) = rest := by
      have hafter : Begins (Marked.tokens (columns.elim [] group)) rest lexemes.tail.tail :=
        hbegins.tail.tail
      cases columns with
      | none =>
        obtain heq := begins_nil_iff.1 hafter
        rw [heq, if_neg (next_ne_of_head? (hbehind rfl) (by rintro ⟨⟩))]
      | some inside =>
        have hinside : Begins (group inside).tokens rest lexemes.tail.tail := hafter
        have hopening := hinside
        rw [tokens_group] at hopening
        rw [if_pos hopening.next, hinside.skipGroup (hcolumns inside rfl)]
    have hword : Sql.next lexemes = word := hbegins.next
    have hnext : Sql.next lexemes.tail = .keyword value := hbegins.tail.next
    obtain ⟨spelling, rfl, -⟩ := exists_of_isWord hset
    rcases hvalue with rfl | rfl
    · simp only [Sql.readAction, hword, hset, hnext, if_true, hgroup, Action.value]
    · simp only [Sql.readAction, hword, hset, hnext, if_true, hgroup, Action.value]

/-- An option of a reference is one step of the loop over them. -/
theorem Begins.referenceOption {option : Syntax.ReferenceOption}
    (hfits : option.Fits (rest.map Lexeme.token))
    (hbegins : Begins option.marked.tokens rest lexemes) (reference : Reference) :
    referenceOption reference lexemes = .ok (.again (option.apply reference), rest) := by
  have hword : ∀ {token : Token} {word : String}, token.isWord word = true →
      ∀ known, token ≠ .keyword known := by
    rintro token word hword known rfl
    cases hword
  cases option with
  | on event action =>
    obtain ⟨hevent, haction⟩ := hfits
    have hon : Begins (.keyword .on :: .keyword event :: action.marked.tokens) rest lexemes := by
      simpa [ReferenceOption.marked] using hbegins
    have hread := hon.tail.tail.readAction haction
    rcases hevent with rfl | rfl
    · simp only [Sql.referenceOption, hon.next, hon.tail.next, if_true, hread]
      rfl
    · simp only [Sql.referenceOption, hon.next, hon.tail.next, if_true, hread]
      rfl
  | matching word kind =>
    have hmatch : Begins [word, kind] rest lexemes := hbegins
    simp only [Sql.referenceOption, hmatch.next, if_neg (hword hfits.1 _), hfits.1, if_true,
      hmatch.tail.tail_eq, ReferenceOption.apply]
  | timing word =>
    have htiming : Begins [word] rest lexemes := hbegins
    obtain ⟨spelling, hmem, hspelling⟩ := exists_of_isOneOf hfits
    have hmatch : word.isWord "match" = false := by
      refine isWord_of_isWord hspelling ?_
      rintro rfl
      exact absurd hmem (by decide)
    have hone : word.isOneOf ["deferrable", "initially", "deferred", "immediate"] = true := hfits
    simp only [Sql.referenceOption, htiming.next, if_neg (hword hspelling _), hmatch,
      Bool.false_eq_true, if_false, hone, if_true, htiming.tail_eq, ReferenceOption.apply]
  | notDeferrable word =>
    have hnot : Begins [.keyword .not, word] rest lexemes := hbegins
    have hdeferrable : word.isWord "deferrable" = true := hfits
    simp only [Sql.referenceOption, hnot.next, hnot.tail.next, hdeferrable, hnot.tail.tail_eq]
    rfl

/-- Where no option starts, a reference is over. -/
theorem referenceOption_done (hstarts : ReferenceOption.starts (lexemes.map Lexeme.token) = false)
    (reference : Reference) :
    referenceOption reference lexemes = .ok (.done reference, lexemes) := by
  cases lexemes with
  | nil => rfl
  | cons first more =>
    simp only [List.map_cons, ReferenceOption.starts, Bool.or_eq_false_iff, decide_eq_false_iff_not,
      ← next_eq_head?] at hstarts
    obtain ⟨⟨⟨hon, hmatch⟩, htiming⟩, hnot⟩ := hstarts
    have hfirst : next (first :: more) = first.token := rfl
    have hone : first.token.isOneOf ["deferrable", "initially", "deferred", "immediate"] = false :=
      htiming
    simp only [Sql.referenceOption, hfirst, if_neg hon, hmatch, hone, Bool.false_eq_true, if_false,
      List.tail_cons, hnot]

theorem ReferenceOption.tokens_ne_nil (option : Syntax.ReferenceOption) :
    option.marked.tokens ≠ [] := by
  cases option <;> exact List.cons_ne_nil _ _

theorem tokens_target (target : Target) :
    target.marked.tokens = target.table.tokens ++
      (Marked.tokens (target.columns.elim [] group) ++
        (row ReferenceOption.marked target.options).tokens) := by
  rw [Target.marked, tokens_append, tokens_append, tokens_seen]

/-- A reference is read as it is written, if what follows fits. -/
theorem Begins.readReference {target : Target} (hfits : target.Fits (rest.map Lexeme.token))
    (hbegins : Begins target.marked.tokens rest lexemes) :
    readReference lexemes = .ok (target.reference, rest) := by
  rw [tokens_target] at hbegins
  obtain ⟨behindTable, htable, hbehindTable⟩ := hbegins.split
  obtain ⟨behindColumns, hcolumns, hoptions⟩ := hbehindTable.split
  have hlist : Sql.next behindTable ≠ .dot ∧ Sql.nameList behindTable =
      ((target.columns.getD []).filterMap Token.name?, behindColumns) := by
    cases hcase : target.columns with
    | none =>
      rw [hcase] at hcolumns
      obtain rfl := begins_nil_iff.1 hcolumns
      obtain ⟨hdot, hparen⟩ := hfits.behindTable hcase
      rw [← hoptions.tokens_eq] at hdot hparen
      exact ⟨next_ne_of_head? hdot (by rintro ⟨⟩),
        nameList_of_next_ne (next_ne_of_head? hparen (by rintro ⟨⟩))⟩
    | some inside =>
      rw [hcase] at hcolumns
      have hgroup : Begins (group inside).tokens behindColumns behindTable := hcolumns
      have hopening := hgroup
      rw [tokens_group] at hopening
      exact ⟨by rw [hopening.next]; rintro ⟨⟩, hgroup.nameList (hfits.columns inside hcase)⟩
  obtain ⟨hdot, hnames⟩ := hlist
  obtain ⟨reference, hturns, hreference⟩ := turns_row id ReferenceOption.apply
    ReferenceOption.tokens_ne_nil
    (fun option state rest lexemes hfit hbegin =>
      ⟨_, hbegin.referenceOption hfit state, rfl⟩)
    ⟨target.table.name, (target.columns.getD []).filterMap Token.name?, .noAction, .noAction⟩
    hfits.options hoptions
  obtain rfl : reference = target.reference := hreference
  simp only [Sql.readReference, htable.qualifiedName? hfits.table hdot, hnames]
  rw [hturns.repeatedly_eq]
  exact repeatedly_done (referenceOption_done hfits.behind target.reference)

/-! ## Attributes -/

/-- The names for constraints of a column, where they are declared. -/
structure Labels where
  primaryKey : Option (Option String)
  unique : Option (Option String)
  references : List (Option String)
  check : Option (Option String)

namespace Labels

def none : Labels := ⟨.none, .none, [], .none⟩

def declare (labels : Labels) (clause : Kind × Option String) : Labels :=
  match clause.1 with
  | .primaryKey => { labels with primaryKey := some clause.2 }
  | .unique => { labels with unique := some clause.2 }
  | .reference => { labels with references := labels.references ++ [clause.2] }
  | .check => { labels with check := some clause.2 }

end Labels

namespace ColumnDefinition

def labels (d : ColumnDefinition) : Labels :=
  ⟨d.primaryKey, d.unique, d.references.map Prod.fst, d.check.map Prod.fst⟩

/-- What the reading of attributes changes as far as constraints are concerned: the name of the
column, the names of its constraints, and the name for the next one. -/
def view (state : ColumnDefinition × Option String) : String × Labels × Option String :=
  (state.1.column.name, state.1.labels, state.2)

def attributeEffect (view : String × Labels × Option String) (part : Attribute) :
    String × Labels × Option String :=
  match part with
  | .label name => (view.1, view.2.1, name.name?)
  | part =>
    match part.kind? with
    | some kind => (view.1, view.2.1.declare (kind, view.2.2), none)
    | none => view

theorem foldl_attributeEffect (name : String) (labels : Labels) (label : Option String)
    (attributes : List Attribute) :
    ∃ last, attributes.foldl attributeEffect (name, labels, label) =
      (name, (Attribute.declared label attributes).foldl Labels.declare labels, last) := by
  induction attributes generalizing labels label with
  | nil => exact ⟨label, rfl⟩
  | cons part more ih => cases part <;> exact ih _ _

theorem attribute_tokens_ne_nil (part : Attribute) : part.marked.tokens ≠ [] := by
  cases part <;> exact List.cons_ne_nil _ _

theorem readDefault_of_spells {value : List Token} {taken : List Lexeme} (hvalue : IsValue value)
    (hstop : stopsDefault 0 (next rest) = true) (hspells : Spells value taken) :
    readDefault (taken ++ rest) = (defaultOf taken, rest) := by
  cases value with
  | nil => exact hvalue.elim
  | cons first more =>
    obtain ⟨lexeme, others, rfl, hlexeme, hothers⟩ := hspells.exists_cons
    rw [readDefault, List.cons_append, cutDefault_cons, hlexeme,
      if_neg (by rw [hvalue.1]; decide), hothers.cut hvalue.2 hstop]

theorem of_isOther (hother : isOther token = true) :
    token ≠ .leftParen ∧ token.isWord "collate" = false ∧ token.isWord "generated" = false ∧
      endsDefinition token = false := by
  unfold isOther at hother
  split at hother
  case h_10 =>
    simp only [Bool.not_eq_true', Bool.or_eq_false_iff] at hother
    exact ⟨‹token = .leftParen → False›, hother.1.1, hother.1.2, hother.2⟩
  all_goals cases hother

/-- What an attribute does to a definition and to the name for the next constraint, as it is
written. -/
def applyAttribute (part : Attribute) (taken : List Lexeme)
    (state : ColumnDefinition × Option String) : ColumnDefinition × Option String :=
  let (d, label) := state
  match part with
  | .label name => (d, name.name?)
  | .primaryKey => ({ d.requireValue with primaryKey := some label }, none)
  | .unique => ({ d with unique := some label }, none)
  | .check _ =>
    let condition := textOf (insideOf taken.tail)
    ({ d with
      column := { d.column with check := some condition }
      check := some (label, condition) }, none)
  | .references target =>
    ({ d with references := d.references ++ [(label, target.reference)] }, none)
  | .notNull => (d.requireValue, label)
  | .default _ =>
    ({ d with column := { d.column with default := defaultOf taken.tail } }, label)
  | .null | .not | .collate _ _ | .group _ | .other _ => (d, label)

theorem view_applyAttribute (part : Attribute) (taken : List Lexeme)
    (state : ColumnDefinition × Option String) :
    view (applyAttribute part taken state) = attributeEffect (view state) part := by
  obtain ⟨d, label⟩ := state
  cases part with
  | references target =>
    simp only [applyAttribute, view, labels, attributeEffect, Attribute.kind?, Labels.declare,
      List.map_append, List.map_singleton]
  | _ => rfl

/-- An attribute is read in one turn. -/
theorem attributeStep_of_spells {part : Attribute} {taken : List Lexeme}
    (hfits : part.Fits (rest.map Lexeme.token)) (hspells : Spells part.marked.tokens taken)
    (state : ColumnDefinition × Option String) :
    attributeStep state (taken ++ rest) = .ok (.again (applyAttribute part taken state), rest) := by
  have hbegins := hspells.begins rest
  obtain ⟨d, label⟩ := state
  cases part with
  | label name =>
    have htokens : Begins [.keyword .constraint, name] rest (taken ++ rest) := hbegins
    simp only [attributeStep, htokens.next, htokens.tail.optionalName hfits, htokens.tail.tail_eq,
      applyAttribute]
  | primaryKey =>
    have htokens : Begins [.keyword .primary, .keyword .key] rest (taken ++ rest) := hbegins
    simp only [attributeStep, htokens.next, htokens.tail.skip, htokens.tail.tail_eq,
      applyAttribute]
  | unique =>
    have htokens : Begins [.keyword .unique] rest (taken ++ rest) := hbegins
    simp only [attributeStep, htokens.next, htokens.tail_eq, applyAttribute]
  | check condition =>
    have hmarked : Spells (.keyword .check :: (group condition).tokens) taken := by
      simpa [Attribute.marked] using hspells
    obtain ⟨first, inside, rfl, hfirst, hinside⟩ := hmarked.exists_cons
    have hnext : next (first :: inside ++ rest) = .keyword .check := hfirst
    have hread : parenthesized (first :: inside ++ rest).tail = _ :=
      hinside.parenthesized hfits rest
    simp only [attributeStep, hnext, hread, applyAttribute, List.tail_cons]
  | references target =>
    have htokens : Begins (.keyword .references :: target.marked.tokens) rest (taken ++ rest) :=
      hbegins
    simp only [attributeStep, htokens.next, htokens.tail.readReference hfits]
    rfl
  | notNull =>
    have htokens : Begins [.keyword .not, .keyword .null] rest (taken ++ rest) := hbegins
    simp only [attributeStep, htokens.next, htokens.tail.eat?, htokens.tail.tail_eq,
      applyAttribute]
  | null =>
    have htokens : Begins [.keyword .null] rest (taken ++ rest) := hbegins
    simp only [attributeStep, htokens.next, htokens.tail_eq, applyAttribute]
  | not =>
    have htokens : Begins [.keyword .not] rest (taken ++ rest) := hbegins
    have hnull : eat? (.keyword .null) rest = none :=
      eat?_of_next_ne (next_ne_of_head? hfits (by rintro ⟨⟩))
    simp only [attributeStep, htokens.next, htokens.tail_eq, hnull, applyAttribute]
  | default value =>
    have hmarked : Spells (.keyword .default :: value) taken := by
      simpa [Attribute.marked] using hspells
    obtain ⟨first, written, rfl, hfirst, hwritten⟩ := hmarked.exists_cons
    have hnext : next (first :: written ++ rest) = .keyword .default := hfirst
    have hread : readDefault (first :: written ++ rest).tail = _ :=
      readDefault_of_spells hfits.1 (by rw [next_eq_head?]; exact hfits.2) hwritten
    simp only [attributeStep, hnext, hread, applyAttribute, List.tail_cons]
  | collate word name =>
    obtain ⟨hword, hname, hdot⟩ := hfits
    have htokens : Begins (word :: name.tokens) rest (taken ++ rest) := by
      simpa [Attribute.marked] using hbegins
    obtain ⟨spelling, rfl, -⟩ := exists_of_isWord hword
    have hread := htokens.tail.qualifiedName? hname (next_ne_of_head? hdot (by rintro ⟨⟩))
    simp only [attributeStep, htokens.next, hword, if_true, optionalQualifiedName, hread,
      applyAttribute]
  | group inside =>
    have htokens : Begins (Syntax.group inside).tokens rest (taken ++ rest) := hbegins
    have hopening := htokens
    rw [tokens_group] at hopening
    simp only [attributeStep, hopening.next, htokens.skipGroup hfits]
    rfl
  | other token =>
    have htokens : Begins [token] rest (taken ++ rest) := hbegins
    have hother : isOther token = true := hfits
    obtain ⟨hparen, hcollate, hgenerated, hends⟩ := of_isOther hother
    have hskip : skipGroup (taken ++ rest) = rest := by
      obtain ⟨first, more, hfirst, -, hmore, heq⟩ := htokens.cons
      rw [heq, skipGroup, if_neg (by rw [hfirst]; exact hparen), begins_nil_iff.1 hmore]
    unfold attributeStep
    dsimp only
    rw [htokens.next]
    split
    case h_9 =>
      simp only [hcollate, hgenerated, hends, hskip, Bool.false_eq_true, if_false, applyAttribute]
    all_goals cases hother

theorem attributeStep_of_begins {part : Attribute} (hfits : part.Fits (rest.map Lexeme.token))
    (hbegins : Begins part.marked.tokens rest lexemes) (state : ColumnDefinition × Option String) :
    ∃ after, attributeStep state lexemes = .ok (.again after, rest) ∧
      view after = attributeEffect (view state) part := by
  obtain ⟨taken, hspells, rfl⟩ := begins_iff.1 hbegins
  exact ⟨_, attributeStep_of_spells hfits hspells state, view_applyAttribute part taken state⟩

/-- Where a definition ends, no attribute is read. -/
theorem attributeStep_ends (hends : endsDefinition (next lexemes) = true)
    (state : ColumnDefinition × Option String) :
    attributeStep state lexemes = .ok (.done state, lexemes) := by
  obtain ⟨d, label⟩ := state
  generalize hnext : next lexemes = token at hends
  cases token with
  | comma | rightParen | semicolon | eof =>
    simp only [attributeStep, hnext]
    rfl
  | keyword known =>
    cases known with
    | create =>
      simp only [attributeStep, hnext]
      rfl
    | _ => cases hends
  | _ => cases hends

/-- What `GENERATED` and its terms do to a definition: an identity is never null. -/
def applyGenerated (taken : List Lexeme) (d : ColumnDefinition) : ColumnDefinition :=
  if Text.contains (Text.lower (textOf taken)).toList "identity".toList then d.requireValue else d

theorem view_applyGenerated (taken : List Lexeme) (state : ColumnDefinition × Option String) :
    view (applyGenerated taken state.1, state.2) = view state := by
  rw [applyGenerated]
  split <;> rfl

/-- `GENERATED` takes everything up to the end of the definition. -/
theorem attributeStep_generated (hword : (next lexemes).isWord "generated" = true)
    (state : ColumnDefinition × Option String) :
    attributeStep state lexemes =
      .ok (.again (applyGenerated (cut stopsElement 0 lexemes).1 state.1, state.2),
        (cut stopsElement 0 lexemes).2) := by
  obtain ⟨d, label⟩ := state
  obtain ⟨spelling, hnext, -⟩ := exists_of_isWord hword
  have hcollate := isWord_of_isWord hword (by decide : "generated" ≠ "collate")
  have houtside : cutOutside (fun token => token = .comma || token = .rightParen) lexemes =
      cut stopsElement 0 lexemes := rfl
  rw [hnext] at hword hcollate
  simp only [attributeStep, hnext, hcollate, hword, houtside, Bool.false_eq_true, if_false,
    if_true]
  rfl

/-- A text that begins with a lexeme that is not empty is not empty. -/
theorem textOf_isEmpty {first : Lexeme} (hsolid : first.Solid) (more : List Lexeme) :
    (textOf (first :: more)).isEmpty = false := by
  obtain ⟨c, others, htext, hblank⟩ := hsolid
  rw [← Bool.not_eq_true, String.isEmpty_iff, textOf, htext, List.cons_append, Text.trim,
    Text.trimStart, List.dropWhile_cons_of_neg (by rw [hblank]; decide)]
  intro hempty
  have hnil := congrArg String.toList hempty
  rw [String.toList_ofList, Text.trimEnd] at hnil
  have hall := List.dropWhile_eq_nil_iff.1 (List.reverse_eq_nil_iff.1 hnil) c
    (List.mem_reverse.2 List.mem_cons_self)
  rw [hblank] at hall
  cases hall

end ColumnDefinition

namespace Syntax.ColumnSyntax

def typePart (column : ColumnSyntax) (taken : List Lexeme) : List Lexeme :=
  taken.tail.take column.type.length

def attributePart (column : ColumnSyntax) (taken : List Lexeme) : List Lexeme :=
  (taken.tail.drop column.type.length).take (row Attribute.marked column.attributes).tokens.length

def hiddenPart (column : ColumnSyntax) (taken : List Lexeme) : List Lexeme :=
  (taken.tail.drop column.type.length).drop (row Attribute.marked column.attributes).tokens.length

end Syntax.ColumnSyntax

namespace ColumnDefinition

/-- What the attributes of a column make of it, as they are written. -/
def withAttributes (column : ColumnSyntax) (taken : List Lexeme) :
    ColumnDefinition × Option String :=
  applyRow Attribute.marked applyAttribute column.attributes (column.attributePart taken)
    (plain column.label (TypeName.normalize (textOf (column.typePart taken))), none)

def ofSyntax (column : ColumnSyntax) (taken : List Lexeme) : ColumnDefinition :=
  column.generated.elim (withAttributes column taken).1 fun _ =>
    applyGenerated (column.hiddenPart taken) (withAttributes column taken).1

theorem view_applyRow (parts : List Attribute) (taken : List Lexeme)
    (state : ColumnDefinition × Option String) :
    view (applyRow Attribute.marked applyAttribute parts taken state) =
      parts.foldl attributeEffect (view state) := by
  induction parts generalizing taken state with
  | nil => rfl
  | cons part more ih => rw [applyRow, ih, view_applyAttribute, List.foldl_cons]

/-- The definition has the constraints that the column declares. -/
theorem labels_ofSyntax (column : ColumnSyntax) (taken : List Lexeme) :
    (ofSyntax column taken).column.name = column.label ∧
      (ofSyntax column taken).labels = column.clauses.foldl Labels.declare .none := by
  obtain ⟨label, hlabel⟩ := foldl_attributeEffect column.label .none none column.attributes
  have hrow : view (withAttributes column taken) =
      (column.label, column.clauses.foldl Labels.declare .none, label) :=
    (view_applyRow _ _ _).trans hlabel
  rw [ofSyntax]
  generalize withAttributes column taken = state at hrow ⊢
  cases column.generated with
  | none => exact ⟨congrArg Prod.fst hrow, congrArg (fun view => view.2.1) hrow⟩
  | some generated =>
    have hgenerated := (view_applyGenerated (column.hiddenPart taken) state).trans hrow
    rw [Option.elim_some]
    generalize applyGenerated (column.hiddenPart taken) state.1 = d at hgenerated ⊢
    exact ⟨congrArg Prod.fst hgenerated, congrArg (fun view => view.2.1) hgenerated⟩

/-- A definition is read up to what ends it, as it is written. -/
theorem read_of_spells {column : ColumnSyntax} {taken : List Lexeme}
    (hfits : column.Fits (rest.map Lexeme.token)) (hspells : Spells column.marked.tokens taken) :
    read (taken ++ rest) = .ok (ofSyntax column taken, rest) := by
  have hbehind : next rest = .comma ∨ next rest = .rightParen := by
    rw [next_eq_head?]
    exact hfits.behind.imp (fun hhead => by rw [hhead]; rfl) (fun hhead => by rw [hhead]; rfl)
  have hends : endsDefinition (next rest) = true := by
    rcases hbehind with hnext | hnext
    · rw [hnext]
      rfl
    · rw [hnext]
      rfl
  rw [ColumnSyntax.marked, tokens_append, tokens_append, tokens_seen, tokens_unseen,
    List.cons_append] at hspells
  obtain ⟨first, others, rfl, hfirst, hothers⟩ := hspells.exists_cons
  have htype : Spells column.type (column.typePart (first :: others)) := hothers.take
  have hrow : Spells _ (column.attributePart (first :: others)) := hothers.drop.take
  have hhidden : Spells column.hidden (column.hiddenPart (first :: others)) := hothers.drop.drop
  have hsplit : first :: others ++ rest = first :: (column.typePart (first :: others) ++
      (column.attributePart (first :: others) ++ (column.hiddenPart (first :: others) ++ rest))) := by
    rw [ColumnSyntax.typePart, ColumnSyntax.attributePart, ColumnSyntax.hiddenPart,
      ← List.append_assoc (List.take _ (List.drop _ _)), List.take_append_drop, ← List.append_assoc,
      List.tail_cons, List.take_append_drop, List.cons_append]
  have hattributes := hrow.begins (column.hiddenPart (first :: others) ++ rest)
  have hgenerated := hhidden.begins rest
  have htyped : endsType 0 (next (column.attributePart (first :: others) ++
      (column.hiddenPart (first :: others) ++ rest))) = true := by
    rw [next_eq_head?, hattributes.tokens_eq, hgenerated.tokens_eq]
    exact hfits.behindType
  have hraw : (textOf (column.typePart (first :: others))).isEmpty = false := by
    cases hcase : column.typePart (first :: others) with
    | nil => exact absurd (by rw [← htype.1, hcase]; rfl) hfits.typed
    | cons head tail =>
      exact textOf_isEmpty (htype.2 head (by rw [hcase]; exact List.mem_cons_self)) tail
  have hturns := turns_applyRow attribute_tokens_ne_nil
    (fun part state taken rest hfit hspell => attributeStep_of_spells hfit hspell state)
    (plain column.label (TypeName.normalize (textOf (column.typePart (first :: others)))), none)
    (by rw [hgenerated.tokens_eq]; exact hfits.attributes) hrow
  have hlast : ∃ label, repeatedly attributeStep (withAttributes column (first :: others))
      (column.hiddenPart (first :: others) ++ rest) =
        .ok ((ofSyntax column (first :: others), label), rest) := by
    rw [ofSyntax]
    generalize withAttributes column (first :: others) = state
    cases hcase : column.generated with
    | none =>
      rw [ColumnSyntax.hidden, hcase] at hhidden
      obtain hnil := List.map_eq_nil_iff.1 hhidden.1
      rw [hnil]
      exact ⟨state.2, repeatedly_done (attributeStep_ends hends state)⟩
    | some generated =>
      rw [ColumnSyntax.hidden, hcase] at hhidden
      have htokens : Spells generated.tokens (column.hiddenPart (first :: others)) := hhidden
      have hfit := hfits.generated generated hcase
      have hbegins := htokens.begins rest
      have hturn := attributeStep_generated (by rw [hbegins.next]; exact hfit.word) state
      rw [htokens.cut hfit.passes (by rcases hbehind with hnext | hnext <;> rw [hnext] <;> rfl)]
        at hturn
      have hshorter := hbegins.length_lt (List.cons_ne_nil _ _)
      refine ⟨state.2, ?_⟩
      rw [repeatedly_again hshorter hturn, Option.elim_some]
      exact repeatedly_done (attributeStep_ends hends
        (applyGenerated (column.hiddenPart (first :: others)) state.1, state.2))
  obtain ⟨label, hlast⟩ := hlast
  have hname : (next (first :: others ++ rest)).name?.getD "" = column.label :=
    congrArg (fun token => token.name?.getD "") hfirst
  have hcut : cut endsType 0 (first :: others ++ rest).tail =
      (column.typePart (first :: others), column.attributePart (first :: others) ++
        (column.hiddenPart (first :: others) ++ rest)) := by
    rw [hsplit]
    exact htype.cut hfits.type htyped
  simp only [read, hcut, hraw, hname, Bool.false_eq_true, if_false, hturns.repeatedly_eq]
  rw [withAttributes] at hlast
  rw [hlast]
  rfl

end ColumnDefinition

end SchemaEvolution.Sql
