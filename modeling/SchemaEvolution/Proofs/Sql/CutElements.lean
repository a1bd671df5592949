import SchemaEvolution.Proofs.Sql.CutReading

/-!
# Reading elements that are broken off

A column, a constraint of a table or another element is read up to the start of a definition, or
past it, just as the reader inside it that the cut has found at work.  At the start itself no
element can be read, so a table whose start is seen is refused there.
-/

namespace SchemaEvolution.Sql

open Syntax

variable {tokens : List Token} {following lexemes rest : List Lexeme} {mark : Bool}
  {front back : Marked} {line : Option Nat} (hcreate : next following = .keyword .create)

include hcreate

namespace ColumnDefinition

/-- The attributes of a column, with what is hidden behind them. -/
theorem attributes_cut {column : ColumnSyntax} {behind : List Token}
    (hfits : column.Fits behind)
    (hsplit : row Attribute.marked column.attributes ++ unseen column.hidden = front ++ back)
    (hbegins : Begins front.tokens following lexemes) (state : ColumnDefinition × Option String) :
    Recovers following (· = following) (lastSeen front)
      (repeatedly attributeStep state lexemes) := by
  have hstart : ∀ state, Notices following (· = following)
      (repeatedly attributeStep state following) := by
    intro state
    rw [attributes_start hcreate state]
    exact rfl
  rcases split_append hsplit with ⟨more, hrow⟩ | ⟨last, hlast, rfl, hhidden⟩
  · refine recovers_row hstart Attribute.marked Attribute.Fits hcreate
      (fun _ _ _ hcuts _ hfit => hfit.beforeCut hcuts)
      (fun part state rest lexemes hfit hbegin => ?_)
      (fun part state _ _ _ _ hfit hsplit hfront hbegin =>
        attribute_cut hcreate hfit hsplit hfront hbegin state) hfits.attributes hrow hbegins state
    obtain ⟨after, hturn, -⟩ := attributeStep_of_begins hfit hbegin state
    exact ⟨after, .single hturn (hbegin.length_lt (attribute_tokens_ne_nil part))⟩
  · obtain ⟨taken, others, htokens, rfl⟩ := split_unseen hhidden
    have htaken : taken ≠ [] := fun hnil => hlast (by rw [hnil]; rfl)
    rw [tokens_append, tokens_unseen] at hbegins
    obtain ⟨middle, hrow, hrest⟩ := hbegins.split
    have hcuts := hrest.cutsTo hcreate (others ++ behind)
    rw [← List.append_assoc, ← htokens] at hcuts
    obtain ⟨after, hturns, -⟩ := turns_row view attributeEffect attribute_tokens_ne_nil
      (fun part state rest lexemes hfit hbegin => attributeStep_of_begins hfit hbegin state) state
      (hfits.attributes.beforeCut hcuts fun _ _ _ hcuts hfit => hfit.beforeCut hcuts) hrow
    obtain ⟨generated, hgenerated⟩ : ∃ generated, column.generated = some generated := by
      cases hcase : column.generated with
      | none =>
        rw [ColumnSyntax.hidden, hcase] at htokens
        exact absurd (List.append_eq_nil_iff.1 htokens.symm).1 htaken
      | some generated => exact ⟨generated, rfl⟩
    have hgeneratedFits := hfits.generated generated hgenerated
    rw [ColumnSyntax.hidden, hgenerated] at htokens
    have hgeneratedTokens : generated.tokens = taken ++ others := htokens
    obtain ⟨first, more, rfl⟩ := List.exists_cons_of_ne_nil htaken
    obtain ⟨hfirst, -⟩ := List.cons.inj hgeneratedTokens
    have hpasses := hgeneratedFits.passes
    rw [hgeneratedTokens] at hpasses
    obtain ⟨depth, hfront, -⟩ := hpasses.split
    have hturn := attributeStep_generated
      (by rw [hrest.next, ← hfirst]; exact hgeneratedFits.word) after
    rw [lastSeen_append hlast, lastSeen_unseen htaken, hturns.repeatedly_eq]
    exact recovers_again leaves_attributeStep hstart hturn
      (hrest.cut_past hcreate hfront (by simp [stopsElement])) (hrest.length_lt htaken)

/-- The definition of a column that is broken off. -/
theorem read_cut {column : ColumnSyntax} {behind : List Token} (hfits : column.Fits behind)
    (hsplit : column.marked = front ++ back) (hfront : front ≠ [])
    (hbegins : Begins front.tokens following lexemes) :
    Recovers following (· = following) (lastSeen front) (read lexemes) := by
  -- the attributes are read behind the type
  have hread : ∀ {mark : Bool} {rest : List Lexeme}, (cut endsType 0 lexemes.tail).2 = rest →
      ((textOf (cut endsType 0 lexemes.tail).1).isEmpty = true → mark = true ∧ rest = following) →
        (∀ state, Recovers following (· = following) mark (repeatedly attributeStep state rest)) →
          Recovers following (· = following) mark (read lexemes) := by
    intro mark rest hrest hempty hattributes
    generalize hcut : cut endsType 0 lexemes.tail = found at hrest hempty
    obtain ⟨taken, left⟩ := found
    obtain rfl : left = rest := hrest
    simp only [read, hcut]
    split
    · next hraw =>
      obtain ⟨rfl, rfl⟩ := hempty hraw
      exact ⟨rfl, rfl⟩
    · refine Recovers.bind (hattributes _) ?_ ?_
      · rintro ⟨d, label⟩ rest hrest
        exact hrest
      · rintro ⟨d, label⟩ rest
        exact List.suffix_refl _
  rcases split_append hsplit with ⟨more, htype⟩ | ⟨inner, hinner, rfl, hattributes⟩
  · obtain ⟨taken, others, htokens, rfl, hmark⟩ := split_seen_cons htype hfront
    rw [tokens_seen] at hbegins
    have hpasses := hfits.type
    rw [htokens] at hpasses
    have hrest := hbegins.tail.cut_before hcreate hpasses fun depth => rfl
    rw [hmark]
    refine hread hrest (fun _ => ⟨rfl, rfl⟩) fun state => ?_
    rw [attributes_start hcreate state]
    exact rfl
  · rw [tokens_append, tokens_seen, List.cons_append] at hbegins
    obtain ⟨behindType, htype, hinside⟩ := hbegins.tail.split
    have hends : endsType 0 (next behindType) = true := by
      rw [next_eq_head?, hinside.head?_eq (tokens_ne_nil hinner) (Marked.tokens back ++ behind),
        ← List.append_assoc, ← tokens_append, ← hattributes, tokens_append, tokens_unseen,
        List.append_assoc]
      exact hfits.behindType
    obtain ⟨taken, htaken, hsolid, hcut⟩ := htype.cut hfits.type hends
    rw [lastSeen_append hinner]
    refine hread (congrArg Prod.snd hcut) (fun hempty => ?_)
      (attributes_cut hcreate hfits hattributes hinside)
    rw [hcut] at hempty
    cases taken with
    | nil => exact absurd htaken.symm hfits.typed
    | cons first more =>
      rw [textOf_isEmpty (hsolid first List.mem_cons_self)] at hempty
      cases hempty

end ColumnDefinition

theorem skipDefinition_start : skipDefinition following = following :=
  (begins_nil_iff.2 rfl).skipDefinition rfl (by rw [hcreate]; rfl)

theorem skipDefinition_near (hrest : Nears following rest) : skipDefinition rest = following := by
  rcases hrest with rfl | hnot
  · exact skipDefinition_start hcreate
  · exact hnot.skipDefinition ⟨rfl, rfl⟩ (by rw [hcreate]; rfl)

/-- What is skipped behind a constraint hides a start only between parentheses. -/
theorem cut_outside {skipped : List Token} {depth : Nat}
    (hpasses : Passes stopsDefinition depth skipped 0)
    (hsplit : outside depth skipped = front ++ back)
    (hbegins : Begins front.tokens following lexemes) :
    Stands following (if front = [] then depth == 0 else lastSeen front)
      (cut stopsDefinition depth lexemes).2 := by
  induction skipped generalizing depth front lexemes with
  | nil =>
    obtain ⟨rfl, -⟩ := List.append_eq_nil_iff.1 hsplit.symm
    obtain rfl : depth = 0 := hpasses
    rw [begins_nil_iff.1 hbegins]
    exact skipDefinition_start hcreate
  | cons token more ih =>
    cases front with
    | nil =>
      rw [begins_nil_iff.1 hbegins, if_pos rfl]
      by_cases hdepth : depth = 0
      · subst hdepth
        exact skipDefinition_start hcreate
      · rw [beq_eq_false_iff_ne.2 hdepth]
        exact (begins_nil_iff.2 rfl).cut_past hcreate (rfl : Passes stopsDefinition depth [] depth)
          (by simp [stopsDefinition, hdepth])
    | cons first front =>
      obtain ⟨rfl, hmore⟩ := List.cons.inj hsplit
      obtain ⟨lexeme, others, hlexeme, -, hothers, rfl⟩ := hbegins.cons
      have hstands := ih hpasses.2 hmore hothers
      rw [if_neg (List.cons_ne_nil _ _), cut, hlexeme, if_neg (by rw [hpasses.1]; decide)]
      cases front with
      | nil => exact hstands
      | cons second front =>
        rw [← List.singleton_append, lastSeen_append (List.cons_ne_nil second front)]
        exact hstands

theorem skipDefinition_cut {skipped : List Token} (hpasses : Passes stopsDefinition 0 skipped 0)
    (hsplit : outside 0 skipped = front ++ back)
    (hbegins : Begins front.tokens following lexemes) :
    Stands following (lastSeen front) (skipDefinition lexemes) := by
  have hstands := cut_outside hcreate hpasses hsplit hbegins
  cases front with
  | nil => exact hstands
  | cons first front => exact hstands

/-- At the start of a definition no constraint is read, and the start is skipped. -/
theorem readTableClause_start :
    ∃ rest, readTableClause following = .ok (none, rest) ∧ rest <:+ following.tail := by
  refine ⟨_, TableDefinition.readTableClause_other (by rw [hcreate]; rfl), ?_⟩
  exact (begins_nil_iff.2 rfl).cut_past hcreate rfl rfl

/-- A cut in or behind a key word with `KEY` after it. -/
theorem split_key {first : Token} {marked : Marked}
    (hsplit : seen [first, .keyword .key] ++ marked = front ++ back) (hfront : front ≠ [])
    (hbegins : Begins front.tokens following lexemes) :
    ∃ inner more, marked = inner ++ more ∧ lastSeen front = lastSeen inner ∧
      next lexemes = first ∧ Begins inner.tokens following (skip (.keyword .key) lexemes.tail) := by
  rcases split_append hsplit with ⟨more, hwords⟩ | ⟨inner, hinner, rfl, hmarked⟩
  · obtain ⟨hmark, rfl | rfl⟩ := split_seen_pair hwords hfront
    · have hword : Begins [first] following lexemes := hbegins
      refine ⟨[], marked, rfl, rfl, hword.next, begins_nil_iff.2 ?_⟩
      rw [hword.tail_eq, skip_start hcreate (by rintro ⟨⟩)]
    · have hpair : Begins [first, .keyword .key] following lexemes := hbegins
      refine ⟨[], marked, rfl, rfl, hpair.next, begins_nil_iff.2 ?_⟩
      rw [hpair.tail.skip, hpair.tail.tail_eq]
  · have hpair : Begins (first :: .keyword .key :: Marked.tokens inner) following lexemes := hbegins
    refine ⟨inner, back, hmarked, lastSeen_append hinner, hpair.next, ?_⟩
    rw [hpair.tail.skip]
    exact hpair.tail.tail

/-- A list or a text that is broken off, behind which there is nothing to skip. -/
theorem recovers_clause
    (hread : ∃ clause, readTableClause lexemes = .ok (some clause, skipDefinition rest))
    (hstands : Stands following mark rest) :
    Recovers following (· = following) mark (readTableClause lexemes) := by
  obtain ⟨clause, hread⟩ := hread
  rw [hread]
  exact recovers_of_stands (some clause)
    (hstands.then (skipDefinition_start hcreate) (skipDefinition_suffix rest))

/-- The columns of `UNIQUE`, where there are any. -/
theorem uniqueColumns_cut {columns : Option (List Token)}
    (hlists : ∀ inside ∈ columns, IsNameList inside)
    (hsplit : columns.elim [] group = front ++ back)
    (hbegins : Begins (.keyword .unique :: Marked.tokens front) following lexemes) :
    Stands following (lastSeen front) (nameList (skip (.keyword .key) lexemes.tail)).2 := by
  have hempty : front = [] → (nameList (skip (.keyword .key) lexemes.tail)).2 = following := by
    rintro rfl
    rw [hbegins.tail_eq, skip_start hcreate (by rintro ⟨⟩), nameList_start hcreate]
  cases columns with
  | none =>
    obtain ⟨rfl, -⟩ := List.append_eq_nil_iff.1 hsplit.symm
    exact hempty rfl
  | some inside =>
    by_cases hfront : front = []
    · rw [hfront]
      exact hempty hfront
    · obtain ⟨more, hopen⟩ := tokens_of_split_group hsplit hfront
      have hinside := hbegins.tail
      have hparen : next lexemes.tail = .leftParen := by
        rw [hopen] at hinside
        exact hinside.next
      rw [skip_of_next_ne (by rw [hparen]; rintro ⟨⟩)]
      exact nameList_cut hcreate (hlists inside rfl) hsplit hinside

/-- A foreign key that is broken off behind its key words. -/
theorem foreignKey_cut {columns : List Token} {target : Target} {behind : List Token}
    (hlist : IsNameList columns) (htarget : target.Fits behind)
    (hsplit : group columns ++ (seen [.keyword .references] ++ target.marked) = front ++ back)
    (hnext : next lexemes = .keyword .foreign)
    (hbegins : Begins front.tokens following (skip (.keyword .key) lexemes.tail)) :
    Recovers following (· = following) (lastSeen front) (readTableClause lexemes) := by
  simp only [readTableClause, hnext]
  rcases split_append hsplit with ⟨others, hgroup⟩ | ⟨inner, hinner, rfl, hreferences⟩
  · have hstands := nameList_cut hcreate hlist hgroup hbegins
    generalize lastSeen front = mark at hstands
    cases mark with
    | true =>
      have hrest : (nameList (skip (.keyword .key) lexemes.tail)).2 = following := hstands
      rw [hrest, eat?_start hcreate (by rintro ⟨⟩)]
      exact ⟨rfl, rfl⟩
    | false =>
      refine Leaves.mono ?_ hstands
      split
      · exact List.suffix_refl _
      · next heat =>
        refine Leaves.bind ((leaves_readReference _).mono (eat?_suffix heat)) ?_
        exact fun reference after hafter => (skipDefinition_suffix after).trans hafter
  · rw [tokens_append] at hbegins
    obtain ⟨behindColumns, hcolumns, hbehind⟩ := hbegins.split
    obtain ⟨first, last, rfl⟩ := List.exists_cons_of_ne_nil hinner
    obtain ⟨rfl, htargetSplit⟩ := List.cons.inj hreferences
    have hword : Begins (.keyword .references :: Marked.tokens last) following behindColumns :=
      hbehind
    rw [lastSeen_append hinner, lastSeen_cons, hcolumns.nameList hlist, hword.eat?]
    refine Recovers.bind (readReference_cut hcreate htarget htargetSplit hword.tail) ?_ ?_
    · exact fun reference rest hrest => skipDefinition_near hcreate hrest
    · exact fun reference rest => skipDefinition_suffix rest

/-- The definition of a constraint that is broken off. -/
theorem definition_cut {definition : ClauseSyntax} {behind : List Token}
    (hfits : definition.Fits behind) (hsplit : definition.marked = front ++ back)
    (hfront : front ≠ []) (hbegins : Begins front.tokens following lexemes) :
    Recovers following (· = following) (lastSeen front) (readTableClause lexemes) := by
  cases definition with
  | primaryKey columns =>
    obtain ⟨inner, more, hgroup, hmark, hnext, hinside⟩ := split_key hcreate hsplit hfront hbegins
    rw [hmark]
    refine recovers_clause hcreate
      ⟨.primaryKey (nameList (skip (.keyword .key) lexemes.tail)).1, ?_⟩
      (nameList_cut hcreate hfits hgroup hinside)
    simp only [readTableClause, hnext]
  | unique columns =>
    obtain ⟨first, inner, rfl⟩ := List.exists_cons_of_ne_nil hfront
    obtain ⟨rfl, hcolumns⟩ := List.cons.inj hsplit
    have hunique : Begins (.keyword .unique :: Marked.tokens inner) following lexemes := hbegins
    rw [lastSeen_cons]
    refine recovers_clause hcreate ⟨.unique (nameList (skip (.keyword .key) lexemes.tail)).1, ?_⟩
      (uniqueColumns_cut hcreate hfits.1 hcolumns hunique)
    simp only [readTableClause, hunique.next]
  | foreignKey columns target =>
    obtain ⟨inner, more, hforeign, hmark, hnext, hinside⟩ :=
      split_key hcreate hsplit hfront hbegins
    rw [hmark]
    exact foreignKey_cut hcreate hfits.1 hfits.2 hforeign hnext hinside
  | check condition =>
    obtain ⟨first, inner, rfl⟩ := List.exists_cons_of_ne_nil hfront
    obtain ⟨rfl, hgroup⟩ := List.cons.inj hsplit
    have hcheck : Begins (.keyword .check :: Marked.tokens inner) following lexemes := hbegins
    rw [lastSeen_cons]
    refine recovers_clause hcreate ⟨.check (parenthesized lexemes.tail).1, ?_⟩
      (parenthesized_cut hcreate hfits hgroup hcheck.tail)
    simp only [readTableClause, hcheck.next]

/-- The definition of a constraint that is broken off, or what is skipped behind it. -/
theorem readTableClause_cut {definition : ClauseSyntax} {skipped behind : List Token}
    (hfits : definition.Fits (skipped ++ behind)) (hpasses : Passes stopsDefinition 0 skipped 0)
    (hsplit : definition.marked ++ outside 0 skipped = front ++ back) (hfront : front ≠ [])
    (hbegins : Begins front.tokens following lexemes) :
    Recovers following (· = following) (lastSeen front) (readTableClause lexemes) := by
  rcases split_append hsplit with ⟨more, hdefinition⟩ | ⟨inner, hinner, rfl, hskipped⟩
  · exact definition_cut hcreate hfits hdefinition hfront hbegins
  · rw [tokens_append] at hbegins
    obtain ⟨middle, hwhole, hrest⟩ := hbegins.split
    have hcuts := hrest.cutsTo hcreate (Marked.tokens back ++ behind)
    rw [← List.append_assoc, ← tokens_append, ← hskipped, tokens_outside] at hcuts
    obtain ⟨clause, hread⟩ := hwhole.readTableClause (hfits.beforeCut hcuts)
    rw [lastSeen_append hinner, hread]
    exact recovers_of_stands _ (skipDefinition_cut hcreate hpasses hskipped hrest)

/-! ## Elements -/

namespace TableDefinition

/-- No element starts like a definition, so the table is given up in front of one. -/
theorem element_start (d : TableDefinition) :
    Notices following (fun _ => False) (repeatedly (element line) d following) := by
  have hfault : element line d following =
      halt ("unterminated column list in CREATE TABLE " ++ d.table.name) line following := by
    unfold element
    rw [hcreate]
  unfold repeatedly
  rw [hfault]
  exact ⟨rfl, rfl⟩

/-- A constraint that is broken off at its name takes the start of a definition for its kind. -/
theorem label_cut {name : Token} (hname : name.name?.isSome = true) {more : Marked}
    (hsplit : unseen (labelTokens (some name)) = front ++ more) (hfront : front ≠ [])
    (hbegins : Begins front.tokens following lexemes) (d : TableDefinition) :
    Recovers following (fun _ => False) (lastSeen front)
      (repeatedly (element line) d lexemes) := by
  have hlonger := hbegins.length_lt (tokens_ne_nil hfront)
  obtain ⟨taken, others, htokens, rfl⟩ := split_unseen hsplit
  rw [tokens_unseen] at hbegins
  obtain ⟨first, taken, rfl⟩ := List.exists_cons_of_ne_nil (l := taken)
    fun hnil => hfront (by rw [hnil]; rfl)
  obtain ⟨rfl, hmore⟩ := List.cons.inj htokens
  have hrest : (optionalName lexemes.tail).2 = following := by
    cases taken with
    | nil =>
      rw [hbegins.tail_eq]
      simp only [optionalName, hcreate]
      rfl
    | cons second taken =>
      obtain ⟨rfl, hnil⟩ := List.cons.inj hmore
      obtain ⟨rfl, -⟩ := List.append_eq_nil_iff.1 hnil.symm
      rw [hbegins.tail.optionalName hname, hbegins.tail.tail_eq]
  obtain ⟨rest, hread, hsuffix⟩ := readTableClause_start hcreate
  have hturn : element line d lexemes = .ok (.again d, rest) := by
    rw [element_label hbegins.next, hrest, hread]
    rfl
  rw [lastSeen_unseen (List.cons_ne_nil _ _)]
  exact recovers_again (leaves_element line) (element_start hcreate) hturn hsuffix hlonger

/-- A constraint that is broken off, with or without a name. -/
theorem clause_cut {label : Option Token} {definition : ClauseSyntax}
    {skipped behind : List Token}
    (hfits : (ElementSyntax.clause label definition skipped).Fits behind)
    (hsplit : (ElementSyntax.clause label definition skipped).marked = front ++ back)
    (hfront : front ≠ []) (hbegins : Begins front.tokens following lexemes)
    (d : TableDefinition) :
    Recovers following (fun _ => False) (lastSeen front)
      (repeatedly (element line) d lexemes) := by
  have hlonger := hbegins.length_lt (tokens_ne_nil hfront)
  obtain ⟨hlabel, hclause, hpasses, -⟩ := hfits
  cases label with
  | none =>
    have hdefinition : definition.marked ++ outside 0 skipped = front ++ back := hsplit
    obtain ⟨first, more, hmarked, hopens⟩ := opensClause_marked definition
    have hfirst : next lexemes = first := by
      rw [next_eq_head?, hbegins.head?_eq (tokens_ne_nil hfront) (Marked.tokens back),
        ← tokens_append, ← hdefinition, tokens_append, hmarked]
      rfl
    refine recovers_reader (leaves_element line) (element_start hcreate) (d.addClause none) ?_
      (readTableClause_cut hcreate hclause hpasses hdefinition hfront hbegins) hlonger
    exact element_clause (by rw [hfirst]; exact hopens) d
  | some name =>
    have hname := hlabel name rfl
    rcases split_append hsplit with ⟨more, hwords⟩ | ⟨inner, hinner, rfl, hdefinition⟩
    · exact label_cut hcreate hname hwords hfront hbegins d
    · have hwords : Begins (.keyword .constraint :: name :: Marked.tokens inner) following
        lexemes := hbegins
      rw [lastSeen_append hinner]
      refine recovers_reader (leaves_element line) (element_start hcreate)
        (d.addClause name.name?) ?_
        (readTableClause_cut hcreate hclause hpasses hdefinition hinner hwords.tail.tail) hlonger
      rw [element_label hwords.next, hwords.tail.optionalName hname]

/-- An element that declares neither a column nor a constraint, and is broken off. -/
theorem other_cut {label : Option Token} {tokens behind : List Token}
    (hfits : (ElementSyntax.other label tokens).Fits behind)
    (hsplit : (ElementSyntax.other label tokens).marked = front ++ back)
    (hfront : front ≠ []) (hbegins : Begins front.tokens following lexemes)
    (d : TableDefinition) :
    Recovers following (fun _ => False) (lastSeen front)
      (repeatedly (element line) d lexemes) := by
  have hlonger := hbegins.length_lt (tokens_ne_nil hfront)
  obtain ⟨hlabel, hpasses, hsemicolon, hopening, -⟩ := hfits
  obtain ⟨taken, others, htokens, rfl⟩ := split_unseen hsplit
  have htaken : taken ≠ [] := fun hnil => hfront (by rw [hnil]; rfl)
  rw [tokens_unseen] at hbegins
  cases label with
  | none =>
    have htokens : tokens = taken ++ others := htokens
    have hword : (next lexemes).isOneOf ["like", "exclude"] = true := by
      obtain ⟨first, more, rfl⟩ := List.exists_cons_of_ne_nil htaken
      rw [htokens] at hopening
      rw [hbegins.next]
      exact hopening
    rw [htokens] at hpasses
    obtain ⟨depth, hfrontPasses, -⟩ := hpasses.split
    rw [lastSeen_unseen htaken]
    exact recovers_again (leaves_element line) (element_start hcreate) (element_skipped hword d)
      (hbegins.cut_past hcreate hfrontPasses (by simp [stopsElement])) hlonger
  | some name =>
    have hname := hlabel name rfl
    rcases split_append htokens with ⟨more, hwords⟩ | ⟨inner, hinner, rfl, hinside⟩
    · have hlabelSplit : unseen (labelTokens (some name)) = unseen taken ++ unseen more := by
        rw [hwords]
        exact List.map_append
      exact label_cut hcreate hname hlabelSplit hfront (by rwa [tokens_unseen]) d
    · have hwords : Begins (.keyword .constraint :: name :: inner) following lexemes := hbegins
      have hopens : opensClause (next lexemes.tail.tail) = false := by
        have hkind := hwords.tail.tail
        obtain ⟨first, more, rfl⟩ := List.exists_cons_of_ne_nil hinner
        rw [hinside] at hopening
        rw [hkind.next]
        exact hopening.1
      have hskipped := passes_of_stopsElement hsemicolon hpasses
      rw [hinside] at hskipped
      obtain ⟨depth, hfrontPasses, -⟩ := hskipped.split
      have hturn : element line d lexemes = .ok (.again d, (cutOutside (fun token =>
          token = .comma || token = .rightParen || token = .semicolon) lexemes.tail.tail).2) := by
        rw [element_label hwords.next, hwords.tail.optionalName hname,
          readTableClause_other hopens]
        rfl
      rw [lastSeen_unseen htaken]
      exact recovers_again (leaves_element line) (element_start hcreate) hturn
        (hwords.tail.tail.cut_past hcreate hfrontPasses (by simp)) hlonger

/-- An element that is broken off. -/
theorem element_cut {part : ElementSyntax} {behind : List Token} (hfits : part.Fits behind)
    (hsplit : part.marked = front ++ back) (hfront : front ≠ [])
    (hbegins : Begins front.tokens following lexemes) (d : TableDefinition) :
    Recovers following (fun _ => False) (lastSeen front)
      (repeatedly (element line) d lexemes) := by
  cases part with
  | column definition =>
    have hcolumn : definition.Fits behind := hfits
    have hname : next lexemes = definition.name := by
      rw [next_eq_head?, hbegins.head?_eq (tokens_ne_nil hfront) (Marked.tokens back),
        ← tokens_append, ← hsplit]
      rfl
    refine recovers_reader (leaves_element line) (element_start hcreate)
      (fun definition => { d with table := definition.addTo d.table }) ?_
      (ColumnDefinition.read_cut hcreate hcolumn hsplit hfront hbegins)
      (hbegins.length_lt (tokens_ne_nil hfront))
    exact element_definition (by rw [hname]; exact hcolumn.name)
      (by rw [hname]; exact hcolumn.isNot) d
  | clause label definition skipped => exact clause_cut hcreate hfits hsplit hfront hbegins d
  | other label tokens => exact other_cut hcreate hfits hsplit hfront hbegins d

/-- The elements of a table that is broken off are read up to the start of the next definition,
where the table is given up, or that start is lost. -/
theorem body_cut {table : TableSyntax} (hsound : table.Sound) (hsplit : table.body = front ++ back)
    (hbegins : Begins front.tokens following lexemes) (d : TableDefinition) :
    Recovers following (fun _ => False) (lastSeen front)
      (repeatedly (element line) d lexemes) := by
  by_cases hfront : front = []
  · subst hfront
    rw [begins_nil_iff.1 hbegins]
    exact element_start hcreate d
  rcases split_append hsplit with ⟨more, hfirst⟩ | ⟨inner, hinner, rfl, hmore⟩
  · exact element_cut hcreate (hsound.first []) hfirst hfront hbegins d
  · rw [tokens_append] at hbegins
    obtain ⟨middle, hfirst, hrest⟩ := hbegins.split
    have hcuts := hrest.cutsTo hcreate (Marked.tokens back ++ [.rightParen])
    have hhead := hrest.head?_eq (tokens_ne_nil hinner) (Marked.tokens back ++ [.rightParen])
    rw [← List.append_assoc, ← tokens_append, ← hmore] at hcuts hhead
    have hfits := (hsound.first []).beforeCut hcuts hhead
    obtain ⟨second, hturn, -⟩ := element_of_begins line hfits hfirst d
    rw [lastSeen_append hinner,
      repeatedly_again (hfirst.length_lt (element_tokens_ne_nil hfits)) hturn]
    refine recovers_row (element_start hcreate) TableSyntax.markedMore ElementSyntax.Fits hcreate
      (fun _ _ _ hcuts hhead hfit => hfit.beforeCut hcuts hhead)
      (fun part state rest lexemes hfit hbegin =>
        turns_of_markedMore line hfit hbegin state)
      (fun part state behind front back lexemes hfit hsplit hfront hbegin => ?_) (hsound.more [])
      hmore hrest second
    obtain ⟨first, inner, rfl⟩ := List.exists_cons_of_ne_nil hfront
    obtain ⟨rfl, helement⟩ := List.cons.inj hsplit
    have hcomma : Begins (.comma :: Marked.tokens inner) following lexemes := hbegin
    rw [lastSeen_cons, repeatedly_again hcomma.length_tail_lt (element_of_comma hcomma.next state)]
    by_cases hinside : inner = []
    · subst hinside
      rw [begins_nil_iff.1 hcomma.tail]
      exact element_start hcreate state
    · exact element_cut hcreate hfit helement hinside hcomma.tail state

end TableDefinition

end SchemaEvolution.Sql
