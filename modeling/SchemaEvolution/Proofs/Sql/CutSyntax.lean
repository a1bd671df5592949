import SchemaEvolution.Proofs.Sql.TableSyntax

/-!
# Statements that are broken off

Where the statement of a table is cut off, the parts before the cut are as they were: whatever may
follow a part may still follow it when it is cut off in front of the start of another definition.
The last token before the cut tells whether that start is seen.
-/

namespace SchemaEvolution.Sql.Syntax

/-- Whether the start of a definition right after the tokens is seen. -/
def lastSeen (marked : Marked) : Bool := (marked.getLast?.map Prod.snd).getD true

theorem lastSeen_append {left right : Marked} (hright : right ≠ []) :
    lastSeen (left ++ right) = lastSeen right := by
  rw [lastSeen, List.getLast?_append_of_ne_nil _ hright, lastSeen]

theorem lastSeen_seen (tokens : List Token) : lastSeen (seen tokens) = true := by
  rw [lastSeen, seen, List.getLast?_map]
  cases tokens.getLast? <;> rfl

theorem lastSeen_unseen {tokens : List Token} (hsome : tokens ≠ []) :
    lastSeen (unseen tokens) = false := by
  rw [lastSeen, unseen, List.getLast?_map, List.getLast?_eq_some_getLast hsome]
  rfl

theorem tokens_ne_nil {marked : Marked} (hsome : marked ≠ []) : marked.tokens ≠ [] :=
  fun hnil => hsome (List.map_eq_nil_iff.1 hnil)

/-- A cut falls into the first of two parts, or into the second one behind the whole first one. -/
theorem split_append {α : Type} {left right front back : List α}
    (hsplit : left ++ right = front ++ back) :
    (∃ more, left = front ++ more) ∨
      ∃ inner, inner ≠ [] ∧ front = left ++ inner ∧ right = inner ++ back := by
  rcases List.append_eq_append_iff.1 hsplit with ⟨inner, hfront, hright⟩ | ⟨more, hleft, -⟩
  · cases inner with
    | nil => exact .inl ⟨[], by rw [hfront, List.append_nil, List.append_nil]⟩
    | cons token more => exact .inr ⟨token :: more, List.cons_ne_nil _ _, hfront, hright⟩
  · exact .inl ⟨more, hleft⟩

theorem split_seen {tokens : List Token} {front back : Marked}
    (hsplit : seen tokens = front ++ back) :
    ∃ taken more, tokens = taken ++ more ∧ front = seen taken ∧ lastSeen front = true := by
  obtain ⟨taken, more, rfl, rfl, -⟩ := List.map_eq_append_iff.1 hsplit
  exact ⟨taken, more, rfl, rfl, lastSeen_seen taken⟩

theorem split_unseen {tokens : List Token} {front back : Marked}
    (hsplit : unseen tokens = front ++ back) :
    ∃ taken more, tokens = taken ++ more ∧ front = unseen taken := by
  obtain ⟨taken, more, rfl, rfl, -⟩ := List.map_eq_append_iff.1 hsplit
  exact ⟨taken, more, rfl, rfl⟩

/-- A cut falls behind a group or between its parentheses. -/
theorem split_group {inside : List Token} {front back : Marked}
    (hsplit : group inside = front ++ back) (hfront : front ≠ []) :
    (front = group inside ∧ lastSeen front = true) ∨
      ∃ taken more, inside = taken ++ more ∧ front = unseen (.leftParen :: taken) ∧
        lastSeen front = false := by
  rcases split_append hsplit with ⟨more, hopen⟩ | ⟨inner, hinner, rfl, hclosing⟩
  · obtain ⟨taken, others, htokens, rfl⟩ := split_unseen hopen
    have htaken : taken ≠ [] := fun hnil => hfront (by rw [hnil]; rfl)
    obtain ⟨first, taken, rfl⟩ := List.exists_cons_of_ne_nil htaken
    obtain ⟨rfl, hinside⟩ := List.cons.inj htokens
    exact .inr ⟨taken, others, hinside, rfl, lastSeen_unseen htaken⟩
  · obtain ⟨taken, others, htokens, rfl, -⟩ := split_seen hclosing
    cases taken with
    | nil => exact absurd rfl hinner
    | cons token taken =>
      obtain ⟨rfl, hnil⟩ := List.cons.inj htokens
      obtain ⟨rfl, rfl⟩ := List.append_eq_nil_iff.1 hnil.symm
      exact .inl ⟨rfl, by rw [lastSeen_append hinner]; rfl⟩

theorem split_seen_cons {token : Token} {more : List Token} {front back : Marked}
    (hsplit : seen (token :: more) = front ++ back) (hfront : front ≠ []) :
    ∃ taken others, more = taken ++ others ∧ front = seen (token :: taken) ∧
      lastSeen front = true := by
  obtain ⟨taken, others, htokens, rfl, hmark⟩ := split_seen hsplit
  cases taken with
  | nil => exact absurd rfl hfront
  | cons first taken =>
    obtain ⟨rfl, hmore⟩ := List.cons.inj htokens
    exact ⟨taken, others, hmore, rfl, hmark⟩

theorem split_seen_single {token : Token} {front back : Marked}
    (hsplit : seen [token] = front ++ back) (hfront : front ≠ []) :
    lastSeen front = true ∧ front = seen [token] := by
  obtain ⟨taken, others, hnil, rfl, hmark⟩ := split_seen_cons hsplit hfront
  obtain ⟨rfl, -⟩ := List.append_eq_nil_iff.1 hnil.symm
  exact ⟨hmark, rfl⟩

/-- A cut in two tokens that are seen falls behind the first one or behind both. -/
theorem split_seen_pair {first second : Token} {front back : Marked}
    (hsplit : seen [first, second] = front ++ back) (hfront : front ≠ []) :
    lastSeen front = true ∧ (front = seen [first] ∨ front = seen [first, second]) := by
  obtain ⟨taken, others, htokens, rfl, hmark⟩ := split_seen_cons hsplit hfront
  refine ⟨hmark, ?_⟩
  cases taken with
  | nil => exact .inl rfl
  | cons token taken =>
    obtain ⟨rfl, hnil⟩ := List.cons.inj htokens
    obtain ⟨rfl, -⟩ := List.append_eq_nil_iff.1 hnil.symm
    exact .inr rfl

/-- A part behind a token that is seen tells by itself whether a start is seen. -/
theorem lastSeen_cons (token : Token) (inner : Marked) :
    lastSeen ((token, true) :: inner) = lastSeen inner := by
  cases inner with
  | nil => rfl
  | cons first more =>
    rw [← List.singleton_append]
    exact lastSeen_append (List.cons_ne_nil first more)

theorem split_unseen_single {token : Token} {front back : Marked}
    (hsplit : unseen [token] = front ++ back) (hfront : front ≠ []) :
    lastSeen front = false ∧ front = unseen [token] := by
  obtain ⟨taken, more, htokens, rfl⟩ := split_unseen hsplit
  cases taken with
  | nil => exact absurd rfl hfront
  | cons one others =>
    obtain ⟨rfl, hnil⟩ := List.cons.inj htokens
    obtain ⟨rfl, -⟩ := List.append_eq_nil_iff.1 hnil.symm
    exact ⟨rfl, rfl⟩

theorem tokens_of_split_group {inside : List Token} {front back : Marked}
    (hsplit : group inside = front ++ back) (hfront : front ≠ []) :
    ∃ more, front.tokens = .leftParen :: more := by
  obtain ⟨first, more, rfl⟩ := List.exists_cons_of_ne_nil hfront
  obtain ⟨rfl, -⟩ := List.cons.inj hsplit
  exact ⟨Marked.tokens more, rfl⟩

/-! ## What may follow -/

/-- The tokens behind a part, cut off in front of the start of another definition. -/
def CutsTo (full cut : List Token) : Prop :=
  ∃ front back more, full = front ++ back ∧ cut = front ++ .keyword .create :: more

section CutsTo

variable {full broken : List Token} (hcuts : CutsTo full broken)

include hcuts

theorem CutsTo.append (left : List Token) : CutsTo (left ++ full) (left ++ broken) := by
  obtain ⟨front, back, more, rfl, rfl⟩ := hcuts
  exact ⟨left ++ front, back, more, (List.append_assoc ..).symm, (List.append_assoc ..).symm⟩

theorem CutsTo.head? : broken.head? = full.head? ∨ broken.head? = some (.keyword .create) := by
  obtain ⟨front, back, more, rfl, rfl⟩ := hcuts
  cases front with
  | nil => exact .inr rfl
  | cons token front => exact .inl rfl

theorem CutsTo.head?_ne {token : Token} (hhead : full.head? ≠ some token)
    (htoken : token ≠ .keyword .create) : broken.head? ≠ some token := by
  rcases hcuts.head? with heq | heq
  · rwa [heq]
  · rw [heq]
    exact fun heq => htoken (Option.some.inj heq).symm

theorem CutsTo.starts (hstarts : ReferenceOption.starts full = false) :
    ReferenceOption.starts broken = false := by
  obtain ⟨front, back, more, rfl, rfl⟩ := hcuts
  match front with
  | [] => rfl
  | first :: second :: others => exact hstarts
  | [first] =>
    rw [List.singleton_append, ReferenceOption.starts] at hstarts ⊢
    simp only [Bool.or_eq_false_iff] at hstarts ⊢
    refine ⟨hstarts.1, Bool.and_eq_false_iff.2 (.inr rfl)⟩

theorem Action.Fits.beforeCut {action : Action} (hfits : action.Fits full) :
    action.Fits broken := by
  cases action with
  | cascade | restrict => trivial
  | none no action => exact hfits
  | set word value columns =>
    obtain ⟨hset, hvalue, hcolumns, hbehind⟩ := hfits
    exact ⟨hset, hvalue, hcolumns, fun hnone => hcuts.head?_ne (hbehind hnone) (by rintro ⟨⟩)⟩

theorem ReferenceOption.Fits.beforeCut {option : ReferenceOption} (hfits : option.Fits full) :
    option.Fits broken := by
  cases option with
  | on event action => exact ⟨hfits.1, hfits.2.beforeCut hcuts⟩
  | matching _ _ | timing _ | notDeferrable _ => exact hfits

theorem RowFits.beforeCut {α : Type} {marked : α → Marked} {fits : α → List Token → Prop}
    (hpart : ∀ part full broken, CutsTo full broken → fits part full → fits part broken)
    {parts : List α} (hfits : RowFits marked fits parts full) :
    RowFits marked fits parts broken := by
  induction parts with
  | nil => trivial
  | cons part more ih =>
    exact ⟨hpart part _ _ (hcuts.append _) hfits.1, ih hfits.2⟩

theorem Target.Fits.beforeCut {target : Target} (hfits : target.Fits full) :
    target.Fits broken where
  table := hfits.table
  columns := hfits.columns
  behindTable hnone :=
    ⟨(hcuts.append _).head?_ne (hfits.behindTable hnone).1 (by rintro ⟨⟩),
      (hcuts.append _).head?_ne (hfits.behindTable hnone).2 (by rintro ⟨⟩)⟩
  options := hfits.options.beforeCut hcuts fun _ _ _ hcuts hfits => hfits.beforeCut hcuts
  behind := hcuts.starts hfits.behind

theorem Attribute.Fits.beforeCut {part : Attribute} (hfits : part.Fits full) :
    part.Fits broken := by
  cases part with
  | references target => exact Target.Fits.beforeCut hcuts hfits
  | not => exact hcuts.head?_ne hfits (by rintro ⟨⟩)
  | default value =>
    refine ⟨hfits.1, ?_⟩
    rcases hcuts.head? with heq | heq
    · rw [heq]
      exact hfits.2
    · rw [heq]
      rfl
  | collate word name => exact ⟨hfits.1, hfits.2.1, hcuts.head?_ne hfits.2.2 (by rintro ⟨⟩)⟩
  | label _ | primaryKey | unique | check _ | notNull | null | group _ | other _ => exact hfits

theorem ClauseSyntax.Fits.beforeCut {definition : ClauseSyntax} (hfits : definition.Fits full) :
    definition.Fits broken := by
  cases definition with
  | primaryKey _ | check _ => exact hfits
  | unique columns =>
    exact ⟨hfits.1, fun hnone => ⟨hcuts.head?_ne (hfits.2 hnone).1 (by rintro ⟨⟩),
      hcuts.head?_ne (hfits.2 hnone).2 (by rintro ⟨⟩)⟩⟩
  | foreignKey columns target => exact ⟨hfits.1, hfits.2.beforeCut hcuts⟩

/-- An element is over before a comma or a parenthesis only, so that has to be still there. -/
theorem ElementSyntax.Fits.beforeCut {element : ElementSyntax} (hhead : broken.head? = full.head?)
    (hfits : element.Fits full) : element.Fits broken := by
  cases element with
  | column definition =>
    have hcolumn : definition.Fits full := hfits
    exact {
      name := hcolumn.name
      isNot := hcolumn.isNot
      typed := hcolumn.typed
      type := hcolumn.type
      behindType := by
        rcases ((hcuts.append definition.hidden).append _).head? with heq | heq
        · rw [heq]
          exact hcolumn.behindType
        · rw [heq]
          rfl
      attributes := hcolumn.attributes.beforeCut (hcuts.append _) fun _ _ _ hcuts hfits =>
        hfits.beforeCut hcuts
      generated := fun generated hsome =>
        { word := (hcolumn.generated generated hsome).word
          passes := (hcolumn.generated generated hsome).passes
          attributes := (hcolumn.generated generated hsome).attributes.beforeCut hcuts
            fun _ _ _ hcuts hfits => hfits.beforeCut hcuts }
      behind := by
        rw [hhead]
        exact hcolumn.behind }
  | clause label definition rest =>
    obtain ⟨hlabel, hdefinition, hpasses, hclosing⟩ := hfits
    exact ⟨hlabel, hdefinition.beforeCut (hcuts.append rest), hpasses, by rwa [hhead]⟩
  | other label tokens =>
    obtain ⟨hlabel, hpasses, hsemicolon, hopening, hclosing⟩ := hfits
    exact ⟨hlabel, hpasses, hsemicolon, hopening, by rwa [hhead]⟩

end CutsTo

end SchemaEvolution.Sql.Syntax
