import SchemaEvolution.Proofs.Sql.CutSyntax
import SchemaEvolution.Proofs.Sql.TableStatement

/-!
# Reading parts that are broken off

A part of a statement that is broken off is read by the reader that is at work there, with the
start of another definition behind it.  Where the last token before that start is marked as seen,
the reader comes to a halt in front of it; where it is not, the reader goes past it.
-/

namespace SchemaEvolution.Sql

open Syntax

variable {α β σ : Type} {tokens : List Token} {following lexemes rest : List Lexeme} {mark : Bool}
  {front back : Marked}

/-- What is left is what follows, or else an end of it without its first lexeme. -/
def Stands (following : List Lexeme) : Bool → List Lexeme → Prop
  | true, rest => rest = following
  | false, rest => rest <:+ following.tail

theorem Stands.then {next : List Lexeme → List Lexeme} (hstands : Stands following mark rest)
    (hstill : next following = following) (hsuffix : next rest <:+ rest) :
    Stands following mark (next rest) := by
  cases mark with
  | true =>
    have heq : rest = following := hstands
    rw [heq]
    exact hstill
  | false => exact List.IsSuffix.trans hsuffix hstands

/-- What is left is what follows, at most with a single `NOT` before it. -/
def Nears (following rest : List Lexeme) : Prop :=
  rest = following ∨ Begins [.keyword .not] following rest

/-- The reading comes to an end as it should, or to an error in front of what follows. -/
def Notices (following : List Lexeme) (ends : List Lexeme → Prop) :
    Except Halt (α × List Lexeme) → Prop
  | .ok (_, rest) => ends rest
  | .error stop => stop.rest = following ∧ stop.diagnostic.severity = .error

/-- The start of what follows is seen, or else it is lost. -/
def Recovers (following : List Lexeme) (ends : List Lexeme → Prop) :
    Bool → Except Halt (α × List Lexeme) → Prop
  | true, outcome => Notices following ends outcome
  | false, outcome => Leaves following.tail outcome

theorem Recovers.bind {ends ends' : List Lexeme → Prop} {outcome : Except Halt (α × List Lexeme)}
    {next : α × List Lexeme → Except Halt (β × List Lexeme)}
    (hrecovers : Recovers following ends mark outcome)
    (hseen : ∀ value rest, ends rest → Notices following ends' (next (value, rest)))
    (hleaves : ∀ value rest, Leaves rest (next (value, rest))) :
    Recovers following ends' mark (outcome >>= next) := by
  cases mark with
  | true =>
    cases outcome with
    | error stop => exact hrecovers
    | ok found => exact hseen found.1 found.2 hrecovers
  | false =>
    exact Leaves.bind hrecovers fun value rest hrest => (hleaves value rest).mono hrest

theorem recovers_of_stands (value : α) (hstands : Stands following mark rest) :
    Recovers following (· = following) mark (.ok (value, rest)) := by
  cases mark with
  | true => exact hstands
  | false => exact hstands

theorem Begins.head?_eq (hbegins : Begins tokens rest lexemes) (hsome : tokens ≠ [])
    (others : List Token) : (lexemes.map Lexeme.token).head? = (tokens ++ others).head? := by
  obtain ⟨token, more, rfl⟩ := List.exists_cons_of_ne_nil hsome
  rw [hbegins.tokens_eq]
  rfl

theorem exists_start (hcreate : next following = .keyword .create) :
    ∃ first, first.token = .keyword .create ∧ following = first :: following.tail := by
  cases following with
  | nil => cases hcreate
  | cons first more => exact ⟨first, hcreate, rfl⟩

theorem cutsTo_start (hcreate : next following = .keyword .create) (others : List Token) :
    CutsTo others (following.map Lexeme.token) := by
  obtain ⟨start, hstart, hfollowing⟩ := exists_start hcreate
  rw [hfollowing, List.map_cons, hstart]
  exact ⟨[], others, _, rfl, rfl⟩

/-- The tokens before a cut, with what follows, are those of the whole statement cut off. -/
theorem Begins.cutsTo (hcreate : Sql.next following = .keyword .create)
    (hbegins : Begins tokens following lexemes) (others : List Token) :
    CutsTo (tokens ++ others) (lexemes.map Lexeme.token) := by
  rw [hbegins.tokens_eq]
  exact (cutsTo_start hcreate others).append tokens

section Repetition

variable {step : σ → List Lexeme → Except Halt (Turn σ × List Lexeme)} {ends : List Lexeme → Prop}
  (hleaves : ∀ state lexemes, Leaves lexemes (step state lexemes))
  (hstart : ∀ state, Notices following ends (repeatedly step state following))

include hleaves hstart

/-- A turn that is followed by another one is as good as the turns after it. -/
theorem recovers_again {state after : σ} (hturn : step state lexemes = .ok (.again after, rest))
    (hstands : Stands following mark rest) (hlonger : following.length < lexemes.length) :
    Recovers following ends mark (repeatedly step state lexemes) := by
  cases mark with
  | true =>
    obtain rfl : rest = following := hstands
    rw [repeatedly_again hlonger hturn]
    exact hstart after
  | false =>
    have hsuffix : rest <:+ following.tail := hstands
    have hshorter : rest.length < lexemes.length :=
      (hsuffix.trans (List.tail_suffix _)).length_le.trans_lt hlonger
    rw [repeatedly_again hshorter hturn]
    exact (leaves_repeatedly hleaves after rest).mono hsuffix

/-- A turn by a reader of its own is as good as that reader. -/
theorem recovers_reader {α : Type} {state : σ} {outcome : Except Halt (α × List Lexeme)}
    (change : α → σ) (hturn : step state lexemes =
      outcome >>= fun found => pure (.again (change found.1), found.2))
    (hread : Recovers following (· = following) mark outcome)
    (hlonger : following.length < lexemes.length) :
    Recovers following ends mark (repeatedly step state lexemes) := by
  cases outcome with
  | error stop =>
    have hfault : step state lexemes = .error stop := hturn
    unfold repeatedly
    rw [hfault]
    cases mark with
    | true => exact hread
    | false => exact hread
  | ok found =>
    refine recovers_again hleaves hstart hturn ?_ hlonger
    cases mark with
    | true => exact hread
    | false => exact hread

omit hleaves in
/-- A row of parts that is broken off is read up to the part with the cut. -/
theorem recovers_row {α : Type} (marked : α → Marked) (fits : α → List Token → Prop)
    (hcreate : next following = .keyword .create)
    (hbefore : ∀ part full broken, CutsTo full broken → broken.head? = full.head? →
      fits part full → fits part broken)
    (hpart : ∀ part state rest lexemes, fits part (rest.map Lexeme.token) →
      Begins (marked part).tokens rest lexemes → ∃ after, Turns step state lexemes after rest)
    (hcut : ∀ part state behind front back lexemes, fits part behind →
      marked part = front ++ back → front ≠ [] → Begins front.tokens following lexemes →
        Recovers following ends (lastSeen front) (repeatedly step state lexemes))
    {parts : List α} {behind : List Token} (hfits : RowFits marked fits parts behind)
    (hsplit : row marked parts = front ++ back) (hbegins : Begins front.tokens following lexemes)
    (state : σ) : Recovers following ends (lastSeen front) (repeatedly step state lexemes) := by
  induction parts generalizing front lexemes state with
  | nil =>
    obtain ⟨rfl, -⟩ := List.append_eq_nil_iff.1 hsplit.symm
    rw [begins_nil_iff.1 hbegins]
    exact hstart state
  | cons part more ih =>
    obtain ⟨hfit, hfits⟩ := hfits
    rcases split_append hsplit with ⟨inner, hpartSplit⟩ | ⟨inner, hinner, rfl, hmore⟩
    · by_cases hfront : front = []
      · subst hfront
        rw [begins_nil_iff.1 hbegins]
        exact hstart state
      · exact hcut part state _ front inner lexemes hfit hpartSplit hfront hbegins
    · rw [tokens_append] at hbegins
      obtain ⟨middle, hfirst, hrest⟩ := hbegins.split
      have hinnerRow : row marked more = inner ++ back := hmore
      have hcuts := hrest.cutsTo hcreate (Marked.tokens back ++ behind)
      rw [← List.append_assoc, ← tokens_append, ← hinnerRow] at hcuts
      have hhead : (middle.map Lexeme.token).head? =
          ((row marked more).tokens ++ behind).head? := by
        rw [hinnerRow, tokens_append, List.append_assoc]
        exact hrest.head?_eq (tokens_ne_nil hinner) _
      obtain ⟨next, hturns⟩ := hpart part state middle lexemes
        (hbefore part _ _ hcuts hhead hfit) hfirst
      rw [lastSeen_append hinner, hturns.repeatedly_eq]
      exact ih hfits hinnerRow hrest next

end Repetition

theorem Begins.cut_snd {stop : Nat → Token → Bool} {first middle : Nat}
    (hbegins : Begins tokens following lexemes) (hpasses : Passes stop first tokens middle) :
    (Sql.cut stop first lexemes).2 = (Sql.cut stop middle following).2 := by
  obtain ⟨taken, rfl, -, rfl⟩ := hbegins
  induction taken generalizing first with
  | nil =>
    obtain rfl : first = middle := hpasses
    rfl
  | cons lexeme more ih =>
    rw [List.cons_append, Sql.cut, if_neg (by rw [hpasses.1]; decide)]
    exact ih hpasses.2

section Broken

variable (hcreate : Sql.next following = .keyword .create)

include hcreate

/-- What does not stop at the start of a definition goes past it. -/
theorem Begins.cut_past {stop : Nat → Token → Bool} {first middle : Nat}
    (hbegins : Begins tokens following lexemes) (hpasses : Passes stop first tokens middle)
    (hstop : stop middle (.keyword .create) = false) :
    (Sql.cut stop first lexemes).2 <:+ following.tail := by
  obtain ⟨start, hstart, hfollowing⟩ := exists_start hcreate
  rw [hbegins.cut_snd hpasses, hfollowing, Sql.cut, if_neg (by rw [hstart, hstop]; decide)]
  exact cut_suffix stop _ _

/-- What stops at the start of a definition, at whatever depth, stops in front of it. -/
theorem Begins.cut_before {stop : Nat → Token → Bool} {first last : Nat} {more : List Token}
    (hbegins : Begins tokens following lexemes) (hpasses : Passes stop first (tokens ++ more) last)
    (hstop : ∀ depth, stop depth (.keyword .create) = true) :
    (Sql.cut stop first lexemes).2 = following := by
  obtain ⟨middle, hfront, -⟩ := hpasses.split
  exact hbegins.cut_rest hfront (by rw [hcreate]; exact hstop middle)

theorem eat?_start {token : Token} (htoken : token ≠ .keyword .create) :
    eat? token following = none :=
  eat?_of_next_ne (by rw [hcreate]; exact htoken.symm)

theorem skip_start {token : Token} (htoken : token ≠ .keyword .create) :
    skip token following = following :=
  skip_of_next_ne (by rw [hcreate]; exact htoken.symm)

theorem nameList_start : nameList following = ([], following) :=
  nameList_of_next_ne (by rw [hcreate]; rintro ⟨⟩)

theorem parenthesized_start : parenthesized following = ("", following) := by
  rw [parenthesized, eat?_start hcreate (by rintro ⟨⟩)]

theorem qualifiedName?_start : qualifiedName? following = none := by
  rw [qualifiedName?, hcreate]
  rfl

/-- A list of names that is cut off takes the first lexeme behind the cut. -/
theorem namesInside_past {inside : List Token} (hlist : IsNameList inside)
    (hbegins : Begins inside following lexemes) : (namesInside lexemes).2 <:+ following.tail := by
  obtain ⟨start, hstart, hfollowing⟩ := exists_start hcreate
  have hstep : ∀ {lexeme : Lexeme} {more : List Lexeme}, lexeme.token ≠ .rightParen →
      lexeme.token ≠ .eof → lexeme.token ≠ .semicolon →
        (namesInside (lexeme :: more)).2 = (namesInside more).2 := by
    intro lexeme more hclosing heof hsemicolon
    conv => lhs; unfold namesInside
    split
    · rfl
    · exact absurd ‹_› hclosing
    · exact absurd ‹_› heof
    · exact absurd ‹_› hsemicolon
    · rfl
  obtain ⟨taken, rfl, -, rfl⟩ := hbegins
  induction taken with
  | nil =>
    rw [List.nil_append, hfollowing, hstep (by rw [hstart]; rintro ⟨⟩) (by rw [hstart]; rintro ⟨⟩)
      (by rw [hstart]; rintro ⟨⟩)]
    exact namesInside_suffix _
  | cons lexeme more ih =>
    obtain ⟨hclosing, heof, hsemicolon⟩ := hlist lexeme.token List.mem_cons_self
    rw [List.cons_append, hstep hclosing heof hsemicolon]
    exact ih fun token hmem => hlist token (List.mem_cons_of_mem _ hmem)

/-- A list of names goes past the start of a definition unless it is closed. -/
theorem nameList_cut {inside : List Token} (hlist : IsNameList inside)
    (hsplit : group inside = front ++ back) (hbegins : Begins front.tokens following lexemes) :
    Stands following (lastSeen front) (nameList lexemes).2 := by
  by_cases hfront : front = []
  · subst hfront
    rw [begins_nil_iff.1 hbegins, nameList_start hcreate]
    rfl
  rcases split_group hsplit hfront with ⟨rfl, hmark⟩ | ⟨taken, more, rfl, rfl, hmark⟩
  · rw [hmark, hbegins.nameList hlist]
    rfl
  · rw [hmark]
    rw [tokens_unseen] at hbegins
    rw [nameList, hbegins.eat?]
    exact namesInside_past hcreate (fun token hmem => hlist token (List.mem_append_left _ hmem))
      hbegins.tail

/-- A text between parentheses goes past the start of a definition unless it is closed. -/
theorem parenthesized_cut {condition : List Token} (hpasses : Passes stopsCondition 0 condition 0)
    (hsplit : group condition = front ++ back) (hbegins : Begins front.tokens following lexemes) :
    Stands following (lastSeen front) (parenthesized lexemes).2 := by
  by_cases hfront : front = []
  · subst hfront
    rw [begins_nil_iff.1 hbegins, parenthesized_start hcreate]
    rfl
  rcases split_group hsplit hfront with ⟨rfl, hmark⟩ | ⟨taken, more, rfl, rfl, hmark⟩
  · obtain ⟨text, htext⟩ := hbegins.parenthesized hpasses
    rw [hmark, htext]
    rfl
  · rw [hmark]
    rw [tokens_unseen] at hbegins
    obtain ⟨middle, htaken, -⟩ := hpasses.split
    rw [parenthesized_eq hbegins.eat?]
    exact (skip_suffix _ _).trans (hbegins.tail.cut_past hcreate htaken (by simp [stopsCondition]))

/-- A group that is skipped takes the start of a definition with it unless it is closed. -/
theorem skipGroup_cut {inside : List Token}
    (hpasses : Passes stopsGroup 1 (inside ++ [.rightParen]) 0)
    (hsplit : group inside = front ++ back) (hfront : front ≠ [])
    (hbegins : Begins front.tokens following lexemes) :
    Stands following (lastSeen front) (skipGroup lexemes) := by
  rcases split_group hsplit hfront with ⟨rfl, hmark⟩ | ⟨taken, more, rfl, rfl, hmark⟩
  · rw [hmark, hbegins.skipGroup hpasses]
    rfl
  · rw [hmark]
    rw [tokens_unseen] at hbegins
    rw [List.append_assoc] at hpasses
    obtain ⟨middle, htaken, hmore⟩ := hpasses.split
    have hdepth : middle ≠ 0 := by
      rintro rfl
      cases more <;> cases hmore.1
    obtain ⟨first, others, hfirst, -, hothers, rfl⟩ := hbegins.cons
    rw [skipGroup, if_pos hfirst]
    exact hothers.cut_past hcreate htaken (by simp [hdepth])

/-- A name that is cut off leaves what stands behind the cut. -/
theorem lastName_cut {more last : List Token} (hmore : ∀ part ∈ more, part.name?.isSome = true)
    (hsplit : (more.flatMap fun part => [Token.dot, part]) = tokens ++ last)
    (hbegins : Begins tokens following lexemes) (name : String) :
    (lastName name lexemes).2 = following := by
  have hstart : ∀ name, (lastName name following).2 = following := fun name => by
    rw [lastName_of_next name (by rw [hcreate]; rintro ⟨⟩)]
  induction more generalizing tokens name lexemes with
  | nil =>
    obtain ⟨rfl, -⟩ := List.append_eq_nil_iff.1 hsplit.symm
    rw [begins_nil_iff.1 hbegins, hstart]
  | cons part more ih =>
    match tokens with
    | [] => rw [begins_nil_iff.1 hbegins, hstart]
    | [token] =>
      obtain ⟨rfl, -⟩ := List.cons.inj hsplit
      obtain ⟨dot, others, hdot, -, hothers, rfl⟩ := hbegins.cons
      obtain ⟨start, hcreateToken, hfollowing⟩ := exists_start hcreate
      rw [begins_nil_iff.1 hothers, hfollowing, lastName, if_pos hdot, hcreateToken]
      rfl
    | first :: second :: others =>
      obtain ⟨rfl, hrest⟩ := List.cons.inj hsplit
      obtain ⟨rfl, htokens⟩ := List.cons.inj hrest
      obtain ⟨inner, hinner⟩ := Option.isSome_iff_exists.1 (hmore part List.mem_cons_self)
      obtain ⟨dot, middle, hdot, -, hmiddle, rfl⟩ := hbegins.cons
      obtain ⟨second, behind, hsecond, -, hbehind, rfl⟩ := hmiddle.cons
      rw [lastName, if_pos hdot, hsecond, hinner]
      exact ih (fun other hmem => hmore other (List.mem_cons_of_mem _ hmem)) htokens hbehind inner

/-- A name stops in front of the start of a definition, also behind one of its dots. -/
theorem qualifiedName?_cut {dotted : Dotted} {last : List Token} (hsound : dotted.Sound)
    (hsplit : dotted.tokens = tokens ++ last) (hsome : tokens ≠ [])
    (hbegins : Begins tokens following lexemes) :
    ∃ name, qualifiedName? lexemes = some (name, following) := by
  obtain ⟨first, more, rfl⟩ := List.exists_cons_of_ne_nil hsome
  obtain ⟨rfl, hmore⟩ := List.cons.inj hsplit
  obtain ⟨name, hname⟩ := Option.isSome_iff_exists.1 hsound.1
  have hlast := lastName_cut hcreate hsound.2 hmore hbegins.tail name
  refine ⟨(lastName name lexemes.tail).1, ?_⟩
  rw [qualifiedName?, hbegins.next, hname, Option.map_some, ← hlast]

/-! ## References -/

theorem readAction_start : (readAction following).2 = following := by
  simp only [readAction, hcreate]
  rfl

/-- An action that is cut off leaves what stands behind the cut, or that without its first lexeme.
-/
theorem readAction_cut {action : Action} {next : List Token} (hfits : action.Fits next)
    (hsplit : action.marked = front ++ back) (hfront : front ≠ [])
    (hbegins : Begins front.tokens following lexemes) :
    Stands following (lastSeen front) (readAction lexemes).2 := by
  cases action with
  | cascade =>
    obtain ⟨hmark, rfl⟩ := split_seen_single hsplit hfront
    have hword : Begins [.keyword .cascade] following lexemes := hbegins
    rw [hmark]
    simp only [readAction, hword.next, hword.tail_eq]
    rfl
  | restrict =>
    obtain ⟨hmark, rfl⟩ := split_seen_single hsplit hfront
    have hword : Begins [.keyword .restrict] following lexemes := hbegins
    rw [hmark]
    simp only [readAction, hword.next, hword.tail_eq]
    rfl
  | none no action =>
    obtain ⟨hno, haction⟩ := hfits
    have hset := isWord_of_isWord hno (by decide : "no" ≠ "set")
    obtain ⟨spelling, rfl, -⟩ := exists_of_isWord hno
    obtain ⟨hmark, hfront⟩ := split_seen_pair hsplit hfront
    rw [hmark]
    rcases hfront with rfl | rfl
    · have hword : Begins [.word spelling] following lexemes := hbegins
      simp only [readAction, hword.next, hset, hno, Bool.false_eq_true, if_false, if_true,
        skipWord, hword.tail_eq, hcreate]
      rfl
    · have hwords : Begins [.word spelling, action] following lexemes := hbegins
      simp only [readAction, hwords.next, hset, hno, Bool.false_eq_true, if_false, if_true,
        skipWord, hwords.tail.next, haction, hwords.tail.tail_eq]
      rfl
  | set word value columns =>
    obtain ⟨hset, hvalue, hcolumns, -⟩ := hfits
    obtain ⟨spelling, rfl, -⟩ := exists_of_isWord hset
    -- behind the value, the group is left, or what follows where there is none
    have hread : ∀ {lexemes : List Lexeme}, Sql.next lexemes = .word spelling →
        Sql.next lexemes.tail = .keyword value → (readAction lexemes).2 =
          if Sql.next lexemes.tail.tail = .leftParen then skipGroup lexemes.tail.tail
          else lexemes.tail.tail := by
      intro lexemes hword hnext
      rcases hvalue with rfl | rfl
      · simp only [readAction, hword, hset, hnext, if_true]
      · simp only [readAction, hword, hset, hnext, if_true]
    rcases split_append hsplit with ⟨more, hwords⟩ | ⟨inner, hinner, rfl, hgroup⟩
    · obtain ⟨hmark, hfront⟩ := split_seen_pair hwords hfront
      rw [hmark]
      rcases hfront with rfl | rfl
      · have hword : Begins [.word spelling] following lexemes := hbegins
        simp only [readAction, hword.next, hset, if_true, hword.tail_eq, hcreate]
        rfl
      · have hwords : Begins [.word spelling, .keyword value] following lexemes := hbegins
        rw [hread hwords.next hwords.tail.next, hwords.tail.tail_eq, hcreate]
        rfl
    · cases columns with
      | none => exact absurd (List.append_eq_nil_iff.1 hgroup.symm).1 hinner
      | some inside =>
        have hwords : Begins (.word spelling :: .keyword value :: Marked.tokens inner) following
          lexemes := hbegins
        obtain ⟨more, hopen⟩ := tokens_of_split_group hgroup hinner
        have hparen : Sql.next lexemes.tail.tail = .leftParen := by
          have hinside := hwords.tail.tail
          rw [hopen] at hinside
          exact hinside.next
        rw [lastSeen_append hinner, hread hwords.next hwords.tail.next, if_pos hparen]
        exact skipGroup_cut hcreate (hcolumns inside rfl) hgroup hinner hwords.tail.tail

theorem referenceOption_start (reference : Reference) :
    Notices following (Nears following) (repeatedly referenceOption reference following) := by
  have hstarts : ReferenceOption.starts (following.map Lexeme.token) = false := by
    obtain ⟨start, hstart, hfollowing⟩ := exists_start hcreate
    rw [hfollowing, List.map_cons, hstart]
    rfl
  rw [repeatedly_done (referenceOption_done hstarts reference)]
  exact .inl rfl

/-- The options of a reference that is cut off leave what stands behind the cut, or lose its start.
-/
theorem referenceOption_cut {option : Syntax.ReferenceOption} {behind : List Token}
    (hfits : option.Fits behind) (hsplit : option.marked = front ++ back) (hfront : front ≠ [])
    (hbegins : Begins front.tokens following lexemes) (reference : Reference) :
    Recovers following (Nears following) (lastSeen front)
      (repeatedly referenceOption reference lexemes) := by
  have hlonger := hbegins.length_lt (tokens_ne_nil hfront)
  -- a turn that goes on, and leaves what follows or loses it
  have hagain : ∀ {mark : Bool} {after : Reference} {rest : List Lexeme},
      referenceOption reference lexemes = .ok (.again after, rest) → Stands following mark rest →
        Recovers following (Nears following) mark (repeatedly referenceOption reference lexemes) :=
    fun hturn hstands => recovers_again leaves_referenceOption (referenceOption_start hcreate)
      hturn hstands hlonger
  -- a whole option, which is followed by the start of a definition
  have hwhole : front = option.marked → lastSeen front = true →
      Recovers following (Nears following) (lastSeen front)
        (repeatedly referenceOption reference lexemes) := by
    rintro rfl hmark
    have hturn :=
      hbegins.referenceOption (hfits.beforeCut (cutsTo_start hcreate behind)) reference
    rw [hmark]
    exact hagain hturn rfl
  cases option with
  | on event action =>
    obtain ⟨hevent, haction⟩ := hfits
    have hread : ∀ {tokens : List Token},
        Begins (.keyword .on :: .keyword event :: tokens) following lexemes →
          ∃ after, referenceOption reference lexemes =
            .ok (.again after, (readAction lexemes.tail.tail).2) := by
      intro tokens hon
      rcases hevent with rfl | rfl
      · exact ⟨_, by simp only [referenceOption, hon.next, hon.tail.next, if_true]; rfl⟩
      · exact ⟨_, by simp only [referenceOption, hon.next, hon.tail.next, if_true]; rfl⟩
    rcases split_append hsplit with ⟨more, hwords⟩ | ⟨inner, hinner, rfl, hactionSplit⟩
    · obtain ⟨hmark, rfl | rfl⟩ := split_seen_pair hwords hfront
      · have hon : Begins [.keyword .on] following lexemes := hbegins
        have hturn : referenceOption reference lexemes = .ok (.done reference, following) := by
          simp only [referenceOption, hon.next, hon.tail_eq, hcreate, if_true]
        rw [hmark, repeatedly_done hturn]
        exact .inl rfl
      · have hon : Begins [.keyword .on, .keyword event] following lexemes := hbegins
        obtain ⟨after, hturn⟩ := hread hon
        rw [hmark]
        rw [hon.tail.tail_eq] at hturn
        exact hagain hturn (readAction_start hcreate)
    · have hon : Begins (.keyword .on :: .keyword event :: Marked.tokens inner) following lexemes :=
        hbegins
      obtain ⟨after, hturn⟩ := hread hon
      rw [lastSeen_append hinner]
      exact hagain hturn (readAction_cut hcreate haction hactionSplit hinner hon.tail.tail)
  | matching word kind =>
    obtain ⟨hmatch, hkind⟩ := hfits
    rcases split_append hsplit with ⟨more, hword⟩ | ⟨inner, hinner, rfl, hkindSplit⟩
    · obtain ⟨hmark, rfl⟩ := split_unseen_single hword hfront
      have hword : Begins [word] following lexemes := hbegins
      obtain ⟨spelling, rfl, -⟩ := exists_of_isWord hmatch
      have hturn : referenceOption reference lexemes = .ok (.again reference, following.tail) := by
        simp only [referenceOption, hword.next, hmatch, if_true, hword.tail_eq]
        rfl
      rw [hmark]
      exact hagain hturn (List.suffix_refl _)
    · obtain ⟨hmark, rfl⟩ := split_seen_single hkindSplit hinner
      exact hwhole rfl rfl
  | timing word =>
    obtain ⟨hmark, hfront⟩ := split_seen_single hsplit hfront
    exact hwhole hfront hmark
  | notDeferrable word =>
    obtain ⟨hmark, rfl | hfront⟩ := split_seen_pair hsplit hfront
    · have hnot : Begins [.keyword .not] following lexemes := hbegins
      have hturn : referenceOption reference lexemes = .ok (.done reference, lexemes) := by
        simp only [referenceOption, hnot.next, hnot.tail_eq, hcreate]
        rfl
      rw [hmark, repeatedly_done hturn]
      exact .inr hnot
    · exact hwhole hfront hmark

theorem readReference_start :
    Notices following (Nears following) (readReference following) := by
  rw [readReference, qualifiedName?_start hcreate]
  exact ⟨rfl, rfl⟩

/-- A reference that is broken off is read up to the start of a definition, or fails there. -/
theorem readReference_cut {target : Target} {behind : List Token} (hfits : target.Fits behind)
    (hsplit : target.marked = front ++ back) (hbegins : Begins front.tokens following lexemes) :
    Recovers following (Nears following) (lastSeen front) (readReference lexemes) := by
  by_cases hfront : front = []
  · subst hfront
    rw [begins_nil_iff.1 hbegins]
    exact readReference_start hcreate
  rcases split_append hsplit with ⟨more, htable⟩ | ⟨inner, hinner, rfl, hbehind⟩
  · obtain ⟨taken, others, htokens, rfl, hmark⟩ := split_seen htable
    rw [tokens_seen] at hbegins
    obtain ⟨name, hname⟩ := qualifiedName?_cut hcreate hfits.table htokens
      (fun hnil => hfront (by rw [hnil]; rfl)) hbegins
    rw [hmark]
    simp only [readReference, hname, nameList_start hcreate]
    exact referenceOption_start hcreate _
  rw [tokens_append, tokens_seen] at hbegins
  obtain ⟨behindTable, htable, hinside⟩ := hbegins.split
  rw [lastSeen_append hinner]
  -- the options, behind the columns or behind the table
  have hoptions : ∀ {front : Marked} {lexemes : List Lexeme} (reference : Reference),
      row ReferenceOption.marked target.options = front ++ back →
        Begins front.tokens following lexemes →
          Recovers following (Nears following) (lastSeen front)
            (repeatedly referenceOption reference lexemes) := by
    intro front lexemes reference hrow hbegin
    refine recovers_row (referenceOption_start hcreate) ReferenceOption.marked
      ReferenceOption.Fits hcreate
      (fun _ _ _ hcuts _ hfit => hfit.beforeCut hcuts)
      (fun option state rest lexemes hfit hbegin => ?_)
      (fun option state _ _ _ _ hfit hsplit hfront hbegin =>
        referenceOption_cut hcreate hfit hsplit hfront hbegin state) hfits.options hrow hbegin
        reference
    have hturn := hbegin.referenceOption hfit state
    exact ⟨_, .single hturn (hbegin.length_lt (ReferenceOption.tokens_ne_nil option))⟩
  have hhead := hinside.head?_eq (tokens_ne_nil hinner)
  cases hcase : target.columns with
  | none =>
    rw [hcase] at hbehind
    have hrow : row ReferenceOption.marked target.options = inner ++ back := hbehind
    obtain ⟨hdot, hparen⟩ := hfits.behindTable hcase
    rw [hrow, tokens_append, List.append_assoc, ← hhead] at hdot hparen
    simp only [readReference,
      htable.qualifiedName? hfits.table (next_ne_of_head? hdot (by rintro ⟨⟩)),
      nameList_of_next_ne (next_ne_of_head? hparen (by rintro ⟨⟩))]
    exact hoptions _ hrow hinside
  | some inside =>
    rw [hcase] at hbehind
    have hcolumns : group inside ++ row ReferenceOption.marked target.options = inner ++ back :=
      hbehind
    have hlist := hfits.columns inside hcase
    have hparen : Sql.next behindTable = .leftParen := by
      rw [next_eq_head?, hhead (Marked.tokens back), ← tokens_append, ← hcolumns]
      rfl
    simp only [readReference, htable.qualifiedName? hfits.table (by rw [hparen]; rintro ⟨⟩)]
    rcases split_append hcolumns with ⟨more, hgroup⟩ | ⟨last, hlast, rfl, hrow⟩
    · have hstands := nameList_cut hcreate hlist hgroup hinside
      generalize lastSeen inner = mark at hstands
      cases mark with
      | true =>
        have hrest : (nameList behindTable).2 = following := hstands
        rw [hrest]
        exact referenceOption_start hcreate _
      | false => exact (leaves_repeatedly leaves_referenceOption _ _).mono hstands
    · rw [tokens_append] at hinside
      obtain ⟨behindColumns, hgroup, hlastTokens⟩ := hinside.split
      rw [hgroup.nameList hlist, lastSeen_append hlast]
      exact hoptions _ hrow hlastTokens

/-! ## Attributes -/

theorem attributes_start (state : ColumnDefinition × Option String) :
    repeatedly ColumnDefinition.attributeStep state following = .ok (state, following) :=
  repeatedly_done (ColumnDefinition.attributeStep_ends (by rw [hcreate]; rfl) state)

/-- At most a `NOT` is left in front of what follows, and the attributes go on with it. -/
theorem attributes_near (hrest : Nears following rest) (state : ColumnDefinition × Option String) :
    repeatedly ColumnDefinition.attributeStep state rest = .ok (state, following) := by
  rcases hrest with rfl | hnot
  · exact attributes_start hcreate state
  · obtain ⟨d, label⟩ := state
    have hnull : eat? (.keyword .null) following = none := eat?_start hcreate (by rintro ⟨⟩)
    have hturn : ColumnDefinition.attributeStep (d, label) rest =
        .ok (.again (d, label), following) := by
      simp only [ColumnDefinition.attributeStep, hnot.next, hnot.tail_eq, hnull]
    rw [repeatedly_again (hnot.length_lt (List.cons_ne_nil _ _)) hturn]
    exact attributes_start hcreate _

/-- A default that is cut off leaves what stands behind the cut. -/
theorem readDefault_cut {value last : List Token} (hvalue : IsValue value)
    (hsplit : value = tokens ++ last) (hbegins : Begins tokens following lexemes) :
    (readDefault lexemes).2 = following := by
  subst hsplit
  cases tokens with
  | nil =>
    obtain ⟨start, hstart, hfollowing⟩ := exists_start hcreate
    rw [begins_nil_iff.1 hbegins, readDefault, hfollowing, cutDefault_cons, hstart]
    rfl
  | cons first more =>
    obtain ⟨lexeme, others, hlexeme, -, hothers, rfl⟩ := hbegins.cons
    rw [readDefault, cutDefault_cons, hlexeme, if_neg (by rw [hvalue.1]; decide)]
    exact hothers.cut_before hcreate hvalue.2 fun depth => rfl

/-- A reference that is broken off, and the attributes behind it. -/
theorem references_cut {target : Target} {behind : List Token} (hfits : target.Fits behind)
    (hsplit : target.marked = front ++ back)
    (hbegins : Begins (.keyword .references :: Marked.tokens front) following lexemes)
    (state : ColumnDefinition × Option String) :
    Recovers following (· = following) (lastSeen front)
      (repeatedly ColumnDefinition.attributeStep state lexemes) := by
  obtain ⟨d, label⟩ := state
  have hread := readReference_cut hcreate hfits hsplit hbegins.tail
  have hleaves := leaves_readReference lexemes.tail
  generalize lastSeen front = mark at hread ⊢
  cases hcase : readReference lexemes.tail with
  | error stop =>
    have hturn : ColumnDefinition.attributeStep (d, label) lexemes = .error stop := by
      simp only [ColumnDefinition.attributeStep, hbegins.next, hcase]
      rfl
    rw [hcase] at hread
    unfold repeatedly
    rw [hturn]
    cases mark with
    | true => exact hread
    | false => exact hread
  | ok found =>
    obtain ⟨reference, rest⟩ := found
    have hturn : ColumnDefinition.attributeStep (d, label) lexemes = .ok (.again
        ({ d with references := d.references ++ [(label, reference)] }, none), rest) := by
      simp only [ColumnDefinition.attributeStep, hbegins.next, hcase]
      rfl
    rw [hcase] at hread hleaves
    have hsuffix : rest <:+ lexemes.tail := hleaves
    have hshorter : rest.length < lexemes.length := by
      have hlonger := hbegins.length_lt (List.cons_ne_nil _ _)
      have hlength := hsuffix.length_le
      rw [List.length_tail] at hlength
      omega
    rw [repeatedly_again hshorter hturn]
    cases mark with
    | true =>
      rw [attributes_near hcreate hread]
      exact rfl
    | false => exact (leaves_repeatedly ColumnDefinition.leaves_attributeStep _ _).mono hread

/-- The attributes of a column, as far as they go, end in front of what follows or lose it. -/
theorem attribute_cut {part : Attribute} {behind : List Token} (hfits : part.Fits behind)
    (hsplit : part.marked = front ++ back) (hfront : front ≠ [])
    (hbegins : Begins front.tokens following lexemes) (state : ColumnDefinition × Option String) :
    Recovers following (· = following) (lastSeen front)
      (repeatedly ColumnDefinition.attributeStep state lexemes) := by
  have hlonger := hbegins.length_lt (tokens_ne_nil hfront)
  obtain ⟨d, label⟩ := state
  have hstart : ∀ state, Notices following (· = following)
      (repeatedly ColumnDefinition.attributeStep state following) := by
    intro state
    rw [attributes_start hcreate state]
    exact rfl
  have hagain : ∀ {mark : Bool} {rest : List Lexeme},
      (∃ after, ColumnDefinition.attributeStep (d, label) lexemes = .ok (.again after, rest)) →
        Stands following mark rest → Recovers following (· = following) mark
          (repeatedly ColumnDefinition.attributeStep (d, label) lexemes) := by
    rintro mark rest ⟨after, hturn⟩ hstands
    exact recovers_again ColumnDefinition.leaves_attributeStep hstart hturn hstands hlonger
  -- a whole attribute, which is followed by the start of a definition
  have hwhole : front = part.marked → lastSeen front = true →
      Recovers following (· = following) (lastSeen front)
        (repeatedly ColumnDefinition.attributeStep (d, label) lexemes) := by
    rintro rfl hmark
    obtain ⟨after, hturn, -⟩ := ColumnDefinition.attributeStep_of_begins
      (hfits.beforeCut (cutsTo_start hcreate behind)) hbegins (d, label)
    rw [hmark]
    exact hagain ⟨after, hturn⟩ rfl
  cases part with
  | unique | null | not | other token =>
    obtain ⟨hmark, hfront⟩ := split_seen_single hsplit hfront
    exact hwhole hfront hmark
  | label name =>
    obtain ⟨hmark, hfront | hfront⟩ := split_seen_pair hsplit hfront
    · subst hfront
      have hword : Begins [.keyword .constraint] following lexemes := hbegins
      rw [hmark]
      refine hagain ⟨(d, none), ?_⟩ rfl
      simp only [ColumnDefinition.attributeStep, hword.next, hword.tail_eq, optionalName, hcreate]
      rfl
    · exact hwhole hfront hmark
  | primaryKey =>
    obtain ⟨hmark, hfront | hfront⟩ := split_seen_pair hsplit hfront
    · subst hfront
      have hword : Begins [.keyword .primary] following lexemes := hbegins
      rw [hmark]
      have hkey : skip (.keyword .key) following = following := skip_start hcreate (by rintro ⟨⟩)
      refine hagain ⟨({ d.requireValue with primaryKey := some label }, none), ?_⟩ rfl
      simp only [ColumnDefinition.attributeStep, hword.next, hword.tail_eq, hkey]
    · exact hwhole hfront hmark
  | notNull =>
    obtain ⟨hmark, hfront | hfront⟩ := split_seen_pair hsplit hfront
    · subst hfront
      rw [hmark, attributes_near hcreate (.inr hbegins)]
      exact rfl
    · exact hwhole hfront hmark
  | check condition =>
    obtain ⟨first, inner, rfl⟩ := List.exists_cons_of_ne_nil hfront
    obtain ⟨rfl, hgroup⟩ := List.cons.inj hsplit
    have hcheck : Begins (.keyword .check :: Marked.tokens inner) following lexemes := hbegins
    rw [lastSeen_cons]
    refine hagain ?_ (parenthesized_cut hcreate hfits hgroup hcheck.tail)
    exact ⟨_, by simp only [ColumnDefinition.attributeStep, hcheck.next]; rfl⟩
  | references target =>
    obtain ⟨first, inner, rfl⟩ := List.exists_cons_of_ne_nil hfront
    obtain ⟨rfl, htarget⟩ := List.cons.inj hsplit
    rw [lastSeen_cons]
    exact references_cut hcreate hfits htarget hbegins (d, label)
  | default value =>
    obtain ⟨taken, others, hvalue, rfl, hmark⟩ := split_seen_cons hsplit hfront
    rw [tokens_seen] at hbegins
    rw [hmark]
    refine hagain ?_ (readDefault_cut hcreate hfits.1 hvalue hbegins.tail)
    exact ⟨_, by simp only [ColumnDefinition.attributeStep, hbegins.next]; rfl⟩
  | collate word name =>
    obtain ⟨hword, hname, -⟩ := hfits
    obtain ⟨spelling, rfl, -⟩ := exists_of_isWord hword
    obtain ⟨taken, others, htokens, rfl, hmark⟩ := split_seen_cons hsplit hfront
    rw [tokens_seen] at hbegins
    rw [hmark]
    have hrest : (optionalQualifiedName lexemes.tail).2 = following := by
      by_cases htaken : taken = []
      · subst htaken
        rw [hbegins.tail_eq, optionalQualifiedName, qualifiedName?_start hcreate]
      · obtain ⟨text, hread⟩ := qualifiedName?_cut hcreate hname htokens htaken hbegins.tail
        rw [optionalQualifiedName, hread]
    refine hagain ⟨(d, label), ?_⟩ rfl
    simp only [ColumnDefinition.attributeStep, hbegins.next, hword, if_true, hrest]
  | group inside =>
    obtain ⟨more, hopen⟩ := tokens_of_split_group hsplit hfront
    have hparen : Sql.next lexemes = .leftParen := by
      rw [hopen] at hbegins
      exact hbegins.next
    refine hagain ⟨(d, label), ?_⟩ (skipGroup_cut hcreate hfits hsplit hfront hbegins)
    simp only [ColumnDefinition.attributeStep, hparen]
    rfl

end Broken

end SchemaEvolution.Sql
