import SchemaEvolution.Proofs.Sql.TableSyntax

/-!
# Lexemes that begin with tokens

A reader of a part of a statement is described by what it does to lexemes that begin with the
tokens of that part.  The readers of words, names, lists and texts come first.
-/

namespace SchemaEvolution.Sql

/-- A lexeme with a text that does not start with white space, as every lexeme of a script but the
last one is. -/
def Lexeme.Solid (lexeme : Lexeme) : Prop :=
  ∃ c more, lexeme.text = c :: more ∧ Text.isBlank c = false

/-- The lexemes are some with the given tokens, and then the rest. -/
def Begins (tokens : List Token) (rest lexemes : List Lexeme) : Prop :=
  ∃ taken, taken.map Lexeme.token = tokens ∧ (∀ lexeme ∈ taken, lexeme.Solid) ∧
    lexemes = taken ++ rest

/-- The lexemes have the given tokens and no more. -/
def Spells (tokens : List Token) (taken : List Lexeme) : Prop :=
  taken.map Lexeme.token = tokens ∧ ∀ lexeme ∈ taken, lexeme.Solid

variable {token : Token} {tokens left right : List Token} {taken rest lexemes : List Lexeme}

theorem begins_iff :
    Begins tokens rest lexemes ↔ ∃ taken, Spells tokens taken ∧ lexemes = taken ++ rest := by
  simp only [Begins, Spells, and_assoc]

theorem Spells.begins (hspells : Spells tokens taken) (rest : List Lexeme) :
    Begins tokens rest (taken ++ rest) := begins_iff.2 ⟨taken, hspells, rfl⟩

theorem Spells.exists_cons (hspells : Spells (token :: tokens) taken) :
    ∃ first more, taken = first :: more ∧ first.token = token ∧ Spells tokens more := by
  obtain ⟨first, more, rfl, hfirst, hmore⟩ := List.map_eq_cons_iff.1 hspells.1
  exact ⟨first, more, rfl, hfirst, hmore,
    fun lexeme hmem => hspells.2 lexeme (List.mem_cons_of_mem _ hmem)⟩

theorem Spells.take (hspells : Spells (left ++ right) taken) :
    Spells left (taken.take left.length) := by
  refine ⟨?_, fun lexeme hmem => hspells.2 lexeme (List.mem_of_mem_take hmem)⟩
  rw [List.map_take, hspells.1, List.take_left]

theorem Spells.drop (hspells : Spells (left ++ right) taken) :
    Spells right (taken.drop left.length) := by
  refine ⟨?_, fun lexeme hmem => hspells.2 lexeme (List.mem_of_mem_drop hmem)⟩
  rw [List.map_drop, hspells.1, List.drop_left]

theorem isBlank_of_drop_gapOf {place : Lexeme.GapPlace} {cs : List Char} {c : Char}
    {more : List Char} (hdrop : cs.drop (Lexeme.gapOf place cs).length = c :: more) :
    Text.isBlank c = false := by
  fun_induction Lexeme.gapOf place cs with
  | case1 => cases hdrop
  | case5 c rest _ _ hblank =>
    cases hdrop
    exact Bool.eq_false_iff.2 hblank
  | case2 rest ih | case3 rest ih | case6 rest ih | case8 rest ih => exact ih hdrop
  | case4 first rest _ _ _ ih => exact ih hdrop
  | case7 first rest _ ih | case9 first rest _ ih => exact ih hdrop

/-- The last lexeme of a script is its end, and the others start with a character of a token. -/
theorem solid_lexemes (line : Nat) (cs : List Char) :
    ∃ body last, Lexeme.lexemes line cs = body ++ [last] ∧ last.token = .eof ∧
      ∀ lexeme ∈ body, lexeme.Solid := by
  induction hsize : cs.length using Nat.strong_induction_on generalizing line cs with
  | _ size ih =>
    cases hdrop : cs.drop (Lexeme.gapOf .between cs).length with
    | nil => exact ⟨[], _, lexemes_of_end line hdrop, rfl, nofun⟩
    | cons c rest =>
      have hlength := congrArg List.length hdrop
      rw [List.length_drop, List.length_cons] at hlength
      have hshorter : (rest.drop (Lexeme.scan c rest).2).length < size := by
        rw [List.length_drop]
        omega
      obtain ⟨body, last, hbody, hlast, hsolid⟩ := ih _ hshorter _ _ rfl
      rw [lexemes_of_scan line hdrop, hbody]
      refine ⟨_ :: body, last, rfl, hlast, List.forall_mem_cons.2 ⟨?_, hsolid⟩⟩
      exact ⟨c, _, rfl, isBlank_of_drop_gapOf hdrop⟩

/-- Lexemes at the end of a script begin with the tokens that they are. -/
theorem begins_of_tokens {text : String} {following : List Token}
    (hsuffix : lexemes <:+ Lexeme.ofText text)
    (htokens : lexemes.map Lexeme.token = tokens ++ following)
    (hlast : following = [] → tokens.getLast? ≠ some .eof) :
    ∃ rest, rest.map Lexeme.token = following ∧ Begins tokens rest lexemes := by
  obtain ⟨before, hbefore⟩ := hsuffix
  obtain ⟨taken, rest, rfl, rfl, rfl⟩ := List.map_eq_append_iff.1 htokens
  obtain ⟨body, last, hbody, heof, hsolid⟩ := solid_lexemes 1 text.toList
  refine ⟨rest, rfl, taken, rfl, fun lexeme hmem => hsolid lexeme ?_, rfl⟩
  have hwhole : before ++ taken ++ rest = body ++ [last] := by
    rw [List.append_assoc, hbefore]
    exact hbody
  rcases List.eq_nil_or_concat rest with rfl | ⟨front, final, rfl⟩
  · rw [List.append_nil] at hwhole
    have hend := congrArg List.getLast? hwhole
    rw [List.getLast?_append_of_ne_nil _ (List.ne_nil_of_mem hmem), List.getLast?_concat] at hend
    refine absurd ?_ (hlast rfl)
    rw [List.getLast?_map, hend, Option.map_some, heof]
  · rw [List.concat_eq_append, ← List.append_assoc] at hwhole
    rw [← List.append_inj_left' hwhole rfl]
    exact List.mem_append_left _ (List.mem_append_right _ hmem)

theorem begins_nil_iff : Begins [] rest lexemes ↔ lexemes = rest := by
  constructor
  · rintro ⟨taken, htokens, -, rfl⟩
    rw [List.map_eq_nil_iff.1 htokens, List.nil_append]
  · rintro rfl
    exact ⟨[], rfl, nofun, rfl⟩

theorem Begins.cons (hbegins : Begins (token :: tokens) rest lexemes) :
    ∃ first more, first.token = token ∧ first.Solid ∧ Begins tokens rest more ∧
      lexemes = first :: more := by
  obtain ⟨taken, htokens, hsolid, rfl⟩ := hbegins
  obtain ⟨first, more, rfl, hfirst, hmore⟩ := List.map_eq_cons_iff.1 htokens
  exact ⟨first, more ++ rest, hfirst, hsolid first List.mem_cons_self,
    ⟨more, hmore, fun lexeme hmem => hsolid lexeme (List.mem_cons_of_mem _ hmem), rfl⟩, rfl⟩

theorem Begins.split (hbegins : Begins (left ++ right) rest lexemes) :
    ∃ middle, Begins left middle lexemes ∧ Begins right rest middle := by
  obtain ⟨taken, htokens, hsolid, rfl⟩ := hbegins
  obtain ⟨front, back, rfl, hfront, hback⟩ := List.map_eq_append_iff.1 htokens
  exact ⟨back ++ rest,
    ⟨front, hfront, fun lexeme hmem => hsolid lexeme (List.mem_append_left _ hmem),
      List.append_assoc front back rest⟩,
    ⟨back, hback, fun lexeme hmem => hsolid lexeme (List.mem_append_right _ hmem), rfl⟩⟩

theorem Begins.spells (hbegins : Begins tokens rest lexemes) :
    Spells tokens (lexemes.take tokens.length) := by
  obtain ⟨taken, hspells, rfl⟩ := begins_iff.1 hbegins
  have hlength : tokens.length = taken.length := by rw [← hspells.1, List.length_map]
  rw [hlength, List.take_left]
  exact hspells

theorem Begins.drop_eq (hbegins : Begins tokens rest lexemes) :
    lexemes.drop tokens.length = rest := by
  obtain ⟨taken, hspells, rfl⟩ := begins_iff.1 hbegins
  have hlength : tokens.length = taken.length := by rw [← hspells.1, List.length_map]
  rw [hlength, List.drop_left]

theorem Begins.length_eq (hbegins : Begins tokens rest lexemes) :
    lexemes.length = tokens.length + rest.length := by
  obtain ⟨taken, rfl, -, rfl⟩ := hbegins
  rw [List.length_append, List.length_map]

theorem Begins.length_lt (hbegins : Begins tokens rest lexemes) (hsome : tokens ≠ []) :
    rest.length < lexemes.length := by
  have hpositive := List.length_pos_iff.2 hsome
  rw [hbegins.length_eq]
  omega

theorem Begins.tokens_eq (hbegins : Begins tokens rest lexemes) :
    lexemes.map Lexeme.token = tokens ++ rest.map Lexeme.token := by
  obtain ⟨taken, rfl, -, rfl⟩ := hbegins
  exact List.map_append

theorem Begins.next (hbegins : Begins (token :: tokens) rest lexemes) : next lexemes = token := by
  obtain ⟨first, more, hfirst, -, -, rfl⟩ := hbegins.cons
  exact hfirst

theorem Begins.tail (hbegins : Begins (token :: tokens) rest lexemes) :
    Begins tokens rest lexemes.tail := by
  obtain ⟨first, more, -, -, hmore, rfl⟩ := hbegins.cons
  exact hmore

theorem Begins.tail_eq (hbegins : Begins [token] rest lexemes) : lexemes.tail = rest :=
  begins_nil_iff.1 hbegins.tail

theorem Begins.length_tail_lt (hbegins : Begins (token :: tokens) rest lexemes) :
    lexemes.tail.length < lexemes.length := by
  obtain ⟨first, more, -, -, -, rfl⟩ := hbegins.cons
  exact Nat.lt_succ_self _

theorem next_eq_head? (lexemes : List Lexeme) :
    next lexemes = (lexemes.map Lexeme.token).head?.getD .eof := by
  cases lexemes <;> rfl

theorem next_ne_of_head? (hhead : (lexemes.map Lexeme.token).head? ≠ some token)
    (heof : token ≠ .eof) : next lexemes ≠ token := by
  cases lexemes with
  | nil => exact heof.symm
  | cons first more => exact fun htoken => hhead (congrArg some htoken)

theorem eat?_of_next_ne (hnext : next lexemes ≠ token) : eat? token lexemes = none := by
  cases lexemes with
  | nil => rfl
  | cons first more => exact if_neg hnext

theorem Begins.eat? (hbegins : Begins (token :: tokens) rest lexemes) :
    eat? token lexemes = some lexemes.tail := by
  obtain ⟨first, more, hfirst, -, -, rfl⟩ := hbegins.cons
  exact if_pos hfirst

theorem Begins.skip (hbegins : Begins (token :: tokens) rest lexemes) :
    skip token lexemes = lexemes.tail := by
  rw [Sql.skip, hbegins.eat?]
  rfl

theorem Begins.optionalName (hname : token.name?.isSome = true)
    (hbegins : Begins (token :: tokens) rest lexemes) :
    Sql.optionalName lexemes = (token.name?, lexemes.tail) := by
  obtain ⟨text, htext⟩ := Option.isSome_iff_exists.1 hname
  simp only [Sql.optionalName, hbegins.next, htext]

theorem skip_of_next_ne (hnext : Sql.next lexemes ≠ token) : skip token lexemes = lexemes := by
  rw [Sql.skip, eat?_of_next_ne hnext]
  rfl

theorem cut_nil_of_passes {stop : Nat → Token → Bool} {first last : Nat} {taken : List Lexeme}
    (hpasses : Passes stop first (taken.map Lexeme.token) last) :
    cut stop first taken = (taken, []) := by
  induction taken generalizing first with
  | nil => rfl
  | cons lexeme more ih => rw [cut, if_neg (by rw [hpasses.1]; decide), ih hpasses.2]

/-- What is not stopped at is cut off before what is. -/
theorem Spells.cut {stop : Nat → Token → Bool} {first last : Nat}
    (hspells : Spells tokens taken) (hpasses : Passes stop first tokens last)
    (hstop : stop last (Sql.next rest) = true) :
    Sql.cut stop first (taken ++ rest) = (taken, rest) := by
  obtain ⟨rfl, -⟩ := hspells
  cases rest with
  | nil => rw [List.append_nil, cut_nil_of_passes hpasses]
  | cons lexeme more => exact cut_of_passes hpasses hstop more

theorem Begins.cut {stop : Nat → Token → Bool} {first last : Nat}
    (hbegins : Begins tokens rest lexemes) (hpasses : Passes stop first tokens last)
    (hstop : stop last (Sql.next rest) = true) :
    ∃ taken, taken.map Lexeme.token = tokens ∧ (∀ lexeme ∈ taken, lexeme.Solid) ∧
      Sql.cut stop first lexemes = (taken, rest) := by
  obtain ⟨taken, hspells, rfl⟩ := begins_iff.1 hbegins
  exact ⟨taken, hspells.1, hspells.2, hspells.cut hpasses hstop⟩

theorem Begins.cut_rest {stop : Nat → Token → Bool} {first last : Nat}
    (hbegins : Begins tokens rest lexemes) (hpasses : Passes stop first tokens last)
    (hstop : stop last (Sql.next rest) = true) : (Sql.cut stop first lexemes).2 = rest := by
  obtain ⟨taken, -, -, hcut⟩ := hbegins.cut hpasses hstop
  rw [hcut]

theorem Begins.skipGroup {inside : List Token}
    (hbegins : Begins (Syntax.group inside).tokens rest lexemes)
    (hpasses : Passes Syntax.stopsGroup 1 (inside ++ [.rightParen]) 0) :
    skipGroup lexemes = rest := by
  rw [Syntax.tokens_group] at hbegins
  obtain ⟨first, more, hfirst, -, hmore, rfl⟩ := hbegins.cons
  rw [Sql.skipGroup, if_pos hfirst]
  exact hmore.cut_rest hpasses rfl

/-! ## Names, lists and texts -/

/-- A qualified name is read for its last part. -/
theorem Begins.lastName {first : Token} {name : String} {more : List Token}
    (hname : first.name? = some name) (hmore : ∀ part ∈ more, part.name?.isSome = true)
    (hbegins : Begins (more.flatMap fun part => [.dot, part]) rest lexemes)
    (hdot : Sql.next rest ≠ .dot) :
    lastName name lexemes = (((more.getLast?.getD first).name?).getD "", rest) := by
  induction more generalizing first name lexemes with
  | nil =>
    obtain rfl := begins_nil_iff.1 hbegins
    rw [lastName_of_next name hdot, List.getLast?_nil, Option.getD_none, hname, Option.getD_some]
  | cons part more ih =>
    obtain ⟨inner, hinner⟩ := Option.isSome_iff_exists.1 (hmore part List.mem_cons_self)
    obtain ⟨dot, others, hdotToken, -, hothers, rfl⟩ := hbegins.cons
    obtain ⟨second, behind, hsecond, -, hbehind, rfl⟩ := hothers.cons
    rw [Sql.lastName, if_pos hdotToken, hsecond, hinner, List.getLast?_cons, Option.getD_some]
    exact ih hinner (fun other hmem => hmore other (List.mem_cons_of_mem _ hmem)) hbehind

theorem Begins.qualifiedName? {dotted : Syntax.Dotted} (hsound : dotted.Sound)
    (hbegins : Begins dotted.tokens rest lexemes) (hdot : Sql.next rest ≠ .dot) :
    qualifiedName? lexemes = some (dotted.name, rest) := by
  obtain ⟨name, hname⟩ := Option.isSome_iff_exists.1 hsound.1
  rw [Sql.qualifiedName?, hbegins.next, hname, Option.map_some,
    hbegins.tail.lastName hname hsound.2 hdot]
  rfl

/-- A list of names is read for its names, whatever separates them. -/
theorem Begins.namesInside {inside : List Token} (hlist : Syntax.IsNameList inside)
    (hbegins : Begins (inside ++ [.rightParen]) rest lexemes) :
    namesInside lexemes = (inside.filterMap Token.name?, rest) := by
  induction inside generalizing lexemes with
  | nil =>
    obtain ⟨closing, more, hclosing, -, hmore, rfl⟩ := hbegins.cons
    rw [begins_nil_iff.1 hmore]
    simp only [Sql.namesInside, hclosing, List.filterMap_nil]
  | cons token inside ih =>
    obtain ⟨lexeme, more, htoken, -, hmore, rfl⟩ := hbegins.cons
    obtain ⟨hclosing, heof, hsemicolon⟩ := hlist token List.mem_cons_self
    have hinside := ih (fun other hmem => hlist other (List.mem_cons_of_mem _ hmem)) hmore
    rw [List.filterMap_cons]
    unfold Sql.namesInside
    split
    · next hcomma =>
      rw [htoken] at hcomma
      rw [hinside, hcomma]
      rfl
    · next heq => exact absurd (htoken.symm.trans heq) hclosing
    · next heq => exact absurd (htoken.symm.trans heq) heof
    · next heq => exact absurd (htoken.symm.trans heq) hsemicolon
    · rw [hinside, htoken]
      cases token.name? <;> rfl

/-- Names between parentheses are read in their order. -/
theorem Begins.nameList {inside : List Token} (hlist : Syntax.IsNameList inside)
    (hbegins : Begins (Syntax.group inside).tokens rest lexemes) :
    nameList lexemes = (inside.filterMap Token.name?, rest) := by
  rw [Syntax.tokens_group] at hbegins
  rw [Sql.nameList, hbegins.eat?]
  exact hbegins.tail.namesInside hlist

theorem nameList_of_next_ne (hnext : next lexemes ≠ .leftParen) :
    nameList lexemes = ([], lexemes) := by
  rw [nameList, eat?_of_next_ne hnext]

theorem parenthesized_eq {inside : List Lexeme} (heat : eat? .leftParen lexemes = some inside) :
    parenthesized lexemes = (textOf (cut Syntax.stopsCondition 0 inside).1,
      skip .rightParen (cut Syntax.stopsCondition 0 inside).2) := by
  rw [parenthesized, heat]
  rfl

def insideOf (lexemes : List Lexeme) : List Lexeme := lexemes.tail.dropLast

/-- The text between parentheses is that of the lexemes between them. -/
theorem Spells.parenthesized {condition : List Token}
    (hspells : Spells (Syntax.group condition).tokens taken)
    (hpasses : Passes Syntax.stopsCondition 0 condition 0) (rest : List Lexeme) :
    parenthesized (taken ++ rest) = (textOf (insideOf taken), rest) := by
  rw [Syntax.tokens_group] at hspells
  obtain ⟨htokens, hsolid⟩ := hspells
  obtain ⟨opening, others, rfl, hopening, hothers⟩ := List.map_eq_cons_iff.1 htokens
  obtain ⟨inside, last, rfl, hinside, hlast⟩ := List.map_eq_append_iff.1 hothers
  obtain ⟨closing, behind, rfl, hclosing, hbehind⟩ := List.map_eq_cons_iff.1 hlast
  obtain rfl := List.map_eq_nil_iff.1 hbehind
  have hcondition : Spells condition inside :=
    ⟨hinside, fun lexeme hmem => hsolid lexeme
      (List.mem_cons_of_mem _ (List.mem_append_left _ hmem))⟩
  have hstop : Syntax.stopsCondition 0 (next (closing :: rest)) = true := by
    rw [next, hclosing]
    rfl
  have heat : eat? .leftParen (opening :: (inside ++ closing :: rest)) =
      some (inside ++ closing :: rest) := if_pos hopening
  have hskip : skip .rightParen (closing :: rest) = rest := by
    rw [skip, eat?, if_pos hclosing]
    rfl
  rw [List.cons_append, List.append_assoc, List.singleton_append, parenthesized_eq heat,
    hcondition.cut hpasses hstop]
  dsimp only
  rw [hskip, insideOf, List.tail_cons, List.dropLast_concat]

theorem Begins.parenthesized {condition : List Token}
    (hbegins : Begins (Syntax.group condition).tokens rest lexemes)
    (hpasses : Passes Syntax.stopsCondition 0 condition 0) :
    ∃ text, parenthesized lexemes = (text, rest) := by
  obtain ⟨taken, hspells, rfl⟩ := begins_iff.1 hbegins
  exact ⟨_, hspells.parenthesized hpasses rest⟩

end SchemaEvolution.Sql
