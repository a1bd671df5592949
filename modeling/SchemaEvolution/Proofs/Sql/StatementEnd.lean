import SchemaEvolution.Proofs.Schema.Gathering
import SchemaEvolution.Proofs.Sql.Refusal
import SchemaEvolution.Proofs.Sql.StatementLocality

/-!
# Statements end at their semicolons

A statement that defines a table, a type or an extension, and that is read alone without an error,
adds the same to every schema and is read up to its own semicolon, whatever comes behind it.  One
thing goes further: `VERSION` takes the token after it, even if that is the semicolon, so that
the next statement is skipped along with the rest of this one.
-/

namespace SchemaEvolution.Sql

variable {rest other lexemes others left : List Lexeme}

/-- A semicolon and the end of the script. -/
def IsEnd (rest : List Lexeme) : Prop :=
  ∃ semicolon last, rest = [semicolon, last] ∧ semicolon.token = .semicolon ∧ last.token = .eof

theorem IsEnd.next (hend : IsEnd rest) : next rest = .semicolon := by
  obtain ⟨semicolon, last, rfl, hsemicolon, -⟩ := hend
  exact hsemicolon

theorem IsEnd.next_tail (hend : IsEnd rest) : Sql.next rest.tail = .eof := by
  obtain ⟨semicolon, last, rfl, -, hlast⟩ := hend
  exact hlast

/-- No semicolon and no end comes before the rest. -/
def Unended (rest lexemes : List Lexeme) : Prop :=
  ∃ taken, lexemes = taken ++ rest ∧
    ∀ lexeme ∈ taken, lexeme.token ≠ .semicolon ∧ lexeme.token ≠ .eof

theorem Unended.suffix (hunended : Unended rest lexemes) : rest <:+ lexemes := by
  obtain ⟨taken, rfl, -⟩ := hunended
  exact List.suffix_append taken rest

theorem Unended.of_suffix (hunended : Unended rest lexemes) (hleft : left <:+ lexemes)
    (hrest : rest <:+ left) : Unended rest left := by
  obtain ⟨taken, rfl, htaken⟩ := hunended
  obtain ⟨inside, rfl⟩ := hrest
  obtain ⟨front, hfront⟩ := hleft
  rw [← List.append_assoc] at hfront
  obtain rfl := List.append_cancel_right hfront
  exact ⟨inside, rfl, fun lexeme hmem => htaken lexeme (List.mem_append_right front hmem)⟩

theorem Unended.skipStatement (hunended : Unended rest lexemes) (hend : next rest = .semicolon) :
    skipStatement lexemes = rest.tail := by
  obtain ⟨taken, rfl, htaken⟩ := hunended
  rw [Sql.skipStatement, List.dropWhile_append_of_pos fun lexeme hmem => by
    simp [htaken lexeme hmem]]
  cases rest with
  | nil => cases hend
  | cons first more =>
    have hfirst : first.token = .semicolon := hend
    rw [List.dropWhile_cons_of_neg (by simp [hfirst]), skip_of_next hend (by decide)]

/-- What is left still holds the end, if the end of the file is not next. -/
theorem Unended.suffix_of_next (hunended : Unended rest lexemes) (hend : IsEnd rest)
    (hleft : left <:+ lexemes) (hnext : next left ≠ .eof) : rest <:+ left := by
  rcases List.suffix_or_suffix_of_suffix hunended.suffix hleft with hrest | hshort
  · exact hrest
  · obtain ⟨semicolon, last, rfl, -, hlast⟩ := hend
    rcases List.suffix_cons_iff.1 hshort with rfl | hlater
    · exact List.suffix_refl _
    · exfalso
      rcases List.suffix_cons_iff.1 hlater with rfl | hnil
      · exact hnext hlast
      · rw [List.suffix_nil.1 hnil] at hnext
        exact hnext rfl

/-- What is left at a semicolon is the rest. -/
theorem Unended.eq_of_next (hunended : Unended rest lexemes) (hend : IsEnd rest)
    (hleft : left <:+ lexemes) (hnext : next left = .semicolon) : left = rest := by
  have hrest := hunended.suffix_of_next hend hleft (by rw [hnext]; exact nofun)
  obtain ⟨inside, rfl, hinside⟩ := hunended.of_suffix hleft hrest
  cases inside with
  | nil => rfl
  | cons first more => exact absurd hnext (hinside first List.mem_cons_self).1

theorem Mirrors.next_end (hmirrors : Mirrors rest other lexemes others)
    (hend : next rest = .semicolon) : next other = .semicolon := by
  rcases hmirrors.sameEnd with ⟨-, hother⟩ | ⟨hrest | hrest, -⟩
  · exact hother
  all_goals
    rw [hend] at hrest
    cases hrest

theorem Mirrors.eq_other (hmirrors : Mirrors rest other rest others) : others = other := by
  obtain ⟨taken, taken', halike, hrest, rfl⟩ := hmirrors.exists_taken
  obtain rfl : taken = [] := List.self_eq_append_left.1 hrest
  cases halike
  rfl

/-- Where one side has no end before the cut, neither has the other. -/
theorem Mirrors.unended (hmirrors : Mirrors rest other lexemes others)
    (hunended : Unended rest lexemes) : Unended other others := by
  obtain ⟨taken, taken', halike, rfl, rfl⟩ := hmirrors.exists_taken
  obtain ⟨front, hfront, htokens⟩ := hunended
  obtain rfl := List.append_cancel_right hfront
  refine ⟨taken', rfl, fun lexeme hmem => ?_⟩
  have htoken := List.mem_map_of_mem (f := Lexeme.token) hmem
  rw [← tokens_of_alike halike] at htoken
  obtain ⟨found, hfound, hsame⟩ := List.mem_map.1 htoken
  rw [← hsame]
  exact htokens found hfound

section Stays

variable (hend : next rest = .semicolon) (hsuffix : rest <:+ lexemes)

include hend hsuffix

theorem suffix_tail (hnext : next lexemes ≠ .semicolon) : rest <:+ lexemes.tail := by
  cases lexemes with
  | nil => exact hsuffix
  | cons first more =>
    rcases List.suffix_cons_iff.1 hsuffix with rfl | hmore
    · exact absurd hend hnext
    · exact hmore

theorem suffix_eat? {token : Token} (htoken : token ≠ .semicolon)
    (heat : eat? token lexemes = some left) : rest <:+ left := by
  cases lexemes with
  | nil => cases heat
  | cons first more =>
    rw [eat?] at heat
    split at heat
    · next hfirst =>
      obtain rfl := Option.some.inj heat
      exact suffix_tail hend hsuffix (by rw [next_cons, hfirst]; exact htoken)
    · cases heat

theorem suffix_skip {token : Token} (htoken : token ≠ .semicolon) :
    rest <:+ skip token lexemes := by
  rw [skip]
  cases heat : eat? token lexemes with
  | none => exact hsuffix
  | some left => exact suffix_eat? hend hsuffix htoken heat

theorem suffix_skipIfNotExists : rest <:+ skipIfNotExists lexemes := by
  rw [skipIfNotExists]
  cases heat : eat? (.keyword .if) lexemes with
  | none => exact hsuffix
  | some left =>
    exact suffix_skip hend (suffix_skip hend
      (suffix_eat? hend hsuffix (by decide) heat) (by decide)) (by decide)

theorem suffix_lastName (name : String) : rest <:+ (lastName name lexemes).2 := by
  induction hsize : lexemes.length using Nat.strong_induction_on generalizing name lexemes with
  | _ size ih =>
    cases lexemes with
    | nil => exact hsuffix
    | cons first more =>
      rw [lastName_cons]
      split
      · next hdot =>
        have hmore : rest <:+ more :=
          suffix_tail hend hsuffix (by rw [next_cons, hdot]; exact nofun)
        cases hname : (next more).name? with
        | none => exact hmore
        | some inner =>
          have hinner : rest <:+ more.tail := suffix_tail hend hmore fun hnext => by
            rw [hnext] at hname
            cases hname
          refine ih _ ?_ hinner inner rfl
          rw [← hsize, List.length_tail, List.length_cons]
          omega
      · exact hsuffix

theorem suffix_qualifiedName? {name : String} (hname : qualifiedName? lexemes = some (name, left)) :
    rest <:+ left := by
  obtain ⟨first, hfirst, hlast⟩ := Option.map_eq_some_iff.1 hname
  have htail : rest <:+ lexemes.tail := suffix_tail hend hsuffix fun hnext => by
    rw [hnext] at hfirst
    cases hfirst
  have hleft := suffix_lastName hend htail first
  rwa [hlast] at hleft

theorem suffix_enumValues {name : String} {line : Option Nat} {values : List String}
    (hread : enumValues name line lexemes = .ok (values, left)) : rest <:+ left := by
  induction lexemes generalizing values with
  | nil => cases hread
  | cons first more ih =>
    have htail (hfirst : first.token ≠ .semicolon) : rest <:+ more :=
      suffix_tail hend hsuffix hfirst
    unfold enumValues at hread
    split at hread
    · next value hfirst =>
      obtain ⟨found, hmore, hdone⟩ := exists_of_bind_eq_ok hread
      cases hdone
      exact ih (htail (by rw [hfirst]; exact nofun)) hmore
    · next hfirst => exact ih (htail (by rw [hfirst]; exact nofun)) hread
    · next hfirst =>
      cases hread
      exact htail (by rw [hfirst]; exact nofun)
    · cases hread

theorem suffix_optionalQualifiedName : rest <:+ (optionalQualifiedName lexemes).2 := by
  rw [optionalQualifiedName]
  cases hname : qualifiedName? lexemes with
  | none => exact hsuffix
  | some found => exact suffix_qualifiedName? hend hsuffix hname

end Stays

/-- The lexemes are alike up to a semicolon, before which no other one stands. -/
structure Parallel (rest other lexemes others : List Lexeme) : Prop where
  mirrors : Mirrors rest other lexemes others
  unended : Unended rest lexemes
  ends : next rest = .semicolon

section Parallel

variable (hparallel : Parallel rest other lexemes others)

include hparallel

theorem Parallel.onward {left' : List Lexeme} (hsuffix : left <:+ lexemes) (hrest : rest <:+ left)
    (hmirrors : Mirrors rest other left left') : Parallel rest other left left' :=
  ⟨hmirrors, hparallel.unended.of_suffix hsuffix hrest, hparallel.ends⟩

theorem Parallel.tail (hnext : next lexemes ≠ .semicolon) :
    Parallel rest other lexemes.tail others.tail := by
  have hrest := suffix_tail hparallel.ends hparallel.unended.suffix hnext
  exact hparallel.onward (List.tail_suffix lexemes) hrest (hparallel.mirrors.step hrest.length_le).2

theorem Parallel.eat?_some {token : Token} (hinner : isInner token = true)
    (htoken : token ≠ .semicolon) (heat : eat? token lexemes = some left) :
    eat? token others = some others.tail ∧ Parallel rest other left others.tail := by
  have hrest := suffix_eat? hparallel.ends hparallel.unended.suffix htoken heat
  obtain ⟨heat', hmirrors⟩ := hparallel.mirrors.eat?_some hinner heat hrest.length_le
  exact ⟨heat', hparallel.onward (eat?_suffix heat) hrest hmirrors⟩

theorem Parallel.skipIfNotExists :
    Parallel rest other (skipIfNotExists lexemes) (skipIfNotExists others) := by
  have hrest := suffix_skipIfNotExists hparallel.ends hparallel.unended.suffix
  exact hparallel.onward (skipIfNotExists_suffix lexemes) hrest
    (hparallel.mirrors.skipIfNotExists hrest.length_le)

theorem Parallel.qualifiedName? {name : String}
    (hname : qualifiedName? lexemes = some (name, left)) :
    ∃ left', Sql.qualifiedName? others = some (name, left') ∧ Parallel rest other left left' := by
  have hrest := suffix_qualifiedName? hparallel.ends hparallel.unended.suffix hname
  obtain ⟨left', hname', hmirrors⟩ := hparallel.mirrors.qualifiedName?_some hname hrest.length_le
  exact ⟨left', hname', hparallel.onward (qualifiedName?_suffix hname) hrest hmirrors⟩

theorem Parallel.enumValues {name : String} {line : Option Nat} {values : List String}
    (hread : enumValues name line lexemes = .ok (values, left)) (line' : Option Nat) :
    ∃ left', Sql.enumValues name line' others = .ok (values, left') ∧
      Parallel rest other left left' := by
  have hrest := suffix_enumValues hparallel.ends hparallel.unended.suffix hread
  obtain ⟨left', hread', hmirrors⟩ :=
    hparallel.mirrors.enumValues name line line' _ _ hread hrest.length_le
  exact ⟨left', hread',
    hparallel.onward ((leaves_enumValues name line lexemes).suffix hread) hrest hmirrors⟩

/-- What is skipped of the second statement ends at its own semicolon. -/
theorem Parallel.skipStatement : skipStatement others = other.tail :=
  (hparallel.mirrors.unended hparallel.unended).skipStatement
    (hparallel.mirrors.next_end hparallel.ends)

end Parallel

namespace TableDefinition

variable {line : Option Nat} {d after : TableDefinition} {turn : Turn TableDefinition}

/-- The end of a script and a semicolon break a table off. -/
theorem next_of_element (hread : element line d lexemes = .ok (turn, left)) :
    next lexemes ≠ .eof ∧ next lexemes ≠ .semicolon := by
  refine ⟨fun hnext => ?_, fun hnext => ?_⟩
  all_goals
    unfold element at hread
    rw [hnext] at hread
    cases hread

/-- Only a closing parenthesis ends a table. -/
theorem tail_of_element_done (hread : element line d lexemes = .ok (.done after, left)) :
    left = lexemes.tail := by
  unfold element at hread
  dsimp only at hread
  split at hread
  case h_1 =>
    cases hread
    rfl
  case h_2 | h_3 | h_4 | h_5 => cases hread
  case h_11 =>
    split at hread
    · cases hread
    · split at hread
      · obtain ⟨definition, -, hdone⟩ := exists_of_bind_eq_ok hread
        cases hdone
      · cases hread
  all_goals
    obtain ⟨clause, -, hdone⟩ := exists_of_bind_eq_ok hread
    cases hdone

/-- A table is closed before its semicolon. -/
theorem suffix_elements (hend : IsEnd rest) (hunended : Unended rest lexemes)
    {inside : List Lexeme} (hinside : inside <:+ lexemes)
    (hread : repeatedly (element line) d inside = .ok (after, left)) : rest <:+ left := by
  have hstay {d : TableDefinition} {turn : Turn TableDefinition} {inside left : List Lexeme}
      (hinside : inside <:+ lexemes) (hturn : element line d inside = .ok (turn, left)) :
      rest <:+ inside ∧ rest <:+ inside.tail := by
    obtain ⟨heof, hsemicolon⟩ := next_of_element hturn
    have hrest := hunended.suffix_of_next hend hinside heof
    exact ⟨hrest, suffix_tail hend.next hrest hsemicolon⟩
  fun_induction repeatedly (element line) d inside with
  | case1 d inside fault hfault => cases hread
  | case2 d inside last left' hturn =>
    cases hread
    rw [tail_of_element_done hturn]
    exact (hstay hinside hturn).2
  | case3 d inside following left' hturn hshorter ih =>
    exact ih (((leaves_element line d inside).suffix hturn).trans hinside) hread
  | case4 d inside following left' hturn hlonger =>
    cases hread
    have hsame := ((leaves_element line d inside).suffix hturn).eq_of_length_le
      (Nat.le_of_not_lt hlonger)
    rw [hsame]
    exact (hstay hinside hturn).1

end TableDefinition

section Statements

variable (hparallel : Parallel rest other lexemes others) {line : Option Nat} {addition : Schema}

include hparallel

theorem Parallel.elements (hend : IsEnd rest) {d after : TableDefinition}
    (hread : repeatedly (TableDefinition.element line) d lexemes = .ok (after, left))
    (line' : Option Nat) :
    ∃ left', repeatedly (TableDefinition.element line') d others = .ok (after, left') ∧
      Parallel rest other left left' := by
  have hrest := TableDefinition.suffix_elements hend hparallel.unended (List.suffix_refl _) hread
  obtain ⟨left', hread', hmirrors⟩ := hparallel.mirrors.repeatedly
    (TableDefinition.leaves_element line)
    (fun d lexemes others hmirrors => hmirrors.element line line' d) d _ _ hread hrest.length_le
  have hsuffix := (leaves_repeatedly (TableDefinition.leaves_element line) _ _).suffix hread
  exact ⟨left', hread', hparallel.onward hsuffix hrest hmirrors⟩

/-- A table that is read into an empty schema is added to every schema. -/
theorem Parallel.createTable (hend : IsEnd rest)
    (hread : createTable line .empty lexemes = .ok (addition, left)) (line' : Option Nat)
    (schema : Schema) :
    Sql.createTable line' schema others = .ok (schema.extend addition, other.tail) := by
  unfold Sql.createTable at hread ⊢
  dsimp only at hread ⊢
  cases hname : Sql.qualifiedName? (Sql.skipIfNotExists lexemes) with
  | none =>
    rw [hname] at hread
    cases hread
  | some found =>
    obtain ⟨name, behindName⟩ := found
    obtain ⟨behindName', hname', hbehind⟩ := hparallel.skipIfNotExists.qualifiedName? hname
    rw [hname] at hread
    rw [hname']
    dsimp only at hread ⊢
    cases heat : eat? .leftParen behindName with
    | none =>
      rw [heat] at hread
      cases hread
      rw [hbehind.mirrors.eat?_none (by decide) heat]
      dsimp only
      rw [hbehind.skipStatement, Schema.extend_empty]
    | some inside =>
      obtain ⟨heat', hinside⟩ := hbehind.eat?_some (by decide) (by decide) heat
      rw [heat] at hread
      rw [heat']
      dsimp only at hread ⊢
      obtain ⟨⟨d, behind⟩, helements, hadded⟩ := exists_of_bind_eq_ok hread
      obtain ⟨behind', helements', hleft⟩ := hinside.elements hend helements line'
      rw [helements']
      simp only [bind, Except.bind] at hadded ⊢
      split at hadded
      · cases hadded
      · next hempty =>
        cases hadded
        rw [if_neg hempty, hleft.skipStatement]
        rfl

/-! ## Types -/

/-- A type that is read into the empty schema is added to any schema, in front of any other end. -/
theorem Parallel.createType (hread : createType line .empty lexemes = .ok (addition, left))
    (line' : Option Nat) (schema : Schema) :
    Sql.createType line' schema others = .ok (schema.extend addition, other.tail) := by
  unfold Sql.createType at hread ⊢
  cases hname : Sql.qualifiedName? lexemes with
  | none =>
    rw [hname] at hread
    cases hread
  | some found =>
    obtain ⟨name, behindName⟩ := found
    obtain ⟨behindName', hname', hbehind⟩ := hparallel.qualifiedName? hname
    rw [hname] at hread
    rw [hname']
    dsimp only at hread ⊢
    cases has : eat? (.keyword .as) behindName with
    | none =>
      rw [has] at hread
      cases hread
      rw [hbehind.mirrors.eat?_none (by decide) has]
      dsimp only
      rw [hbehind.skipStatement, Schema.extend_empty]
    | some behindAs =>
      obtain ⟨has', hvalue⟩ := hbehind.eat?_some (by decide) (by decide) has
      rw [has] at hread
      rw [has']
      dsimp only at hread ⊢
      rw [hvalue.mirrors.next_eq (Token.isWord "enum") rfl]
      split at hread
      · next henum =>
        cases hread
        rw [if_pos henum, hvalue.skipStatement]
        rfl
      · next henum =>
        rw [if_neg henum]
        have hvalues := hvalue.tail fun hnext => henum (by rw [hnext]; rfl)
        cases heat : eat? .leftParen behindAs.tail with
        | none =>
          rw [heat] at hread
          cases hread
          rw [hvalues.mirrors.eat?_none (by decide) heat]
          dsimp only
          rw [hvalues.skipStatement]
          rfl
        | some inside =>
          obtain ⟨heat', hinside⟩ := hvalues.eat?_some (by decide) (by decide) heat
          rw [heat] at hread
          rw [heat']
          obtain ⟨⟨values, behind⟩, hlist, hadded⟩ := exists_of_bind_eq_ok hread
          obtain ⟨behind', hlist', hleft⟩ := hinside.enumValues hlist line'
          cases hadded
          dsimp only
          rw [hlist']
          dsimp only [bind, Except.bind]
          rw [hleft.skipStatement]
          rfl

end Statements

/-! ## Extensions -/

/-- The options come to a `VERSION` with no version after it, but the semicolon. -/
def EndsLacking (extension : Extension) (options : List Lexeme) : Prop :=
  ∃ last left, Turns extensionOption extension options last left ∧
    (next left).isWord "version" = true ∧ next left.tail = .semicolon

/-- Behind `CREATE EXTENSION`, the last option asks for a version that is lacking. -/
def LacksVersion (lexemes : List Lexeme) : Prop :=
  ∃ name options, qualifiedName? (skipIfNotExists lexemes) = some (name, options) ∧
    EndsLacking ⟨name, none, none, none⟩ options

theorem extensionOption_done (extension : Extension)
    (hnext : next lexemes = .keyword .create ∨ next lexemes = .eof) :
    extensionOption extension lexemes = .ok (.done extension, lexemes) := by
  rcases hnext with hnext | hnext
  all_goals
    simp only [extensionOption, hnext]
    rfl

/-- `VERSION` takes the token after it, whatever that is. -/
theorem extensionOption_takes (extension : Extension)
    (hversion : (next lexemes).isWord "version" = true) :
    extensionOption extension lexemes =
      .ok (.again { extension with version := versionOf (next lexemes.tail) },
        lexemes.tail.tail) := by
  have hother {word : String} (hword : word ≠ "version") : (next lexemes).isWord word = false := by
    cases hnext : next lexemes with
    | word spelling =>
      rw [hnext] at hversion
      exact beq_eq_false_iff_ne.2 fun hsame => hword (hsame.symm.trans (eq_of_beq hversion))
    | _ => rfl
  have hcascade : next lexemes ≠ .keyword .cascade := fun hnext => by
    rw [hnext] at hversion
    cases hversion
  simp only [extensionOption, hother (by decide : "with" ≠ "version"),
    hother (by decide : "schema" ≠ "version"), hversion, hcascade, decide_false, Bool.or_self]
  rfl

/-- An option that is no version is taken in front of the semicolon. -/
theorem extensionOption_stays (hend : next rest = .semicolon) (hsuffix : rest <:+ lexemes)
    (extension : Extension) (hversion : (next lexemes).isWord "version" = false) :
    extensionOption extension lexemes = .ok (.done extension, lexemes) ∨
      ∃ following left, extensionOption extension lexemes = .ok (.again following, left) ∧
        rest <:+ left ∧ left.length < lexemes.length := by
  by_cases hnext : next lexemes = .semicolon
  · left
    simp only [extensionOption, hnext]
    rfl
  have htail := suffix_tail hend hsuffix hnext
  have hshorter : lexemes.tail.length < lexemes.length := by
    rw [List.length_tail]
    refine Nat.sub_lt (List.length_pos_iff.2 ?_) Nat.one_pos
    rintro rfl
    rw [List.suffix_nil.1 hsuffix] at hend
    cases hend
  simp only [extensionOption, hversion]
  split
  · exact .inr ⟨extension, _, rfl, htail, hshorter⟩
  · split
    · exact .inr ⟨_, _, rfl, suffix_optionalQualifiedName hend htail,
        (optionalQualifiedName_suffix _).length_le.trans_lt hshorter⟩
    · exact .inl rfl

/-- The options are read up to the semicolon, unless a version is lacking. -/
theorem suffix_options (hend : next rest = .semicolon) (extension : Extension)
    (hsuffix : rest <:+ lexemes) (hwhole : ¬ EndsLacking extension lexemes) :
    ∃ last left, repeatedly extensionOption extension lexemes = .ok (last, left) ∧
      rest <:+ left := by
  induction hsize : lexemes.length using Nat.strong_induction_on generalizing extension lexemes with
  | _ size ih =>
    have honward {following : Extension} {after : List Lexeme}
        (hturn : extensionOption extension lexemes = .ok (.again following, after))
        (hafter : rest <:+ after) (hshorter : after.length < lexemes.length) :
        ∃ last left, repeatedly extensionOption extension lexemes = .ok (last, left) ∧
          rest <:+ left := by
      rw [(Turns.single hturn hshorter).repeatedly_eq]
      refine ih _ (hsize ▸ hshorter) following hafter ?_ rfl
      rintro ⟨last, left, hturns, hlacks⟩
      exact hwhole ⟨last, left, .more hturn hshorter hturns, hlacks⟩
    cases hversion : (next lexemes).isWord "version" with
    | true =>
      have hnext : next lexemes ≠ .semicolon := fun hnext => by
        rw [hnext] at hversion
        cases hversion
      have htail := suffix_tail hend hsuffix hnext
      have hbehind := suffix_tail hend htail fun hlacks =>
        hwhole ⟨extension, lexemes, .none _ _, hversion, hlacks⟩
      have hpositive : 0 < lexemes.length := List.length_pos_iff.2 fun hnil => by
        rw [hnil] at hversion
        cases hversion
      refine honward (extensionOption_takes extension hversion) hbehind ?_
      rw [List.length_tail, List.length_tail]
      omega
    | false =>
      rcases extensionOption_stays hend hsuffix extension hversion with
        hdone | ⟨following, after, hread, hafter, hshorter⟩
      · refine ⟨extension, lexemes, ?_, hsuffix⟩
        unfold repeatedly
        rw [hdone]
      · exact honward hread hafter hshorter

/-- A version that is lacking takes the semicolon. -/
theorem options_lacking {first last : Extension} {options : List Lexeme}
    (hturns : Turns extensionOption first options last left)
    (hversion : (next left).isWord "version" = true) (hsemicolon : next left.tail = .semicolon)
    (hnext : next left.tail.tail = .keyword .create ∨ next left.tail.tail = .eof) :
    repeatedly extensionOption first options =
      .ok ({ last with version := none }, left.tail.tail) := by
  have hturn := extensionOption_takes last hversion
  rw [hsemicolon] at hturn
  have hpositive : 0 < left.length := List.length_pos_iff.2 fun hnil => by
    rw [hnil] at hversion
    cases hversion
  have hshorter : left.tail.tail.length < left.length := by
    rw [List.length_tail, List.length_tail]
    omega
  rw [(hturns.trans (.single hturn hshorter)).repeatedly_eq]
  unfold repeatedly
  rw [extensionOption_done _ hnext]
  rfl

theorem createExtension_of_options {name : String} {options : List Lexeme} {last : Extension}
    (hname : qualifiedName? (skipIfNotExists lexemes) = some (name, options))
    (hoptions : repeatedly extensionOption ⟨name, none, none, none⟩ options = .ok (last, left))
    (line : Option Nat) (schema : Schema) :
    createExtension line schema lexemes = .ok (schema.addExtension last, skipStatement left) := by
  unfold createExtension
  dsimp only
  rw [hname]
  dsimp only
  rw [hoptions]
  rfl

section Statements

variable (hparallel : Parallel rest other lexemes others) {line : Option Nat} {addition : Schema}
  (hread : Sql.createExtension line .empty lexemes = .ok (addition, left))

include hparallel hread

/-- The options of an extension start at the same place on both sides. -/
theorem Parallel.exists_options : ∃ name options others',
    Sql.qualifiedName? (Sql.skipIfNotExists lexemes) = some (name, options) ∧
      Sql.qualifiedName? (Sql.skipIfNotExists others) = some (name, others') ∧
        Parallel rest other options others' := by
  cases hname : Sql.qualifiedName? (Sql.skipIfNotExists lexemes) with
  | none =>
    unfold createExtension at hread
    simp only [hname] at hread
    cases hread
  | some found =>
    obtain ⟨name, options⟩ := found
    obtain ⟨others', hname', hbehind⟩ := hparallel.skipIfNotExists.qualifiedName? hname
    exact ⟨name, options, others', rfl, hname', hbehind⟩

/-- An extension that is read into the empty schema is added to any schema, if it lacks no version.
-/
theorem Parallel.createExtension (hwhole : ¬ LacksVersion lexemes) (line' : Option Nat)
    (schema : Schema) :
    Sql.createExtension line' schema others = .ok (schema.extend addition, other.tail) := by
  obtain ⟨name, options, others', hname, hname', hoptions⟩ := hparallel.exists_options hread
  obtain ⟨last, left, hlast, hleft⟩ := suffix_options hparallel.ends ⟨name, none, none, none⟩
    hoptions.unended.suffix fun hlacks => hwhole ⟨name, options, hname, hlacks⟩
  obtain ⟨left', hlast', hmirrors⟩ := hoptions.mirrors.repeatedly leaves_extensionOption
    (fun extension _ _ hmirrors => hmirrors.extensionOption extension) _ _ _ hlast hleft.length_le
  have hsuffix := (leaves_repeatedly leaves_extensionOption _ _).suffix hlast
  rw [createExtension_of_options hname hlast] at hread
  rw [createExtension_of_options hname' hlast',
    (hoptions.onward hsuffix hleft hmirrors).skipStatement]
  cases hread
  rfl

/-- A version that is lacking takes the semicolon, and so what comes next is skipped. -/
theorem Parallel.createExtension_lacking (hend : IsEnd rest) (hlacks : LacksVersion lexemes)
    (hother : next other.tail = .keyword .create ∨ next other.tail = .eof) (line' : Option Nat)
    (schema : Schema) :
    Sql.createExtension line' schema others =
      .ok (schema.extend addition, Sql.skipStatement other.tail) := by
  obtain ⟨name, options, others', hname, hname', hoptions⟩ := hparallel.exists_options hread
  obtain ⟨name', options', hsame, last, front, hturns, hversion, hsemicolon⟩ := hlacks
  obtain ⟨hnames, hrows⟩ := Prod.mk.inj (Option.some.inj (hname.symm.trans hsame))
  subst hnames hrows
  have hsuffix := suffix_of_turns leaves_extensionOption hturns
  have hrest : front.tail = rest :=
    hoptions.unended.eq_of_next hend ((List.tail_suffix front).trans hsuffix) hsemicolon
  obtain ⟨front', hturns', hfront⟩ := hoptions.mirrors.turns
    (fun extension _ _ hmirrors => hmirrors.extensionOption extension) hturns
    (by rw [← hrest]; exact (List.tail_suffix front).length_le)
  obtain ⟨hnext, htail⟩ := hfront.step (by rw [hrest])
  rw [hrest] at htail
  have heof : next front.tail.tail = .eof := by
    rw [hrest]
    exact hend.next_tail
  have hlast := options_lacking hturns hversion hsemicolon (.inr heof)
  have hlast' := options_lacking hturns' (by rw [hnext]; exact hversion)
    (by rw [htail.eq_other]; exact hparallel.mirrors.next_end hparallel.ends)
    (by rw [htail.eq_other]; exact hother)
  rw [createExtension_of_options hname hlast] at hread
  rw [createExtension_of_options hname' hlast', htail.eq_other]
  cases hread
  rfl

end Statements

end SchemaEvolution.Sql
