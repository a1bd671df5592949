import SchemaEvolution.Proofs.Sql.StatementEnd

/-!
# Scripts of definitions

The lexemes of statements that are joined by the ends of lines are those of the statements alone,
one behind the other, but for the lines and for the gaps between the statements.
-/

namespace SchemaEvolution.Sql

theorem gap_lexemes (line : Nat) (cs : List Char) :
    (Lexeme.lexemes line cs).head?.map Lexeme.gap = some (Lexeme.gapOf .between cs) := by
  cases hdrop : cs.drop (Lexeme.gapOf .between cs).length with
  | nil => rw [lexemes_of_end line hdrop]; rfl
  | cons c rest => rw [lexemes_of_scan line hdrop]; rfl

/-- The end of a line in front of a script belongs to the gap of the first lexeme. -/
theorem lexemes_newline (line : Nat) (cs : List Char) :
    next (Lexeme.lexemes line ('\n' :: cs)) = next (Lexeme.lexemes (line + 1) cs) ∧
      (Lexeme.lexemes line ('\n' :: cs)).tail = (Lexeme.lexemes (line + 1) cs).tail := by
  have hgap : Lexeme.gapOf .between ('\n' :: cs) = '\n' :: Lexeme.gapOf .between cs := by
    rw [Lexeme.gapOf_between_boundary rfl]
    rfl
  have hline : line + Lexeme.newlines ('\n' :: Lexeme.gapOf .between cs) =
      line + 1 + Lexeme.newlines (Lexeme.gapOf .between cs) := by
    rw [Lexeme.newlines, Lexeme.newlines, List.count_cons_self]
    omega
  cases hdrop : cs.drop (Lexeme.gapOf .between cs).length with
  | nil =>
    rw [lexemes_of_end _ hdrop, lexemes_of_end line (by rw [hgap]; exact hdrop)]
    exact ⟨rfl, rfl⟩
  | cons c rest =>
    rw [lexemes_of_scan _ hdrop, lexemes_of_scan line (by rw [hgap]; exact hdrop), hgap, hline]
    exact ⟨rfl, rfl⟩

theorem lexemes_semicolon {gap tail : List Char}
    (hgap : Lexeme.gapOf .between (gap ++ ';' :: tail) = gap) (line : Nat) :
    ∃ semicolon after, semicolon.token = .semicolon ∧
      Lexeme.lexemes line (gap ++ ';' :: tail) = semicolon :: Lexeme.lexemes after tail := by
  have hscan : Lexeme.scan ';' tail = (.semicolon, 0) := rfl
  have hlexemes := lexemes_of_scan line (by rw [hgap, List.drop_left] :
    (gap ++ ';' :: tail).drop (Lexeme.gapOf .between (gap ++ ';' :: tail)).length = ';' :: tail)
  rw [hscan] at hlexemes
  exact ⟨_, _, rfl, hlexemes⟩

/-- Up to its last character, a semicolon, a text is cut in front of any other one as it is
alone. -/
theorem lexemes_statement {cs : List Char} {line : Nat} {body : List Lexeme}
    {semicolon last : Lexeme} (hlexemes : Lexeme.lexemes line cs = body ++ [semicolon, last])
    (hsemicolon : semicolon.text = [';']) (hlast : last.gap = [] ∧ last.text = [])
    (tail : List Char) (line' : Nat) :
    ∃ body' semicolon' after, List.Forall₂ Lexeme.Alike body body' ∧
      semicolon'.token = .semicolon ∧
        Lexeme.lexemes line' (cs ++ tail) = body' ++ semicolon' :: Lexeme.lexemes after tail := by
  have hspelled : cs = Lexeme.spelled body ++ semicolon.gap ++ [';'] := by
    have hall := congrArg Lexeme.spelled hlexemes
    rw [Lexeme.spelled_lexemes] at hall
    simpa [hsemicolon, hlast.1, hlast.2] using hall
  have htexts := Lexeme.text_ne_nil_of_lexemes hlexemes (List.cons_ne_nil _ _)
  rw [hspelled] at hlexemes
  obtain ⟨gap, at', hfront, hend, hothers⟩ := Lexeme.lexemes_boundary [] tail rfl rfl id
    (Lexeme.spelled body ++ semicolon.gap) hlexemes htexts (by simp)
  obtain rfl := List.append_cancel_left hfront
  obtain ⟨body', after, halike, hbody⟩ := hothers line'
  have hgap := gap_lexemes at' (semicolon.gap ++ [';'])
  rw [hend] at hgap
  have hgap' := Lexeme.gapOf_boundary [] tail rfl rfl id .between semicolon.gap
    (by rw [← Option.some.inj hgap])
  rw [← Option.some.inj hgap] at hgap'
  obtain ⟨semicolon', next, htoken, hscan⟩ := lexemes_semicolon hgap' after
  refine ⟨body', semicolon', next, halike, htoken, ?_⟩
  rw [hspelled, List.append_assoc, List.singleton_append, hbody, hscan]

theorem scanTagged_ne (rest : List Char) :
    (Lexeme.scanTagged rest).1 ≠ .semicolon ∧ (Lexeme.scanTagged rest).1 ≠ .eof := by
  unfold Lexeme.scanTagged
  dsimp only
  split
  · exact ⟨nofun, nofun⟩
  · split
    all_goals exact ⟨nofun, nofun⟩

theorem ofWord_ne (word : String) : Token.ofWord word ≠ .semicolon ∧ Token.ofWord word ≠ .eof := by
  unfold Token.ofWord
  split
  all_goals exact ⟨nofun, nofun⟩

/-- Only a semicolon is scanned as one, and nothing is scanned as the end of the script. -/
theorem scan_ne {c : Char} (hchar : c ≠ ';') (rest : List Char) :
    (Lexeme.scan c rest).1 ≠ .semicolon ∧ (Lexeme.scan c rest).1 ≠ .eof := by
  have hoperator : (Lexeme.scanOperator c rest).1 ≠ .semicolon ∧
      (Lexeme.scanOperator c rest).1 ≠ .eof := by
    unfold Lexeme.scanOperator
    split
    all_goals exact ⟨nofun, nofun⟩
  have hite {holds : Prop} [Decidable holds] {yes no : Token × Nat}
      (hyes : yes.1 ≠ .semicolon ∧ yes.1 ≠ .eof) (hno : no.1 ≠ .semicolon ∧ no.1 ≠ .eof) :
      (if holds then yes else no).1 ≠ .semicolon ∧ (if holds then yes else no).1 ≠ .eof := by
    split
    · exact hyes
    · exact hno
  unfold Lexeme.scan
  rw [if_neg hchar]
  -- minus, parentheses and comma, then point, quotes and sign, then digits, letters and the others
  refine hite (hite ⟨nofun, nofun⟩ hoperator) (hite ⟨nofun, nofun⟩ (hite ⟨nofun, nofun⟩
    (hite ⟨nofun, nofun⟩ ?_)))
  refine hite (hite ⟨nofun, nofun⟩ ⟨nofun, nofun⟩) (hite ⟨nofun, nofun⟩ (hite ⟨nofun, nofun⟩
    (hite (scanTagged_ne rest) ?_)))
  refine hite ⟨nofun, nofun⟩ (hite ⟨nofun, nofun⟩ (hite ?_ hoperator))
  dsimp only
  exact ofWord_ne _

/-- The lexemes in front of the last one have been scanned. -/
theorem exists_scan {lexeme : Lexeme} {line : Nat} {cs : List Char} {body tail : List Lexeme}
    (hlexemes : Lexeme.lexemes line cs = body ++ tail) (htail : tail ≠ []) (hmem : lexeme ∈ body) :
    ∃ c rest, lexeme.text = c :: rest.take (Lexeme.scan c rest).2 ∧
      lexeme.token = (Lexeme.scan c rest).1 := by
  induction body generalizing line cs with
  | nil => cases hmem
  | cons first more ih =>
    cases hdrop : cs.drop (Lexeme.gapOf .between cs).length with
    | nil =>
      rw [lexemes_of_end line hdrop, List.cons_append] at hlexemes
      exact absurd (List.append_eq_nil_iff.1 (List.cons.inj hlexemes).2.symm).2 htail
    | cons c rest =>
      rw [lexemes_of_scan line hdrop, List.cons_append] at hlexemes
      obtain ⟨hfirst, hmore⟩ := List.cons.inj hlexemes
      rcases List.mem_cons.1 hmem with rfl | hlater
      · rw [← hfirst]
        exact ⟨c, rest, rfl, rfl⟩
      · exact ih hmore hlater

/-- The end of a script is its last lexeme alone, and a semicolon has no other text. -/
theorem token_lexemes {lexeme : Lexeme} {line : Nat} {cs : List Char} {body tail : List Lexeme}
    (hlexemes : Lexeme.lexemes line cs = body ++ tail) (htail : tail ≠ []) (hmem : lexeme ∈ body) :
    lexeme.token ≠ .eof ∧ (lexeme.token = .semicolon → lexeme.text = [';']) := by
  obtain ⟨c, rest, htext, htoken⟩ := exists_scan hlexemes htail hmem
  rw [htext, htoken]
  by_cases hchar : c = ';'
  · subst hchar
    exact ⟨nofun, fun _ => rfl⟩
  · exact ⟨(scan_ne hchar rest).2, fun hsemicolon => absurd hsemicolon (scan_ne hchar rest).1⟩

/-! ## Statements of a script -/

/-- The text is a statement that defines a table, a type or an extension, ends with its only
semicolon, and is read alone without an error. -/
structure IsDefinition (text : String) : Prop where
  opens : next (Lexeme.ofText text) = .keyword .create
  defines : next (Lexeme.ofText text).tail ∈
    [Token.keyword .table, .keyword .type, .keyword .extension]
  closes : ∃ body semicolon line, Lexeme.ofText text = body ++ [semicolon, ⟨[], [], .eof, line⟩] ∧
    semicolon.token = .semicolon ∧ ∀ lexeme ∈ body, lexeme.token ≠ .semicolon
  accepted : ∀ fault ∈ (Schema.ofSql text).diagnostics, fault.severity ≠ .error

/-- Lexemes of statements that follow each other, each of which is up to its semicolon as it is
alone. -/
inductive Script : List String → List Lexeme → Prop
  | none {lexemes : List Lexeme} (hlast : next lexemes = .eof) : Script [] lexemes
  | more {text : String} {texts : List String} {lexemes rest other : List Lexeme}
      (hopens : next lexemes = .keyword .create) (hend : IsEnd rest)
      (hparallel : Parallel rest other (Lexeme.ofText text).tail lexemes.tail)
      (hmore : Script texts other.tail) : Script (text :: texts) lexemes

theorem Script.of_same {texts : List String} {lexemes others : List Lexeme}
    (hscript : Script texts lexemes) (hnext : Sql.next others = Sql.next lexemes)
    (htail : others.tail = lexemes.tail) : Script texts others := by
  cases hscript with
  | none hlast => exact .none (hnext.trans hlast)
  | more hopens hend hparallel hmore =>
    exact .more (hnext.trans hopens) hend (htail ▸ hparallel) hmore

namespace IsDefinition

variable {text : String} (hdefinition : IsDefinition text)

include hdefinition

/-- A definition is one statement from its first word to its semicolon. -/
theorem exists_body : ∃ first body semicolon line,
    Lexeme.ofText text = first :: body ++ [semicolon, ⟨[], [], .eof, line⟩] ∧
      first.token = .keyword .create ∧ semicolon.token = .semicolon ∧ semicolon.text = [';'] ∧
        ∀ lexeme ∈ body, lexeme.token ≠ .semicolon ∧ lexeme.token ≠ .eof := by
  obtain ⟨body, semicolon, line, hlexemes, hsemicolon, hbody⟩ := hdefinition.closes
  have hfront : Lexeme.lexemes 1 text.toList = (body ++ [semicolon]) ++ [⟨[], [], .eof, line⟩] := by
    rw [List.append_assoc]
    exact hlexemes
  have htokens (lexeme : Lexeme) (hmem : lexeme ∈ body ++ [semicolon]) :=
    token_lexemes hfront (List.cons_ne_nil _ []) hmem
  have hopens := hdefinition.opens
  rw [hlexemes] at hopens
  cases body with
  | nil =>
    rw [List.nil_append, next_cons, hsemicolon] at hopens
    cases hopens
  | cons first body =>
    refine ⟨first, body, semicolon, line, hlexemes, hopens, hsemicolon,
      (htokens semicolon (List.mem_append_right _ List.mem_cons_self)).2 hsemicolon,
      fun lexeme hmem => ⟨hbody lexeme (List.mem_cons_of_mem _ hmem), ?_⟩⟩
    exact (htokens lexeme (List.mem_append_left _ (List.mem_cons_of_mem _ hmem))).1

/-- In front of whatever statements, the statement is up to its semicolon as it is alone. -/
theorem script {texts : List String} {tail : List Char}
    (hmore : ∀ line, Script texts (Lexeme.lexemes line tail)) (line : Nat) :
    Script (text :: texts) (Lexeme.lexemes line (text.toList ++ tail)) := by
  obtain ⟨first, body, semicolon, last, hlexemes, hfirst, hsemicolon, htext, hbody⟩ :=
    hdefinition.exists_body
  obtain ⟨body', semicolon', after, halike, hsemicolon', hlexemes'⟩ :=
    lexemes_statement hlexemes htext ⟨rfl, rfl⟩ tail line
  obtain ⟨second, more, hsame, hmores, rfl⟩ := List.forall₂_cons_left_iff.1 halike
  rw [hlexemes']
  have hend : IsEnd [semicolon, ⟨[], [], .eof, last⟩] := ⟨semicolon, _, rfl, hsemicolon, rfl⟩
  have hmirrors : Mirrors [semicolon, ⟨[], [], .eof, last⟩]
      (semicolon' :: Lexeme.lexemes after tail) _ _ :=
    .of_alike (.inl ⟨hend.next, hsemicolon'⟩) hmores
  have hparallel : Parallel [semicolon, ⟨[], [], .eof, last⟩]
      (semicolon' :: Lexeme.lexemes after tail) (Lexeme.ofText text).tail
      (more ++ semicolon' :: Lexeme.lexemes after tail) := by
    rw [hlexemes]
    exact ⟨hmirrors, ⟨body, rfl, hbody⟩, hsemicolon⟩
  exact .more (hsame.2.2.symm.trans hfirst) hend hparallel (hmore after)

end IsDefinition

/-- Definitions that stand one to a line make a script of statements. -/
theorem script_of_definitions {texts : List String}
    (hdefinitions : ∀ text ∈ texts, IsDefinition text) (line : Nat) :
    Script texts (Lexeme.lexemes line (['\n'].intercalate (texts.map String.toList))) := by
  induction texts generalizing line with
  | nil =>
    refine .none ?_
    rw [List.map_nil, List.intercalate_nil, lexemes_blank isBlankText_nil]
    rfl
  | cons text more ih =>
    have hfirst := hdefinitions text List.mem_cons_self
    have hmore := ih fun other hmem => hdefinitions other (List.mem_cons_of_mem _ hmem)
    cases more with
    | nil =>
      have hscript := hfirst.script hmore line
      rw [List.map_nil, List.intercalate_nil, List.append_nil] at hscript
      rwa [List.map_singleton, List.intercalate_singleton]
    | cons second others =>
      rw [List.map_cons, List.map_cons, List.intercalate_cons_cons, List.append_assoc,
        List.singleton_append]
      refine hfirst.script (fun line => ?_) line
      obtain ⟨hnext, htail⟩ := lexemes_newline line
        (['\n'].intercalate ((second :: others).map String.toList))
      exact (hmore (line + 1)).of_same hnext htail

end SchemaEvolution.Sql
