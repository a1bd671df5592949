import SchemaEvolution.Json.Shape
import SchemaEvolution.Proofs.Json.Printed
import SchemaEvolution.Proofs.Keyed.Lookup

/-!
# Documents that spell a value

A document spells a value of a shape when it is the plain document of the value: a record is
an object of all its fields in order, a choice is a string, and a tagged record has its tag
first.  Both interpretations of the shape take such a document to the value: `decode` for the
document itself, `read` for any text that writes it.
-/

namespace SchemaEvolution.Json

variable {α β γ σ : Type} (origin : Origin)

def Fields.names : {α σ : Type} → Fields α σ → List String
  | _, _, .nil => []
  | _, _, .cons name _ _ rest => name :: rest.names

mutual

/-- The document is the plain document of the value. -/
def Shape.Spells : {α : Type} → Shape α → α → Json → Prop
  | _, .text, value, document => document = .string value
  | _, .flag, value, document => document = .bool value
  | _, .word, value, document =>
    document = .number (.integer value.toNat)
  | _, .whole view, value, document => view document = .ok value
  | _, .choice variants, value, document =>
    ∃ name, document = .string name ∧ variantOf variants name = .ok value
  | _, .optional shape, value, document =>
    match value with
    | none => document = .null
    | some value => document ≠ .null ∧ shape.Spells value document
  | _, .list shape, values, document =>
    ∃ items, document = .array items ∧ List.Forall₂ shape.Spells values items
  | _, .keyed shape, entries, document =>
    ∃ members, document = .object members ∧
      List.Forall₂ (fun entry member => member.1 = entry.1 ∧ shape.Spells entry.2 member.2)
        entries.toList members
  | _, .record _ fields make, value, document =>
    ∃ values members, document = .object members ∧ value = make values ∧
      fields.names.Nodup ∧ fields.Spell values members
  | _, .tagged _ tag variants, value, document =>
    ∃ name view members, document = .object ((tag, .string name) :: members) ∧
      tag ∉ members.map Prod.fst ∧ variantOf variants name = .ok view ∧
      view (.object members) = .ok value

/-- The members are the plain documents of the fields, in order. -/
def Fields.Spell : {α σ : Type} → Fields α σ → α → List (String × Json) → Prop
  | _, _, .nil, _, members => members = []
  | _, _, .cons name shape _ rest, (value, values), members =>
    ∃ document more, members = (name, document) :: more ∧ shape.Spells value document ∧
      rest.Spell values more

end

theorem Fields.map_fst_of_spell : {β σ : Type} → (fields : Fields β σ) → {values : β} →
    {members : List (String × Json)} → fields.Spell values members →
    members.map Prod.fst = fields.names
  | _, _, .nil, _, _, hspell => by
    cases hspell
    rfl
  | _, _, .cons name _ _ rest, _, _, hspell => by
    obtain ⟨document, more, rfl, -, hrest⟩ := hspell
    rw [List.map_cons, names, map_fst_of_spell rest hrest]

theorem wordOf_toNat (value : UInt32) : wordOf (.integer value.toNat) = .ok value := by
  have hbound := value.toNat_lt
  have hword : (0 ≤ (value.toNat : Int) && (value.toNat : Int) < UInt32.size) = true := by
    simp only [Bool.and_eq_true, decide_eq_true_eq, UInt32.size]
    omega
  rw [wordOf, if_pos hword, Int.toNat_natCast, Nat.toUInt32_eq, UInt32.ofNat_toNat]

theorem mapM_decode_of_forall₂ {shape : Shape α} {values : List α} {items : List Json}
    (hitems : List.Forall₂ (fun value item => shape.decode origin item = .ok value)
      values items) : items.mapM (shape.decode origin) = .ok values := by
  induction hitems with
  | nil => rfl
  | cons hitem _ ih =>
    rw [List.mapM_cons, hitem]
    simp only [ih]
    rfl

/-- A collection is decoded entry by entry, in order. -/
theorem foldlM_insert_of_forall₂ {shape : Shape α} {entries : Keyed α}
    {members : List (String × Json)}
    (hmembers : List.Forall₂ (fun entry member => member.1 = entry.1 ∧
      shape.decode origin member.2 = .ok entry.2) entries.toList members) :
    members.foldlM (fun (done : Keyed α) member => do
      return done.insert member.1 (← shape.decode origin member.2)) Keyed.empty =
      Except.ok entries := by
  have hfold : ∀ {pairs : List (String × α)} {members : List (String × Json)} (done : Keyed α),
      List.Forall₂ (fun entry member => member.1 = entry.1 ∧
        shape.decode origin member.2 = .ok entry.2) pairs members →
      members.foldlM (fun (done : Keyed α) member => do
        return done.insert member.1 (← shape.decode origin member.2)) done =
        Except.ok (pairs.foldl (fun entries pair => entries.insert pair.1 pair.2) done) := by
    intro pairs members done hpairs
    induction hpairs generalizing done with
    | nil => rfl
    | cons hpair _ ih =>
      rw [List.foldlM_cons, hpair.1, hpair.2]
      exact ih _
  rw [hfold _ hmembers, Keyed.foldl_insert_toList]

theorem splitTag_of_found {tag : String} (variants : List (String × α)) (found : α)
    (done members : List (String × Json)) (hother : tag ∉ members.map Prod.fst) :
    splitTag tag variants (some found) done members = .ok (found, done.reverse ++ members) := by
  induction members generalizing done with
  | nil => rw [splitTag, List.append_nil]
  | cons member rest ih =>
    obtain ⟨name, value⟩ := member
    rw [List.map_cons, List.mem_cons, not_or] at hother
    rw [splitTag, if_neg (Ne.symm hother.1), ih _ hother.2, List.reverse_cons, List.append_assoc]
    rfl

/-- Members with other names pass over a field. -/
theorem Fields.foldlM_decodeMember_cons {name : String} {shape : Shape β} {absent : Option β}
    {rest : Fields γ σ} (found : Option β) (others : σ) (members : List (String × Json))
    (hother : name ∉ members.map Prod.fst) :
    members.foldlM (fun done member =>
        (Fields.cons name shape absent rest).decodeMember origin done member.1 member.2)
      (found, others) =
      (members.foldlM (fun done member => rest.decodeMember origin done member.1 member.2)
        others).map fun others => (found, others) := by
  induction members generalizing others with
  | nil => rfl
  | cons member more ih =>
    rw [List.map_cons, List.mem_cons, not_or] at hother
    simp only [List.foldlM_cons, decodeMember, if_neg (Ne.symm hother.1)]
    cases rest.decodeMember origin others member.1 member.2 with
    | error fault => rfl
    | ok next => exact ih next hother.2

mutual

/-- A document that spells a value is decoded to it. -/
theorem Shape.decode_of_spells : {α : Type} → (shape : Shape α) → {value : α} →
    {document : Json} → shape.Spells value document → shape.decode origin document = .ok value
  | _, .text, _, _, hspells => by
    cases hspells
    rfl
  | _, .flag, _, _, hspells => by
    cases hspells
    rfl
  | _, .word, value, _, hspells => by
    cases hspells
    exact wordOf_toNat value
  | _, .whole view, _, _, hspells => hspells
  | _, .choice variants, _, _, hspells => by
    obtain ⟨name, rfl, hvariant⟩ := hspells
    exact hvariant
  | _, .optional shape, none, _, hspells => by
    cases hspells
    rfl
  | _, .optional shape, some value, document, hspells => by
    obtain ⟨hnull, hshape⟩ := hspells
    have hdecode := shape.decode_of_spells hshape
    cases document with
    | null => exact absurd rfl hnull
    | _ => exact congrArg (Except.map some) hdecode
  | _, .list shape, values, _, hspells => by
    obtain ⟨items, rfl, hitems⟩ := hspells
    exact mapM_decode_of_forall₂ origin (hitems.imp fun _ _ => shape.decode_of_spells)
  | _, .keyed shape, entries, _, hspells => by
    obtain ⟨members, rfl, hmembers⟩ := hspells
    exact foldlM_insert_of_forall₂ origin
      (hmembers.imp fun _ _ hmember => ⟨hmember.1, shape.decode_of_spells hmember.2⟩)
  | _, .record name fields make, _, _, hspells => by
    obtain ⟨values, members, rfl, rfl, hdistinct, hspell⟩ := hspells
    obtain ⟨found, hfold, hcomplete⟩ := fields.decode_of_spell hdistinct hspell
    simp only [Shape.decode, hfold]
    exact congrArg (fun result => result >>= fun values => pure (make values)) hcomplete
  | _, .tagged name tag variants, _, _, hspells => by
    obtain ⟨variant, view, members, rfl, hother, hvariant, hview⟩ := hspells
    have hsplit := splitTag_of_found variants view [] members hother
    have hfirst : splitTag tag variants none [] ((tag, .string variant) :: members) =
        .ok (view, members) := by
      rw [splitTag, if_pos rfl]
      simp only [tagOf, hvariant]
      exact hsplit
    simp only [Shape.decode, hfirst]
    exact hview

/-- A record written with all its fields in order is decoded field by field. -/
theorem Fields.decode_of_spell : {β σ : Type} → (fields : Fields β σ) → {values : β} →
    {members : List (String × Json)} → fields.names.Nodup → fields.Spell values members →
    ∃ found, members.foldlM
        (fun done member => fields.decodeMember origin done member.1 member.2) fields.unfilled =
          Except.ok found ∧ fields.complete found = .ok values
  | _, _, .nil, _, _, _, hspell => by
    cases hspell
    exact ⟨(), rfl, rfl⟩
  | _, _, .cons name shape absent rest, values, _, hdistinct, hspell => by
    obtain ⟨document, more, rfl, hdocument, hrest⟩ := hspell
    rw [Fields.names, List.nodup_cons] at hdistinct
    obtain ⟨found, hfold, hcomplete⟩ := rest.decode_of_spell hdistinct.2 hrest
    have hother := hdistinct.1
    rw [← Fields.map_fst_of_spell rest hrest] at hother
    have hfirst : (Fields.cons name shape absent rest).decodeMember origin (none, rest.unfilled) name
        document = .ok (some values.1, rest.unfilled) := by
      simp only [Fields.decodeMember, if_true, shape.decode_of_spells hdocument]
      rfl
    refine ⟨(some values.1, found), ?_, ?_⟩
    · simp only [Fields.unfilled, List.foldlM_cons]
      rw [hfirst]
      refine (Fields.foldlM_decodeMember_cons origin _ _ more hother).trans ?_
      rw [hfold]
      rfl
    · simp only [Fields.complete, hcomplete]
      rfl

end

/-! ## Reading -/

section

variable {depth : Nat} {text : List Char}

theorem Written.eq_stringChars {value : String} (hwritten : Written depth (.string value) text) :
    text = stringChars value := by
  cases hwritten
  rfl

/-- A word is read where it is written, if the view takes it. -/
theorem reads_readWord (wanted : String) {view : String → Except Fault α} {word : String}
    {value : α} (hview : view word = .ok value) (hwritten : Written depth (.string word) text) :
    Reads (readWord wanted view) text value := by
  intro c tail hat hfollows
  rw [hwritten.eq_stringChars] at hat
  have hrest : c.skipGap.rest = stringChars word ++ tail := hat.rest_cons rfl
  obtain ⟨after, hread, hafter⟩ := readString_stringChars word tail hrest
  refine ⟨after, ?_, .of_rest hafter⟩
  simp only [stringChars, List.cons_append] at hrest
  simp only [readWord, hrest, hread]
  change placedAt after (view word) = _
  rw [hview]
  rfl

/-- A truth value is read where it is written. -/
theorem reads_flag {value : Bool} (hwritten : Written depth (.bool value) text) (limit : Nat) :
    Reads (Shape.flag.read limit) text value := by
  cases hwritten
  intro c tail hat hfollows
  cases value with
  | true =>
    obtain ⟨hrest, after, hread, hafter⟩ := readIdent_of_at ['r', 'u', 'e'] tail hat rfl
    refine ⟨after, ?_, .of_rest hafter⟩
    simp only [Shape.read, hrest, hread]
    rfl
  | false =>
    obtain ⟨hrest, after, hread, hafter⟩ := readIdent_of_at ['a', 'l', 's', 'e'] tail hat rfl
    refine ⟨after, ?_, .of_rest hafter⟩
    simp only [Shape.read, hrest, hread]
    rfl

/-- A number that fits 32 bits is read where it is written. -/
theorem reads_word {number : Number} {value : UInt32} (hword : wordOf number = .ok value)
    (hwritten : Written depth (.number number) text) (limit : Nat) :
    Reads (Shape.word.read limit) text value := by
  intro c tail hat hfollows
  obtain ⟨after, hread, hafter⟩ := hwritten.reads c tail hat hfollows
  refine ⟨after, ?_, hafter⟩
  rcases readNumber_of_readAny hread with ⟨rest, heq, hnumber⟩ | ⟨first, rest, heq, hfirst, hnumber⟩
  · simp only [Shape.read, heq, hnumber, bind, Except.bind, hword, placedAt]
  · have hminus : first ≠ '-' := by
      rintro rfl
      exact absurd hfirst (by decide)
    simp only [Shape.read, heq, hfirst, hnumber, if_true, bind, Except.bind, hword, placedAt]

/-- A view of any value, once it is read. -/
theorem reads_whole {view : Json → Except Fault α} {value : α} {document : Json}
    (hview : view document = .ok value) (hwritten : Written depth document text) :
    Reads (fun c => do
      let (value, c) ← readAny (depth + 1) c
      atCursor c (view value)) text value := by
  intro c tail hat hfollows
  obtain ⟨after, hread, hafter⟩ := hwritten.reads c tail hat hfollows
  refine ⟨after, ?_, hafter⟩
  simp only [hread]
  change atCursor after (view document) = _
  rw [hview]
  rfl

theorem reads_none {shape : Shape α} (hwritten : Written depth .null text) (limit : Nat) :
    Reads ((Shape.optional shape).read limit) text none := by
  cases hwritten
  intro c tail hat hfollows
  obtain ⟨hrest, after, hread, hafter⟩ := readIdent_of_at ['u', 'l', 'l'] tail hat rfl
  refine ⟨after, ?_, .of_rest hafter⟩
  simp only [Shape.read, hrest, hread]
  rfl

/-- A value that is not null is read as the present value of an option. -/
theorem reads_some {shape : Shape α} {value : α} {document : Json} (hnull : document ≠ .null)
    (hwritten : Written depth document text) {limit : Nat}
    (hreads : Reads (shape.read limit) text value) :
    Reads ((Shape.optional shape).read limit) text (some value) := by
  intro c tail hat hfollows
  obtain ⟨after, hread, hafter⟩ := hreads c.skipGap tail hat.skipGap hfollows
  refine ⟨after, ?_, hafter⟩
  obtain ⟨first, rest, heq, -, hfirst⟩ := hwritten.starts
  have hrest : c.skipGap.rest = first :: (rest ++ tail) := by
    rw [hat.rest_skipGap, List.dropWhile_append, heq]
    rfl
  simp only [Shape.read, hrest]
  split
  · next heq =>
    cases heq
    exact absurd (hfirst rfl) hnull
  · rw [hread]
    rfl

/-- The reader takes the members of a record that has one field less to the same values. -/
theorem Fields.readsMembers_cons {name : String} {shape : Shape β} {absent : Option β}
    {rest : Fields γ σ} {found : Option β} {limit : Nat} {others final : σ}
    {members : List (String × List Char)}
    (hmembers : ReadsMembers (rest.readMember limit) others members final)
    (hother : name ∉ members.map Prod.fst) :
    ReadsMembers ((Fields.cons name shape absent rest).readMember limit) (found, others) members
      (found, final) := by
  induction hmembers with
  | nil others => exact .nil _
  | @cons others next final field text more htext hmore ih =>
    rw [List.map_cons, List.mem_cons, not_or] at hother
    refine .cons ?_ (ih hother.2)
    intro c tail hat hfollows
    obtain ⟨after, hread, hafter⟩ := htext c tail hat hfollows
    refine ⟨after, ?_, hafter⟩
    simp only [readMember, if_neg (Ne.symm hother.1), hread]
    rfl

def taggedMember (limit : Nat) (tag : String) (variants : List (String × α))
    (done : Option α × List (String × Json)) (name : String) (c : Cursor) :
    Except ReadFault ((Option α × List (String × Json)) × Cursor) :=
  if name = tag then
    if done.1.isSome then .error (.pending (.duplicateField tag) c)
    else do
      let (found, c) ← readWord "variant identifier" (variantOf variants) (← readColon c)
      return ((some found, done.2), c)
  else do
    let (value, c) ← readAny limit (← readColon c)
    return ((done.1, (name, value) :: done.2), c)

theorem readTagged_eq (limit : Nat) (tag : String) (variants : List (String × α)) (c : Cursor) :
    readTagged limit tag variants c = (do
      let ((found, others), c) ←
        readMembers (taggedMember limit tag variants) (c.rest.length + 1) true (none, []) c
      match found with
      | some found => .ok ((found, others.reverse), c)
      | none => .error (.pending (.missingField tag) c)) := rfl

/-- A reader of a member goes on with the value after the colon. -/
theorem Reads.of_eq {reader other : Cursor → Except ReadFault (α × Cursor)} {value : α}
    (hreads : Reads reader text value) (heq : ∀ c, other c = reader c) :
    Reads other text value := by
  rw [funext heq]
  exact hreads

/-- The members of a tagged record after its tag are read as any values. -/
theorem readsMembers_tagged {tag : String} {variants : List (String × α)} {found : Option α}
    {members : List (String × Json)} {print : Json → List Char} {colon : List Char}
    (hother : tag ∉ members.map Prod.fst) (hcolon : ∀ char ∈ colon, Cursor.isGap char = true)
    (hmembers : ∀ member ∈ members, Written depth member.2 (print member.2))
    (done : List (String × Json)) :
    ReadsMembers (taggedMember (depth + 1) tag variants) (found, done)
      (members.map fun member => (member.1, ':' :: colon ++ print member.2))
      (found, members.reverse ++ done) := by
  induction members generalizing done with
  | nil => exact .nil _
  | cons member more ih =>
    rw [List.map_cons, List.mem_cons, not_or] at hother
    rw [List.reverse_cons, List.append_assoc, List.map_cons]
    refine .cons ?_ (ih hother.2 (fun other hmem => hmembers other (.tail _ hmem)) (member :: done))
    have hreads := ((hmembers member (.head _)).reads.colon hcolon).map fun value =>
      (found, (member.1, value) :: done)
    refine hreads.of_eq fun c => ?_
    simp only [taggedMember, if_neg (Ne.symm hother.1), bind_assoc]

/-- A tagged record is read variant first. -/
theorem readsMembers_tag {tag name : String} {variants : List (String × α)} {variant : α}
    {members : List (String × Json)} {print : Json → List Char} {colon : List Char}
    (hvariant : variantOf variants name = .ok variant) (hother : tag ∉ members.map Prod.fst)
    (hcolon : ∀ char ∈ colon, Cursor.isGap char = true)
    (hmembers : ∀ member ∈ (tag, Json.string name) :: members,
      Written depth member.2 (print member.2)) :
    ReadsMembers (taggedMember (depth + 1) tag variants) (none, [])
      (((tag, Json.string name) :: members).map fun member =>
        (member.1, ':' :: colon ++ print member.2))
      (some variant, members.reverse ++ []) := by
  rw [List.map_cons]
  refine .cons ?_ (readsMembers_tagged hother hcolon
    (fun member hmem => hmembers member (.tail _ hmem)) [])
  have hreads := ((reads_readWord "variant identifier" hvariant
    (hmembers _ (.head _))).colon hcolon).map fun found => (some found, ([] : List (String × Json)))
  refine hreads.of_eq fun c => ?_
  simp only [taggedMember, if_true, bind_assoc, Option.isSome_none, Bool.false_eq_true, if_false]

end

theorem not_le_one (depth : Nat) : ¬depth + 1 + 1 ≤ 1 := by
  omega

theorem length_rest_advance {c : Cursor} {first : Char} {rest : List Char}
    (hrest : c.rest = first :: rest) : c.rest.length ≤ c.advance.rest.length + 1 := by
  rw [Cursor.rest_advance, hrest, List.length_cons, List.tail_cons]

theorem forall₂_of_mem {r s : α → β → Prop} {left : List α} {right : List β}
    (hpairs : List.Forall₂ r left right) (himp : ∀ x, ∀ y ∈ right, r x y → s x y) :
    List.Forall₂ s left right := by
  induction hpairs with
  | nil => exact .nil
  | cons hpair _ ih =>
    exact .cons (himp _ _ (.head _) hpair) (ih fun x y hmem => himp x y (.tail _ hmem))

mutual

/-- A text that writes a document which spells a value is read as that value. -/
theorem Shape.reads_of_spells : {α : Type} → (shape : Shape α) → {value : α} →
    {document : Json} → {depth : Nat} → {text : List Char} → shape.Spells value document →
    Written depth document text → Reads (shape.read (depth + 1)) text value
  | _, .text, _, _, _, _, hspells, hwritten => by
    cases hspells
    exact reads_readWord "a string" rfl hwritten
  | _, .flag, _, _, _, _, hspells, hwritten => by
    cases hspells
    exact reads_flag hwritten _
  | _, .word, value, _, _, _, hspells, hwritten => by
    cases hspells
    exact reads_word (wordOf_toNat value) hwritten _
  | _, .whole view, _, _, _, _, hspells, hwritten => reads_whole hspells hwritten
  | _, .choice variants, _, _, _, _, hspells, hwritten => by
    obtain ⟨name, rfl, hvariant⟩ := hspells
    have hview : choiceOf .document variants (.string name) = .ok _ := hvariant
    exact reads_whole hview hwritten
  | _, .optional shape, none, _, _, _, hspells, hwritten => by
    cases hspells
    exact reads_none hwritten _
  | _, .optional shape, some value, _, _, _, hspells, hwritten => by
    obtain ⟨hnull, hshape⟩ := hspells
    exact reads_some hnull hwritten (shape.reads_of_spells hshape hwritten)
  | _, .list shape, values, _, _, _, hspells, hwritten => by
    obtain ⟨items, rfl, hvalues⟩ := hspells
    cases hwritten with
    | @array depth _ print gap last hgap hlast hitems =>
      intro c tail hat hfollows
      simp only [List.cons_append, List.append_assoc, List.nil_append] at hat
      have hrest := hat.rest_cons rfl
      have hpieces : List.Forall₂ (fun value piece =>
          Reads (shape.read (depth + 1)) piece value ∧ StartsItem piece)
          values (items.map print) := by
        rw [List.forall₂_map_right_iff]
        exact forall₂_of_mem hvalues fun value item hmem hspells =>
          ⟨shape.reads_of_spells hspells (hitems item hmem), (hitems item hmem).startsItem⟩
      obtain ⟨after, hread, hafter⟩ := (readsItems_collect hpieces []).enclosed hgap hlast hrest
      refine ⟨after, ?_, .of_rest hafter⟩
      rw [hrest, List.append_nil] at hread
      simp only [Shape.read, hrest, if_neg (not_le_one depth), Nat.add_sub_cancel]
      rw [hread]
      change Except.ok (values.reverse.reverse, after) = _
      rw [List.reverse_reverse]
  | _, .keyed shape, entries, _, _, _, hspells, hwritten => by
    obtain ⟨members, rfl, hentries⟩ := hspells
    cases hwritten with
    | @object depth _ print gap colon last hgap hcolon hlast hmembers =>
      intro c tail hat hfollows
      simp only [List.cons_append, List.append_assoc, List.nil_append] at hat
      have hrest := hat.rest_cons rfl
      have hpieces : List.Forall₂ (fun (entry : String × _) (piece : String × List Char) =>
          piece.1 = entry.1 ∧ ∃ text, piece.2 = ':' :: colon ++ text ∧
            Reads (shape.read (depth + 1)) text entry.2) entries.toList
          (members.map fun member => (member.1, ':' :: (colon ++ print member.2))) := by
        rw [List.forall₂_map_right_iff]
        exact forall₂_of_mem hentries fun entry member hmem hspells =>
          ⟨hspells.1, _, rfl, shape.reads_of_spells hspells.2 (hmembers member hmem)⟩
      have hcollect := readsMembers_collect hcolon Keyed.insert hpieces Keyed.empty
      rw [Keyed.foldl_insert_toList] at hcollect
      obtain ⟨close, hread, hclose⟩ :=
        hcollect.readMembers_of_opening hgap hlast (Nat.le_succ _) hrest
      obtain ⟨after, hread, hafter⟩ := enclosed_closeObject hread hclose
      refine ⟨after, ?_, .of_rest hafter⟩
      rw [hrest] at hread
      simp only [Shape.read, hrest, if_neg (not_le_one depth), Nat.add_sub_cancel]
      exact hread
  | _, .record name fields make, _, _, _, _, hspells, hwritten => by
    obtain ⟨values, members, rfl, rfl, hdistinct, hspell⟩ := hspells
    cases hwritten with
    | @object depth _ print gap colon last hgap hcolon hlast hmembers =>
      intro c tail hat hfollows
      simp only [List.cons_append, List.append_assoc, List.nil_append] at hat
      have hrest := hat.rest_cons rfl
      obtain ⟨found, hfound, hcomplete⟩ :=
        fields.readsMembers_of_spell hdistinct hspell hcolon hmembers
      obtain ⟨close, hread, hclose⟩ :=
        hfound.readMembers_of_opening hgap hlast (Nat.le_succ _) hrest
      have hbody : (do
          let (found, c) ← readMembers
            (fun done field c => fields.readMember (depth + 1) done field c)
            (c.skipGap.rest.length + 1) true fields.unfilled c.skipGap.advance
          let (values, c) ← atCursor c (fields.complete found)
          return (make values, c)) = Except.ok (make values, close) := by
        rw [hread]
        simp only [bind, Except.bind, hcomplete, atCursor]
        rfl
      obtain ⟨after, hread, hafter⟩ := enclosed_closeObject hbody hclose
      refine ⟨after, ?_, .of_rest hafter⟩
      rw [hrest] at hread
      simp only [Shape.read, hrest, if_neg (not_le_one depth), Nat.add_sub_cancel]
      exact hread
  | _, .tagged name tag variants, _, _, _, _, hspells, hwritten => by
    obtain ⟨variant, view, members, rfl, hother, hvariant, hview⟩ := hspells
    cases hwritten with
    | @object depth _ print gap colon last hgap hcolon hlast hmembers =>
      intro c tail hat hfollows
      simp only [List.cons_append, List.append_assoc, List.nil_append] at hat
      have hrest := hat.rest_cons rfl
      have htagged := readsMembers_tag hvariant hother hcolon hmembers
      obtain ⟨close, hread, hclose⟩ :=
        htagged.readMembers_of_opening hgap hlast (length_rest_advance hrest) hrest
      have hbody : readTagged (depth + 1) tag variants c.skipGap.advance =
          .ok ((view, members), close) := by
        rw [readTagged_eq, hread, List.append_nil]
        simp only [bind, Except.bind, List.reverse_reverse]
      obtain ⟨after, hread, hafter⟩ := enclosed_closeObject hbody hclose
      refine ⟨after, ?_, .of_rest hafter⟩
      simp only [Shape.read, hrest, if_neg (not_le_one depth), Nat.add_sub_cancel]
      rw [hread]
      change atCursor after (view (.object members)) = _
      rw [hview]
      rfl

/-- The members of a record written with all its fields in order are read field by field. -/
theorem Fields.readsMembers_of_spell : {β σ : Type} → (fields : Fields β σ) → {values : β} →
    {members : List (String × Json)} → {depth : Nat} → {print : Json → List Char} →
    {colon : List Char} → fields.names.Nodup → fields.Spell values members →
    (∀ char ∈ colon, Cursor.isGap char = true) →
    (∀ member ∈ members, Written depth member.2 (print member.2)) →
    ∃ found, ReadsMembers (fields.readMember (depth + 1)) fields.unfilled
        (members.map fun member => (member.1, ':' :: colon ++ print member.2)) found ∧
      fields.complete found = .ok values
  | _, _, .nil, _, _, _, _, _, _, hspell, _, _ => by
    cases hspell
    exact ⟨(), .nil _, rfl⟩
  | _, _, .cons name shape absent rest, values, _, depth, print, colon, hdistinct, hspell, hcolon,
      hmembers => by
    obtain ⟨document, more, rfl, hdocument, hrest⟩ := hspell
    rw [Fields.names, List.nodup_cons] at hdistinct
    obtain ⟨found, hfound, hcomplete⟩ := rest.readsMembers_of_spell hdistinct.2 hrest hcolon
      fun member hmem => hmembers member (.tail _ hmem)
    have hother := hdistinct.1
    rw [← Fields.map_fst_of_spell rest hrest] at hother
    have hvalue := ((shape.reads_of_spells hdocument (hmembers _ (.head _))).colon hcolon).map
      fun value => (some value, rest.unfilled)
    refine ⟨(some values.1, found), .cons (hvalue.of_eq fun c => ?_)
      (Fields.readsMembers_cons hfound ?_), ?_⟩
    · simp only [Fields.readMember, Fields.unfilled, if_true, bind_assoc]
    · rw [List.map_map]
      exact hother
    · simp only [Fields.complete, hcomplete]
      rfl

end

end SchemaEvolution.Json
