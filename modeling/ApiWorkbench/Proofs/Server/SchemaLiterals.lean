import ApiWorkbench.Proofs.Server.LiteralAtoms
import ApiWorkbench.Proofs.Server.SchemaGrammar

/-!
# No text of a schema leaves its literal

What stands in the source of the type of a schema is followed through the way the type
is made. Around the literals there are the names that types are written with, and
nothing else; a literal is the name of a record, where the record begins, or it is in
the literal of a name, a description or a choice in the schema.

## Main results

* `standsIn_typeOf`: the type of a schema is made of what may stand in it.
* `typeOf_literals`: the same for the source of the type, as it is read.
* `typeOf_literals_of_odd`: sets and bytes to choose from have a name and
  literals of their own.
-/

namespace ApiWorkbench.Server

open Members (valueAt)

theorem forall_mem_pair {α : Type} {P : α → Prop} {a b : α} :
    (∀ x ∈ [a, b], P x) ↔ P a ∧ P b := by
  simp

/-! ## Types of schemas -/

/-- The names that types are written with. -/
def typeWords : List String :=
  ["Any", "str", "int", "float", "bool", "date", "datetime", "EmailStr",
    "AnyUrl", "None", "True", "False", "Literal", "list", "dict", "Union", "Optional",
    "TypedDict", "Annotated", "Field", "description", "NotRequired"]

/-- What the type of a schema may take over from it: the names of properties, their
descriptions, and the values that a text is one of. -/
inductive Quotes (schema : Value) : Value → Prop
  | name {ms props : Members} {k : Scalar} {v : Value} : Reaches schema (.object ms) →
      valueAt "properties" ms = .object props → (k, v) ∈ props →
        Quotes schema (.scalar k)
  | description {ms : Members} : Reaches schema (.object ms) →
      Quotes schema (valueAt "description" ms)
  | choice {ms : Members} {values : List Value} {v : Value} :
      Reaches schema (.object ms) →
      valueAt "enum" ms = .list values → v ∈ values → Quotes schema v

/-- What may stand in the source of the type of a schema: fixed names and marks, the
names of records where a record begins, and the literals of what is taken over. -/
inductive MayStand (schema : Value) (source : List Token) : Atom → Prop
  | mark {c : Char} : c ∈ [',', ':', '='] → MayStand schema source (.mark c)
  | word {text : String} : text ∈ typeWords → MayStand schema source (.word text)
  | recordName {text : String} :
      [.atom (.word "TypedDict"), .opening .round, .atom (.text text)] <:+: source →
      MayStand schema source (.text text)
  | quoted {v : Value} {a : Atom} : Quotes schema v → Spelled v a →
      MayStand schema source a

theorem Quotes.of_uses {v w x : Value} (huses : Uses v w) (h : Quotes w x) :
    Quotes v x := by
  cases h with
  | name hreaches hprops hmem => exact .name (.head huses hreaches) hprops hmem
  | description hreaches => exact .description (.head huses hreaches)
  | choice hreaches henum hmem => exact .choice (.head huses hreaches) henum hmem

theorem MayStand.of_uses {v w : Value} {source : List Token} {a : Atom}
    (huses : Uses v w) (h : MayStand w source a) : MayStand v source a := by
  cases h with
  | mark hc => exact .mark hc
  | word htext => exact .word htext
  | recordName htext => exact .recordName htext
  | quoted hquotes hspelled => exact .quoted (hquotes.of_uses huses) hspelled

/-- Phrases are made of what may stand in the type of a schema, in every source that
they are a part of. -/
def StandsIn (schema : Value) (phrases : List Phrase) : Prop :=
  ∀ source, phraseTokens phrases <:+: source → AtomsIn (MayStand schema source) phrases

section

variable {v : Value}

theorem StandsIn.of_uses {w : Value} {phrases : List Phrase} (huses : Uses v w)
    (h : StandsIn w phrases) :
    StandsIn v phrases :=
  fun source hsource => (h source hsource).imp fun _ ha => ha.of_uses huses

theorem standsIn_nil : StandsIn v [] :=
  fun _ _ => atomsIn_nil

theorem standsIn_word {text : String} (h : text ∈ typeWords) : StandsIn v [word text] :=
  fun _ _ => atomsIn_word.mpr ⟨.word h, atomsIn_nil⟩

theorem standsIn_mark {c : Char} (h : c ∈ [',', ':', '=']) :
    StandsIn v [.atom (.mark c)] :=
  fun _ _ => atomsIn_atom.mpr ⟨.mark h, atomsIn_nil⟩

theorem StandsIn.append {phrases others : List Phrase} (h : StandsIn v phrases)
    (hothers : StandsIn v others) :
    StandsIn v (phrases ++ others) := by
  intro source hsource
  rw [phraseTokens_append] at hsource
  have hleft := (List.prefix_append _ _).isInfix.trans hsource
  have hright := (List.suffix_append _ _).isInfix.trans hsource
  exact atomsIn_append.mpr ⟨h source hleft, hothers source hright⟩

theorem StandsIn.group {content : List Phrase} (bracket : Bracket)
    (h : StandsIn v content) :
    StandsIn v [.group bracket content] := by
  intro source hsource
  have hinner : phraseTokens content <:+: phraseTokens [.group bracket content] :=
    ⟨[.opening bracket], [.closing bracket], by simp [Phrase.tokens]⟩
  exact atomsIn_group.mpr ⟨h source (hinner.trans hsource), atomsIn_nil⟩

theorem StandsIn.bracketed {head : String} {bracket : Bracket}
    {content : List Phrase} (h : StandsIn v content) (hhead : head ∈ typeWords) :
    StandsIn v (bracketed head bracket content) :=
  (standsIn_word hhead).append (h.group bracket)

theorem standsIn_listed {entries : List (List Phrase)}
    (h : ∀ entry ∈ entries, StandsIn v entry) :
    StandsIn v (listed entries) := by
  induction entries with
  | nil => exact standsIn_nil
  | cons entry rest ih =>
      obtain ⟨hentry, hrest⟩ := List.forall_mem_cons.mp h
      cases rest with
      | nil => simpa [listed] using hentry
      | cons next rest =>
          have hcomma : StandsIn v [comma] := standsIn_mark (by simp)
          rw [listed, List.intercalate_cons_cons, List.append_assoc]
          exact hentry.append (hcomma.append (ih hrest))

theorem standsIn_quoted {x : Value} (h : Quotes v x) (hexact : IsExact x) :
    StandsIn v (valuePhrases x) :=
  fun _ _ => (atomsIn_value x hexact).imp fun _ ha => .quoted h ha

theorem standsIn_noted {note : Note} {type : List Phrase} (htype : StandsIn v type)
    (hdescription : StandsIn v (valuePhrases note.description)) :
    StandsIn v (notedPhrases note type) := by
  have hfield : StandsIn v (descriptionPhrases note.description) := by
    have hequals : StandsIn v [equals] := standsIn_mark (by simp)
    have hcontent := (standsIn_word (by decide : "description" ∈ typeWords)).append
      (hequals.append hdescription)
    exact hcontent.bracketed (by decide)
  have hdescribed : StandsIn v
      (if note.description.isBlank then type else describedPhrases
        note.description type) := by
    split
    · exact htype
    · exact (standsIn_listed (forall_mem_pair.mpr ⟨htype, hfield⟩)).bracketed
        (by decide)
  by_cases hrequired : note.required = true
  · simpa only [notedPhrases, if_pos hrequired] using hdescribed
  · simpa only [notedPhrases, if_neg hrequired] using hdescribed.bracketed (by decide)

/-- The name of a record stands where the record begins. -/
theorem standsIn_record {recordName : String} {entries : List (Scalar × List Phrase)}
    (hentries : ∀ entry ∈ entries, StandsIn v (scalarPhrases entry.1) ∧
      StandsIn v entry.2) :
    StandsIn v (recordPhrases recordName entries) := by
  have hkeyed : ∀ entry ∈ entries, StandsIn v (keyedPhrases entry) := by
    intro entry hentry
    have hcolon : StandsIn v [colon] := standsIn_mark (by simp)
    exact (hentries entry hentry).1.append (hcolon.append (hentries entry hentry).2)
  have hgroup := (standsIn_listed (List.forall_mem_map.mpr hkeyed)).group .curly
  intro source hsource
  have hrecord : phraseTokens (recordPhrases recordName entries) =
      [.atom (.word "TypedDict"), .opening .round, .atom (.text recordName)] ++
        [.atom (.mark ',')] ++ phraseTokens
        [.group .curly (listed (entries.map keyedPhrases))] ++ [.closing .round] := by
    simp [recordPhrases, bracketed, listed, List.intercalate_cons_cons, comma, word,
      Phrase.tokens]
  rw [hrecord] at hsource
  have hname : MayStand v source (.text recordName) := by
    refine .recordName (List.IsInfix.trans ?_ hsource)
    simp only [List.append_assoc]
    exact (List.prefix_append _ _).isInfix
  have hgroup := hgroup source ((List.infix_append _ _ _).trans hsource)
  refine atomsIn_word.mpr ⟨.word (by decide), atomsIn_group.mpr ⟨?_, atomsIn_nil⟩⟩
  rw [atomsIn_listed (.mark (by simp)), forall_mem_pair]
  exact ⟨atomsIn_atom.mpr ⟨hname, atomsIn_nil⟩, hgroup⟩

/-! ### The cases of schemas -/

theorem writable_eq_ok {v w : Value} (h : writable v = .ok w) : w = v := by
  unfold writable at h
  split at h
  · exact (Except.ok.inj h).symm
  · exact nomatch h

theorem IsExact.under {ms : Members} (h : IsExact (.object ms)) (key : String) :
    IsExact (valueAt key ms) := by
  rcases valueAt_cases key ms with hnull | ⟨k, hmem⟩
  · rw [hnull]
    exact isExact_null
  · exact h.of_holds (.member hmem (.here _))

theorem IsExact.of_uses {w : Value} (h : IsExact v) (huses : Uses v w) : IsExact w := by
  cases v with
  | marked mark ms =>
      obtain ⟨basic, -, huses⟩ := huses
      cases huses with
      | item => exact h.under "items"
      | value => exact h.under "additionalProperties"
      | property hprops hmem =>
          have hunder := h.under "properties"
          rw [hprops] at hunder
          exact hunder.of_holds (.member hmem (.here _))
      | branch _ hmem =>
          rcases branches_cases ms with hnone | ⟨key, -, hlist⟩
          · simp [hnone] at hmem
          · have hunder := h.under key
            rw [hlist] at hunder
            exact hunder.of_holds (.item hmem (.here _))
  | _ => exact huses.elim

variable {ms : Members}

theorem standsIn_of_name {type : TypeExpr} {text : String} (htext : text ∈ typeWords)
    (h : type.phrases = [word text]) : StandsIn v type.phrases := by
  rw [h]
  exact standsIn_word htext

theorem standsIn_textType {type : TypeExpr} (hexact : IsExact (.object ms))
    (h : textType ms = .ok type) :
    StandsIn (.object ms) type.phrases := by
  unfold textType at h
  split at h
  · next first rest henum =>
    obtain ⟨values, hvalues, htype⟩ := bind_eq_ok.mp h
    obtain rfl := Except.ok.inj htype
    rw [TypeExpr.phrases]
    refine StandsIn.bracketed (standsIn_listed (List.forall_mem_map.mpr ?_)) (by decide)
    intro value hvalue
    obtain ⟨x, hx, hwritable⟩ := exists_of_mem_mapM hvalues hvalue
    obtain rfl := writable_eq_ok hwritable
    have henumExact := hexact.under "enum"
    rw [henum] at henumExact
    exact standsIn_quoted (.choice .refl henum hx)
      (henumExact.of_holds (.item hx (.here _)))
  · obtain ⟨format, -, htype⟩ := bind_eq_ok.mp h
    obtain rfl := Except.ok.inj htype
    have hformats : ∀ entry ∈ textFormats, ∃ text ∈ typeWords,
        entry.2.phrases = [word text] := by
      simp [textFormats, typeWords, TypeExpr.phrases, word]
    split
    · next text type hfound =>
      obtain ⟨text, htext, hphrases⟩ := hformats _ (List.mem_of_find?_eq_some hfound)
      exact standsIn_of_name htext hphrases
    · exact standsIn_of_name (by decide : "str" ∈ typeWords) (by rw [TypeExpr.phrases])

theorem standsIn_ofMembers {types : List TypeExpr}
    (h : ∀ type ∈ types, StandsIn v type.phrases) :
    StandsIn v (TypeExpr.ofMembers types).phrases := by
  have hunion : StandsIn v (TypeExpr.union types).phrases := by
    rw [TypeExpr.phrases, TypeExpr.memberPhrases_eq_map]
    exact (standsIn_listed (List.forall_mem_map.mpr h)).bracketed (by decide)
  match types with
  | [] => exact hunion
  | [type] => exact h type List.mem_cons_self
  | _ :: _ :: _ => exact hunion

/-- What is shown for the types that a type is made from, in the middle of an
induction. -/
def PartsStand (ms : Members) : Prop :=
  ∀ w, Uses (.object ms) w → ∀ name type, typeOf w name = .ok type →
    StandsIn (.object ms) type.phrases

theorem standsIn_choiceType {basic : Value} {type : TypeExpr} (hparts : PartsStand ms)
    (hasks : Asks ms basic) (hother : ∀ known ∈ basicNames, basic ≠ .str known)
    (h : choiceType (partsOf ms) name ["anyOf", "oneOf"] = .ok type) :
    StandsIn (.object ms) type.phrases := by
  rw [choiceType_eq] at h
  split at h
  · obtain rfl := Except.ok.inj h
    exact standsIn_of_name (by decide : "Any" ∈ typeWords) (by rw [TypeExpr.phrases])
  · next x xs hbranches =>
    obtain ⟨types, htypes, rfl⟩ := map_eq_ok.mp h
    refine standsIn_ofMembers fun type htype => ?_
    rw [choiceTypes_eq] at htypes
    obtain ⟨⟨w, number⟩, hw, hok⟩ := exists_of_mem_mapM htypes htype
    have hmem : w ∈ branches ms := hbranches ▸ List.fst_mem_of_mem_zipIdx hw
    exact hparts w ⟨basic, hasks, .branch hother hmem⟩ _ type hok

theorem standsIn_describedBy {w description : Value} (hexact : IsExact w)
    (hreaches : Reaches v w) (h : describedBy w = .ok description) :
    StandsIn v (valuePhrases description) := by
  cases w with
  | marked mark property =>
      obtain rfl := writable_eq_ok h
      exact standsIn_quoted (.description hreaches) (hexact.under "description")
  | _ =>
      obtain rfl := Except.ok.inj h
      exact standsIn_word (by decide)

theorem standsIn_objectType {type : TypeExpr}
    (hexact : IsExact (.object ms)) (hparts : PartsStand ms) (hasks : Asks ms "object")
    (h : objectType ms (partsOf ms) name = .ok type) :
    StandsIn (.object ms) type.phrases := by
  unfold objectType at h
  split at h
  · next e rest hprops =>
    obtain ⟨required, -, h⟩ := bind_eq_ok.mp h
    obtain ⟨found, hfound, h⟩ := bind_eq_ok.mp h
    obtain ⟨entries, hentries, htype⟩ := bind_eq_ok.mp h
    obtain rfl := Except.ok.inj htype
    rw [partsOf_properties, hprops, propertiesIn, propertyTypes_eq] at hfound
    rw [TypeExpr.phrases, TypeExpr.entryPhrases_eq_map]
    refine standsIn_record (List.forall_mem_map.mpr ?_)
    intro entry hentry
    obtain ⟨⟨key, property, propertyType⟩, hproperty, hentry⟩ :=
      exists_of_mem_mapM hentries hentry
    obtain ⟨description, hdescription, hentry⟩ := bind_eq_ok.mp hentry
    obtain rfl := Except.ok.inj hentry
    obtain ⟨⟨k, w⟩, hw, hpropertyType⟩ := exists_of_mem_mapM hfound hproperty
    obtain ⟨part, -, hpropertyType⟩ := bind_eq_ok.mp hpropertyType
    obtain ⟨inner, hinner, hsame⟩ := bind_eq_ok.mp hpropertyType
    obtain ⟨rfl, rfl, rfl⟩ : k = key ∧ w = property ∧ inner = propertyType := by
      simpa using Except.ok.inj hsame
    have huses : Uses (.object ms) w := ⟨"object", hasks, .property hprops hw⟩
    have hprops' := hexact.under "properties"
    rw [hprops] at hprops'
    refine ⟨?_, standsIn_noted (hparts w huses _ inner hinner) ?_⟩
    · exact standsIn_quoted (x := .scalar k) (.name .refl hprops hw)
        (hprops'.of_holds (.name hw (.here _)))
    · exact standsIn_describedBy (hexact.of_uses huses) (.head huses .refl) hdescription
  · next hnone =>
    obtain ⟨value, hvalue, htype⟩ := bind_eq_ok.mp h
    obtain rfl := Except.ok.inj htype
    have huses : Uses (.object ms) (valueAt "additionalProperties" ms) :=
      ⟨"object", hasks, .value fun e rest h => hnone e rest h⟩
    rw [TypeExpr.phrases]
    have hkey : StandsIn (.object ms) [word "str"] := standsIn_word (by decide)
    exact (standsIn_listed
      (forall_mem_pair.mpr ⟨hkey, hparts _ huses _ value hvalue⟩)).bracketed (by decide)

theorem standsIn_basicType {basic : Value} {type : TypeExpr}
    (hexact : IsExact (.object ms)) (hparts : PartsStand ms) (hasks : Asks ms basic)
    (h : basicType ms (partsOf ms) basic name = .ok type) :
    StandsIn (.object ms) type.phrases := by
  by_cases hother : ∀ known ∈ basicNames, basic ≠ .str known
  · obtain ⟨k, hk, -⟩ := bind_eq_ok.mp h
    rw [basicType_other hother hk] at h
    exact standsIn_choiceType hparts hasks hother h
  obtain ⟨known, hknown, rfl⟩ : ∃ known ∈ basicNames, basic = .str known := by
    simpa only [not_forall, exists_prop, ne_eq, not_not] using hother
  simp only [basicNames, List.mem_cons, List.not_mem_nil, or_false] at hknown
  rcases hknown with rfl | rfl | rfl | rfl | rfl | rfl
  · exact standsIn_textType hexact h
  · obtain rfl := Except.ok.inj h
    exact standsIn_of_name (by decide : "int" ∈ typeWords) (by rw [TypeExpr.phrases])
  · obtain rfl := Except.ok.inj h
    exact standsIn_of_name (by decide : "float" ∈ typeWords) (by rw [TypeExpr.phrases])
  · obtain rfl := Except.ok.inj h
    exact standsIn_of_name (by decide : "bool" ∈ typeWords) (by rw [TypeExpr.phrases])
  · rw [basicType_array] at h
    obtain ⟨item, hitem, rfl⟩ := map_eq_ok.mp h
    rw [TypeExpr.phrases]
    exact (hparts _ ⟨"array", hasks, .item⟩ _ item hitem).bracketed (by decide)
  · exact standsIn_objectType hexact hparts hasks h

theorem standsIn_listedType {basics : List Value}
    {type : TypeExpr} (hexact : IsExact (.object ms)) (hparts : PartsStand ms)
    (hasks : ∀ basic ∈ basics, basic.isText "null" = false → Asks ms basic)
    (h : listedType ms (partsOf ms) basics name = .ok type) :
    StandsIn (.object ms) type.phrases := by
  obtain ⟨types, htypes, htype⟩ := bind_eq_ok.mp h
  obtain rfl := Except.ok.inj htype
  refine standsIn_ofMembers (TypeExpr.forall_mem_distinct.mpr fun type htype => ?_)
  obtain ⟨basic, hbasic, hok⟩ := exists_of_mem_mapM htypes htype
  split at hok
  · obtain rfl := Except.ok.inj hok
    exact standsIn_of_name (by decide : "None" ∈ typeWords) (by rw [TypeExpr.phrases])
  · next hnull =>
      exact standsIn_basicType hexact hparts
        (hasks basic hbasic (Bool.eq_false_iff.mpr hnull)) hok

/-- Whether null is allowed adds a name at most. -/
theorem standsIn_orNull {type : TypeExpr} (h : StandsIn v type.phrases) :
    StandsIn v (orNull ms type).phrases := by
  unfold orNull
  split
  · split
    · exact h
    · rw [TypeExpr.phrases]
      exact h.bracketed (by decide)
  · exact h

theorem standsIn_schemaType {type : TypeExpr} (hexact : IsExact (.object ms))
    (hparts : PartsStand ms) (h : schemaType ms (partsOf ms) name = .ok type) :
    StandsIn (.object ms) type.phrases := by
  by_cases hlist : ∃ basics, valueAt "type" ms = .list basics
  · obtain ⟨basics, htype⟩ := hlist
    rw [schemaType_of_list htype] at h
    obtain ⟨inner, hinner, rfl⟩ := map_eq_ok.mp h
    exact standsIn_orNull (standsIn_listedType hexact hparts
      (fun basic hbasic hnull => (asks_of_list htype).mpr ⟨hbasic, hnull⟩) hinner)
  · have hnone : ∀ basics, valueAt "type" ms ≠ .list basics := fun basics h =>
      hlist ⟨basics, h⟩
    rw [schemaType_of_basic hnone] at h
    obtain ⟨inner, hinner, rfl⟩ := map_eq_ok.mp h
    exact standsIn_orNull
      (standsIn_basicType hexact hparts ((asks_of_basic hnone).mpr rfl) hinner)

end

/-- The type of a schema is made of what may stand in it. -/
theorem standsIn_typeOf (schema : Value) (hexact : IsExact schema)
    {name : String} {type : TypeExpr} (h : typeOf schema name = .ok type) :
    StandsIn schema type.phrases := by
  induction schema using uses_induction generalizing name type with
  | step schema ih =>
    by_cases hobject : ∃ ms : Members, schema = .object ms
    · obtain ⟨ms, rfl⟩ := hobject
      rw [typeOf_object] at h
      refine standsIn_schemaType hexact (fun w huses inner type hok => ?_) h
      exact (ih w huses (hexact.of_uses huses) hok).of_uses huses
    · rw [typeOf_of_not_object fun ms hms => hobject ⟨ms, hms⟩] at h
      obtain rfl := Except.ok.inj h
      exact standsIn_of_name (by decide : "Any" ∈ typeWords) (by rw [TypeExpr.phrases])

/-- **No text of a schema leaves its literal.** The source of the type of a schema
without doubles, dates and moments is read with every bracket closed by the one that
belongs to it. It is made of fixed names, digits and marks, of the names of its records
in literals, and of literals of texts and bytes in the names and descriptions of
properties and in the values to choose from; and where an empty set is among these, it
has the name of sets in it. -/
theorem typeOf_literals {schema : Value} (hexact : IsExact schema) {name : String}
    {type : TypeExpr} (htype : typeOf schema name = .ok type) (required : Bool) :
    ∃ tokens, tokensOf (annotated ⟨required, .null⟩ type.source) = some tokens ∧
      (phrasesOf tokens).isSome ∧
      ∀ a, Token.atom a ∈ tokens → MayStand schema tokens a := by
  have hread := readsAs_annotated ⟨required, .null⟩ (readsAs_type type)
  refine ⟨_, hread.tokensOf_eq, by rw [phrasesOf_phraseTokens]; rfl, ?_⟩
  have hnull : StandsIn schema (valuePhrases .null) := standsIn_word (by decide)
  exact standsIn_noted (standsIn_typeOf schema hexact htype) hnull _ (List.infix_refl _)

private theorem isExact_pet : IsExact (.object petMembers) := by
  simp [petMembers, petNameMembers]

/-- The source of the type of a schema with a described property is read. -/
theorem typeOf_literals_of_pet : ∃ type, typeOf (.object petMembers) "Pet" = .ok type ∧
    ∃ tokens, tokensOf (annotated ⟨false, .null⟩ type.source) = some tokens ∧
      (phrasesOf tokens).isSome ∧
      ∀ a, Token.atom a ∈ tokens → MayStand (.object petMembers) tokens a :=
  ⟨_, by rfl, typeOf_literals isExact_pet (by rfl) false⟩

/-- A schema with an empty set and bytes to choose from. -/
def oddChoices : Members :=
  [("type", "string"), ("enum", .list [.set [], .scalar (.bytes [0xff])])]

/-- The type of that schema. -/
def oddType : TypeExpr :=
  .oneOf [.set [], .scalar (.bytes [0xff])]

private theorem isExact_odd : IsExact (.object oddChoices) := by
  simp [oddChoices]

private theorem toString_ne_set (n : Nat) : toString n ≠ "set" := by
  intro hn
  have hmem : 's' ∈ (toString n).toList := by simp [hn]
  rw [Nat.toString_eq_repr, Nat.toList_repr] at hmem
  exact absurd (Nat.isDigit_of_mem_toDigits (by decide) (by decide) hmem) (by decide)

private theorem mem_oddType : Token.atom (.word "set") ∈ phraseTokens oddType.phrases ∧
    Token.atom (.bytes [0xff]) ∈ phraseTokens oddType.phrases := by
  simp [oddType, TypeExpr.phrases, bracketed, listed, List.intercalate_cons_cons,
    valuePhrases, setPhrases, scalarPhrases, comma, word, Phrase.tokens]

/-- The type of that schema has a name in it that is none of types, and a literal
that is no text. -/
theorem typeOf_literals_of_odd : IsExact (.object oddChoices) ∧
    typeOf (.object oddChoices) "Model" = .ok oddType ∧
    ∃ tokens, tokensOf (annotated ⟨true, .null⟩ oddType.source) = some tokens ∧
      Token.atom (.word "set") ∈ tokens ∧ "set" ∉ typeWords ∧
        (∀ n : Nat, toString n ≠ "set") ∧
      Token.atom (.bytes [0xff]) ∈ tokens := by
  have hread := readsAs_annotated ⟨true, .null⟩ (readsAs_type oddType)
  exact ⟨isExact_odd, by rfl, _, hread.tokensOf_eq, mem_oddType.1, by decide,
    toString_ne_set, mem_oddType.2⟩

end ApiWorkbench.Server
