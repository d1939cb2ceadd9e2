import ApiWorkbench.Proofs.Document.ShapeKept
import ApiWorkbench.Proofs.Server.SchemaTypes
import ApiWorkbench.Proofs.Server.TypeGrammar
import ApiWorkbench.Shape.Document

/-!
# The types of schemas are of the grammar

The type of a schema is looked at in the order in which it is made: texts, objects,
choices, basic types, and then the whole schema. In each case there is a type exactly if
what is written into it can be written and there are the types that it is made from, and
the type is of the grammar if these are. `IsTypable` collects what a schema itself has
to meet to have a type, `IsPrintable` what it has to meet to have one of the grammar,
and the induction over the schemas that types are made from does the rest. Both are
cases of one argument, for any `Compositional` property of types.

A schema that may list its types may list none, and then it is a union of nothing.

## Main results

* `endsWith_typeOf_object`: what one schema and the schemas that its type is made
  from have to meet.
* `isSchema_of_uses`: without references, what the type of a schema in shape is made
  from are schemas in shape.
* `succeeds_typeOf_iff`: which schemas in shape have a type.
* `typeOf_grammar`: which schemas in shape have a type of the grammar.
* `typeOf_no_types`: a schema in shape that has none.
-/

namespace ApiWorkbench.Server

open Members (valueAt)
open Document (Fits InShape)

/-- What a basic type of a schema needs of the values that are written into it. -/
structure Writes (ms : Members) (basic : Value) : Prop where
  choices : basic = .str "string" → ∀ values, valueAt "enum" ms = .list values →
    ∀ v ∈ values, v.isWritable = true
  descriptions : basic = .str "object" → ∀ props : Members, valueAt "properties" ms =
    .object props → ∀ e ∈ props, ∀ property : Members, e.2 = .object property →
    (valueAt "description" property).isWritable = true

/-- Nothing stands in the way of the type of a schema, as far as its own members go:
it asks for something, for nothing that is no name, and what is written into the type
can be written. -/
structure IsPrintable (ms : Members) : Prop where
  asks : valueAt "type" ms ≠ .list []
  named : ∀ basic, Asks ms basic → ∀ names, basic ≠ .set names
  writes : ∀ basic, Asks ms basic → Writes ms basic

/-- Nothing stands in the way of any type of a schema, as far as its own members go. -/
structure IsTypable (ms : Members) : Prop where
  named : ∀ basic, Asks ms basic → ∀ names, basic ≠ .set names
  writes : ∀ basic, Asks ms basic → Writes ms basic

theorem isPrintable_iff {ms : Members} :
    IsPrintable ms ↔ valueAt "type" ms ≠ .list [] ∧ IsTypable ms :=
  ⟨fun h => ⟨h.asks, h.named, h.writes⟩, fun ⟨hasks, h⟩ => ⟨hasks, h.named, h.writes⟩⟩

/-- What is read of a schema besides the schemas in it is of a kind that can be used. -/
structure IsFit (ms : Members) : Prop where
  format : Succeeds (valueAt "format" ms).name
  required : ∀ names, valueAt "required" ms = .list names → ∀ name ∈ names,
    Succeeds name.name
  keys : ∀ props : Members, valueAt "properties" ms = .object props → ∀ e ∈ props,
    Succeeds e.1.text
  basics : ∀ basic, Asks ms basic → Succeeds basic.name ∨ ∃ names, basic = .set names

theorem endsWith_writable {P : Value → Prop} {v : Value} :
    EndsWith P (writable v) ↔ v.isWritable = true ∧ P v := by
  unfold writable
  split
  · next h => simp [h]
  · next h => simp [h]

/-! ## Properties of types -/

/-- A property that types have if those that they are made from have it; whether a union
of nothing has it is left open. -/
structure Compositional (P : TypeExpr → Prop) (empty : Prop) : Prop where
  any : P .any
  none : P .none
  text : P .text
  integer : P .integer
  number : P .number
  flag : P .flag
  format : ∀ entry ∈ textFormats, P entry.2
  oneOf : ∀ {values}, values ≠ [] → P (.oneOf values)
  list : ∀ {item}, P (.list item) ↔ P item
  map : ∀ {value}, P (.map value) ↔ P value
  optional : ∀ {type}, P (.optional type) ↔ P type
  record : ∀ {name entries}, entries ≠ [] →
    (P (.record name entries) ↔ ∀ entry ∈ entries, P entry.2.2)
  ofMembers : ∀ {types}, types ≠ [] → (P (.ofMembers types) ↔ ∀ type ∈ types, P type)
  distinct : ∀ types, P (.ofMembers (TypeExpr.distinct types)) ↔ (types ≠ [] ∨ empty) ∧
    ∀ type ∈ types, P type

theorem compositional_isProper : Compositional TypeExpr.IsProper False where
  any := TypeExpr.isProper_any
  none := TypeExpr.isProper_none
  text := TypeExpr.isProper_text
  integer := TypeExpr.isProper_integer
  number := TypeExpr.isProper_number
  flag := TypeExpr.isProper_flag
  format := by
    have hformats : ∀ entry ∈ textFormats, ∃ name ∈ plainTypes,
        entry.2.phrases = [word name] := by
      simp [textFormats, plainTypes, TypeExpr.phrases, word]
    intro entry hentry
    obtain ⟨name, hname, hphrases⟩ := hformats entry hentry
    exact TypeExpr.isProper_of_name hname hphrases
  oneOf := TypeExpr.isProper_oneOf
  list := TypeExpr.isProper_list
  map := TypeExpr.isProper_map
  optional := TypeExpr.isProper_optional
  record hne := by rw [TypeExpr.isProper_record, and_iff_right hne]
  ofMembers hne := by rw [TypeExpr.isProper_ofMembers, and_iff_right hne]
  distinct types := by rw [TypeExpr.isProper_distinct, or_false]

/-- To be a type at all. -/
theorem compositional_true : Compositional (fun _ => True) True where
  any := trivial
  none := trivial
  text := trivial
  integer := trivial
  number := trivial
  flag := trivial
  format _ _ := trivial
  oneOf _ := trivial
  list := Iff.rfl
  map := Iff.rfl
  optional := Iff.rfl
  record _ := by simp
  ofMembers _ := by simp
  distinct _ := by simp

section

variable {P : TypeExpr → Prop} {empty : Prop} (hP : Compositional P empty)

include hP

/-! ## Texts -/

private theorem compositional_format (format : Scalar) :
    P (match textFormats.find? (fun entry => format.same entry.1) with
      | some (_, type) => type
      | none => .text : TypeExpr) := by
  split
  · next name type hfound => exact hP.format _ (List.mem_of_find?_eq_some hfound)
  · exact hP.text

theorem endsWith_textType {ms : Members}
    (hformat : Succeeds (valueAt "format" ms).name) :
    EndsWith P (textType ms) ↔
      ∀ values, valueAt "enum" ms = .list values → ∀ v ∈ values,
        v.isWritable = true := by
  unfold textType
  split
  · next v rest henum =>
    rw [endsWith_bind, henum]
    have hvalues : ∀ values, (v :: rest).mapM writable = .ok values →
        (EndsWith P (pure (.oneOf values) : Except Fault TypeExpr) ↔
          ∀ value ∈ values, True) := by
      intro values hvalues
      have hne := ne_nil_of_mapM hvalues (List.cons_ne_nil v rest)
      simpa using hP.oneOf hne
    rw [endsWith_congr hvalues, endsWith_mapM]
    simp [endsWith_writable]
  · next hother =>
    obtain ⟨format, hformat⟩ := hformat
    rw [hformat, ok_bind, pure_eq_ok, endsWith_ok]
    refine iff_of_true (compositional_format hP format) fun values hvalues v hv => ?_
    cases values with
    | nil => simp at hv
    | cons first rest => exact absurd hvalues (hother first rest)

/-! ## Objects -/

variable {ms : Members} {Good : Value → Prop}

/-- What describes a property can be written. -/
def Describable (ms : Members) : Prop :=
  ∀ props : Members, valueAt "properties" ms = .object props →
    ∀ e ∈ props, ∀ property : Members, e.2 = .object property →
    (valueAt "description" property).isWritable = true

omit hP in
theorem succeeds_describedBy {v : Value} : Succeeds (describedBy v) ↔
    ∀ property : Members, v = .object property →
      (valueAt "description" property).isWritable = true := by
  cases v with
  | marked mark property =>
      rw [describedBy, ← endsWith_true, endsWith_writable]
      simp
  | _ => simp [describedBy, Succeeds]

omit hP in
theorem succeeds_requiredNames (hfit : IsFit ms) : Succeeds (requiredNames ms) := by
  unfold requiredNames
  split
  · next names hnames => exact mapM_succeeds_iff.mpr (hfit.required names hnames)
  · exact succeeds_ok []

omit hP in
theorem endsWith_propertyType {Q : Scalar × Value × TypeExpr → Prop} {name : String}
    {k : Scalar} {v : Value} {part : String} (hpart : k.text = .ok part) :
    EndsWith Q (propertyType name (k, v)) ↔
      EndsWith (fun type => Q (k, v, type)) (typeOf v (typeName [name, part])) := by
  rw [propertyType, hpart, ok_bind, endsWith_bind]
  simp only [pure_eq_ok, endsWith_ok]

/-- The entry of a record for a property. -/
def propertyEntry (required : List Scalar) :
    Scalar × Value × TypeExpr → Except Fault (Scalar × Note × TypeExpr)
  | (key, property, type) => do
      pure (key, ⟨required.any key.same, ← describedBy property⟩, type)

omit hP in
theorem endsWith_propertyEntry (required : List Scalar)
    (property : Scalar × Value × TypeExpr) :
    EndsWith (fun entry => P entry.2.2) (propertyEntry required property) ↔
      Succeeds (describedBy property.2.1) ∧ P property.2.2 := by
  rw [propertyEntry, endsWith_bind]
  simp only [pure_eq_ok, endsWith_ok]
  refine ⟨fun h => ⟨h.succeeds, h.choose_spec.2⟩, ?_⟩
  rintro ⟨⟨description, h⟩, htype⟩
  exact ⟨description, h, htype⟩

theorem endsWith_objectType (hfit : IsFit ms)
    (hgood : ∀ w, UsesFor ms "object" w → ∀ name, EndsWith P (typeOf w name) ↔ Good w)
    (name : String) :
    EndsWith P (objectType ms (partsOf ms) name) ↔
      Describable ms ∧ ∀ w, UsesFor ms "object" w → Good w := by
  unfold objectType
  split
  · next e rest hprops =>
    obtain ⟨required, hrequired⟩ := succeeds_requiredNames hfit
    have hentries : ∀ found, (e :: rest).mapM (propertyType name) = .ok found →
        (EndsWith P (do pure (.record name (← found.mapM (propertyEntry required)))) ↔
          ∀ property ∈ found, Succeeds (describedBy property.2.1) ∧
            P property.2.2) := by
      intro found hfound
      have hrecord : ∀ entries, found.mapM (propertyEntry required) = .ok entries →
          (P (.record name entries) ↔ ∀ entry ∈ entries, P entry.2.2) := by
        intro entries hentries
        exact hP.record
          (ne_nil_of_mapM hentries (ne_nil_of_mapM hfound (List.cons_ne_nil e rest)))
      rw [endsWith_bind]
      simp only [pure_eq_ok, endsWith_ok]
      rw [endsWith_congr hrecord, endsWith_mapM]
      exact forall₂_congr fun property _ => endsWith_propertyEntry required property
    have hproperties : (partsOf ms).properties name =
        (e :: rest).mapM (propertyType name) := by
      rw [partsOf_properties, hprops]
      exact propertyTypes_eq (e :: rest) name
    rw [hrequired, ok_bind, hproperties, endsWith_bind]
    refine (endsWith_congr hentries).trans ?_
    have heach : ∀ property ∈ e :: rest, (EndsWith (fun found =>
      Succeeds (describedBy found.2.1) ∧ P found.2.2) (propertyType name property) ↔
        Succeeds (describedBy property.2) ∧ Good property.2) := by
      rintro ⟨k, v⟩ hproperty
      obtain ⟨part, hpart⟩ := hfit.keys _ hprops _ hproperty
      rw [endsWith_propertyType hpart,
        ← hgood v ((usesFor_object_of_properties hprops).mpr ⟨k, hproperty⟩)
          (typeName [name, part])]
      simp only [EndsWith, and_left_comm, exists_and_left]
    rw [endsWith_mapM, forall₂_congr heach]
    have hdescribable : Describable ms ↔ ∀ property ∈ e :: rest,
        Succeeds (describedBy property.2) := by
      refine ⟨fun h property hproperty => succeeds_describedBy.mpr
        (h _ hprops property hproperty), fun h props hother => ?_⟩
      obtain rfl : e :: rest = props := by simpa [hprops] using hother
      exact fun property hproperty => succeeds_describedBy.mp (h property hproperty)
    rw [hdescribable]
    simp only [usesFor_object_of_properties hprops, forall_exists_index]
    exact ⟨fun h =>
      ⟨fun property hproperty => (h property hproperty).1, fun w k hk => (h _ hk).2⟩,
      fun h property hproperty => ⟨h.1 property hproperty, h.2 _ property.1 hproperty⟩⟩
  · next hother =>
    have hnone : ∀ e rest, valueAt "properties" ms ≠
        .object (e :: rest) := fun e rest h => hother e rest h
    have hdescribable : Describable ms := by
      intro props hprops e he
      cases props with
      | nil => simp at he
      | cons e rest => exact absurd hprops (hnone e rest)
    rw [endsWith_bind]
    simp only [pure_eq_ok, endsWith_ok, hP.map, hdescribable, true_and,
      usesFor_object_of_none hnone, forall_eq]
    exact hgood _ (.value hnone) _

/-! ## Choices -/

omit hP in
theorem endsWith_choiceTypes {xs : List Value}
    (hgood : ∀ w ∈ xs, ∀ name, EndsWith P (typeOf w name) ↔ Good w) (name : String)
    (number : Nat) :
    EndsWith (fun types => ∀ type ∈ types, P type) (choiceTypes xs name number) ↔
      ∀ w ∈ xs, Good w := by
  rw [choiceTypes_eq, endsWith_mapM]
  have heach : ∀ x ∈ xs.zipIdx number,
      (EndsWith P (typeOf x.1 (name ++ "Option" ++ toString x.2)) ↔ Good x.1) :=
    fun x hx => hgood x.1 (List.fst_mem_of_mem_zipIdx hx) _
  rw [forall₂_congr heach]
  have hfst : (xs.zipIdx number).map Prod.fst = xs := List.zipIdx_map_fst number xs
  constructor
  · intro h w hw
    rw [← hfst] at hw
    obtain ⟨x, hx, rfl⟩ := List.mem_map.mp hw
    exact h x hx
  · exact fun h x hx => h x.1 (List.fst_mem_of_mem_zipIdx hx)

theorem endsWith_choiceType
    (hgood : ∀ w ∈ branches ms, ∀ name, EndsWith P (typeOf w name) ↔ Good w)
    (name : String) :
    EndsWith P (choiceType (partsOf ms) name ["anyOf", "oneOf"]) ↔
      ∀ w ∈ branches ms, Good w := by
  rw [choiceType_eq]
  cases hbranches : branches ms with
  | nil => simp [hP.any]
  | cons x xs =>
      rw [hbranches] at hgood
      rw [endsWith_map, ← endsWith_choiceTypes hgood name 1]
      refine endsWith_congr fun types htypes => hP.ofMembers ?_
      rw [choiceTypes_eq] at htypes
      exact ne_nil_of_mapM htypes (by simp)

/-! ## Basic types -/

/-- A basic type has a type if it is a name, what is written into it can be written, and
the schemas that it is made from have types. -/
theorem endsWith_basicType (hfit : IsFit ms) {basic : Value} (hbasic : Asks ms basic)
    (hgood : ∀ w, UsesFor ms basic w → ∀ name, EndsWith P (typeOf w name) ↔ Good w)
    (name : String) :
    EndsWith P (basicType ms (partsOf ms) basic name) ↔
      (∀ names, basic ≠ .set names) ∧ Writes ms basic ∧ ∀ w, UsesFor ms basic w →
        Good w := by
  rcases hfit.basics basic hbasic with ⟨k, hk⟩ | ⟨names, rfl⟩
  swap
  · refine iff_of_false ?_ fun h => h.1 names rfl
    have hname : (Tree.set names : Value).name = .error .notAName := rfl
    rw [basicType, hname, error_bind]
    exact not_endsWith_error
  have hnoset : ∀ names, basic ≠ .set names := by
    rintro names rfl
    contradiction
  rw [and_iff_right hnoset]
  by_cases hother : ∀ name ∈ basicNames, basic ≠ .str name
  · have hwrites : Writes ms basic := ⟨fun h => absurd h (hother "string" (by decide)),
      fun h => absurd h (hother "object" (by decide))⟩
    rw [basicType_other hother hk, and_iff_right hwrites]
    simp only [usesFor_other hother] at hgood ⊢
    exact endsWith_choiceType hP hgood name
  obtain ⟨known, hknown, rfl⟩ : ∃ known ∈ basicNames, basic = .str known := by
    simpa only [not_forall, exists_prop, ne_eq, not_not] using hother
  have hleaf : known ∈ ["string", "integer", "number", "boolean"] →
      ∀ w, UsesFor ms (.str known) w → Good w :=
    fun h w hw => absurd hw (not_usesFor_leaf h)
  simp only [basicNames, List.mem_cons, List.not_mem_nil, or_false] at hknown
  rcases hknown with rfl | rfl | rfl | rfl | rfl | rfl
  · rw [basicType_string, endsWith_textType hP hfit.format,
      and_iff_left (hleaf (by simp))]
    exact ⟨fun h => ⟨fun _ => h, by simp⟩, fun h => h.choices rfl⟩
  · rw [basicType_integer]
    exact iff_of_true (by simpa using hP.integer) ⟨⟨by simp, by simp⟩, hleaf (by simp)⟩
  · rw [basicType_number]
    exact iff_of_true (by simpa using hP.number) ⟨⟨by simp, by simp⟩, hleaf (by simp)⟩
  · rw [basicType_boolean]
    exact iff_of_true (by simpa using hP.flag) ⟨⟨by simp, by simp⟩, hleaf (by simp)⟩
  · have hwrites : Writes ms "array" := ⟨by simp, by simp⟩
    rw [basicType_array, endsWith_map, and_iff_right hwrites]
    simp only [hP.list, usesFor_array, forall_eq]
    exact hgood _ .item _
  · rw [basicType_object, endsWith_objectType hP hfit hgood]
    refine and_congr_left fun _ =>
      ⟨fun h => ⟨by simp, fun _ => h⟩, fun h => h.descriptions rfl⟩

/-! ## Schemas -/

/-- Whether null is allowed makes no difference. -/
private theorem compositional_orNull {type : TypeExpr} :
    P (orNull ms type) ↔ P type := by
  unfold orNull
  split
  · split
    · rfl
    · exact hP.optional
  · rfl

private theorem endsWith_listedType {basics : List Value} {Q : Value → Prop}
    (name : String) (hbasics : ∀ basic ∈ basics, basic.isText "null" = false →
      (EndsWith P (basicType ms (partsOf ms) basic name) ↔ Q basic)) :
    EndsWith P (listedType ms (partsOf ms) basics name) ↔
      (basics ≠ [] ∨ empty) ∧
        ∀ basic ∈ basics, basic.isText "null" = false → Q basic := by
  rw [listedType, endsWith_bind]
  simp only [pure_eq_ok, endsWith_ok, hP.distinct]
  by_cases hne : basics = []
  · subst hne
    simp
  rw [and_iff_right (.inl hne)]
  refine (endsWith_congr fun types htypes =>
    and_iff_right (.inl (ne_nil_of_mapM htypes hne))).trans ?_
  rw [endsWith_mapM]
  refine forall₂_congr fun basic hbasic => ?_
  by_cases hnull : basic.isText "null" = true
  · simp [hnull, hP.none]
  · have hother := Bool.eq_false_iff.mpr hnull
    rw [if_neg hnull, hbasics basic hbasic hother]
    simp [hother]

/-- A schema has a type if nothing stands in its way and the schemas that it is made
from have types. -/
theorem endsWith_typeOf_object (hfit : IsFit ms)
    (hgood : ∀ w, Uses (.object ms) w → ∀ name, EndsWith P (typeOf w name) ↔ Good w)
    (name : String) :
    EndsWith P (typeOf (.object ms) name) ↔
      ((valueAt "type" ms ≠ .list [] ∨ empty) ∧ IsTypable ms) ∧ ∀ w,
        Uses (.object ms) w → Good w := by
  have hbasic : ∀ basic, Asks ms basic →
      (EndsWith P (basicType ms (partsOf ms) basic name) ↔
      (∀ names, basic ≠ .set names) ∧ Writes ms basic ∧ ∀ w, UsesFor ms basic w →
        Good w) :=
    fun basic hasks =>
      endsWith_basicType hP hfit hasks (fun w hw => hgood w ⟨basic, hasks, hw⟩) name
  have hall : (((valueAt "type" ms ≠ .list [] ∨ empty) ∧ IsTypable ms) ∧ ∀ w,
      Uses (.object ms) w → Good w) ↔
      (valueAt "type" ms ≠ .list [] ∨ empty) ∧ ∀ basic, Asks ms basic →
        (∀ names, basic ≠ .set names) ∧ Writes ms basic ∧ ∀ w, UsesFor ms basic w →
          Good w :=
    ⟨fun ⟨⟨hasks, hnamed, hwrites⟩, hw⟩ => ⟨hasks, fun basic hbasic =>
        ⟨hnamed basic hbasic, hwrites basic hbasic, fun w huses =>
          hw w ⟨basic, hbasic, huses⟩⟩⟩,
      fun ⟨hasks, h⟩ => ⟨⟨hasks, fun basic hbasic => (h basic hbasic).1,
        fun basic hbasic => (h basic hbasic).2.1⟩, fun w ⟨basic, hbasic, huses⟩ =>
        (h basic hbasic).2.2 w huses⟩⟩
  rw [hall, typeOf_object]
  by_cases hlist : ∃ basics, valueAt "type" ms = .list basics
  · obtain ⟨basics, htype⟩ := hlist
    simp only [asks_of_list htype] at hbasic ⊢
    rw [schemaType_of_list htype, endsWith_map]
    simp only [compositional_orNull hP]
    rw [endsWith_listedType hP name fun basic hmem hnull =>
      hbasic basic ⟨hmem, hnull⟩, htype]
    simp
  · have hnone : ∀ basics, valueAt "type" ms ≠ .list basics := fun basics h =>
      hlist ⟨basics, h⟩
    simp only [asks_of_basic hnone] at hbasic ⊢
    rw [schemaType_of_basic hnone, endsWith_map]
    simp only [compositional_orNull hP]
    rw [hbasic _ rfl, forall_eq, and_iff_right (Or.inl (hnone []))]

end

/-! ## Schemas in shape -/

section

open Shape Document

variable {ms : Members}

/-- What is in the field of a schema is accepted there. -/
private theorem accepted_under (name : String) (shape : Shape DocumentKind)
    (hfield : DocumentKind.optionalField name shape ∈ DocumentKind.schema.fields)
    (h : InShape .schema ms) :
    valueAt name ms = .null ∨ Accepts documentKinds shape (valueAt name ms) := by
  rw [valueAt]
  cases hget : Members.get? name ms with
  | none => exact .inl rfl
  | some v =>
      rcases accepts_nullable.mp ((h.fields _ hfield).value v hget) with hnull
        | haccepted
      · cases v with
        | scalar s =>
            cases s with
            | null => exact .inl rfl
            | _ => simp [Tree.isNull] at hnull
        | _ => simp [Tree.isNull] at hnull
      · exact .inr haccepted

theorem succeeds_name_scalar (s : Scalar) : Succeeds (Tree.scalar s : Value).name :=
  ⟨s, rfl⟩

private theorem succeeds_name_of_text {v : Value} (h : Accepts documentKinds .text v) :
    Succeeds v.name := by
  obtain ⟨s, rfl⟩ := scalar_of_accepts_text h
  exact succeeds_name_scalar s

private theorem succeeds_text {k : Scalar} (h : k.isWritable = true) :
    Succeeds k.text := by
  rw [Scalar.text, if_pos h]
  exact succeeds_ok _

/-- What is under `type` is a name or a set, or a list of names. -/
private theorem type_cases (h : InShape .schema ms) :
    (∃ names, valueAt "type" ms = .set names) ∨ Succeeds (valueAt "type" ms).name ∨
      ∃ basics, valueAt "type" ms = .list basics ∧ ∀ basic ∈ basics,
        Succeeds basic.name := by
  rcases accepted_under "type" (.either [("str", .text), ("list[str]", .list .text)])
    (by simp [DocumentKind.fields]) h
    with hnull | haccepted
  · rw [hnull]
    exact .inr (.inl (succeeds_name_scalar _))
  obtain ⟨choice, hchoice, haccepted⟩ := exists_of_accepts_either (by simp) haccepted
  simp only [List.mem_cons, List.not_mem_nil, or_false] at hchoice
  rcases hchoice with rfl | rfl
  · exact .inr (.inl (succeeds_name_of_text haccepted))
  cases htype : valueAt "type" ms with
  | list basics =>
      rw [htype] at haccepted
      exact .inr (.inr ⟨basics, rfl, fun basic hbasic =>
        succeeds_name_of_text (accepts_list.mp haccepted basic hbasic)⟩)
  | pair a b =>
      rw [htype] at haccepted
      obtain ⟨ha, hb⟩ := accepts_pair.mp haccepted
      obtain ⟨first, rfl⟩ := scalar_of_accepts_text ha
      obtain ⟨second, rfl⟩ := scalar_of_accepts_text hb
      exact .inr (.inl ⟨.pair first second, rfl⟩)
  | set names => exact .inl ⟨names, rfl⟩
  | scalar s => exact .inr (.inl (succeeds_name_scalar s))
  | marked mark members =>
      rw [htype] at haccepted
      simp [Accepts, check, problemsOf] at haccepted

/-- A schema in shape can be read. -/
theorem isFit_of_inShape (h : InShape .schema ms) : IsFit ms where
  format := by
    have hfield : DocumentKind.optionalField "format" .text ∈
        DocumentKind.schema.fields := by
      simp [DocumentKind.fields, DocumentKind.optionalText, DocumentKind.optionalField]
    rcases accepted_under "format" .text hfield h with hnull | haccepted
    · rw [hnull]
      exact succeeds_name_scalar _
    · exact succeeds_name_of_text haccepted
  required := by
    intro names hnames name hname
    rcases accepted_under "required" (.list .text) (by simp [DocumentKind.fields]) h
      with hnull | haccepted
    · rw [hnull] at hnames
      cases hnames
    · rw [hnames] at haccepted
      exact succeeds_name_of_text (accepts_list.mp haccepted name hname)
  keys := by
    intro props hprops e he
    rcases accepted_under "properties" (.map DocumentKind.schemaOrReference)
      (by simp [DocumentKind.fields]) h
      with hnull | haccepted
    · rw [hnull] at hprops
      cases hprops
    · rw [hprops] at haccepted
      exact succeeds_text (accepts_map.mp haccepted e he).1.isWritable
  basics := by
    intro basic hbasic
    unfold Asks at hbasic
    rcases type_cases h with ⟨names, hset⟩ | hname | ⟨basics, hlist, hnames⟩
    · rw [hset] at hbasic
      exact .inr ⟨names, hbasic⟩
    · cases htype : valueAt "type" ms with
      | list basics => exact absurd (htype ▸ hname) (by simp [Succeeds, Tree.name])
      | _ =>
          rw [htype] at hbasic hname
          obtain rfl : basic = _ := hbasic
          exact .inl hname
    · rw [hlist] at hbasic
      exact .inl (hnames basic hbasic.1)

/-! ## Schemas without references -/

/-- No object in a value has a member by which it could be a reference. -/
def NoReferences (v : Value) : Prop :=
  ∀ ms : Members, Tree.Within v (.object ms) → Members.get? "$ref" ms = none ∧
    Members.get? "ref" ms = none

theorem NoReferences.within {v w : Value} (h : NoReferences v) (hw : Tree.Within v w) :
    NoReferences w :=
  fun ms hms => h ms (hw.trans hms)

theorem noReferences_scalar (s : Scalar) : NoReferences (.scalar s) := by
  intro ms h
  simp at h

theorem noReferences_list {xs : List Value} :
    NoReferences (.list xs) ↔ ∀ x ∈ xs, NoReferences x := by
  refine ⟨fun h x hx => h.within (.item hx (.here x)), fun h ms hms => ?_⟩
  obtain ⟨x, hx, hwithin⟩ := Tree.within_list_marked.mp hms
  exact h x hx ms hwithin

theorem noReferences_object : NoReferences (.object ms) ↔
    (Members.get? "$ref" ms = none ∧ Members.get? "ref" ms = none) ∧ ∀ e ∈ ms,
      NoReferences e.2 := by
  refine ⟨fun h => ⟨h ms (.here _), fun e he => h.within (.member he (.here _))⟩,
    fun h other hother => ?_⟩
  rcases Tree.within_marked_marked.mp hother with ⟨-, rfl⟩ | ⟨e, he, hwithin⟩
  · exact h.1
  · exact h.2 e he other hwithin

theorem NoReferences.under (h : NoReferences (.object ms)) (key : String) :
    NoReferences (valueAt key ms) := by
  rcases valueAt_cases key ms with hnull | ⟨k, hmem⟩
  · rw [hnull]
    exact noReferences_scalar _
  · exact h.within (.member hmem (.here _))

/-- A value that is a schema, if it is an object at all. -/
def IsSchema (v : Value) : Prop :=
  ∀ ms : Members, v = .object ms → InShape .schema ms

private theorem not_accepts_reference (h : NoReferences (.object ms)) :
    ¬ Accepts documentKinds (.kind .reference) (.object ms) := by
  obtain ⟨href, hother⟩ := h ms (.here _)
  rw [accepts_object]
  simp [fieldProblems, fieldCheck, get?_memberChecks, documentKinds,
    DocumentKind.fields, href, hother]

theorem accepts_schema : Accepts documentKinds (.kind .schema) (.object ms) ↔
    InShape .schema ms :=
  accepts_kind (isPlain (by decide) (by decide) (by decide) (by decide))

/-- What may be a reference and is none is what it should be. -/
theorem fits_of_orReference {label : String} {shape : Shape DocumentKind} {w : Value}
    (h : Fits (DocumentKind.orReference label shape) w) (hrefs : NoReferences w) :
    Fits shape w := by
  obtain ⟨choice, hchoice, haccepted⟩ := exists_of_accepts_either (by simp) h
  simp only [List.mem_cons, List.not_mem_nil, or_false] at hchoice
  rcases hchoice with rfl | rfl
  · obtain ⟨ms, rfl⟩ := object_of_accepts_kind haccepted
    exact absurd haccepted (not_accepts_reference hrefs)
  · exact haccepted

theorem isSchema_of_accepted {w : Value} (h : Fits DocumentKind.schemaOrReference w)
    (hrefs : NoReferences w) :
    IsSchema w := by
  rintro ms rfl
  exact accepts_schema.mp (fits_of_orReference h hrefs)

private theorem isSchema_of_flagOr {w : Value}
    (h : Accepts documentKinds
      (.either [("bool", .flag), ("Reference", .kind .reference),
        ("Schema", .kind .schema)]) w)
    (hrefs : NoReferences w) : IsSchema w := by
  rintro ms rfl
  obtain ⟨choice, hchoice, haccepted⟩ := exists_of_accepts_either (by simp) h
  simp only [List.mem_cons, List.not_mem_nil, or_false] at hchoice
  rcases hchoice with rfl | rfl | rfl
  · simp [Accepts, check, problemsOf, toFlag, Validated.fail, Validated.problems]
      at haccepted
  · exact absurd haccepted (not_accepts_reference hrefs)
  · exact accepts_schema.mp haccepted

/-- What the type of a schema is made from are schemas, too. -/
theorem isSchema_of_uses {w : Value} (h : InShape .schema ms)
    (hrefs : NoReferences (.object ms)) (huses : Uses (.object ms) w) :
    IsSchema w ∧ NoReferences w := by
  have hnull : IsSchema .null := fun ms hms => nomatch hms
  obtain ⟨basic, -, huses⟩ := huses
  cases huses with
  | item =>
      refine ⟨?_, hrefs.under "items"⟩
      rcases accepted_under "items" DocumentKind.schemaOrReference
        (by simp [DocumentKind.fields]) h
        with hitems | haccepted
      · exact hitems ▸ hnull
      · exact isSchema_of_accepted haccepted (hrefs.under "items")
  | value hnone =>
      refine ⟨?_, hrefs.under "additionalProperties"⟩
      rcases accepted_under "additionalProperties"
        (.either [("bool", .flag), ("Reference", .kind .reference),
          ("Schema", .kind .schema)])
        (by simp [DocumentKind.fields]) h with hnone | haccepted
      · exact hnone ▸ hnull
      · exact isSchema_of_flagOr haccepted (hrefs.under "additionalProperties")
  | @property props k v hprops hmem =>
      have hwithin := hrefs.under "properties"
      rw [hprops] at hwithin
      have hw := hwithin.within (.member hmem (.here _))
      refine ⟨?_, hw⟩
      rcases accepted_under "properties" (.map DocumentKind.schemaOrReference)
        (by simp [DocumentKind.fields]) h
        with hnone | haccepted
      · rw [hnone] at hprops
        cases hprops
      · rw [hprops] at haccepted
        exact isSchema_of_accepted (accepts_map.mp haccepted _ hmem).2 hw
  | branch _ hmem =>
      rcases branches_cases ms with hnone | ⟨key, hkey, hlist⟩
      · simp [hnone] at hmem
      have hw := hrefs.under key
      rw [hlist] at hw
      have hw := hw.within (.item hmem (.here _))
      refine ⟨?_, hw⟩
      have hfield : DocumentKind.optionalField key
          (.list DocumentKind.schemaOrReference) ∈ DocumentKind.schema.fields := by
        simp only [List.mem_cons, List.not_mem_nil, or_false] at hkey
        rcases hkey with rfl | rfl <;> simp [DocumentKind.fields]
      rcases accepted_under key (.list DocumentKind.schemaOrReference) hfield h
        with hnone | haccepted
      · rw [hnone] at hlist
        cases hlist
      · rw [hlist] at haccepted
        exact isSchema_of_accepted (accepts_list.mp haccepted w hmem) hw

end

/-! ## The grammar of the types of schemas -/

/-- A schema has a type exactly if nothing stands in the way of a schema that
it is made from. -/
theorem endsWith_typeOf_iff {P : TypeExpr → Prop} {empty : Prop}
    (hP : Compositional P empty) {v : Value} (h : IsSchema v) (hrefs : NoReferences v)
    (name : String) :
    EndsWith P (typeOf v name) ↔
      ∀ ms, Reaches v (.object ms) → (valueAt "type" ms ≠ .list [] ∨ empty) ∧
        IsTypable ms := by
  induction v using uses_induction generalizing name with
  | step v ih =>
    by_cases hobject : ∃ ms : Members, v = .object ms
    · obtain ⟨ms, rfl⟩ := hobject
      have hms := h ms rfl
      rw [endsWith_typeOf_object hP (isFit_of_inShape hms) fun w hw name =>
        ih w hw (isSchema_of_uses hms hrefs hw).1
          (isSchema_of_uses hms hrefs hw).2 name]
      constructor
      · rintro ⟨hhere, hbelow⟩ other hother
        rcases reaches_object.mp hother with hsame | ⟨w, hw, hreaches⟩
        · obtain rfl : ms = other := by simpa using hsame
          exact hhere
        · exact hbelow w hw other hreaches
      · exact fun hall =>
          ⟨hall ms .refl, fun w hw other hreaches => hall other (.head hw hreaches)⟩
    · have hnone : ∀ ms : Members, v ≠ .object ms := fun ms hms => hobject ⟨ms, hms⟩
      rw [typeOf_of_not_object hnone, endsWith_ok]
      refine iff_of_true hP.any fun ms hreaches => ?_
      rcases reaches_object.mp hreaches with hsame | ⟨w, hw, -⟩
      · exact absurd hsame (hnone ms)
      · exact absurd hw (not_uses_of_not_object hnone w)

/-- A schema in shape has a type exactly if every schema that it is made from asks for
names only, and what is written into its type can be written. -/
theorem succeeds_typeOf_iff {v : Value} (h : IsSchema v) (hrefs : NoReferences v)
    (name : String) :
    Succeeds (typeOf v name) ↔ ∀ ms, Reaches v (.object ms) → IsTypable ms := by
  rw [← endsWith_true, endsWith_typeOf_iff compositional_true h hrefs]
  simp

/-- **The type of every schema in shape is of the grammar, as long as no schema that it
is made from lists no types at all, asks for a set as its type, or has a text in it with
an integer that cannot be written.** -/
theorem typeOf_grammar {schema : Value} (haccepted : Fits (.kind .schema) schema)
    (hrefs : NoReferences schema) (name : String) :
    (∃ type, typeOf schema name = .ok type ∧
      ∃ phrases, readSource (annotated ⟨true, .null⟩ type.source) = some phrases ∧
        IsType phrases) ↔
    ∀ ms, Reaches schema (.object ms) → IsPrintable ms := by
  have hschema : IsSchema schema := by
    rintro ms rfl
    exact accepts_schema.mp haccepted
  have hproper := endsWith_typeOf_iff compositional_isProper hschema hrefs name
  simp only [or_false, ← isPrintable_iff] at hproper
  rw [← hproper]
  refine exists_congr fun type => and_congr_right fun _ => ?_
  have hnote : annotated ⟨true, .null⟩ type.source = type.source := rfl
  rw [hnote, readSource_of_readsAs (readsAs_type type)]
  simp [TypeExpr.IsProper]

/-- A schema of a described text. -/
def petNameMembers : Members :=
  [("type", "string"), ("description", "the pet's \"name\"")]

/-- A schema with such a property. -/
def petMembers : Members :=
  [("type", "object"), ("required", .list ["name"]),
    ("properties", Value.object [("name", Value.object petNameMembers)])]

private theorem reached_of_pet {ms : Members}
    (h : Reaches (.object petMembers) (.object ms)) :
    ms = petMembers ∨ ms = petNameMembers := by
  rcases reaches_object.mp h with hsame | ⟨w, ⟨basic, hbasic, huses⟩, hreaches⟩
  · exact .inl (by simpa using hsame.symm)
  obtain rfl : basic = .str "object" := hbasic
  obtain ⟨k, hmem⟩ := (usesFor_object_of_properties (by rfl)).mp huses
  obtain ⟨-, rfl⟩ : k = .str "name" ∧ w = .object petNameMembers := by simpa using hmem
  rcases reaches_object.mp hreaches with hsame | ⟨w, ⟨basic, hbasic, huses⟩, -⟩
  · exact .inr (by simpa using hsame.symm)
  · obtain rfl : basic = .str "string" := hbasic
    exact absurd huses (not_usesFor_leaf (by simp))

private theorem isPrintable_pet : IsPrintable petMembers where
  asks := nofun
  named := by
    rintro basic hbasic names rfl
    exact nomatch hbasic
  writes := by
    intro basic hbasic
    obtain rfl : basic = .str "object" := hbasic
    refine ⟨by simp, fun _ props hprops e he property hproperty => ?_⟩
    obtain rfl : [(Scalar.str "name", Value.object petNameMembers)] = props := by
      injection hprops
    obtain rfl := List.mem_singleton.mp he
    obtain rfl : petNameMembers = property := by injection hproperty
    decide

private theorem isPrintable_petName : IsPrintable petNameMembers where
  asks := nofun
  named := by
    rintro basic hbasic names rfl
    exact nomatch hbasic
  writes := by
    intro basic hbasic
    obtain rfl : basic = .str "string" := hbasic
    exact ⟨fun _ values hvalues => (nomatch hvalues), by simp⟩

/-- The type of that schema is of the grammar. -/
theorem typeOf_grammar_of_pet : ∃ type, typeOf (.object petMembers) "Pet" = .ok type ∧
    ∃ phrases, readSource (annotated ⟨true, .null⟩ type.source) = some phrases ∧
      IsType phrases := by
  refine (typeOf_grammar (by decide) ?_ "Pet").mpr ?_
  · simp [petMembers, petNameMembers, noReferences_object, noReferences_list,
      noReferences_scalar, Members.get?_cons]
  · intro ms hms
    rcases reached_of_pet hms with rfl | rfl
    · exact isPrintable_pet
    · exact isPrintable_petName

/-- A schema in shape lists no types, and then it has no type of the grammar. -/
theorem typeOf_no_types : Fits (.kind .schema) (.object [("type", .list [])]) ∧
    NoReferences (.object [("type", .list [])]) ∧
    (typeOf (.object [("type", .list [])]) "Model").map TypeExpr.source =
      .ok "Union[]" ∧
    ¬ ∃ type, typeOf (.object [("type", .list [])]) "Model" = .ok type ∧
      ∃ phrases, readSource (annotated ⟨true, .null⟩ type.source) = some phrases ∧
        IsType phrases := by
  have htype : typeOf (.object [("type", .list [])]) "Model" = .ok (.union []) := by rfl
  refine ⟨by decide, ?_, by rw [htype]; rfl, ?_⟩
  · simp [noReferences_object, noReferences_list, Members.get?_cons]
  rintro ⟨type, hok, phrases, hphrases, hproper⟩
  obtain rfl : TypeExpr.union [] = type := Except.ok.inj (htype.symm.trans hok)
  have hnote : annotated ⟨true, .null⟩ (TypeExpr.union []).source =
      (TypeExpr.union []).source := rfl
  rw [hnote, readSource_of_readsAs (readsAs_type _)] at hphrases
  obtain rfl := Option.some.inj hphrases
  simpa using TypeExpr.isProper_union.mp hproper

end ApiWorkbench.Server
