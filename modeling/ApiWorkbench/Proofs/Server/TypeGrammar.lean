import ApiWorkbench.Proofs.Server.TypeSource

/-!
# The grammar of types

Which phrases are a type and which are the type of an entry of a record, which may be
described and need not be required. The grammar is about source that was read, not about
`TypeExpr`: that the phrases of a type are of it has to be shown, and for each form of
type this is put down to the types in it.

Unions are the reason that not every type is of the grammar: those without
members are not.

## Main results

* `isType_union`, `isType_record`, `isField_noted`: what has to hold of the parts of
  phrases that are a type.
* `TypeExpr.isProper_distinct`, `TypeExpr.isProper_record`: the same for types.
-/

namespace ApiWorkbench.Server

/-! ## The grammar -/

/-- The types that are names only. -/
def plainTypes : List String :=
  ["Any", "str", "int", "float", "bool", "date", "datetime", "EmailStr",
    "AnyUrl", "None"]

mutual

/-- The phrases of types. -/
inductive IsType : List Phrase → Prop
  | plain {name : String} : name ∈ plainTypes → IsType [word name]
  | oneOf {values : List Value} : values ≠ [] →
      IsType (bracketed "Literal" .square (listed (values.map valuePhrases)))
  | list {item : List Phrase} : IsType item → IsType (bracketed "list" .square item)
  | map {value : List Phrase} : IsType value →
      IsType (bracketed "dict" .square (listed [[word "str"], value]))
  | union {members : List (List Phrase)} : 2 ≤ members.length →
      (∀ member ∈ members, IsType member) →
      IsType (bracketed "Union" .square (listed members))
  | optional {type : List Phrase} : IsType type →
      IsType (bracketed "Optional" .square type)
  | record {name : String} {entries : List (Scalar × List Phrase)} : entries ≠ [] →
      (∀ entry ∈ entries, IsField entry.2) → IsType (recordPhrases name entries)

/-- The phrases of types of entries, which may be described and may be optional. -/
inductive IsField : List Phrase → Prop
  | plain {type : List Phrase} : IsType type → IsField type
  | described {type : List Phrase} {description : Value} : IsType type →
      IsField (describedPhrases description type)
  | optional {type : List Phrase} : IsType type →
      IsField (bracketed "NotRequired" .square type)
  | optionalDescribed {type : List Phrase} {description : Value} : IsType type →
      IsField (bracketed "NotRequired" .square (describedPhrases description type))

end

/-- The names that types begin with. -/
def typeHeads : List String :=
  plainTypes ++ ["Literal", "list", "dict", "Union", "Optional", "TypedDict"]

/-- A type begins with its name. -/
def BeginsType (phrases : List Phrase) : Prop :=
  ∃ name ∈ typeHeads, phrases.head? = some (word name)

theorem IsType.begins {phrases : List Phrase} (h : IsType phrases) :
    BeginsType phrases := by
  cases h with
  | plain hname => exact ⟨_, List.mem_append_left _ hname, rfl⟩
  | oneOf => exact ⟨"Literal", by decide, rfl⟩
  | list => exact ⟨"list", by decide, rfl⟩
  | map => exact ⟨"dict", by decide, rfl⟩
  | union => exact ⟨"Union", by decide, rfl⟩
  | optional => exact ⟨"Optional", by decide, rfl⟩
  | record => exact ⟨"TypedDict", by decide, rfl⟩

theorem not_beginsType {name : String} (hname : name ∉ typeHeads) (bracket : Bracket)
    (content : List Phrase) :
    ¬ BeginsType (bracketed name bracket content) := by
  rintro ⟨other, hother, hhead⟩
  obtain rfl : name = other := by simpa [bracketed, word] using hhead
  exact hname hother

theorem isEntry_word (name : String) : IsEntry [word name] :=
  Unparted.isEntry (by simp) (by simp)

theorem isEntry_bracketed (name : String) (bracket : Bracket) (content : List Phrase) :
    IsEntry (bracketed name bracket content) :=
  Unparted.isEntry (by simp [bracketed]) (by simp [bracketed])

theorem IsType.isEntry {phrases : List Phrase} (h : IsType phrases) :
    IsEntry phrases := by
  cases h <;> first | exact isEntry_word _ | exact isEntry_bracketed ..

theorem IsField.isEntry {phrases : List Phrase} (h : IsField phrases) :
    IsEntry phrases := by
  cases h with
  | plain h => exact h.isEntry
  | _ => exact isEntry_bracketed ..

theorem isType_list {item : List Phrase} :
    IsType (bracketed "list" .square item) ↔ IsType item := by
  refine ⟨fun h => ?_, .list⟩
  generalize hphrases : bracketed "list" .square item = phrases at h
  cases h <;> simp_all [bracketed, word, recordPhrases]

theorem isType_optional {type : List Phrase} :
    IsType (bracketed "Optional" .square type) ↔ IsType type := by
  refine ⟨fun h => ?_, .optional⟩
  generalize hphrases : bracketed "Optional" .square type = phrases at h
  cases h <;> simp_all [bracketed, word, recordPhrases]

theorem isType_map {value : List Phrase} :
    IsType (bracketed "dict" .square (listed [[word "str"], value])) ↔
      IsType value := by
  refine ⟨fun h => ?_, .map⟩
  generalize hphrases : bracketed "dict" .square (listed [[word "str"], value]) =
    phrases at h
  cases h <;>
    simp_all [bracketed, word, recordPhrases, listed, List.intercalate_cons_cons]

theorem isType_union {members : List (List Phrase)}
    (hmembers : ∀ member ∈ members, IsEntry member) :
    IsType (bracketed "Union" .square (listed members)) ↔ 2 ≤ members.length ∧
      ∀ member ∈ members, IsType member := by
  refine ⟨fun h => ?_, fun h => .union h.1 h.2⟩
  generalize hphrases : bracketed "Union" .square (listed members) = phrases at h
  cases h with
  | @union others hlength hothers =>
      have hlisted : listed members = listed others := by
        simpa [bracketed] using hphrases
      have hsame : members = others := by
        rw [← entriesOf_listed hmembers, hlisted, entriesOf_listed fun other hother =>
          (hothers other hother).isEntry]
      exact hsame ▸ ⟨hlength, hothers⟩
  | _ => simp_all [bracketed, word, recordPhrases]

private theorem isEntry_keyed {entries : List (Scalar × List Phrase)}
    (h : ∀ entry ∈ entries, IsEntry entry.2) :
    ∀ phrases ∈ entries.map keyedPhrases, IsEntry phrases := by
  intro phrases hphrases
  obtain ⟨entry, hentry, rfl⟩ := List.mem_map.mp hphrases
  exact (h entry hentry).keyed (unparted_scalar entry.1)

/-- The types of the entries of a record can be read off. -/
private theorem types_of_entries {entries : List (Scalar × List Phrase)}
    (h : ∀ entry ∈ entries, IsEntry entry.2) :
    (entriesOf (listed (entries.map keyedPhrases))).map underKey =
      entries.map (·.2) := by
  rw [entriesOf_listed (isEntry_keyed h), List.map_map]
  exact List.map_congr_left fun entry _ =>
    underKey_append (unparted_scalar entry.1) entry.2

theorem isType_record {name : String} {entries : List (Scalar × List Phrase)}
    (hentries : ∀ entry ∈ entries, IsEntry entry.2) :
    IsType (recordPhrases name entries) ↔ entries ≠ [] ∧ ∀ entry ∈ entries,
      IsField entry.2 := by
  refine ⟨fun h => ?_, fun h => .record h.1 h.2⟩
  generalize hphrases : recordPhrases name entries = phrases at h
  cases h with
  | @record other others hne hothers =>
      have htypes : entries.map (·.2) = others.map (·.2) := by
        rw [← types_of_entries hentries, (recordPhrases_inj.mp hphrases).2,
          types_of_entries fun other hother => (hothers other hother).isEntry]
      refine ⟨?_, fun entry hentry => ?_⟩
      · rintro rfl
        exact hne (List.map_eq_nil_iff.mp htypes.symm)
      · have hmem : entry.2 ∈ others.map (·.2) := htypes ▸ List.mem_map_of_mem hentry
        obtain ⟨otherEntry, hother, hsame⟩ := List.mem_map.mp hmem
        exact hsame ▸ hothers otherEntry hother
  | _ => simp_all [bracketed, word, recordPhrases]

/-! ## Notes -/

theorem not_isType_described {description : Value} {type : List Phrase} :
    ¬ IsType (describedPhrases description type) :=
  fun h => not_beginsType (by decide) _ _ h.begins

/-- A description is around a single type. -/
theorem describedPhrases_inj {description other : Value}
    {type otherType : List Phrase} (htype : IsEntry type) (hother : IsEntry otherType)
    (h : describedPhrases description type = describedPhrases other otherType) :
    type = otherType := by
  have hentry : ∀ d : Value, IsEntry (descriptionPhrases d) := fun d =>
    isEntry_bracketed ..
  have hlisted : listed [type, descriptionPhrases description] =
      listed [otherType, descriptionPhrases other] := by
    simpa [describedPhrases, bracketed] using h
  have hsame := congrArg entriesOf hlisted
  rw [entriesOf_listed (by simpa using ⟨htype, hentry description⟩),
    entriesOf_listed (by simpa using ⟨hother, hentry other⟩)] at hsame
  exact (List.cons.inj hsame).1

theorem isField_iff {type : List Phrase} (h : BeginsType type) :
    IsField type ↔ IsType type := by
  refine ⟨fun hfield => ?_, .plain⟩
  cases hfield with
  | plain htype => exact htype
  | _ => exact absurd h (not_beginsType (by decide) _ _)

theorem isField_described {description : Value} {type : List Phrase}
    (htype : IsEntry type) :
    IsField (describedPhrases description type) ↔ IsType type := by
  refine ⟨fun hfield => ?_, .described⟩
  generalize hphrases : describedPhrases description type = phrases at hfield
  cases hfield with
  | plain h => exact absurd (hphrases ▸ h) not_isType_described
  | @described other d h => exact describedPhrases_inj htype h.isEntry hphrases ▸ h
  | _ => simp [describedPhrases, bracketed, word] at hphrases

theorem isField_optional {type : List Phrase} (h : BeginsType type) :
    IsField (bracketed "NotRequired" .square type) ↔ IsType type := by
  refine ⟨fun hfield => ?_, .optional⟩
  generalize hphrases : bracketed "NotRequired" .square type = phrases at hfield
  cases hfield with
  | plain htype =>
      exact absurd (hphrases ▸ htype.begins) (not_beginsType (by decide) _ _)
  | described => simp [describedPhrases] at hphrases
  | @optional other htype =>
      have hsame : type = other := by simpa [bracketed] using hphrases
      exact hsame ▸ htype
  | @optionalDescribed other d htype =>
      have hsame : type = describedPhrases d other := by simpa using hphrases
      exact absurd (hsame ▸ h) (not_beginsType (by decide) _ _)

theorem isField_optionalDescribed {description : Value} {type : List Phrase}
    (htype : IsEntry type) :
    IsField (bracketed "NotRequired" .square (describedPhrases description type)) ↔
      IsType type := by
  refine ⟨fun hfield => ?_, .optionalDescribed⟩
  generalize hphrases : bracketed "NotRequired" .square
    (describedPhrases description type) = phrases at hfield
  cases hfield with
  | plain h => exact absurd (hphrases ▸ h.begins) (not_beginsType (by decide) _ _)
  | described => simp [describedPhrases] at hphrases
  | @optional other h =>
      have hsame : describedPhrases description type = other := by
        simpa [bracketed] using hphrases
      exact absurd (hsame ▸ h) not_isType_described
  | @optionalDescribed other d h =>
      have hsame : describedPhrases description type = describedPhrases d other := by
        simpa [bracketed] using hphrases
      exact describedPhrases_inj htype h.isEntry hsame ▸ h

/-- A note around a type makes the type of an entry, and around nothing else. -/
theorem isField_noted (note : Note) {type : List Phrase} (hbegins : BeginsType type)
    (htype : IsEntry type) :
    IsField (notedPhrases note type) ↔ IsType type := by
  unfold notedPhrases
  by_cases hblank : note.description.isBlank = true <;>
    by_cases hrequired : note.required = true
  · simpa [hblank, hrequired] using isField_iff hbegins
  · simpa [hblank, hrequired] using isField_optional hbegins
  · simpa [hblank, hrequired] using isField_described htype
  · simpa [hblank, hrequired] using isField_optionalDescribed htype

/-! ## Types -/

namespace TypeExpr

theorem memberPhrases_eq_map (types : List TypeExpr) :
    memberPhrases types = types.map phrases := by
  induction types with
  | nil => rfl
  | cons type rest ih => rw [memberPhrases, ih, List.map_cons]

theorem entryPhrases_eq_map (entries : List (Scalar × Note × TypeExpr)) :
    entryPhrases entries = entries.map fun (key, note, type) =>
      (key, notedPhrases note type.phrases) := by
  induction entries with
  | nil => rfl
  | cons entry rest ih => rw [entryPhrases, ih, List.map_cons]

/-- The source of a type determines its phrases. -/
theorem phrases_eq_of_source_eq {type other : TypeExpr}
    (h : type.source = other.source) :
    type.phrases = other.phrases := by
  have hread := readSource_of_readsAs (readsAs_type type)
  rw [h, readSource_of_readsAs (readsAs_type other)] at hread
  exact (Option.some.inj hread).symm

theorem beginsType (type : TypeExpr) : BeginsType type.phrases := by
  cases type <;>
    simp [BeginsType, phrases, typeHeads, plainTypes, bracketed, recordPhrases, word]

theorem isEntry (type : TypeExpr) : IsEntry type.phrases := by
  cases type <;> rw [phrases] <;>
    first | exact isEntry_word _ | exact isEntry_bracketed ..

/-- A type whose phrases are of the grammar. -/
def IsProper (type : TypeExpr) : Prop :=
  IsType type.phrases

theorem isProper_of_name {type : TypeExpr} {name : String} (hname : name ∈ plainTypes)
    (h : type.phrases = [word name]) : type.IsProper := by
  rw [IsProper, h]
  exact .plain hname

theorem isProper_any : any.IsProper :=
  isProper_of_name (by decide : "Any" ∈ plainTypes) (by rw [phrases])

theorem isProper_none : none.IsProper :=
  isProper_of_name (by decide : "None" ∈ plainTypes) (by rw [phrases])

theorem isProper_text : text.IsProper :=
  isProper_of_name (by decide : "str" ∈ plainTypes) (by rw [phrases])

theorem isProper_integer : integer.IsProper :=
  isProper_of_name (by decide : "int" ∈ plainTypes) (by rw [phrases])

theorem isProper_number : number.IsProper :=
  isProper_of_name (by decide : "float" ∈ plainTypes) (by rw [phrases])

theorem isProper_flag : flag.IsProper :=
  isProper_of_name (by decide : "bool" ∈ plainTypes) (by rw [phrases])

theorem isProper_oneOf {values : List Value} (h : values ≠ []) :
    (oneOf values).IsProper := by
  rw [IsProper, phrases]
  exact .oneOf h

theorem isProper_list {item : TypeExpr} : (list item).IsProper ↔ item.IsProper := by
  rw [IsProper, phrases, isType_list, IsProper]

theorem isProper_map {value : TypeExpr} : (map value).IsProper ↔ value.IsProper := by
  rw [IsProper, phrases, isType_map, IsProper]

theorem isProper_optional {type : TypeExpr} :
    (optional type).IsProper ↔ type.IsProper := by
  rw [IsProper, phrases, isType_optional, IsProper]

theorem isProper_union {members : List TypeExpr} :
    (union members).IsProper ↔ 2 ≤ members.length ∧ ∀ type ∈ members,
      type.IsProper := by
  rw [IsProper, phrases, memberPhrases_eq_map,
    isType_union (by simpa using fun type _ => type.isEntry)]
  simp [IsProper]

/-- A union is of the grammar if it has a member, and each of them is; one with a single
member is that member. -/
theorem isProper_ofMembers (types : List TypeExpr) :
    (ofMembers types).IsProper ↔ types ≠ [] ∧ ∀ type ∈ types, type.IsProper := by
  match types with
  | [] => simp [ofMembers, isProper_union]
  | [type] => simp [ofMembers]
  | first :: second :: rest => simp [ofMembers, isProper_union]

/-- What holds of types by their sources holds of those that are kept exactly if
it holds of all. -/
private theorem forall_mem_keep {P : TypeExpr → Prop}
    (hP : ∀ type other, type.source = other.source → P type → P other)
    (kept types : List TypeExpr) :
    (∀ type ∈ types.foldl (fun kept type =>
      if kept.any (·.source == type.source) then kept else kept ++ [type]) kept,
      P type) ↔ (∀ type ∈ kept, P type) ∧ ∀ type ∈ types, P type := by
  induction types generalizing kept with
  | nil => simp
  | cons type rest ih =>
      rw [List.foldl_cons, ih, List.forall_mem_cons]
      split
      · next hkept =>
        obtain ⟨other, hother, hsource⟩ := List.any_eq_true.mp hkept
        exact ⟨fun h => ⟨h.1, hP other type (eq_of_beq hsource) (h.1 other hother),
          h.2⟩, fun h => ⟨h.1, h.2.2⟩⟩
      · simp only [List.mem_append, List.mem_singleton, or_imp, forall_and,
          forall_eq, and_assoc]

private theorem keep_ne_nil (kept types : List TypeExpr) :
    types.foldl (fun kept type =>
      if kept.any (·.source == type.source) then kept else kept ++ [type]) kept ≠ [] ↔
      kept ≠ [] ∨ types ≠ [] := by
  induction types generalizing kept with
  | nil => simp
  | cons type rest ih =>
      rw [List.foldl_cons, ih]
      split
      · next hkept =>
        obtain ⟨other, hother, -⟩ := List.any_eq_true.mp hkept
        simp [List.ne_nil_of_mem hother]
      · simp

/-- What holds of types by their phrases holds of all exactly if it does when those that
are written like earlier ones are left out. -/
theorem forall_mem_distinct {P : List Phrase → Prop} {types : List TypeExpr} :
    (∀ type ∈ distinct types, P type.phrases) ↔ ∀ type ∈ types, P type.phrases := by
  have hsource : ∀ type other : TypeExpr, type.source = other.source → P type.phrases →
      P other.phrases :=
    fun type other h htype => phrases_eq_of_source_eq h ▸ htype
  rw [distinct, forall_mem_keep hsource]
  simp

theorem distinct_ne_nil {types : List TypeExpr} : distinct types ≠ [] ↔ types ≠ [] := by
  rw [distinct, keep_ne_nil]
  simp

/-- Types that are written like earlier ones make no difference. -/
theorem isProper_distinct (types : List TypeExpr) :
    (ofMembers (distinct types)).IsProper ↔ types ≠ [] ∧ ∀ type ∈ types,
      type.IsProper := by
  rw [isProper_ofMembers, distinct_ne_nil]
  exact and_congr_right fun _ => forall_mem_distinct

theorem isEntry_noted (note : Note) (type : TypeExpr) :
    IsEntry (notedPhrases note type.phrases) := by
  have hdescribed : IsEntry (if note.description.isBlank then type.phrases
      else describedPhrases note.description type.phrases) := by
    split
    · exact type.isEntry
    · exact isEntry_bracketed ..
  by_cases hrequired : note.required = true
  · simpa only [notedPhrases, if_pos hrequired] using hdescribed
  · simpa only [notedPhrases, if_neg hrequired] using isEntry_bracketed ..

/-- A record is of the grammar if the types of its entries are. -/
theorem isProper_record {name : String} {entries : List (Scalar × Note × TypeExpr)} :
    (record name entries).IsProper ↔ entries ≠ [] ∧ ∀ entry ∈ entries,
      entry.2.2.IsProper := by
  have hentries : ∀ entry ∈ entries.map fun (key, note, type) =>
    (key, notedPhrases note type.phrases), IsEntry entry.2 := by
    rw [List.forall_mem_map]
    exact fun entry _ => isEntry_noted entry.2.1 entry.2.2
  rw [IsProper, phrases, entryPhrases_eq_map, isType_record hentries]
  simp only [List.map_eq_nil_iff, ne_eq, List.forall_mem_map]
  refine and_congr_right fun _ => forall₂_congr fun entry _ => ?_
  exact isField_noted entry.2.1 entry.2.2.beginsType entry.2.2.isEntry

end TypeExpr

end ApiWorkbench.Server
