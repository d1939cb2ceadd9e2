import ApiWorkbench.Proofs.Server.Literals
import ApiWorkbench.Server.TypeExpr

/-!
# Reading the source of types

The source of a type is read as names with what stands in brackets after them. What an
entry of a record is noted with is put around the phrases of its type, as `annotated`
puts it around the source.

## Main results

* `readsAs_annotated`, `readsAs_record`: a source with a note around it, and a record.
* `readsAs_type`: the source of every type, which is read as `TypeExpr.phrases`.
-/

namespace ApiWorkbench.Server

/-- A name with something in brackets after it. -/
def bracketed (name : String) (bracket : Bracket) (content : List Phrase) :
    List Phrase :=
  [word name, .group bracket content]

@[simp] theorem bracketed_inj {name other : String} {bracket otherBracket : Bracket}
    {content others : List Phrase} :
    bracketed name bracket content = bracketed other otherBracket others ↔
      name = other ∧ bracket = otherBracket ∧ content = others := by
  simp [bracketed, word]

theorem ReadsAs.bracketed {name source : String} {phrases : List Phrase}
    (hname : IsWord name) (bracket : Bracket) (h : ReadsAs source phrases) :
    ReadsAs (name ++ (bracket.opens ++ source ++ bracket.closes))
      (Server.bracketed name bracket phrases) :=
  (ReadsAs.word hname).grouped bracket h

/-- The same where the opening bracket has been joined with the name. -/
theorem readsAs_opened {opening name source : String}
    {phrases : List Phrase} (hopening : opening = name ++ "[") (hname : IsWord name)
    (h : ReadsAs source phrases) :
    ReadsAs (opening ++ source ++ "]") (bracketed name .square phrases) := by
  subst hopening
  simpa only [String.append_assoc, Bracket.opens, Bracket.closes]
    using ReadsAs.bracketed hname .square h

/-- The phrases of what describes an entry. -/
def descriptionPhrases (description : Value) : List Phrase :=
  bracketed "Field" .round (word "description" :: equals :: valuePhrases description)

/-- The phrases of a type with a description. -/
def describedPhrases (description : Value) (type : List Phrase) : List Phrase :=
  bracketed "Annotated" .square (listed [type, descriptionPhrases description])

/-- The phrases of a type with its note around it. -/
def notedPhrases (note : Note) (type : List Phrase) : List Phrase :=
  let described :=
    if note.description.isBlank then type else describedPhrases note.description type
  if note.required then described else bracketed "NotRequired" .square described

/-- The phrases of an entry of a record. -/
def keyedPhrases (entry : Scalar × List Phrase) : List Phrase :=
  scalarPhrases entry.1 ++ colon :: entry.2

/-- The phrases of a record. -/
def recordPhrases (name : String) (entries : List (Scalar × List Phrase)) :
    List Phrase :=
  bracketed "TypedDict" .round
    (listed [[.atom (.text name)], [.group .curly (listed (entries.map keyedPhrases))]])

theorem recordPhrases_inj {name other : String}
    {entries others : List (Scalar × List Phrase)} :
    recordPhrases name entries = recordPhrases other others ↔
      name = other ∧
      listed (entries.map keyedPhrases) = listed (others.map keyedPhrases) := by
  simp [recordPhrases, listed, List.intercalate_cons_cons]

/-- A description is read as an argument that is set by its name. -/
private theorem readsAs_description (description : Value) :
    ReadsAs ("Field" ++ ("(" ++ ("description" ++ ("=" ++ description.literal)) ++ ")"))
      (descriptionPhrases description) := by
  have hname : ReadsAs "description" [word "description"] := .word (by decide)
  exact .bracketed (by decide) .round (hname.assigned (readsAs_value description))

/-- A source with a note around it is read as its phrases with the note around them. -/
theorem readsAs_annotated (note : Note) {source : String} {phrases : List Phrase}
    (h : ReadsAs source phrases) :
    ReadsAs (annotated note source) (notedPhrases note phrases) := by
  have hdescribed : ReadsAs (if note.description.isBlank then source
      else "Annotated[" ++ source ++ ", Field(description=" ++
        note.description.literal ++ ")]")
      (if note.description.isBlank then phrases else describedPhrases note.description
        phrases) := by
    split
    · exact h
    have hboth := ReadsAs.bracketed (by decide : IsWord "Annotated") .square
      (.listed (.cons h (.cons (readsAs_description note.description) .nil)))
    have hopens : "Annotated[" = "Annotated" ++ "[" := by rfl
    have hmiddle : ", Field(description=" =
        ", " ++ ("Field" ++ ("(" ++ ("description" ++ "="))) := by
      rfl
    have hcloses : ")]" = ")" ++ "]" := by rfl
    rw [String.intercalate_cons_cons, String.intercalate_singleton] at hboth
    rw [hopens, hmiddle, hcloses, describedPhrases]
    simpa only [String.append_assoc, Bracket.opens, Bracket.closes] using hboth
  by_cases hrequired : note.required = true
  · simpa only [annotated, notedPhrases, if_pos hrequired] using hdescribed
  · simp only [annotated, notedPhrases, if_neg hrequired]
    exact readsAs_opened (by rfl) (by decide) hdescribed

/-- The source of a record is read as its name and its entries. -/
theorem readsAs_keyed {entries : List (Scalar × String)}
    {types : List (Scalar × List Phrase)} (h : List.Forall₂
      (fun entry type => entry.1 = type.1 ∧ ReadsAs entry.2 type.2) entries types) :
    List.Forall₂ ReadsAs (entries.map fun (key, type) => key.literal ++ ": " ++ type)
      (types.map keyedPhrases) := by
  rw [List.forall₂_map_left_iff, List.forall₂_map_right_iff]
  refine h.imp ?_
  rintro ⟨key, source⟩ ⟨_, type⟩ ⟨rfl, htype⟩
  exact (readsAs_scalar key).keyed htype

theorem readsAs_record (name : String) {entries : List (Scalar × String)}
    {types : List (Scalar × List Phrase)} (h : List.Forall₂
      (fun entry type => entry.1 = type.1 ∧ ReadsAs entry.2 type.2) entries types) :
    ReadsAs (recordSource name entries) (recordPhrases name types) := by
  have hbody := readsAs_keyed h
  have hrecord := ReadsAs.bracketed (by decide : IsWord "TypedDict") .round
    (.listed (.cons (readsAs_textLiteral name)
      (.cons ((ReadsAs.listed hbody).group .curly) .nil)))
  have hopens : "TypedDict(" = "TypedDict" ++ "(" := by rfl
  have hmiddle : ", \x7b" = ", " ++ "\x7b" := by rfl
  have hcloses : "\x7d)" = "\x7d" ++ ")" := by rfl
  rw [String.intercalate_cons_cons, String.intercalate_singleton] at hrecord
  simp only [recordSource, recordPhrases]
  rw [hopens, hmiddle, hcloses]
  simpa only [String.append_assoc, Bracket.opens, Bracket.closes] using hrecord

/-! ## Types -/

namespace TypeExpr

mutual

/-- The phrases of a type. -/
def phrases : TypeExpr → List Phrase
  | .any => [word "Any"]
  | .none => [word "None"]
  | .text => [word "str"]
  | .integer => [word "int"]
  | .number => [word "float"]
  | .flag => [word "bool"]
  | .date => [word "date"]
  | .moment => [word "datetime"]
  | .email => [word "EmailStr"]
  | .url => [word "AnyUrl"]
  | .oneOf values => bracketed "Literal" .square (listed (values.map valuePhrases))
  | .list item => bracketed "list" .square item.phrases
  | .map value => bracketed "dict" .square (listed [[word "str"], value.phrases])
  | .union members => bracketed "Union" .square (listed (memberPhrases members))
  | .optional type => bracketed "Optional" .square type.phrases
  | .record name entries => recordPhrases name (entryPhrases entries)

/-- The phrases of several types. -/
def memberPhrases : List TypeExpr → List (List Phrase)
  | [] => []
  | type :: rest => type.phrases :: memberPhrases rest

/-- The phrases of the entries of a record, with their notes. -/
def entryPhrases : List (Scalar × Note × TypeExpr) → List (Scalar × List Phrase)
  | [] => []
  | (key, note, type) :: rest =>
      (key, notedPhrases note type.phrases) :: entryPhrases rest

end

end TypeExpr

private theorem readsAs_choices (values : List Value) :
    ReadsAs (", ".intercalate (values.map Tree.literal))
      (listed (values.map valuePhrases)) := by
  apply ReadsAs.listed
  rw [List.forall₂_map_left_iff, List.forall₂_map_right_iff, List.forall₂_same]
  exact fun v _ => readsAs_value v

mutual

/-- The source of a type is read as its phrases. -/
theorem readsAs_type : ∀ type : TypeExpr, ReadsAs type.source type.phrases
  | .any => .word (by decide)
  | .none => .word (by decide)
  | .text => .word (by decide)
  | .integer => .word (by decide)
  | .number => .word (by decide)
  | .flag => .word (by decide)
  | .date => .word (by decide)
  | .moment => .word (by decide)
  | .email => .word (by decide)
  | .url => .word (by decide)
  | .oneOf values => readsAs_opened rfl (by decide) (readsAs_choices values)
  | .list item => readsAs_opened rfl (by decide) (readsAs_type item)
  | .map value => by
      have hmap := ReadsAs.bracketed (by decide : IsWord "dict") .square
        (.listed
          (.cons (.word (by decide : IsWord "str")) (.cons (readsAs_type value) .nil)))
      have hopens : "dict[str, " = "dict" ++ ("[" ++ ("str" ++ ", ")) := by rfl
      rw [String.intercalate_cons_cons, String.intercalate_singleton] at hmap
      rw [TypeExpr.source, TypeExpr.phrases, hopens]
      simpa only [String.append_assoc, Bracket.opens, Bracket.closes] using hmap
  | .union members => readsAs_opened rfl (by decide) (.listed (readsAs_types members))
  | .optional type => readsAs_opened rfl (by decide) (readsAs_type type)
  | .record name entries => readsAs_record name (readsAs_entries entries)

theorem readsAs_types : ∀ types : List TypeExpr,
    List.Forall₂ ReadsAs (TypeExpr.sources types) (TypeExpr.memberPhrases types)
  | [] => .nil
  | type :: rest => .cons (readsAs_type type) (readsAs_types rest)

theorem readsAs_entries : ∀ entries : List (Scalar × Note × TypeExpr),
    List.Forall₂ (fun entry type => entry.1 = type.1 ∧ ReadsAs entry.2 type.2)
      (TypeExpr.entrySources entries) (TypeExpr.entryPhrases entries)
  | [] => .nil
  | (_, note, type) :: rest =>
      .cons ⟨rfl, readsAs_annotated note (readsAs_type type)⟩ (readsAs_entries rest)

end

end ApiWorkbench.Server
