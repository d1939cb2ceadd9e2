import ApiWorkbench.Proofs.Server.SourceLines
import ApiWorkbench.Proofs.Server.Tools

/-!
# Reading the descriptions of the tools

The descriptions of the tools are written as a literal that is wrapped at the width of a
page. However narrow the page is and wherever a text is broken, what is written is read
again: the pieces of a text make the text, and the entries of a list or an object are
the same on one line as on many. So the width does not matter to the proofs, and they
are about all of them.

## Main results

* `arePieces_linesLiterals`: the literals that a text is broken into are those of pieces
  that make the text.
* `isLiteralOf_literal`: a value of texts is read from its literal, wrapped in any way.
* `scaffold_toolConfigs`: the module with the descriptions of the tools says
  what they are.
-/

namespace ApiWorkbench.Server

open Wrapped (endedLines spacedWords charsLiteral nonemptyLiteral wordLiterals
  lineLiterals linesLiterals textLiterals newLine)

/-! ## Pieces of a text -/

theorem flatten_endedLines (text : List Char) : (endedLines text).flatten = text := by
  fun_induction endedLines text <;> simp_all

theorem flatten_spacedWords (line : List Char) : (spacedWords line).flatten = line := by
  fun_induction spacedWords line <;> simp_all

/-- Literals are those of pieces that make a text. -/
def ArePieces (literals : List String) (text : List Char) : Prop :=
  ∃ pieces : List (List Char), literals = pieces.map charsLiteral ∧
    pieces.flatten = text

theorem ArePieces.append {literals others : List String} {text more : List Char}
    (h : ArePieces literals text) (hothers : ArePieces others more) :
    ArePieces (literals ++ others) (text ++ more) := by
  obtain ⟨pieces, rfl, rfl⟩ := h
  obtain ⟨next, rfl, rfl⟩ := hothers
  exact ⟨pieces ++ next, List.map_append.symm, List.flatten_append⟩

theorem arePieces_single (text : List Char) : ArePieces [charsLiteral text] text :=
  ⟨[text], rfl, by simp⟩

theorem arePieces_nonemptyLiteral (text : List Char) :
    ArePieces (nonemptyLiteral text) text := by
  rw [nonemptyLiteral]
  split
  · next hempty => exact ⟨[], rfl, (List.isEmpty_iff.mp hempty).symm⟩
  · exact arePieces_single text

theorem arePieces_wordLiterals (column after : Nat) (pending : List Char)
    (words : List (List Char)) :
    ArePieces (wordLiterals column after pending words) (pending ++ words.flatten) := by
  induction words generalizing pending with
  | nil => simpa [wordLiterals] using arePieces_nonemptyLiteral pending
  | cons word rest ih =>
      rw [wordLiterals, List.flatten_cons]
      -- How much room there is does not matter, nor whether the words fit in there.
      generalize (if rest.isEmpty then after else 0) = room
      split
      · rw [← List.append_assoc]
        exact ih (pending ++ word)
      · exact (arePieces_nonemptyLiteral pending).append (ih word)

theorem arePieces_lineLiterals (column after : Nat) (line : List Char) :
    ArePieces (lineLiterals column after line) line := by
  rw [lineLiterals]
  split
  · exact arePieces_single line
  · simpa [flatten_spacedWords] using arePieces_wordLiterals column after []
      (spacedWords line)

theorem arePieces_linesLiterals (column after : Nat) (lines : List (List Char)) :
    ArePieces (linesLiterals column after lines) lines.flatten := by
  induction lines with
  | nil => exact ⟨[], rfl, rfl⟩
  | cons line rest ih => exact (arePieces_lineLiterals _ _ line).append ih

/-- Literals of texts on lines of their own are read as these texts, one
after the other. -/
theorem readsOver_pieces {depth : Nat} (column : Nat) {pieces : List (List Char)}
    (h : pieces ≠ []) :
    ReadsOver (depth + 1) ((newLine column).intercalate (pieces.map charsLiteral))
      (pieces.map fun piece => .atom (.text (String.ofList piece))) := by
  induction pieces with
  | nil => exact absurd rfl h
  | cons piece rest ih =>
      have hpiece : ReadsOver (depth + 1) (charsLiteral piece)
          [.atom (.text (String.ofList piece))] :=
        (readsAs_textLiteral _).over _
      cases rest with
      | nil => simpa using hpiece
      | cons next rest =>
          rw [List.map_cons, List.map_cons, String.intercalate_cons_cons]
          exact hpiece.apart (isGapOver_newLine column) (ih (by simp))

/-- Source is read over several lines as a literal of a value. -/
def IsLiteralOf (depth : Nat) (source : String) (v : Value) : Prop :=
  ∃ phrases, ReadsOver depth source phrases ∧ Denotes phrases v

theorem isLiteralOf_text (depth : Nat) (text : String) :
    IsLiteralOf depth (textLiteral text) (.str text) :=
  ⟨_, (readsAs_textLiteral text).over depth, denotes_text text⟩

theorem isLiteralOf_textLiterals (depth column after : Nat) (text : String) :
    IsLiteralOf (depth + 1) (textLiterals column after text) (.str text) := by
  rw [textLiterals]
  split
  · exact isLiteralOf_text _ text
  · next hempty =>
    obtain ⟨pieces, hpieces, hflatten⟩ :=
      arePieces_linesLiterals column after (endedLines text.toList)
    rw [flatten_endedLines] at hflatten
    have hne : pieces ≠ [] := by
      rintro rfl
      exact hempty (by simpa using hflatten)
    refine ⟨_, hpieces ▸ readsOver_pieces column hne, ?_⟩
    have htext := denotes_texts hne
    rwa [hflatten, String.ofList_toList] at htext

/-! ## Values -/

/-- Values of null and texts, in lists and in objects that have each name once. -/
inductive IsTextual : Value → Prop
  | null : IsTextual .null
  | text (s : String) : IsTextual (.str s)
  | list {items : List Value} : (∀ v ∈ items, IsTextual v) → IsTextual (.list items)
  | record {fields : List (String × Value)} : (fields.map (·.1)).Nodup →
      (∀ field ∈ fields, IsTextual field.2) →
      IsTextual (.record fields)

/-- Fields as the members of an object. -/
def membersOf (fields : List (String × Value)) : Members :=
  fields.map fun field => (.str field.1, field.2)

@[simp] theorem membersOf_nil : membersOf [] = [] := rfl

@[simp] theorem membersOf_cons (field : String × Value) (rest : List (String × Value)) :
    membersOf (field :: rest) = (.str field.1, field.2) :: membersOf rest := rfl

theorem record_eq (fields : List (String × Value)) :
    (.record fields : Value) = .object (membersOf fields) := rfl

theorem denotes_itemPhrases {items : List Value}
    (h : ∀ v ∈ items, Denotes (valuePhrases v) v) :
    List.Forall₂ Denotes (itemPhrases items) items := by
  induction items with
  | nil => exact .nil
  | cons v rest ih =>
      obtain ⟨hfirst, hrest⟩ := List.forall_mem_cons.mp h
      exact .cons hfirst (ih hrest)

theorem exists_memberPhrases {fields : List (String × Value)}
    (h : ∀ field ∈ fields, Denotes (valuePhrases field.2) field.2) :
    ∃ entries, memberPhrases (membersOf fields) = entries.map entryPhrases ∧
      List.Forall₂ EntryDenotes entries (membersOf fields) := by
  induction fields with
  | nil => exact ⟨[], rfl, .nil⟩
  | cons field rest ih =>
      obtain ⟨hfirst, hrest⟩ := List.forall_mem_cons.mp h
      obtain ⟨entries, hentries, hdenotes⟩ := ih hrest
      refine ⟨([.atom (.text field.1)], valuePhrases field.2) :: entries, ?_,
        .cons ⟨denotes_text field.1, hfirst⟩ hdenotes⟩
      rw [membersOf_cons, memberPhrases, hentries]
      rfl

theorem denotes_valuePhrases {v : Value} (h : IsTextual v) :
    Denotes (valuePhrases v) v := by
  induction h with
  | null => exact denotes_null
  | text s => exact denotes_text s
  | @list items _ ih => exact .list (denotes_itemPhrases ih)
  | @record fields hdistinct _ ih =>
      obtain ⟨entries, hentries, hdenotes⟩ := exists_memberPhrases ih
      rw [record_eq, valuePhrases, hentries]
      exact .object hdenotes (Members.ofEntries_fields hdistinct)

theorem isLiteralOf_line (depth : Nat) {v : Value} (h : IsTextual v) :
    IsLiteralOf depth v.literal v :=
  ⟨_, (readsAs_value v).over depth, denotes_valuePhrases h⟩

/-- A comma and the end of a line between two entries. -/
theorem isGapOver_entries {depth : Nat} (column : Nat) :
    IsGapOver (depth + 1) ("," ++ newLine column) [comma] :=
  (isGapOver_mark (c := ',') (by decide)).trans (isGapOver_newLine column)

theorem exists_itemLiterals {items : List Value} (depth column after : Nat)
    (h : ∀ v ∈ items, ∀ column after,
      IsLiteralOf (depth + 1) (Wrapped.literal column after v) v) :
    ∃ entries, ReadsOver (depth + 1) (Wrapped.itemLiterals column after items)
      (listed entries) ∧
      List.Forall₂ Denotes entries items := by
  induction items with
  | nil => exact ⟨[], ReadsAs.empty.over _, .nil⟩
  | cons v rest ih =>
      obtain ⟨hfirst, hrest⟩ := List.forall_mem_cons.mp h
      cases rest with
      | nil =>
          obtain ⟨phrases, hreads, hdenotes⟩ := hfirst column after
          exact ⟨[phrases], by rwa [listed_singleton], .cons hdenotes .nil⟩
      | cons next rest =>
          obtain ⟨phrases, hreads, hdenotes⟩ := hfirst column 1
          obtain ⟨entries, hmore, hentries⟩ := ih hrest
          refine ⟨phrases :: entries, ?_, .cons hdenotes hentries⟩
          cases hentries with
          | cons _ _ =>
              have hall := hreads.apart (isGapOver_entries column) hmore
              rw [← String.append_assoc] at hall
              rw [Wrapped.itemLiterals, listed_cons_cons]
              · exact hall
              · simp

/-- An entry over several lines is the name on one line and what is under it
after a colon. -/
theorem exists_memberLiteral {depth : Nat} (name : String) {v : Value} {value : String}
    (h : IsLiteralOf depth value v) :
    ∃ entry, ReadsOver depth (textLiteral name ++ ": " ++ value) (entryPhrases entry) ∧
      EntryDenotes entry (.str name, v) := by
  obtain ⟨phrases, hreads, hdenotes⟩ := h
  have hcolon : IsGapOver depth ": " [colon] :=
    (isGapOver_mark (c := ':') (by decide)).trans isGapOver_blank
  exact ⟨([.atom (.text name)], phrases), ((readsAs_textLiteral name).over depth).apart
    hcolon hreads, denotes_text name, hdenotes⟩

theorem exists_memberLiterals {fields : List (String × Value)}
    (depth column after : Nat) (h : ∀ field ∈ fields, ∀ column after,
      IsLiteralOf (depth + 1) (Wrapped.literal column after field.2) field.2) :
    ∃ entries, ReadsOver (depth + 1) (Wrapped.memberLiterals column after
        (membersOf fields)) (listed (entries.map entryPhrases)) ∧
      List.Forall₂ EntryDenotes entries (membersOf fields) := by
  induction fields with
  | nil => exact ⟨[], ReadsAs.empty.over _, .nil⟩
  | cons field rest ih =>
      obtain ⟨hfirst, hrest⟩ := List.forall_mem_cons.mp h
      have hentry := fun after =>
        exists_memberLiteral field.1
          (hfirst (column + (textLiteral field.1).length + 2) after)
      cases rest with
      | nil =>
          obtain ⟨entry, hreads, hdenotes⟩ := hentry after
          refine ⟨[entry], ?_, .cons hdenotes .nil⟩
          rwa [membersOf_cons, membersOf_nil, Wrapped.memberLiterals,
            List.map_singleton, listed_singleton]
      | cons next rest =>
          obtain ⟨entry, hreads, hdenotes⟩ := hentry 1
          obtain ⟨entries, hmore, hentries⟩ := ih hrest
          refine ⟨entry :: entries, ?_, .cons hdenotes hentries⟩
          cases hentries with
          | cons _ _ =>
              have hall := hreads.apart (isGapOver_entries column) hmore
              rw [← String.append_assoc] at hall
              rw [membersOf_cons, membersOf_cons, Wrapped.memberLiterals, List.map_cons,
                List.map_cons, listed_cons_cons]
              · exact hall
              · simp

/-- A value of texts, wrapped in any way, is read again. Only a text that takes several
lines needs a bracket around it. -/
theorem isLiteralOf_literal {v : Value} (h : IsTextual v) :
    ∀ depth column after, (v.isString = true → 0 < depth) →
    IsLiteralOf depth (Wrapped.literal column after v) v := by
  induction h with
  | null =>
      intro depth column after _
      rw [Wrapped.literal]
      · exact ⟨_, (ReadsAs.word (by decide)).over depth, denotes_null⟩
      · simp
  | text s =>
      intro depth column after hdepth
      rw [Wrapped.literal]
      split
      · exact isLiteralOf_text depth s
      · obtain ⟨depth, rfl⟩ :=
          Nat.exists_eq_succ_of_ne_zero (Nat.pos_iff_ne_zero.mp (hdepth rfl))
        exact isLiteralOf_textLiterals depth column after s
  | @list items hitems ih =>
      intro depth column after _
      rw [Wrapped.literal]
      split
      · exact isLiteralOf_line depth (.list hitems)
      · obtain ⟨entries, hreads, hentries⟩ :=
          exists_itemLiterals depth (column + 1) (after + 1) fun v hv column after =>
          ih v hv (depth + 1) column after fun _ => Nat.succ_pos depth
        exact ⟨_, hreads.group .square, .list hentries⟩
  | @record fields hdistinct hfields ih =>
      intro depth column after _
      rw [record_eq, Wrapped.literal]
      split
      · exact isLiteralOf_line depth (.record hdistinct hfields)
      · obtain ⟨entries, hreads, hentries⟩ := exists_memberLiterals
          depth (column + 1) (after + 1) fun field hfield column after =>
          ih field hfield (depth + 1) column after fun _ => Nat.succ_pos depth
        exact ⟨_, hreads.group .curly,
          .object hentries (Members.ofEntries_fields hdistinct)⟩

/-- The literal of an object, wrapped at the width of a page, is read as that object. -/
theorem readLiteral_wrappedLiteral {v : Value} (h : IsTextual v)
    (hv : v.isString = false) :
    readLiteral (v.wrappedLiteral ++ "\n") = some v := by
  obtain ⟨phrases, hreads, hdenotes⟩ := isLiteralOf_literal h 0 0 0
    fun htext => absurd (hv.symm.trans htext) (by decide)
  exact readLiteral_of_readsOver hreads hdenotes

/-! ## The descriptions of the tools -/

theorem isTextual_textOrNull (text : Option String) : IsTextual (textOrNull text) := by
  cases text with
  | none => exact .null
  | some s => exact .text s

theorem isTextual_config (tool : Tool) : IsTextual tool.config := by
  have hplace : ∀ place ∈ tool.placements.map fun place =>
      (.record [("name", place.name), ("in", place.location)] : Value),
        IsTextual place := by
    intro v hv
    obtain ⟨place, -, rfl⟩ := List.mem_map.mp hv
    exact .record (by decide : ["name", "in"].Nodup) (by simp [IsTextual.text])
  have hnames : ["name", "description", "method", "path_template",
      "execution_parameters", "request_body_content_type", "base_url"].Nodup := by
    decide
  refine .record hnames ?_
  simp only [List.forall_mem_cons, List.not_mem_nil, false_imp_iff,
    implies_true, and_true]
  exact ⟨.text _, .text _, .text _, .text _, .list hplace, isTextual_textOrNull _,
    isTextual_textOrNull _⟩

theorem isTextual_toolConfigs {tools : List Tool} (h : (tools.map (·.name)).Nodup) :
    IsTextual (toolConfigs tools) := by
  refine .record (by rwa [List.map_map]) fun field hfield => ?_
  obtain ⟨tool, -, rfl⟩ := List.mem_map.mp hfield
  exact isTextual_config tool

/-- What stands before the descriptions of the tools in their module. -/
def configHeading : String :=
  "\"\"\"Tool descriptors extracted from the OpenAPI document, keyed by tool name.\"\"\"\n\nTOOL_CONFIGS = "

theorem fileOfLines_configLines (tools : List Tool) :
    fileOfLines (configLines tools) =
      configHeading ++ ((toolConfigs tools).wrappedLiteral ++ "\n") := by
  have hheading : configHeading =
      "\"\"\"Tool descriptors extracted from the OpenAPI document, keyed by tool name.\"\"\"" ++
          ("\n" ++ ("" ++ ("\n" ++ "TOOL_CONFIGS = "))) := by
        rfl
  rw [fileOfLines, configLines, String.intercalate_cons_cons,
    String.intercalate_cons_cons, String.intercalate_singleton, hheading]
  simp only [String.append_assoc]

/-- **The module of the descriptions says what they are.** Where a document becomes a
server, the file with the descriptions of the tools has its heading, and after that a
literal of the object that has the description of each tool under its name, in the order
of the tools, whatever texts there are in it and however the literal is wrapped. -/
theorem scaffold_toolConfigs {options : Options} {document : Value}
    {files : List (String × String)} (h : scaffold options document = .ok files) :
    ∃ tools text, toolsOf document options.baseUrl = .ok tools ∧
      files.lookup "tools_config.py" = some (configHeading ++ text) ∧
      readLiteral text =
        some (.object (tools.map fun tool => (.str tool.name, tool.config))) := by
  obtain ⟨tools, htools, h⟩ := bind_eq_ok.mp h
  obtain rfl := Except.ok.inj h
  have htextual := isTextual_toolConfigs (wellNamed_toolsOf htools).distinct
  have hread := readLiteral_wrappedLiteral htextual rfl
  refine ⟨tools, _, htools, ?_, hread.trans ?_⟩
  · rw [← fileOfLines_configLines]
    rfl
  · rw [toolConfigs, Tree.record, List.map_map]
    rfl

/-- A text with both quotes, a backslash and ends of lines that is too long for one
line. -/
def wordyText : String :=
  "It's \"all\" the pets,\r\nwith a \\ and some \u2028 words that do not fit on one line of the page"

/-- A document with an operation that is described by that text. -/
def wordyDocument : Value :=
  .record [("paths", .record [("/a",
    .record [("get", .record [("operationId", "list"), ("summary", wordyText)])])])]

theorem scaffold_toolConfigs_of_wordy :
    ∃ files text, scaffold {} wordyDocument = .ok files ∧
      files.lookup "tools_config.py" = some (configHeading ++ text) ∧
      readLiteral text = some (.record [("list", .record [
        ("name", "list"), ("description", wordyText), ("method", "get"),
          ("path_template", "/a"),
        ("execution_parameters", .list []), ("request_body_content_type", .null),
          ("base_url", .null)])]) := by
  obtain ⟨files, h⟩ : ∃ files, scaffold {} wordyDocument = .ok files := ⟨_, rfl⟩
  obtain ⟨tools, text, htools, hfile, hread⟩ := scaffold_toolConfigs h
  obtain rfl := Except.ok.inj htools
  exact ⟨files, text, h, hfile, hread⟩

end ApiWorkbench.Server
