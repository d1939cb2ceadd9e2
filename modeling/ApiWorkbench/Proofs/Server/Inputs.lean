import ApiWorkbench.Proofs.Server.Handlers
import ApiWorkbench.Proofs.Server.Repeats
import ApiWorkbench.Proofs.Server.Tools
import ApiWorkbench.Proofs.Server.TypeGrammar

/-!
# The inputs of a tool

The inputs of a tool are seen in several places: in the list of its inputs, in the list
of where they go in a request, in the type of all inputs, and in the function for the
tool, which has an argument for each of them and passes it on. These are made one by
one, with repeated names left out in some, required inputs first in others, and
arguments called differently where a name is no good for one.

The type and the line that passes the inputs on are source. What they say is read from
them: `readRecord` reads the names of a record and which of them have to be there,
`readPassing` reads what is passed on under which name.

## Main results

* `toolOf_inputsAgree`: the inputs of a tool are what goes to its places, and the body
  of the request.
* `readRecord_inputType`, `readPassing_handlerLines`: the source says what the inputs
  of the tool are.
* `toolsOf_inputs`: all places agree, for every tool of a document.
-/

namespace ApiWorkbench.Server

open Document (Method)
open Members (valueAt)

/-! ## Inputs and places -/

/-- The inputs of a tool are what goes to its places, and the body of the request, and
each is there once. -/
structure InputsAgree (tool : Tool) : Prop where
  distinct : (tool.inputs.map (·.name)).Nodup
  placed : ∀ place ∈ tool.placements, place.name ∈ tool.inputs.map (·.name)
  known : ∀ input ∈ tool.inputs, input.name = bodyInputName ∨
    input.name ∈ tool.placements.map (·.name)

theorem parameterInput_name {tool name : String} {parameter : Members} {input : Input}
    (h : parameterInput tool name parameter = .ok input) : input.name = name := by
  obtain ⟨type, -, h⟩ := bind_eq_ok.mp h
  obtain ⟨description, -, h⟩ := bind_eq_ok.mp h
  obtain rfl := Except.ok.inj h
  rfl

/-- The inputs for parameters have the names of the parameters that were not
seen, each once. -/
theorem parameterInputs_names {tool : String}
    {parameters : List (String × Members)} {seen : List String} {inputs : List Input}
    (h : parameterInputs tool seen parameters = .ok inputs) :
    (inputs.map (·.name)).Nodup ∧
      ∀ name, name ∈ inputs.map (·.name) ↔
        name ∈ parameters.map (·.1) ∧ name ∉ seen := by
  induction parameters generalizing seen inputs with
  | nil =>
      obtain rfl := Except.ok.inj h
      simp
  | cons entry rest ih =>
      obtain ⟨name, parameter⟩ := entry
      rw [parameterInputs] at h
      split at h
      · next hcontains =>
        have hseen : name ∈ seen := List.contains_iff_mem.mp hcontains
        obtain ⟨hdistinct, hnames⟩ := ih h
        refine ⟨hdistinct, fun other => ?_⟩
        rw [hnames, List.map_cons, List.mem_cons]
        refine and_congr_left fun hother => (or_iff_right ?_).symm
        rintro rfl
        exact hother hseen
      · next hcontains =>
        have hseen : name ∉ seen := fun hmem =>
          hcontains (List.contains_iff_mem.mpr hmem)
        obtain ⟨input, hinput, h⟩ := bind_eq_ok.mp h
        obtain ⟨others, hothers, h⟩ := bind_eq_ok.mp h
        obtain rfl := Except.ok.inj h
        obtain ⟨hdistinct, hnames⟩ := ih hothers
        have hname : input.name = name := parameterInput_name hinput
        have hnew : name ∉ others.map (·.name) := fun hmem =>
          ((hnames name).mp hmem).2 List.mem_cons_self
        refine ⟨?_, fun other => ?_⟩
        · rw [List.map_cons, hname]
          exact List.nodup_cons.mpr ⟨hnew, hdistinct⟩
        · rw [List.map_cons, hname, List.mem_cons, hnames, List.map_cons, List.mem_cons,
            List.mem_cons]
          by_cases hother : other = name
          · simp [hother, hseen]
          · simp [hother]

theorem bodyInput_name {tool : String} {body : Value} {input : Input}
    (h : bodyInput tool body = .ok (some input)) :
    input.name = bodyInputName := by
  unfold bodyInput at h
  split at h
  · split at h
    · obtain ⟨type, -, h⟩ := bind_eq_ok.mp h
      obtain ⟨description, -, h⟩ := bind_eq_ok.mp h
      obtain rfl := Option.some.inj (Except.ok.inj h)
      rfl
    · exact nomatch h
  · exact nomatch h

/-- The inputs of a tool have the names of its parameters, and that of the request body
at most besides. -/
theorem toolInputs_names {tool : String}
    {parameters : List (String × Members)} {body : Value} {inputs : List Input}
    (h : toolInputs tool parameters body = .ok inputs) :
    (inputs.map (·.name)).Nodup ∧
      (∀ parameter ∈ parameters, parameter.1 ∈ inputs.map (·.name)) ∧
      ∀ input ∈ inputs, input.name = bodyInputName ∨
        input.name ∈ parameters.map (·.1) := by
  obtain ⟨own, hown, h⟩ := bind_eq_ok.mp h
  obtain ⟨hdistinct, hnames⟩ := parameterInputs_names hown
  have hall : ∀ parameter ∈ parameters,
      parameter.1 ∈ own.map (·.name) := fun parameter hparameter =>
    (hnames parameter.1).mpr ⟨List.mem_map_of_mem hparameter, List.not_mem_nil⟩
  have hknown : ∀ input ∈ own, input.name ∈ parameters.map (·.1) := fun input hinput =>
    ((hnames input.name).mp (List.mem_map_of_mem hinput)).1
  split at h
  · obtain rfl := Except.ok.inj h
    exact ⟨hdistinct, hall, fun input hinput => .inr (hknown input hinput)⟩
  · next hbody =>
    obtain ⟨found, hfound, h⟩ := bind_eq_ok.mp h
    cases found with
    | none =>
        obtain rfl := Except.ok.inj h
        exact ⟨hdistinct, hall, fun input hinput => .inr (hknown input hinput)⟩
    | some input =>
        obtain rfl := Except.ok.inj h
        have hname : input.name = bodyInputName := bodyInput_name hfound
        have hnew : bodyInputName ∉ own.map (·.name) := by
          intro hmem
          obtain ⟨other, hother, hsame⟩ := List.mem_map.mp hmem
          exact hbody (List.any_eq_true.mpr ⟨other, hother, beq_iff_eq.mpr hsame⟩)
        refine ⟨?_, fun parameter hparameter => ?_, fun other hother => ?_⟩
        · rw [List.map_append, List.map_singleton, hname]
          exact List.nodup_append.mpr ⟨hdistinct, List.nodup_singleton _,
            fun name hmem other hother heq =>
              hnew (List.mem_singleton.mp hother ▸ heq ▸ hmem)⟩
        · rw [List.map_append]
          exact List.mem_append_left _ (hall parameter hparameter)
        · rcases List.mem_append.mp hother with hother | hother
          · exact .inr (hknown other hother)
          · exact .inl (List.mem_singleton.mp hother ▸ hname)

/-- Every parameter goes somewhere, repeated ones included. -/
theorem placementsOf_names {parameters : List (String × Members)}
    {placements : List Placement} (h : placementsOf parameters = .ok placements) :
    placements.map (·.name) = parameters.map (·.1) := by
  have heach := mapM_eq_ok_iff.mp h
  clear h
  induction heach with
  | nil => rfl
  | cons hplace _ ih =>
      obtain ⟨location, -, hplace⟩ := bind_eq_ok.mp hplace
      obtain rfl := Except.ok.inj hplace
      simp [ih]

theorem toolOf_inputsAgree {document baseUrl shared operation : Value}
    {path : String} {method : Method} {used : List String} {tool : Tool}
    (h : toolOf document baseUrl shared path method operation used = .ok tool) :
    InputsAgree tool := by
  obtain ⟨expanded, -, h⟩ := bind_eq_ok.mp h
  obtain ⟨members, -, h⟩ := bind_eq_ok.mp h
  obtain ⟨operationId, -, h⟩ := bind_eq_ok.mp h
  obtain ⟨own, -, h⟩ := bind_eq_ok.mp h
  obtain ⟨sharedItems, -, h⟩ := bind_eq_ok.mp h
  obtain ⟨parameters, -, h⟩ := bind_eq_ok.mp h
  obtain ⟨inputs, hinputs, h⟩ := bind_eq_ok.mp h
  obtain ⟨description, -, h⟩ := bind_eq_ok.mp h
  obtain ⟨placements, hplacements, h⟩ := bind_eq_ok.mp h
  obtain ⟨address, -, h⟩ := bind_eq_ok.mp h
  obtain rfl := Except.ok.inj h
  obtain ⟨hdistinct, hall, hknown⟩ := toolInputs_names hinputs
  have hnames := placementsOf_names hplacements
  refine ⟨hdistinct, fun place hplace => ?_, fun input hinput => ?_⟩
  · obtain ⟨parameter, hparameter, hname⟩ :=
      List.mem_map.mp (hnames ▸ List.mem_map_of_mem hplace)
    exact hname ▸ hall parameter hparameter
  · exact hnames ▸ hknown input hinput

/-- What holds of the tool for every operation holds of all tools of a document. -/
theorem forall_mem_toolsOf {P : Tool → Prop}
    (hP : ∀ {document baseUrl shared operation : Value}
      {path : String} {method : Method} {used : List String} {tool : Tool},
      toolOf document baseUrl shared path method operation used = .ok tool → P tool)
    {document : Value} {baseUrl : Option String} {tools : List Tool}
    (h : toolsOf document baseUrl = .ok tools) :
    ∀ tool ∈ tools, P tool := by
  obtain ⟨ms, address, paths, -, -, -, hloop⟩ := toolsOf_eq_ok.mp h
  refine foldlM_preserves (P := fun tools => ∀ tool ∈ tools, P tool) hloop (by simp)
    fun tools entry tools' htools hentry => ?_
  obtain ⟨path, v⟩ := entry
  cases v with
  | marked mark item =>
      obtain ⟨shared, -, hitem⟩ := bind_eq_ok.mp hentry
      refine foldlM_preserves (P := fun tools => ∀ tool ∈ tools, P tool) hitem htools
        fun tools entry tools' htools hstep => ?_
      obtain ⟨made, hmade, hstep⟩ := bind_eq_ok.mp hstep
      obtain rfl := Except.ok.inj hstep
      exact List.forall_mem_append.mpr
        ⟨htools, List.forall_mem_singleton.mpr (hP hmade)⟩
  | _ =>
      obtain rfl := Except.ok.inj hentry
      exact htools

/-! ## The type of all inputs -/

/-- Whether an entry of a record, without its name, may be left out. -/
def mayBeLeftOut : List Phrase → Bool
  | [.atom (.word "NotRequired"), .group .square _] => true
  | _ => false

/-- An entry of a record as it is read: its name, and whether it has to be there. -/
def fieldOf? (entry : List Phrase) : Option (String × Bool) :=
  match keyOf entry with
  | [.atom (.text name)] => some (name, !mayBeLeftOut (underKey entry))
  | _ => none

/-- A record as it is read: its name and its entries. -/
def recordOf? : List Phrase → Option (String × List (String × Bool))
  | [.atom (.word "TypedDict"), .group .round content] =>
    match entriesOf content with
    | [[.atom (.text name)], [.group .curly entries]] =>
        ((entriesOf entries).mapM fieldOf?).map (name, ·)
    | _ => none
  | _ => none

/-- The record that is read from source. -/
def readRecord (source : String) : Option (String × List (String × Bool)) :=
  (readSource source).bind recordOf?

/-- Steps that have results one by one have them all. -/
theorem mapM_eq_some {α β γ : Type} {f : α → β} {g : α → γ}
    {step : β → Option γ} {xs : List α} (h : ∀ x ∈ xs, step (f x) = some (g x)) :
    (xs.map f).mapM step = some (xs.map g) := by
  induction xs with
  | nil => rfl
  | cons x rest ih =>
      obtain ⟨hfirst, hrest⟩ := List.forall_mem_cons.mp h
      simp [List.mapM_cons, hfirst, ih hrest]

/-- A type by itself has to be there, described or not. -/
theorem mayBeLeftOut_noted (note : Note) {type : List Phrase}
    (htype : BeginsType type) :
    mayBeLeftOut (notedPhrases note type) = !note.required := by
  have hbracketed : ∀ content,
      mayBeLeftOut (bracketed "NotRequired" .square content) = true := fun _ => rfl
  have hdescribed : ∀ d, mayBeLeftOut (describedPhrases d type) = false := fun _ => rfl
  have hplain : mayBeLeftOut type = false := by
    unfold mayBeLeftOut
    split
    · next content => exact absurd htype (not_beginsType (by decide) .square content)
    · rfl
  have hnote : mayBeLeftOut (if note.description.isBlank then type else describedPhrases
      note.description type) = false := by
    split
    · exact hplain
    · exact hdescribed note.description
  cases hrequired : note.required with
  | true => simpa [notedPhrases, hrequired] using hnote
  | false => simp [notedPhrases, hrequired, hbracketed]

/-- The entry for an input in the type of all inputs. -/
def Input.fieldPhrases (input : Input) : List Phrase :=
  keyedPhrases (.str input.name, notedPhrases input.note input.type.phrases)

theorem fieldOf?_fieldPhrases (input : Input) :
    fieldOf? input.fieldPhrases = some (input.name, input.required) := by
  have hkey : Unparted (scalarPhrases (.str input.name)) :=
    unparted_scalar (.str input.name)
  rw [fieldOf?, Input.fieldPhrases, keyedPhrases, keyOf_append hkey,
    underKey_append hkey, mayBeLeftOut_noted _ input.type.beginsType, Bool.not_not]
  rfl

theorem phrases_inputType (tool : String) (inputs : List Input) :
    (inputType tool inputs).phrases = bracketed "TypedDict" .round
      (listed [[.atom (.text (inputTypeName tool))],
        [.group .curly (listed (inputs.map Input.fieldPhrases))]]) := by
  rw [inputType, TypeExpr.phrases, TypeExpr.entryPhrases_eq_map, recordPhrases,
    List.map_map, List.map_map]
  rfl

/-- The type of all inputs of a tool has their names, in order, and tells which of them
have to be there. -/
theorem readRecord_inputType (tool : String) (inputs : List Input) :
    readRecord (inputType tool inputs).source =
      some (inputTypeName tool, inputs.map fun input =>
        (input.name, input.required)) := by
  have hentry : ∀ input ∈ inputs, IsEntry input.fieldPhrases := fun input _ =>
    (TypeExpr.isEntry_noted input.note input.type).keyed
      (unparted_scalar (.str input.name))
  have hentries := entriesOf_listed (List.forall_mem_map.mpr hentry)
  have hparts := fun content => entriesOf_listed
    (by simp [IsEntry, Phrase.isComma] : ∀ entry ∈
      [[Phrase.atom (.text (inputTypeName tool))], [.group .curly content]],
        IsEntry entry)
  rw [readRecord, readSource_of_readsAs (readsAs_type _), phrases_inputType,
    Option.bind_some, bracketed, word, recordOf?, hparts]
  dsimp only
  rw [hentries, mapM_eq_some fun input _ => fieldOf?_fieldPhrases input,
    Option.map_some]

/-! ## The function for a tool -/

/-- The arguments are for the inputs, one for each. -/
theorem map_snd_nameArguments (used : List String) (inputs : List Input) :
    (nameArguments used inputs).map (·.2) = inputs := by
  induction inputs generalizing used with
  | nil => rfl
  | cons input rest ih => simp [nameArguments, ih]

theorem arguments_perm (inputs : List Input) :
    ((arguments inputs).map (·.2)).Perm inputs := by
  rw [arguments, map_snd_nameArguments]
  exact List.filter_append_perm _ inputs

theorem isWord_append {text more : String} (htext : IsWord text)
    (hmore : ∀ c ∈ more.toList, Text.isWordChar c = true) : IsWord (text ++ more) := by
  refine ⟨fun hempty => htext.1 (String.append_eq_empty_iff.mp hempty).1,
    fun c hc => ?_⟩
  rw [String.toList_append] at hc
  exact (List.mem_append.mp hc).elim (htext.2 c) (hmore c)

/-- An input whose name is empty or begins with a digit gets an argument with
another beginning. -/
theorem isWord_argumentBase (input : String) : IsWord (argumentBase input) := by
  have hchars := isWordChar_of_mem_underscored input
  rw [argumentBase]
  split
  · exact isWord_append (by decide : IsWord "arg_") hchars
  · next hfit =>
    refine ⟨fun hempty => hfit ?_, hchars⟩
    rw [hempty]
    decide

theorem isWord_numbered {base : String} (hbase : IsWord base) (n : Nat) :
    IsWord (numbered base n) := by
  rw [numbered]
  exact isWord_append (isWord_append hbase (List.all_eq_true.mp (by decide)))
    (isWord_toString n).2

theorem isWord_argumentName (used : List String) (input : String) :
    IsWord (argumentName used input) := by
  have hbase := isWord_argumentBase input
  rcases free_cases used.contains (used.length + 1) (argumentBase input) with heq
    | ⟨n, heq⟩
  · rwa [argumentName, heq]
  · rw [argumentName, heq]
    exact isWord_numbered hbase n

/-- Arguments have names that are words, pairwise different and not among those in
use. -/
theorem nameArguments_named (used : List String) (inputs : List Input) :
    ((nameArguments used inputs).map (·.1)).Nodup ∧
      ∀ argument ∈ nameArguments used inputs, IsWord argument.1 ∧
        argument.1 ∉ used := by
  induction inputs generalizing used with
  | nil => simp [nameArguments]
  | cons input rest ih =>
      obtain ⟨hdistinct, heach⟩ := ih (argumentName used input.name :: used)
      have hnew : argumentName used input.name ∉ used :=
        freeToolName_notMem used (argumentBase input.name)
      rw [nameArguments]
      refine ⟨List.nodup_cons.mpr ⟨?_, hdistinct⟩,
        List.forall_mem_cons.mpr ⟨⟨isWord_argumentName _ _, hnew⟩, ?_⟩⟩
      · intro hmem
        obtain ⟨argument, hargument, hsame⟩ := List.mem_map.mp hmem
        exact (heach argument hargument).2 (hsame ▸ List.mem_cons_self)
      · exact fun argument hargument =>
          ⟨(heach argument hargument).1, fun hused =>
            (heach argument hargument).2 (List.mem_cons_of_mem _ hused)⟩

theorem arguments_named (inputs : List Input) :
    ((arguments inputs).map (·.1)).Nodup ∧ ∀ argument ∈ arguments inputs,
      IsWord argument.1 := by
  obtain ⟨hdistinct, heach⟩ :=
    nameArguments_named [] (inputs.filter (·.required) ++ inputs.filter (!·.required))
  exact ⟨hdistinct, fun argument hargument => (heach argument hargument).1⟩

/-- The argument that a line of a function declares. -/
def declared? (line : String) : Option String :=
  match line.toList with
  | ' ' :: ' ' :: ' ' :: ' ' :: rest =>
    if (afterWord rest).head? = some ':' then some (String.ofList (firstWord rest))
    else none
  | _ => none

theorem declared?_of_not_indented {line : String} {c : Char} {text : List Char}
    (hc : c ≠ ' ') (hline : line.toList = c :: text) : declared? line = none := by
  unfold declared?
  split
  · next h => exact absurd (List.cons.inj (hline.symm.trans h)).1 hc
  · rfl

theorem declared?_indented {line : String} {chars text : List Char} {c : Char}
    (hchars : ∀ d ∈ chars, Text.isWordChar d = true) (hc : Text.isWordChar c = false)
    (hline : line.toList = ' ' :: ' ' :: ' ' :: ' ' :: (chars ++ c :: text)) :
    declared? line = if c = ':' then some (String.ofList chars) else none := by
  have hread : declared? line = if (afterWord (chars ++ c :: text)).head? =
      some ':' then
      some (String.ofList (firstWord (chars ++ c :: text))) else none := by
    rw [declared?, hline]
    rfl
  rw [hread, afterWord_append chars hchars hc, firstWord_append chars hchars hc,
    List.head?_cons]
  simp only [Option.some.injEq]

theorem declared?_declaredArgument {name : String} (hname : IsWord name)
    (input : Input) :
    declared? ("    " ++ declaredArgument name input ++ ",") = some name := by
  have hline : ∃ text, ("    " ++ declaredArgument name input ++ ",").toList =
      ' ' :: ' ' :: ' ' :: ' ' :: (name.toList ++ ':' :: text) := by
    unfold declaredArgument
    dsimp only
    split <;> simp only [String.toList_append, List.append_assoc] <;> exact ⟨_, rfl⟩
  obtain ⟨text, hline⟩ := hline
  rw [declared?_indented hname.2 (by decide) hline, if_pos rfl, String.ofList_toList]

theorem declared_arguments {arguments : List (String × Input)}
    (hnames : ∀ argument ∈ arguments, IsWord argument.1) :
    (arguments.map fun (name, input) => "    " ++ declaredArgument name input ++
      ",").filterMap declared? = arguments.map (·.1) := by
  rw [List.filterMap_map, ← List.filterMap_eq_map]
  exact List.filterMap_congr fun argument hargument =>
    declared?_declaredArgument (hnames argument hargument) argument.2

theorem declared_signature (handler : String) {arguments : List (String × Input)}
    (hnames : ∀ argument ∈ arguments, IsWord argument.1) :
    (signature handler arguments).filterMap declared? = arguments.map (·.1) := by
  have hdef : ∀ text, declared? ("def " ++ text) = none := fun text =>
    declared?_of_not_indented (c := 'd') (by decide) (by rw [String.toList_append]; rfl)
  have hlines := declared_arguments hnames
  cases arguments with
  | nil =>
      rw [signature, String.append_assoc, List.filterMap_cons_none (hdef _)]
      rfl
  | cons argument rest =>
      rw [signature, List.filterMap_append, List.filterMap_append, hlines,
        String.append_assoc, List.filterMap_cons_none (hdef _), List.filterMap_nil,
        List.nil_append]
      · exact List.append_nil _
      · simp

/-- The function for a tool declares its arguments, and the lines around that
declare nothing. -/
theorem declared_handlerLines {handler : String} (hhandler : IsHandlerName handler)
    (tool : Tool) :
    (handlerLines handler tool).filterMap declared? =
      (arguments tool.inputs).map (·.1) := by
  obtain ⟨rest, hrest⟩ := hhandler.1
  have hname : ∀ text, declared? (handler ++ text) = none := fun text =>
    declared?_of_not_indented (c := 't') (by decide)
      (by rw [String.toList_append, ← hrest]; rfl)
  have htool : ∀ text, declared? ("@mcp.tool(name=" ++ text) = none := fun text =>
    declared?_of_not_indented (c := '@') (by decide) (by rw [String.toList_append]; rfl)
  have hword : ∀ d ∈ "return".toList, Text.isWordChar d = true :=
    List.all_eq_true.mp (by decide)
  have hreturn : ∀ text, declared? ("    return _run(" ++ text) = none := fun text =>
    declared?_indented hword (c := ' ') (by decide) (by rw [String.toList_append]; rfl)
  have hempty : declared? "" = none := rfl
  have hsignature := declared_signature handler (arguments_named tool.inputs).2
  rw [handlerLines, List.filterMap_append, List.filterMap_append, hsignature]
  simp [String.append_assoc, hname, htool, hreturn, hempty]

/-- An entry of what is passed on as it is read: its name, and the argument under it. -/
def passed? (entry : List Phrase) : Option (String × String) :=
  match keyOf entry, underKey entry with
  | [.atom (.text name)], [.atom (.word argument)] => some (name, argument)
  | _, _ => none

/-- What a function passes on as it is read: for which tool, by which adapter,
and the entries. -/
def passing? : List Phrase → Option (String × String × List (String × String))
  | [.atom (.word "return"), .atom (.word "_run"), .group .round content] =>
    match entriesOf content with
    | [[.atom (.text tool)], [.atom (.word adapter)], [.group .curly entries]] =>
      ((entriesOf entries).mapM passed?).map (tool, adapter, ·)
    | _ => none
  | _ => none

/-- What is passed on by the last of some lines. -/
def readPassing (lines : List String) :
    Option (String × String × List (String × String)) := do
  passing? (← readSource (← lines.getLast?))

/-- The entry for an argument in what is passed on. -/
def passedPhrases (argument : String × Input) : List Phrase :=
  [.atom (.text argument.2.name)] ++ colon :: [word argument.1]

theorem readsAs_passedArguments {arguments : List (String × Input)}
    (hnames : ∀ argument ∈ arguments, IsWord argument.1) :
    List.Forall₂ ReadsAs (arguments.map fun (name, input) =>
      textLiteral input.name ++ ": " ++ name) (arguments.map passedPhrases) := by
  rw [List.forall₂_map_left_iff, List.forall₂_map_right_iff, List.forall₂_same]
  exact fun argument hargument =>
    (readsAs_textLiteral argument.2.name).keyed (.word (hnames argument hargument))

theorem readsAs_passing {handler : String}
    (hhandler : IsHandlerName handler) (tool : Tool) {arguments : List (String × Input)}
    (hnames : ∀ argument ∈ arguments, IsWord argument.1) :
    ReadsAs ("    return _run(" ++ textLiteral tool.name ++ ", " ++ handler ++
      "_adapter, " ++ passedArguments arguments ++ ")") (word "return" :: bracketed
      "_run" .round (listed [[.atom (.text tool.name)], [word (handler ++ "_adapter")],
      [.group .curly (listed (arguments.map passedPhrases))]])) := by
  have hentries := readsAs_passedArguments hnames
  have hadapter : IsWord (handler ++ "_adapter") := by
    have hchars := (isHandlerName_append hhandler (List.all_eq_true.mp (by decide) :
      ∀ c ∈ "_adapter".toList, Text.isWordChar c = true)).2
    refine ⟨fun hempty => ?_, hchars⟩
    exact absurd (String.append_eq_empty_iff.mp hempty).2 (by decide)
  have hcall := ReadsAs.bracketed (by decide : IsWord "_run") .round
    (.listed (.cons (readsAs_textLiteral tool.name) (.cons (.word hadapter)
      (.cons ((ReadsAs.listed hentries).group .curly) .nil))))
  have hreturn : ReadsAs ("return" ++ (" " ++ _)) ([word "return"] ++ ([] ++ _)) :=
    (ReadsAs.word (by decide : IsWord "return")).append (isGap_blank.append hcall) (by
      rw [String.toList_append]
      exact fun c hc => by cases hc; decide)
  have hline := (isGap_blank.trans
    (isGap_blank.trans (isGap_blank.trans isGap_blank))).append hreturn
  have hopens : "    return _run(" = " " ++ (" " ++ (" " ++ " ")) ++
      ("return" ++ (" " ++ ("_run" ++ "("))) := by
    rfl
  have hmiddle : "_adapter, " = "_adapter" ++ ", " := by rfl
  rw [hopens, hmiddle, passedArguments]
  rw [String.intercalate_cons_cons, String.intercalate_cons_cons,
    String.intercalate_singleton] at hline
  simpa only [String.append_assoc, Bracket.opens, Bracket.closes, List.nil_append,
    List.append_nil, List.singleton_append] using hline

theorem passed?_passedPhrases (argument : String × Input) :
    passed? (passedPhrases argument) = some (argument.2.name, argument.1) := by
  have hkey : Unparted [Phrase.atom (.text argument.2.name)] := by
    simp [Phrase.isSeparator]
  rw [passed?, passedPhrases, keyOf_append hkey, underKey_append hkey]
  rfl

/-- The function for a tool passes its arguments on under the names of their inputs. -/
theorem readPassing_handlerLines {handler : String} (hhandler : IsHandlerName handler)
    (tool : Tool) :
    readPassing (handlerLines handler tool) = some (tool.name, handler ++ "_adapter",
      (arguments tool.inputs).map fun argument => (argument.2.name, argument.1)) := by
  have hread := readsAs_passing hhandler tool (arguments_named tool.inputs).2
  have hentry : ∀ argument ∈ arguments tool.inputs,
      IsEntry (passedPhrases argument) := fun argument _ =>
    (isEntry_word argument.1).keyed (by simp [Phrase.isSeparator])
  have hentries := entriesOf_listed (List.forall_mem_map.mpr hentry)
  have hparts := fun content => entriesOf_listed
    (by simp [IsEntry, Phrase.isComma] : ∀ entry ∈ [[Phrase.atom (.text tool.name)],
      [.atom (.word (handler ++ "_adapter"))], [.group .curly content]], IsEntry entry)
  simp only [handlerLines, readPassing, List.getLast?_concat, Option.bind_eq_bind,
    Option.bind_some, readSource_of_readsAs hread, bracketed, word, passing?,
    hparts, hentries]
  rw [mapM_eq_some fun argument _ => passed?_passedPhrases argument, Option.map_some]

/-! ## All tools -/

/-- The function for a tool is in the main module. -/
theorem handlerLines_infix {handler : String} {tool : Tool} {tools : List Tool}
    (h : (handler, tool) ∈ handlers tools) (options : Options) (url : Option String) :
    handlerLines handler tool <:+: programLines options url tools := by
  rw [programLines, List.flatMap_def]
  refine List.IsInfix.trans ?_ (List.infix_append _ _ _)
  exact List.infix_of_mem_flatten (List.mem_map.mpr ⟨_, h, rfl⟩)

/-- **All places agree on the inputs of a tool.** The inputs of every tool of a document
have different names, and these are the names in the type of all inputs, in order, where
exactly those that are not required may be left out. What goes to a place in the request
is an input, and every input is one of these or the request body. In the main module
there is a function for the tool that has an argument for each input, and passes each on
under the name of the input, once. -/
theorem toolsOf_inputs {document : Value} {baseUrl : Option String} {tools : List Tool}
    (h : toolsOf document baseUrl = .ok tools) :
    ∀ tool ∈ tools, (tool.inputs.map (·.name)).Nodup ∧
      readRecord (inputType tool.name tool.inputs).source =
        some (inputTypeName tool.name, tool.inputs.map fun input =>
          (input.name, input.required)) ∧
      (∀ place ∈ tool.placements, place.name ∈ tool.inputs.map (·.name)) ∧
      (∀ input ∈ tool.inputs, input.name = bodyInputName ∨
      input.name ∈ tool.placements.map (·.name)) ∧
      ∃ handler, (handler, tool) ∈ handlers tools ∧
        (∀ options url, handlerLines handler tool <:+: programLines options url tools) ∧
        ∃ passed, readPassing (handlerLines handler tool) =
          some (tool.name, handler ++ "_adapter", passed) ∧
          (passed.map (·.1)).Perm (tool.inputs.map (·.name)) ∧
          (handlerLines handler tool).filterMap declared? = passed.map (·.2) ∧
            (passed.map (·.2)).Nodup := by
  intro tool htool
  obtain ⟨hdistinct, hplaced, hknown⟩ :=
    forall_mem_toolsOf toolOf_inputsAgree h tool htool
  obtain ⟨handler, hhandler⟩ : ∃ handler, (handler, tool) ∈ handlers tools := by
    rw [← map_snd_nameHandlers [] tools] at htool
    obtain ⟨⟨handler, _⟩, hentry, rfl⟩ := List.mem_map.mp htool
    exact ⟨handler, hentry⟩
  have hname : IsHandlerName handler := isHandlerName_of_mem_nameHandlers _ hhandler
  refine ⟨hdistinct, readRecord_inputType _ _, hplaced, hknown, handler, hhandler,
    handlerLines_infix hhandler, _, readPassing_handlerLines hname _, ?_, ?_, ?_⟩
  · rw [List.map_map]
    have hperm := (arguments_perm tool.inputs).map (·.name)
    rwa [List.map_map] at hperm
  · rw [declared_handlerLines hname, List.map_map]
    rfl
  · rw [List.map_map]
    exact (arguments_named tool.inputs).1

/-- A document with a parameter that is repeated in another place, one whose name cannot
name an argument, and a request body. -/
def repeatedIdDocument : Value :=
  .record [("paths", .record [("/a", .record [("post", .record [
    ("parameters", .list [
      .record [("name", "id"), ("in", "query")],
      .record [("name", "id"), ("in", "header"), ("required", .scalar (.bool true))],
      .record [("name", "page size"), ("required", .scalar (.bool true))]]),
    ("requestBody", .record [("content",
      .record [("application/json", .record [("schema", .record [])])])])])])])]

/-- The tool of that document has each name once, and passes on what is required
first. -/
theorem toolsOf_inputs_of_repeatedId :
    ∃ tools, toolsOf repeatedIdDocument none = .ok tools ∧
      tools.map (fun tool => tool.inputs.map (·.name)) =
        [["id", "page size", "requestBody"]] ∧
      tools.map (fun tool => (arguments tool.inputs).map (·.1)) =
        [["page_size", "id", "requestBody"]] ∧
      ∀ tool ∈ tools, (tool.inputs.map (·.name)).Nodup ∧ ∃ handler passed,
        (handler, tool) ∈ handlers tools ∧
        readPassing (handlerLines handler tool) =
          some (tool.name, handler ++ "_adapter", passed) ∧
        (passed.map (·.1)).Perm (tool.inputs.map (·.name)) := by
  obtain ⟨tools, h, hnames, harguments⟩ : ∃ tools,
      toolsOf repeatedIdDocument none = .ok tools ∧
      tools.map (fun tool => tool.inputs.map (·.name)) =
        [["id", "page size", "requestBody"]] ∧
      tools.map (fun tool => (arguments tool.inputs).map (·.1)) =
        [["page_size", "id", "requestBody"]] :=
    ⟨_, rfl, by decide, by decide +kernel⟩
  refine ⟨tools, h, hnames, harguments, fun tool htool => ?_⟩
  obtain ⟨hdistinct, -, -, -, handler, hhandler, -, passed, hread, hperm, -⟩ :=
    toolsOf_inputs h tool htool
  exact ⟨hdistinct, handler, passed, hhandler, hread, hperm⟩

end ApiWorkbench.Server
