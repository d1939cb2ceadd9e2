import ApiWorkbench.Proofs.Server.Inputs

/-!
# The arguments of the function for a tool

Inputs may have any names, and an argument needs one that is fit for it. A name is made
fit by other characters and by another beginning, and it gets a number if an argument
before has it already. Neither undoes what the other is for: a number leaves the
beginning of a name as it is, and no reserved word has an underscore.

One thing a number can bring about is a beginning with `tool_`. It takes the name `tool`
for that, and another input of that name before it, so no tool has such an argument: its
inputs have different names.

## Main results

* `nameArguments_split`: each argument has the name that is first free of
  those before it.
* `isUnfitArgument_argumentBase`, `isArgumentName_argumentName`: the name of an argument
  is fit for one.
* `readArgument_declaredArgument`: an argument as it is declared, read as its name
  and its alias.
* `arguments_fit`: all of that for the arguments for any inputs.
-/

namespace ApiWorkbench.Server

/-! ## Order -/

/-- Inputs are the given ones, each once, what is required before what is not, and
otherwise in order. -/
structure RequiredFirst (inputs given : List Input) : Prop where
  perm : inputs.Perm given
  before : inputs.Pairwise fun earlier later => later.required = true →
    earlier.required = true
  inOrder : ∀ required, inputs.filter (·.required == required) =
    given.filter (·.required == required)

theorem arguments_requiredFirst (inputs : List Input) :
    RequiredFirst ((arguments inputs).map (·.2)) inputs := by
  refine ⟨arguments_perm inputs, ?_, fun required => ?_⟩
  · rw [arguments, map_snd_nameArguments, List.pairwise_append]
    refine ⟨?_, ?_, fun earlier hearlier later _ _ => (List.mem_filter.mp hearlier).2⟩
    · exact List.Pairwise.imp_of_mem (fun hearlier _ _ _ =>
        (List.mem_filter.mp hearlier).2) (List.pairwise_of_forall fun _ _ => True.intro)
    · refine List.Pairwise.imp_of_mem (fun _ hlater _ hrequired => ?_)
        (List.pairwise_of_forall fun _ _ => True.intro)
      simpa [hrequired] using (List.mem_filter.mp hlater).2
  · rw [arguments, map_snd_nameArguments, List.filter_append, List.filter_filter,
      List.filter_filter]
    cases required <;> simp

/-! ## Names -/

/-- The arguments are named one after the other, each with those before it in use. -/
theorem nameArguments_split {used : List String} {inputs : List Input}
    {earlier later : List (String × Input)} {name : String} {input : Input}
    (h : nameArguments used inputs = earlier ++ (name, input) :: later) :
    name = argumentName ((earlier.map (·.1)).reverse ++ used) input.name := by
  induction earlier generalizing used inputs with
  | nil =>
      cases inputs with
      | nil => exact nomatch h
      | cons first rest =>
          obtain ⟨rfl, rfl⟩ := Prod.mk.inj (List.cons.inj h).1
          rfl
  | cons argument earlier ih =>
      cases inputs with
      | nil => exact nomatch h
      | cons first rest =>
          obtain ⟨rfl, hrest⟩ := List.cons.inj h
          simpa using ih hrest

/-- The search for the name of an argument ends, with the first name that no
argument before has. -/
theorem arguments_firstFree {inputs : List Input}
    {earlier later : List (String × Input)} {name : String} {input : Input}
    (h : arguments inputs = earlier ++ (name, input) :: later) :
    IsFirstFree (earlier.map (·.1)).contains (argumentBase input.name) name := by
  have hsame : ∀ names : List String,
      (names.reverse ++ []).contains = names.contains := fun names => by
    funext other
    simp
  rw [nameArguments_split h, argumentName, hsame, List.append_nil, List.length_reverse]
  exact free_isFirstFree (exists_free_toolNumber _ _)

/-- The search comes to no number after one that makes a free name. -/
theorem IsFirstFree.number_le {taken : String → Bool} {base : String} {m n : Nat}
    (h : IsFirstFree taken base (numbered base n)) (hm : 2 ≤ m)
    (hfree : taken (numbered base m) = false) : n ≤ m := by
  obtain ⟨-, hbase | ⟨-, k, -, hk, hbefore⟩⟩ := h
  · have hlist := congrArg String.toList hbase
    simp [toList_numbered] at hlist
  · obtain rfl := numbered_inj.mp hk
    by_contra hless
    rw [hbefore m hm (by omega)] at hfree
    contradiction

/-- A name that is fit for an argument: a word that begins with no digit, is not
reserved and is not hidden. -/
structure IsArgumentName (name : String) : Prop where
  isWord : IsWord name
  noDigit : ∀ c ∈ name.toList.head?, Text.isDigit c = false
  notReserved : name ∉ reservedWords
  notHidden : name.startsWith "_" = false

theorem isUnfitArgument_cons {name : String} {c : Char} {rest : List Char}
    (h : name.toList = c :: rest) :
    isUnfitArgument name = false ↔ Text.isDigit c = false ∧ name ∉ reservedWords ∧
      name.startsWith "_" = false ∧ name.startsWith "tool_" = false := by
  simp [isUnfitArgument, h, and_assoc]

/-- A name that was unfit is fit with the other beginning. -/
theorem isUnfitArgument_argumentBase (input : String) :
    isUnfitArgument (argumentBase input) = false := by
  rw [argumentBase]
  split
  · have hreserved : ∀ reserved ∈ reservedWords, ¬ "arg_".toList <+:
        reserved.toList := by
      decide
    have hchars : ("arg_" ++ Text.underscored input).toList =
        'a' :: ("rg_".toList ++ (Text.underscored input).toList) := String.toList_append
    rw [isUnfitArgument_cons hchars]
    refine ⟨by decide, fun hmem => hreserved _ hmem ?_, ?_, ?_⟩
    · rw [String.toList_append]
      exact List.prefix_append ..
    · simp
    · simp
  · next hfit => exact eq_false_of_ne_true hfit

/-- A number gives a name the beginning `tool_` only if it had that before or is what
comes before the underscore. -/
theorem startsWith_numbered {base : String}
    {n : Nat} (hbase : base.startsWith "tool_" = false)
    (h : (numbered base n).startsWith "tool_" = true) : base = "tool" := by
  rw [String.startsWith_string_eq_false_iff] at hbase
  rw [String.startsWith_string_iff, toList_numbered] at h
  rcases List.prefix_or_prefix_of_prefix h (List.prefix_append _ _) with hbegins
    | ⟨rest, hrest⟩
  · exact absurd hbegins hbase
  obtain ⟨more, hmore⟩ := h
  rw [← hrest, List.append_assoc, List.append_cancel_left_eq] at hmore
  cases rest with
  | nil => exact absurd ⟨[], by simpa using hrest.symm⟩ hbase
  | cons c rest =>
      -- What is left of the beginning starts with the underscore, and there is one
      -- only.
      obtain rfl := (List.cons.inj hmore).1
      have hboth : base.toList = "tool".toList ∧ rest = [] := by
        simpa [List.append_eq_cons_iff, List.cons_eq_append_iff] using hrest
      exact String.toList_inj.mp hboth.1

/-- A name that is fit for an argument is still fit with a number after it. -/
theorem isArgumentName_numbered {base : String} (h : IsArgumentName base) (n : Nat) :
    IsArgumentName (numbered base n) := by
  obtain ⟨c, rest, hchars⟩ := List.exists_cons_of_ne_nil fun hnil =>
    h.isWord.1 (String.toList_eq_nil_iff.mp hnil)
  have hreserved : ∀ reserved ∈ reservedWords, '_' ∉ reserved.toList := by decide
  refine ⟨isWord_numbered h.isWord n, ?_, fun hmem => hreserved _ hmem ?_, ?_⟩
  · have hdigit := h.noDigit
    rw [hchars] at hdigit
    rwa [toList_numbered, hchars]
  · simp [toList_numbered]
  · have hhidden := h.notHidden
    rw [String.startsWith_string_eq_false_iff, hchars] at hhidden
    rw [String.startsWith_string_eq_false_iff, toList_numbered, hchars]
    simpa using hhidden

theorem isArgumentName_argumentBase (input : String) :
    IsArgumentName (argumentBase input) := by
  have hword := isWord_argumentBase input
  obtain ⟨c, rest, hchars⟩ := List.exists_cons_of_ne_nil fun hnil =>
    hword.1 (String.toList_eq_nil_iff.mp hnil)
  obtain ⟨hdigit, hreserved, hhidden, -⟩ :=
    (isUnfitArgument_cons hchars).mp (isUnfitArgument_argumentBase input)
  refine ⟨hword, fun d hd => ?_, hreserved, hhidden⟩
  rw [hchars] at hd
  obtain rfl := Option.some.inj hd
  exact hdigit

theorem isArgumentName_argumentName (used : List String) (input : String) :
    IsArgumentName (argumentName used input) := by
  have hbase := isArgumentName_argumentBase input
  rcases free_cases used.contains (used.length + 1) (argumentBase input) with heq
    | ⟨n, heq⟩
  · rwa [argumentName, heq]
  · rw [argumentName, heq]
    exact isArgumentName_numbered hbase n

theorem argumentBase_eq_tool {input : String} (h : argumentBase input = "tool") :
    input = "tool" := by
  have hname : Text.underscored input = "tool" := by
    rw [argumentBase] at h
    split at h
    · have hlist := congrArg String.toList h
      simp at hlist
    · exact h
  have hchars : ∀ c ∈ input.toList, (if Text.isWordChar c then c else '_') = c := by
    intro c hc
    split
    · rfl
    · next hword =>
      have hmem : '_' ∈ (Text.underscored input).toList := by
        rw [Text.underscored, String.toList_map]
        exact List.mem_map.mpr ⟨c, hc, if_neg hword⟩
      rw [hname] at hmem
      exact absurd hmem (by decide)
  rw [← hname, ← String.toList_inj, Text.underscored, String.toList_map,
    List.map_congr_left hchars, List.map_id']

theorem argumentName_eq_tool {used : List String} {input : String}
    (h : argumentName used input = "tool") :
    input = "tool" := by
  rw [argumentName] at h
  rcases free_cases used.contains (used.length + 1) (argumentBase input) with heq
    | ⟨n, heq⟩
  · exact argumentBase_eq_tool (heq.symm.trans h)
  · have hmem : '_' ∈ (numbered (argumentBase input) n).toList := by
      simp [toList_numbered]
    rw [← heq, h] at hmem
    exact absurd hmem (by decide)

/-- An argument begins with `tool_` only if its input and one before are called
`tool`. -/
theorem arguments_startsWith_tool
    {inputs : List Input} {earlier later : List (String × Input)} {name : String}
    {input : Input} (h : arguments inputs = earlier ++ (name, input) :: later)
    (hname : name.startsWith "tool_" = true) :
    input.name = "tool" ∧ "tool" ∈ earlier.map (·.2.name) := by
  have hbase : (argumentBase input.name).startsWith "tool_" = false :=
    (Bool.or_eq_false_iff.mp (isUnfitArgument_argumentBase input.name)).2
  obtain ⟨-, rfl | ⟨htaken, n, -, rfl, -⟩⟩ := arguments_firstFree h
  · exact absurd (hbase.symm.trans hname) (by decide)
  have htool := startsWith_numbered hbase hname
  rw [htool, List.contains_iff_mem] at htaken
  obtain ⟨⟨_, other⟩, hother, rfl⟩ := List.mem_map.mp htaken
  obtain ⟨before, between, rfl⟩ := List.append_of_mem hother
  rw [List.append_assoc, List.cons_append] at h
  refine ⟨argumentBase_eq_tool htool, List.mem_map.mpr ⟨_, hother, ?_⟩⟩
  exact argumentName_eq_tool (nameArguments_split h).symm

/-- So there have to be two inputs called `tool`. -/
theorem two_le_count_tool {inputs : List Input} {argument : String × Input}
    (h : argument ∈ arguments inputs) (hname : argument.1.startsWith "tool_" = true) :
    2 ≤ (inputs.map (·.name)).count "tool" := by
  obtain ⟨earlier, later, hsplit⟩ := List.append_of_mem h
  obtain ⟨hinput, hearlier⟩ := arguments_startsWith_tool hsplit hname
  have hcount := ((arguments_perm inputs).map (·.name)).count_eq "tool"
  rw [hsplit, List.map_append, List.map_append, List.map_map, List.count_append,
    List.map_cons, List.map_cons, hinput, List.count_cons_self] at hcount
  have hpos : 0 < (earlier.map (·.2.name)).count "tool" :=
    List.count_pos_iff.mpr hearlier
  have hsame : earlier.map ((·.name) ∘ (·.2)) = earlier.map (·.2.name) := rfl
  rw [hsame] at hcount
  omega

/-! ## What an argument is declared as -/

/-- What is set for a name by entries that set names. -/
def setFor (name : String) (entries : List (List Phrase)) : List (List Phrase) :=
  entries.filterMap fun
    | .atom (.word other) :: .atom (.mark '=') :: value =>
        if other = name then some value else none
    | _ => none

/-- What a type is noted with, entry by entry. -/
def notesOf : List Phrase → List (List Phrase)
  | .atom (.word "Annotated") :: .group .square content :: _ =>
    match entriesOf content with
    | [_, [.atom (.word "Field"), .group .round notes]] => entriesOf notes
    | _ => []
  | _ => []

/-- An argument as it is declared: its name, and the alias that it is noted with. -/
def argument? (phrases : List Phrase) : Option (String × Option String) :=
  match keyOf phrases, setFor "alias" (notesOf (underKey phrases)) with
  | [.atom (.word name)], [] => some (name, none)
  | [.atom (.word name)], [[.atom (.text other)]] => some (name, some other)
  | _, _ => none

/-- The argument that source declares. -/
def readArgument (source : String) : Option (String × Option String) :=
  (readSource source).bind argument?

/-- What an argument is noted with. -/
def argumentNotes (name : String) (input : Input) : List (List Phrase) :=
  (match input.description with
    | some text =>
        if text.isEmpty then [] else [[word "description", equals, .atom (.text text)]]
    | none =>
        []) ++ (if name == input.name then []
          else [[word "alias", equals, .atom (.text input.name)]])

/-- The phrases of the type of an argument without what it is noted with. -/
def Input.argumentType (input : Input) : List Phrase :=
  if input.required then input.type.phrases
  else bracketed "Optional" .square input.type.phrases

/-- The phrases of a type with notes. -/
def withNotes (type : List Phrase) : List (List Phrase) → List Phrase
  | [] => type
  | notes =>
      bracketed "Annotated" .square
        (listed [type, bracketed "Field" .round (listed notes)])

/-- The phrases of an argument as it is declared. -/
def argumentPhrases (name : String) (input : Input) : List Phrase :=
  [word name] ++ colon :: (withNotes input.argumentType (argumentNotes name input) ++
    if input.required then [] else [equals, word "None"])

private theorem readsAs_withNotes {type : String}
    {phrases : List Phrase} (htype : ReadsAs type phrases) {sources : List String}
    {notes : List (List Phrase)} : List.Forall₂ ReadsAs sources notes →
    ReadsAs (match sources with
      | [] => type
      | metadata =>
          "Annotated[" ++ type ++ ", Field(" ++ ", ".intercalate metadata ++ ")]")
            (withNotes phrases notes)
  | .nil => htype
  | .cons hnote hnotes => by
      have hfield := ReadsAs.bracketed (by decide : IsWord "Field") .round
        (.listed (.cons hnote hnotes))
      have hboth := ReadsAs.bracketed (by decide : IsWord "Annotated") .square
        (.listed (.cons htype (.cons hfield .nil)))
      have hopens : "Annotated[" = "Annotated" ++ "[" := by rfl
      have hmiddle : ", Field(" = ", " ++ ("Field" ++ "(") := by rfl
      have hcloses : ")]" = ")" ++ "]" := by rfl
      rw [String.intercalate_cons_cons, String.intercalate_singleton] at hboth
      rw [withNotes, hopens, hmiddle, hcloses]
      · simpa only [String.append_assoc, Bracket.opens, Bracket.closes] using hboth
      · simp

theorem readsAs_declaredArgument {name : String} (hname : IsWord name) (input : Input) :
    ReadsAs (declaredArgument name input) (argumentPhrases name input) := by
  unfold declaredArgument
  extract_lets description ownName type noted
  have hassigned : ∀ {opening key text : String}, opening = key ++ "=" → IsWord key →
      ReadsAs (opening ++ textLiteral text)
        [word key, equals, .atom (.text text)] := fun hopening hkey => by
    rw [hopening, String.append_assoc]
    exact (ReadsAs.word hkey).assigned (readsAs_textLiteral _)
  have hnotes : List.Forall₂ ReadsAs (description ++ ownName)
      (argumentNotes name input) := by
    refine List.rel_append ?_ ?_
    · unfold description
      cases input.description with
      | none => exact .nil
      | some text =>
          dsimp only
          split
          · exact .nil
          · exact .cons (hassigned rfl (by decide : IsWord "description")) .nil
    · unfold ownName
      split
      · exact .nil
      · exact .cons (hassigned rfl (by decide : IsWord "alias")) .nil
  have htype : ReadsAs type input.argumentType := by
    unfold type Input.argumentType
    split
    · exact readsAs_type input.type
    · exact readsAs_opened rfl (by decide) (readsAs_type input.type)
  have hnoted :
      ReadsAs noted (withNotes input.argumentType (argumentNotes name input)) :=
    readsAs_withNotes htype hnotes
  have hdeclared := (ReadsAs.word hname).keyed hnoted
  rw [argumentPhrases]
  split
  · rwa [List.append_nil]
  · have hopens : " = None" = " " ++ ("=" ++ (" " ++ "None")) := by rfl
    have hnone : ReadsAs (" " ++ ("=" ++ (" " ++ "None"))) [equals, word "None"] :=
      isGap_blank.append (isGap_equals.append (isGap_blank.append (.word (by decide))))
    rw [hopens]
    simpa only [List.append_assoc, List.cons_append] using hdeclared.append hnone (by
      rw [String.toList_append]
      exact fun c hc => by cases hc; decide)

theorem beginsType_argumentType (input : Input) : BeginsType input.argumentType := by
  rw [Input.argumentType]
  split
  · exact input.type.beginsType
  · exact ⟨"Optional", by decide, rfl⟩

theorem isEntry_argumentType (input : Input) : IsEntry input.argumentType := by
  rw [Input.argumentType]
  split
  · exact input.type.isEntry
  · exact isEntry_bracketed ..

/-- A type by itself has no notes. -/
theorem notesOf_type {type : List Phrase} (h : BeginsType type) (rest : List Phrase) :
    notesOf (type ++ rest) = [] := by
  obtain ⟨name, hname, hhead⟩ := h
  obtain ⟨others, rfl⟩ := List.head?_eq_some_iff.mp hhead
  unfold notesOf
  split
  · next heq =>
    obtain rfl : name = "Annotated" := by simpa [word] using (List.cons.inj heq).1
    exact absurd hname (by decide)
  · rfl

theorem notesOf_withNotes {type : List Phrase}
    (hbegins : BeginsType type) (hentry : IsEntry type) {notes : List (List Phrase)}
    (hnotes : ∀ note ∈ notes, IsEntry note) (rest : List Phrase) :
    notesOf (withNotes type notes ++ rest) = notes := by
  cases notes with
  | nil => exact notesOf_type hbegins rest
  | cons note notes =>
      have hparts : ∀ content,
          entriesOf (listed [type, bracketed "Field" .round content]) =
          [type, bracketed "Field" .round content] := fun content =>
        entriesOf_listed (by simp [hentry, isEntry_bracketed])
      have hread : ∀ content, notesOf (bracketed "Annotated"
          .square (listed [type, bracketed "Field" .round content]) ++ rest) =
          entriesOf content := fun content => by
        simp only [bracketed, word, List.cons_append, notesOf] at hparts ⊢
        rw [hparts]
        rfl
      rw [withNotes, hread, entriesOf_listed hnotes]
      simp

/-- The alias of an argument is the name of its input, where that is another one. -/
theorem setFor_argumentNotes (name : String) (input : Input) :
    setFor "alias" (argumentNotes name input) =
      if name = input.name then [] else [[.atom (.text input.name)]] := by
  have hdescription : setFor "alias" (match input.description with
      | some text =>
          if text.isEmpty then []
          else [[word "description", equals, .atom (.text text)]]
      | none => []) = [] := by
    split
    · split <;> rfl
    · rfl
  rw [argumentNotes, setFor, List.filterMap_append, ← setFor, ← setFor, hdescription,
    List.nil_append]
  by_cases hsame : name = input.name
  · rw [if_pos hsame, if_pos (beq_iff_eq.mpr hsame)]
    rfl
  · rw [if_neg hsame, if_neg (by simpa using hsame)]
    rfl

theorem isEntry_of_mem_argumentNotes {name : String} {input : Input} :
    ∀ note ∈ argumentNotes name input, IsEntry note := by
  have hset : ∀ key text,
      IsEntry [word key, equals, .atom (.text text)] := fun key text =>
    Unparted.isEntry (by simp [word, equals, Phrase.isSeparator]) (by simp)
  refine List.forall_mem_append.mpr ⟨?_, ?_⟩
  · split
    · split <;> simp [hset]
    · simp
  · split <;> simp [hset]

/-- An argument is declared under its name, and with the name of its input as alias
where that is another one. -/
theorem readArgument_declaredArgument {name : String} (hname : IsWord name)
    (input : Input) :
    readArgument (declaredArgument name input) =
      some (name, if name = input.name then none else some input.name) := by
  have hkey : Unparted [word name] := by simp
  rw [readArgument, readSource_of_readsAs (readsAs_declaredArgument hname input),
    Option.bind_some, argument?, argumentPhrases, keyOf_append hkey,
    underKey_append hkey, notesOf_withNotes (beginsType_argumentType input)
    (isEntry_argumentType input) isEntry_of_mem_argumentNotes, setFor_argumentNotes]
  by_cases hsame : name = input.name
  · rw [if_pos hsame, if_pos hsame]
    rfl
  · rw [if_neg hsame, if_neg hsame]
    rfl

/-! ## All arguments -/

/-- **The arguments of a function are fit for it.** For any inputs there is one argument
for each, required ones first and otherwise in order. The names of the arguments are
different from each other. Each is a word that begins with no digit and no underscore
and is not reserved; it begins with `tool_` only if the name `tool` is given more than
once, so for no tool of a document. An argument carries the name of its input as an
alias just when it is not called like it. The search for a name ends with the first one
that no argument before has, and within two numbers more than there are such
arguments. -/
theorem arguments_fit :
    (∀ inputs, RequiredFirst ((arguments inputs).map (·.2)) inputs ∧
      ((arguments inputs).map (·.1)).Nodup ∧
      (∀ name input, (name, input) ∈ arguments inputs → IsArgumentName name ∧
        (name.startsWith "tool_" = true → 2 ≤ (inputs.map (·.name)).count "tool") ∧
        readArgument (declaredArgument name input) =
          some (name, if name = input.name then none else some input.name)) ∧
      ∀ earlier name input later, arguments inputs = earlier ++ (name, input) :: later →
        IsFirstFree (earlier.map (·.1)).contains (argumentBase input.name) name ∧
        ∀ n, name = numbered (argumentBase input.name) n → n ≤ earlier.length + 2) ∧
    ∀ document baseUrl tools, toolsOf document baseUrl = .ok tools → ∀ tool ∈ tools,
      ∀ argument ∈ arguments tool.inputs, argument.1.startsWith "tool_" = false := by
  refine ⟨fun inputs => ⟨arguments_requiredFirst inputs, (arguments_named inputs).1,
    fun name input hargument => ?_, fun earlier name input later hsplit => ?_⟩,
    fun document baseUrl tools h tool htool argument hargument => ?_⟩
  · obtain ⟨earlier, later, hsplit⟩ := List.append_of_mem hargument
    have hname : IsArgumentName name := nameArguments_split hsplit ▸
      isArgumentName_argumentName _ _
    exact ⟨hname, two_le_count_tool hargument,
      readArgument_declaredArgument hname.isWord input⟩
  · have hfirst := arguments_firstFree hsplit
    obtain ⟨m, hm, hless, hfree⟩ :=
      exists_free_toolNumber (earlier.map (·.1)) (argumentBase input.name)
    rw [List.length_map] at hless
    refine ⟨hfirst, ?_⟩
    rintro n rfl
    have hle := hfirst.number_le hm hfree
    omega
  · have hdistinct := (forall_mem_toolsOf toolOf_inputsAgree h tool htool).distinct
    have honce := List.nodup_iff_count_le_one.mp hdistinct "tool"
    by_contra hbegins
    have htwice := two_le_count_tool hargument (eq_true_of_ne_false hbegins)
    omega

/-- Two inputs of the name `tool`. -/
def toolTwice : List Input :=
  ["tool", "tool"].map fun name => ⟨name, .text, true, none⟩

/-- The second of two arguments for the name `tool` begins with `tool_`. -/
theorem arguments_toolTwice :
    (arguments toolTwice).map (·.1) = ["tool", "tool_2"] ∧
      "tool_2".startsWith "tool_" = true := by
  decide +kernel

end ApiWorkbench.Server
