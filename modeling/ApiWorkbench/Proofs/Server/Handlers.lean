import ApiWorkbench.Proofs.Members
import ApiWorkbench.Proofs.Server.Names
import ApiWorkbench.Server.Scaffold

/-!
# The names of the main module

The main module of a generated server has names for what it imports, for its settings
and for the function that makes requests, and each tool brings three more into it: the
name of its function, of the type of its input and of the adapter of that type. None of
them is bound twice, and none of those of the tools is one that the module otherwise
relies on, since they begin with a prefix of their own.

Which names a module binds is read off its lines: an import, a function or an assignment
binds names where it is not part of a function (`moduleNames`).

## Main results

* `nameHandlers_nodup`: the names that the tools bring along are pairwise different.
* `moduleNames_programLines`: the names that the main module binds.
* `scaffold_names`: both for the main module among the files of a server.
-/

namespace ApiWorkbench.Server

/-! ## Names that lines bind -/

/-- The word that a text begins with. -/
def firstWord (text : List Char) : List Char :=
  text.takeWhile Text.isWordChar

/-- What follows the word that a text begins with. -/
def afterWord (text : List Char) : List Char :=
  text.dropWhile Text.isWordChar

/-- The words that a text begins with, separated by commas, and what follows them; at
most `count` of them. -/
def listedWords : (count : Nat) → List Char → List (List Char) × List Char
  | 0, text => ([], text)
  | count + 1, text =>
    match afterWord text with
    | ',' :: ' ' :: rest =>
      let (words, rest) := listedWords count rest
      (firstWord text :: words, rest)
    | rest => ([firstWord text], rest)

/-- The names that a line binds. -/
def boundBy (line : List Char) : List (List Char) :=
  match firstWord line with
  | ['d', 'e', 'f'] | ['i', 'm', 'p', 'o', 'r', 't'] =>
      [firstWord ((afterWord line).drop 1)]
  | ['f', 'r', 'o', 'm'] =>
    -- the module, and the word that comes after it
    let names :=
      (afterWord (((afterWord line).drop 1).dropWhile (· != ' ') |>.drop 1)).drop 1
    (listedWords names.length names).1
  | _ =>
    match listedWords line.length line with
    | (names, ' ' :: '=' :: ' ' :: _) => names
    | _ => []

/-- The names that a line binds in the module, and whether the next line may be part
of a function; a line that is indented is part of what the last line that is not
indented began. -/
def readLine (inFunction : Bool) : (line : List Char) → List (List Char) × Bool
  | ' ' :: rest =>
      (if inFunction then [] else boundBy (rest.dropWhile (· == ' ')), inFunction)
  | line =>
      (boundBy line, if (firstWord line).isEmpty then inFunction else firstWord line ==
        ['d', 'e', 'f'])

/-- The names that lines bind in the module, and whether the next line may be part
of a function. -/
def readLines (inFunction : Bool) : List (List Char) → List (List Char) × Bool
  | [] => ([], inFunction)
  | line :: rest =>
    let (names, inFunction) := readLine inFunction line
    let (others, inFunction) := readLines inFunction rest
    (names ++ others, inFunction)

/-- The names that a module binds, in the order of its lines. -/
def moduleNames (lines : List String) : List String :=
  (readLines false (lines.map String.toList)).1.map String.ofList

/-- The names that the main module has besides those of the tools. -/
def ownNames : List String :=
  ["json", "os", "sys", "date", "datetime", "Any", "Literal", "Optional", "Union",
    "load_dotenv", "FastMCP", "AnyUrl", "EmailStr", "Field", "TypeAdapter", "Annotated",
    "NotRequired", "TypedDict", "execute_request", "TOOL_CONFIGS", "PORT", "API_CONFIG",
    "_key", "_", "_value", "mcp", "_run"]

/-- The names that the main module uses without binding them. -/
def builtinNames : List String :=
  ["bool", "dict", "float", "int", "isinstance", "list", "print", "str", "__name__"]

theorem readLines_append (inFunction : Bool) (xs ys : List (List Char)) :
    readLines inFunction (xs ++ ys) =
      ((readLines inFunction xs).1 ++ (readLines (readLines inFunction xs).2 ys).1,
        (readLines (readLines inFunction xs).2 ys).2) := by
  induction xs generalizing inFunction with
  | nil => rfl
  | cons line rest ih => simp [readLines, ih]

example : moduleNames ["import os", "a, b = 1, 2", "def f(x):", "    c = 3", "",
    ") -> int", "    d = 3", "if x:", "    e = 4", "    g()", "from a.b import c, d"] =
    ["os", "a", "b", "f", "e", "c", "d"] := by
  decide

theorem readLines_cons {inFunction inFunction' last : Bool} {line : List Char}
    {rest names others : List (List Char)}
    (hline : readLine inFunction line = (names, inFunction'))
    (hrest : readLines inFunction' rest = (others, last)) :
    readLines inFunction (line :: rest) = (names ++ others, last) := by
  rw [readLines, hline]
  simp only [hrest]

/-! ## Single lines -/

section

variable {c : Char} {text line : List Char}

/-- A word is read up to the character that ends it. -/
theorem firstWord_append (word : List Char)
    (hword : ∀ c ∈ word, Text.isWordChar c = true) (hc : Text.isWordChar c = false) :
    firstWord (word ++ c :: text) = word := by
  rw [firstWord, List.takeWhile_append_of_pos hword,
    List.takeWhile_cons_of_neg (by simp [hc]), List.append_nil]

theorem afterWord_append (word : List Char)
    (hword : ∀ c ∈ word, Text.isWordChar c = true) (hc : Text.isWordChar c = false) :
    afterWord (word ++ c :: text) = c :: text := by
  rw [afterWord, List.dropWhile_append_of_pos hword,
    List.dropWhile_cons_of_neg (by simp [hc])]

/-- The words with which a line begins that binds names in another way than by
an assignment. -/
def keywords : List (List Char) := ["def".toList, "import".toList, "from".toList]

/-- A line that begins with another word binds names if it is an assignment. -/
theorem boundBy_append (word : List Char) (hword : ∀ c ∈ word, Text.isWordChar c = true)
    (hkeyword : word ∉ keywords) (hc : Text.isWordChar c = false) (hcomma : c ≠ ',') :
    boundBy (word ++ c :: text) = match c :: text with
      | ' ' :: '=' :: ' ' :: _ => [word]
      | _ => [] := by
  have hlisted : listedWords (word ++ c :: text).length (word ++ c :: text) =
      ([word], c :: text) := by
    rw [List.length_append, List.length_cons, ← Nat.add_assoc, listedWords,
      afterWord_append word hword hc, firstWord_append word hword hc]
    split
    · rename_i heq
      exact absurd (List.cons.inj heq).1 hcomma
    · rfl
  unfold boundBy
  rw [firstWord_append word hword hc, hlisted]
  simp only [keywords, List.mem_cons, List.not_mem_nil, or_false, not_or] at hkeyword
  obtain ⟨hdef, himport, hfrom⟩ := hkeyword
  split
  · exact absurd rfl hdef
  · exact absurd rfl himport
  · exact absurd rfl hfrom
  · split <;> simp_all

/-- A line that begins with a word character is not indented. -/
private theorem readLine_of_word (inFunction : Bool) (hc : Text.isWordChar c = true) :
    readLine inFunction (c :: text) =
      (boundBy (c :: text), firstWord (c :: text) == ['d', 'e', 'f']) := by
  have hblank : c ≠ ' ' := by
    rintro rfl
    exact absurd hc (by decide)
  have hfirst : firstWord (c :: text) ≠ [] := by simp [firstWord, hc]
  unfold readLine
  split
  · exact absurd (List.cons.inj ‹_›).1 hblank
  · rw [if_neg (by simpa using hfirst)]

/-- An assignment to one name. -/
theorem readLine_assignment (inFunction : Bool) (word : List Char)
    (hword : word ≠ [] ∧ (∀ c ∈ word, Text.isWordChar c = true) ∧ word ∉ keywords)
    (hline : line = word ++ ' ' :: '=' :: ' ' :: text) : readLine inFunction line =
      ([word], false) := by
  obtain ⟨hne, hchars, hkeyword⟩ := hword
  have hstop : Text.isWordChar ' ' = false := by decide
  obtain ⟨d, ds, rfl⟩ := List.exists_cons_of_ne_nil hne
  have hd : Text.isWordChar d = true := hchars d (List.mem_cons_self)
  have hdef : (d :: ds == ['d', 'e', 'f']) = false := by
    rw [beq_eq_false_iff_ne]
    rintro heq
    exact hkeyword (heq ▸ by decide)
  rw [hline, List.cons_append, readLine_of_word inFunction hd, ← List.cons_append,
    boundBy_append _ hchars hkeyword hstop (by decide),
      firstWord_append _ hchars hstop, hdef]
  rfl

/-- The first line of a function. -/
theorem readLine_def (inFunction : Bool)
    (word : List Char) (hword : ∀ c ∈ word, Text.isWordChar c = true)
    (hline : line = "def ".toList ++ (word ++ '(' :: text)) :
    readLine inFunction line = ([word], true) := by
  have hstart : "def ".toList ++ (word ++ '(' :: text) = ['d', 'e', 'f'] ++ ' ' ::
      (word ++ '(' :: text) := rfl
  have hchars : ∀ c ∈ ['d', 'e', 'f'], Text.isWordChar c = true :=
    List.all_eq_true.mp (by decide)
  have hstop : Text.isWordChar ' ' = false := by decide
  rw [hline, hstart, List.cons_append,
    readLine_of_word inFunction (by decide), ← List.cons_append, boundBy,
    firstWord_append _ hchars hstop, afterWord_append _ hchars hstop]
  simp only [List.drop_succ_cons, List.drop_zero,
    firstWord_append word hword (show Text.isWordChar '(' = false by decide)]
  rfl

/-- What ends a word, and no assignment follows. -/
def IsStop (c : Char) : Prop :=
  Text.isWordChar c = false ∧ c ∉ [' ', ',']

instance : DecidablePred IsStop := fun c =>
  inferInstanceAs (Decidable (Text.isWordChar c = false ∧ c ∉ [' ', ',']))

/-- What is no assignment binds nothing. -/
theorem boundBy_stop (word : List Char) (hword : ∀ c ∈ word, Text.isWordChar c = true)
    (hkeyword : word ∉ keywords) (hc : IsStop c) :
    boundBy (word ++ c :: text) = [] := by
  obtain ⟨hstop, hother⟩ := hc
  simp only [List.mem_cons, List.not_mem_nil, or_false, not_or] at hother
  rw [boundBy_append word hword hkeyword hstop hother.2]
  split
  · exact absurd (List.cons.inj ‹_›).1 hother.1
  · rfl

/-- A line that begins with a sign binds nothing. -/
theorem readLine_sign (inFunction : Bool) (hc : IsStop c) (hline : line = c :: text) :
    readLine inFunction line = ([], inFunction) := by
  have hfirst : firstWord (c :: text) = [] := firstWord_append [] (by simp) hc.1
  have hbound : boundBy (c :: text) = [] := boundBy_stop [] (by simp) (by decide) hc
  rw [hline]
  unfold readLine
  split
  · rename_i heq
    have hblank := hc.2
    simp [(List.cons.inj heq).1] at hblank
  · rw [hbound, hfirst]
    rfl

/-- An indented line that is no assignment binds nothing. -/
theorem readLine_indented (inFunction : Bool) (word : List Char)
    (hword : ∀ c ∈ word, Text.isWordChar c = true) (hkeyword : word ∉ keywords)
    (hc : IsStop c) (hline : line = "    ".toList ++ (word ++ c :: text)) :
    readLine inFunction line = ([], inFunction) := by
  have hkept : (word ++ c :: text).dropWhile (· == ' ') = word ++ c :: text := by
    cases word with
    | nil =>
        have hblank : c ≠ ' ' := by
          rintro rfl
          exact absurd hc (by decide)
        exact List.dropWhile_cons_of_neg (by simpa using hblank)
    | cons d ds =>
        have hblank : d ≠ ' ' := by
          rintro rfl
          exact absurd (hword ' ' List.mem_cons_self) (by decide)
        exact List.dropWhile_cons_of_neg (by simpa using hblank)
  have hdropped : ("   ".toList ++ (word ++ c :: text)).dropWhile (· == ' ') =
      word ++ c :: text := by
    rw [List.dropWhile_append_of_pos (List.all_eq_true.mp (by decide)), hkept]
  rw [hline]
  show (if inFunction then [] else boundBy
    (("   ".toList ++ (word ++ c :: text)).dropWhile (· == ' ')), inFunction) =
    ([], inFunction)
  rw [hdropped, boundBy_stop word hword hkeyword hc, ite_self]

end

/-! ## The main module -/

/-- A line is read like certain characters. -/
def ReadAs (line : String) (chars : List Char) : Prop :=
  ∀ inFunction, readLine inFunction line.toList = readLine inFunction chars

/-- A text is read as its characters are; so no text has to be taken apart. -/
theorem readAs_ofList (chars : List Char) : ReadAs (String.ofList chars) chars := by
  intro inFunction
  rw [String.toList_ofList]

/-- A line may be cut after what tells how it is read. -/
theorem readAs_sign {line : String} {c : Char} {text : List Char} (hc : IsStop c)
    (hline : line.toList = c :: text) :
    ReadAs line [c] :=
  fun inFunction => (readLine_sign inFunction hc hline).trans
    (readLine_sign inFunction hc rfl).symm

theorem readAs_assignment {line : String} {text : List Char} (word : List Char)
    (hword : word ≠ [] ∧ (∀ c ∈ word, Text.isWordChar c = true) ∧ word ∉ keywords)
    (hline : line.toList = word ++ ' ' :: '=' :: ' ' :: text) :
    ReadAs line (word ++ [' ', '=', ' ']) :=
  fun inFunction => (readLine_assignment inFunction word hword hline).trans
    (readLine_assignment inFunction word hword rfl).symm

theorem readAs_indented {line : String} {c : Char} {text : List Char} (hc : IsStop c)
    (hline : line.toList = "    ".toList ++ c :: text) :
    ReadAs line ("    ".toList ++ [c]) :=
  fun inFunction => (readLine_indented inFunction [] (by simp) (by decide) hc
    hline).trans (readLine_indented inFunction [] (by simp) (by decide) hc rfl).symm

theorem readLines_congr {lines : List String} {chars : List (List Char)}
    (h : List.Forall₂ ReadAs lines chars) (inFunction : Bool) :
    readLines inFunction (lines.map String.toList) = readLines inFunction chars := by
  induction h generalizing inFunction with
  | nil => rfl
  | cons hline _ ih => simp only [List.map_cons, readLines, hline inFunction, ih]

/-- The lines before the functions bind the names of the module. -/
theorem readLines_openingLines (options : Options) (baseUrl : Option String)
    (toolCount : Nat) :
    readLines false ((openingLines options baseUrl toolCount).map String.toList) =
      (ownNames.map String.toList, true) := by
  -- what the options say comes after what tells how a line is read
  obtain ⟨comment, hcommentLine, hcomment⟩ : ∃ line,
      s!"# {Text.oneLine options.serverName}: MCP server generated from an OpenAPI document ({toolCount} tools)." =
        line ∧ ReadAs line ['#'] :=
    ⟨_, rfl, readAs_sign (by decide) (by simp only [String.toList_append]; rfl)⟩
  obtain ⟨port, hportLine, hport⟩ : ∃ line,
    s!"PORT = int(os.getenv(\"PORT\", \"{options.port}\"))" = line ∧
      ReadAs line ['P', 'O', 'R', 'T', ' ', '=', ' '] :=
    ⟨_, rfl, readAs_assignment ['P', 'O', 'R', 'T'] ⟨by decide, List.all_eq_true.mp
      (by decide), by decide⟩ (by simp only [String.toList_append]; rfl)⟩
  obtain ⟨address, haddressLine, haddress⟩ : ∃ line,
      "    \"base_url\": os.getenv(\"API_BASE_URL\") or " ++ optionalLiteral baseUrl ++
        "," = line ∧
        ReadAs line ("    ".toList ++ ['"']) :=
    ⟨_, rfl, readAs_indented (by decide) (by simp only [String.toList_append]; rfl)⟩
  obtain ⟨server, hserverLine, hserver⟩ : ∃ line,
    "mcp = FastMCP(" ++ textLiteral options.serverName ++ ")" = line ∧
      ReadAs line ['m', 'c', 'p', ' ', '=', ' '] :=
    ⟨_, rfl, readAs_assignment ['m', 'c', 'p'] ⟨by decide, List.all_eq_true.mp
      (by decide), by decide⟩ (by simp only [String.toList_append]; rfl)⟩
  have hchars : ∃ chars,
      List.Forall₂ ReadAs (openingLines options baseUrl toolCount) chars ∧
      readLines false chars = (ownNames.map String.toList, true) := by
    simp only [openingLines, hcommentLine, hportLine, haddressLine, hserverLine]
    apply Exists.intro
    apply And.intro
    · repeat
        first
        | exact .nil
        | apply List.Forall₂.cons hcomment
        | apply List.Forall₂.cons hport
        | apply List.Forall₂.cons haddress
        | apply List.Forall₂.cons hserver
        | apply List.Forall₂.cons (readAs_ofList _)
    · rfl
  obtain ⟨chars, hlines, hnames⟩ := hchars
  exact (readLines_congr hlines false).trans hnames

/-- Lines that bind nothing leave what they are part of. -/
theorem readLines_of_nothing {lines : List String} {inFunction : Bool}
    (h : ∀ line ∈ lines, readLine inFunction line.toList = ([], inFunction)) :
    readLines inFunction (lines.map String.toList) = ([], inFunction) := by
  induction lines with
  | nil => rfl
  | cons line rest ih =>
      simp [readLines, h line (by simp), ih fun line hline => h line (by simp [hline])]

theorem readLine_empty (inFunction : Bool) :
    readLine inFunction "".toList = ([], inFunction) := by
  cases inFunction <;> decide

/-- What is indented is part of the function. -/
theorem readLine_body {line text : List Char} (hline : line = ' ' :: text) :
    readLine true line = ([], true) := by
  rw [hline]
  rfl

/-- The lines that begin the function for a tool bind its name; the arguments are part
of the function. -/
theorem readLines_signature (inFunction : Bool) {handler : String}
    (hhandler : ∀ c ∈ handler.toList, Text.isWordChar c = true)
    (arguments : List (String × Input)) :
    readLines inFunction ((signature handler arguments).map String.toList) =
      ([handler.toList], true) := by
  have hfirst : ∀ rest : String, rest.toList.head? = some '(' →
      readLine inFunction ("def " ++ handler ++ rest).toList =
        ([handler.toList], true) := by
    intro rest hrest
    obtain ⟨text, htext⟩ := List.head?_eq_some_iff.mp hrest
    have hline : ("def " ++ handler ++ rest).toList =
        "def ".toList ++ (handler.toList ++ '(' :: text) := by
      rw [String.toList_append, String.toList_append, htext, List.append_assoc]
    exact readLine_def inFunction handler.toList hhandler hline
  cases arguments with
  | nil => exact readLines_cons (hfirst _ rfl) rfl
  | cons argument rest =>
      have harguments : readLines true ((((argument :: rest).map fun (name, input) =>
          "    " ++ declaredArgument name input ++
            ",") ++ [") -> str | dict[str, Any]:"]).map String.toList) =
            ([], true) := by
        refine readLines_of_nothing fun line hline => ?_
        rcases List.mem_append.mp hline with hline | hline
        · obtain ⟨⟨name, input⟩, -, rfl⟩ := List.mem_map.mp hline
          exact readLine_body (by simp only [String.toList_append]; rfl)
        · obtain rfl := List.mem_singleton.mp hline
          exact readLine_sign true (c := ')') (by decide) rfl
      exact readLines_cons (hfirst "(" rfl) harguments

/-- The names that the lines for a tool bind. -/
def boundByHandler (handler : String) : List String :=
  [handler ++ "_input", handler ++ "_adapter", handler]

/-- The name of a function is none of the names that do not begin like it. -/
theorem notMem_of_isHandlerName
    {name : String} {names : List String} (hname : IsHandlerName name)
    (hnames : ∀ other ∈ names, ¬ "tool_".toList <+: other.toList) : name ∉ names :=
  fun hmem => hnames name hmem hname.1

/-- An assignment to a name that begins like the names of functions. -/
theorem readLine_handlerName (inFunction : Bool)
    {name line : String} (hname : IsHandlerName name)
    (text : String) (hline : line = name ++ " = " ++ text) :
    readLine inFunction line.toList = ([name.toList], false) := by
  have hother : ∀ word ∈ [] :: keywords, name.toList ≠ word := by
    have hwords : ∀ word ∈ [] :: keywords, ¬ "tool_".toList <+: word := by decide
    rintro word hword rfl
    exact hwords _ hword hname.1
  exact readLine_assignment inFunction name.toList
    ⟨hother [] (by simp), hname.2, fun hmem =>
      hother _ (List.mem_cons_of_mem _ hmem) rfl⟩
    (by rw [hline, String.toList_append, String.toList_append, List.append_assoc]; rfl)

/-- The lines for a tool bind the names that it brings along. -/
theorem readLines_handlerLines (inFunction : Bool)
    {handler : String} (hhandler : IsHandlerName handler) (tool : Tool) :
    readLines inFunction ((handlerLines handler tool).map String.toList) =
    ((boundByHandler handler).map String.toList, true) := by
  have hnames := isHandlerName_of_mem_handlerNames hhandler
  have htype : readLine inFunction
      (handler ++ "_input = " ++ (inputType tool.name tool.inputs).source).toList =
      ([(handler ++ "_input").toList], false) :=
    readLine_handlerName inFunction (hnames _ (by simp [handlerNames]))
      (inputType tool.name tool.inputs).source (by simp only [String.append_assoc]; rfl)
  have hadapter : readLine false (handler ++ "_adapter = TypeAdapter(" ++ handler ++
      "_input)").toList = ([(handler ++ "_adapter").toList], false) :=
    readLine_handlerName false (hnames _ (by simp [handlerNames]))
      ("TypeAdapter(" ++ handler ++ "_input)") (by simp only [String.append_assoc]; rfl)
  have htool : ∀ text : String, readLine false ("@mcp.tool(name=" ++ text).toList =
      ([], false) := fun text =>
    readLine_sign false (c := '@') (by decide)
      (by simp only [String.toList_append]; rfl)
  have hreturn : ∀ text : String, readLine true ("    return _run(" ++ text).toList =
      ([], true) := fun text =>
    readLine_body (by simp only [String.toList_append]; rfl)
  have hbody : readLines false ((signature handler (arguments tool.inputs) ++
      ["    return _run(" ++ textLiteral tool.name ++ ", " ++ handler ++ "_adapter, " ++
      passedArguments (arguments tool.inputs) ++ ")"]).map String.toList) =
      ([handler.toList], true) := by
    rw [List.map_append, readLines_append, readLines_signature false hhandler.2]
    simp only [String.append_assoc, List.map_cons, List.map_nil, readLines, hreturn]
    rfl
  rw [handlerLines, List.append_assoc]
  simp only [String.append_assoc] at htype hadapter hbody ⊢
  exact readLines_cons (readLine_empty _) (readLines_cons (readLine_empty _)
    (readLines_cons htype (readLines_cons hadapter (readLines_cons (readLine_empty _)
    (readLines_cons (readLine_empty _) (readLines_cons (htool _) hbody))))))

/-- The lines after the functions bind nothing. -/
theorem readLines_closingLines (inFunction : Bool) (options : Options)
    (tools : List Tool) :
    readLines inFunction ((closingLines options tools).map String.toList) =
      ([], false) := by
  have hmain : readLine inFunction "if __name__ == \"__main__\":".toList =
      ([], false) := by
    cases inFunction <;> rfl
  have hprint : ∀ text : String, readLine false ("    print(" ++ text).toList =
      ([], false) := fun text =>
    readLine_indented false "print".toList (c := '(') (List.all_eq_true.mp (by decide))
      (by decide) (by decide) (by simp only [String.toList_append]; rfl)
  rw [closingLines, List.append_assoc, List.cons_append, List.cons_append,
    List.cons_append, List.nil_append]
  refine readLines_cons (readLine_empty _) (readLines_cons (readLine_empty _)
    (readLines_cons hmain (readLines_of_nothing fun line hline => ?_)))
  rcases List.mem_append.mp hline with hline | hline
  · obtain ⟨text, -, rfl⟩ := List.mem_map.mp hline
    rw [String.append_assoc]
    exact hprint _
  · simp only [List.mem_cons, List.not_mem_nil, or_false] at hline
    rcases hline with rfl | rfl | rfl <;> exact (readAs_ofList _ false).trans rfl

/-! ## All tools -/

/-- Every tool has a function, in the order of the tools. -/
theorem map_snd_nameHandlers (used : List String) (tools : List Tool) :
    (nameHandlers used tools).map (·.2) = tools := by
  induction tools generalizing used with
  | nil => rfl
  | cons tool rest ih => simp [nameHandlers, ih]

/-- The names of functions are chosen to begin with a prefix of their own. -/
theorem isHandlerName_of_mem_nameHandlers {used : List String} {tools : List Tool} :
    ∀ entry ∈ nameHandlers used tools, IsHandlerName entry.1 := by
  induction tools generalizing used with
  | nil => simp [nameHandlers]
  | cons tool rest ih =>
      intro entry hentry
      rcases List.mem_cons.mp hentry with rfl | hentry
      · exact isHandlerName_handlerName used tool.name
      · exact ih entry hentry

/-- The names that functions bring along are pairwise different, and not
among those in use. -/
theorem nameHandlers_nodup (used : List String) (tools : List Tool) :
    ((nameHandlers used tools).flatMap fun entry => handlerNames entry.1).Nodup ∧
      ∀ name ∈ (nameHandlers used tools).flatMap fun entry => handlerNames entry.1,
        name ∉ used := by
  induction tools generalizing used with
  | nil => simp [nameHandlers]
  | cons tool rest ih =>
      obtain ⟨hdistinct, hfree⟩ :=
        ih (handlerNames (handlerName used tool.name) ++ used)
      rw [nameHandlers, List.flatMap_cons, List.nodup_append]
      refine ⟨⟨nodup_handlerNames _, hdistinct, fun name hname other hother heq => ?_⟩,
        fun name hname => ?_⟩
      · subst heq
        exact hfree name hother (List.mem_append_left _ hname)
      · rcases List.mem_append.mp hname with hname | hname
        · exact handlerName_free used tool.name name hname
        · exact fun hused => hfree name hname (List.mem_append_right _ hused)

/-- The names that the lines for the tools of a server bind in its main module. -/
def toolNames (tools : List Tool) : List String :=
  (handlers tools).flatMap fun entry => boundByHandler entry.1

/-- The names that are bound are those that the functions bring along. -/
theorem toolNames_perm (tools : List Tool) :
    (toolNames tools).Perm ((handlers tools).flatMap fun entry =>
      handlerNames entry.1) := by
  refine List.Perm.flatMap_left _ fun entry _ => ?_
  exact (List.perm_append_singleton entry.1
    [entry.1 ++ "_input", entry.1 ++ "_adapter"])

theorem length_toolNames (tools : List Tool) :
    (toolNames tools).length = 3 * tools.length := by
  have hentries : ∀ entries : List (String × Tool),
      (entries.flatMap fun entry => boundByHandler entry.1).length =
        3 * entries.length := by
    intro entries
    induction entries with
    | nil => rfl
    | cons entry rest ih =>
        rw [List.flatMap_cons, List.length_append, ih, List.length_cons]
        simp only [boundByHandler, List.length_cons, List.length_nil]
        omega
  have hlength := congrArg List.length (map_snd_nameHandlers [] tools)
  rw [List.length_map] at hlength
  rw [toolNames, hentries, handlers, hlength]

theorem isHandlerName_of_mem_toolNames {tools : List Tool} :
    ∀ name ∈ toolNames tools, IsHandlerName name := by
  intro name hname
  obtain ⟨entry, hentry, hname⟩ :=
    List.mem_flatMap.mp ((toolNames_perm tools).mem_iff.mp hname)
  exact isHandlerName_of_mem_handlerNames
    (isHandlerName_of_mem_nameHandlers entry hentry) name hname

/-- The names that the main module binds: its own, and those of the tools. -/
theorem moduleNames_programLines (options : Options) (baseUrl : Option String)
    (tools : List Tool) :
    moduleNames (programLines options baseUrl tools) = ownNames ++ toolNames tools := by
  have hhandlers : ∀ (entries : List (String × Tool)),
      (∀ entry ∈ entries, IsHandlerName entry.1) →
      ∀ inFunction, (readLines inFunction ((entries.flatMap fun entry =>
        handlerLines entry.1 entry.2).map String.toList)).1 =
        (entries.flatMap fun entry => boundByHandler entry.1).map String.toList := by
    intro entries hentries
    induction entries with
    | nil => exact fun _ => rfl
    | cons entry rest ih =>
        intro inFunction
        rw [List.flatMap_cons, List.flatMap_cons, List.map_append, List.map_append,
          readLines_append, readLines_handlerLines inFunction (hentries entry
          (by simp)), ih (fun entry hentry => hentries entry (by simp [hentry]))]
  have hread :
      (readLines false ((programLines options baseUrl tools).map String.toList)).1 =
      (ownNames ++ toolNames tools).map String.toList := by
    rw [programLines, List.map_append, List.map_append, readLines_append,
      readLines_append, readLines_openingLines]
    dsimp only
    rw [hhandlers (handlers tools) isHandlerName_of_mem_nameHandlers,
      readLines_closingLines, List.append_nil, toolNames, List.map_append]
  rw [moduleNames, hread, List.map_map]
  simp

/-- No name is bound twice in the main module. -/
theorem nodup_moduleNames (tools : List Tool) :
    (ownNames ++ toolNames tools).Nodup := by
  rw [List.nodup_append]
  refine ⟨by decide, (toolNames_perm tools).nodup_iff.mpr
    (nameHandlers_nodup [] tools).1, ?_⟩
  rintro name hown _ hname rfl
  exact notMem_of_isHandlerName (isHandlerName_of_mem_toolNames name hname)
    (by decide) hown

/-- The main module of a server binds three names for each of its tools. No name is
bound twice in it, so that no tool takes a name of another tool or of the module. The
names of the tools are made of word characters and begin with a prefix of their own, so
that none is that of something else that the module uses. For every tool, whatever names
are in use, the search for the name of its function comes to an end. -/
theorem scaffold_names :
    (∀ options document files, scaffold options document = .ok files →
      ∃ tools lines, toolsOf document options.baseUrl = .ok tools ∧
        ("server.py", fileOfLines lines) ∈ files ∧
        moduleNames lines = ownNames ++ toolNames tools ∧ (moduleNames lines).Nodup ∧
        (toolNames tools).length = 3 * tools.length ∧
        ∀ name ∈ toolNames tools, (∀ c ∈ name.toList, Text.isWordChar c = true) ∧
          "tool_".toList <+: name.toList ∧
          name ∉ builtinNames) ∧
      ∀ used tool, IsFirstFree (fun name => (handlerNames name).any used.contains)
        ("tool_" ++ Text.underscored tool) (handlerName used tool) := by
  refine ⟨fun options document files h => ?_, handlerName_isFirstFree⟩
  obtain ⟨tools, htools, h⟩ := bind_eq_ok.mp h
  obtain rfl := Except.ok.inj h
  have hnames := moduleNames_programLines options (serverUrl options tools) tools
  refine ⟨tools, programLines options (serverUrl options tools) tools,
    htools, by simp, hnames, hnames ▸ nodup_moduleNames tools, length_toolNames tools,
    fun name hname => ?_⟩
  have hbegins := isHandlerName_of_mem_toolNames name hname
  exact ⟨hbegins.2, hbegins.1, notMem_of_isHandlerName hbegins (by decide)⟩

/-- Tools that are called like what is made from the name of another one. -/
theorem scaffold_names_of_clashes :
    ∃ files lines, scaffold {} (.record [("paths", .record [("/a", .record [
        ("get", .record [("operationId", "x")]),
          ("put", .record [("operationId", "x_input")]),
        ("post", .record [("operationId", "x-input")])])])]) = .ok files ∧
      ("server.py", fileOfLines lines) ∈ files ∧ (moduleNames lines).Nodup ∧
      moduleNames lines = ownNames ++ ["tool_x_input", "tool_x_adapter", "tool_x",
        "tool_x_input_2_input", "tool_x_input_2_adapter", "tool_x_input_2",
        "tool_x_input_3_input", "tool_x_input_3_adapter", "tool_x_input_3"] := by
  obtain ⟨files, h⟩ : ∃ files, scaffold {} (.record [("paths", .record [("/a", .record [
      ("get", .record [("operationId", "x")]),
        ("put", .record [("operationId", "x_input")]),
      ("post", .record [("operationId", "x-input")])])])]) = .ok files := ⟨_, rfl⟩
  obtain ⟨tools, lines, htools, hmem, hnames, hdistinct, -⟩ :=
    scaffold_names.1 _ _ files h
  have hcalled : some (tools.map (·.name)) = some ["x", "x_input", "x-input"] :=
    (congrArg (fun made => made.toOption.map (List.map (·.name))) htools).symm.trans
      (by decide +kernel)
  obtain ⟨a, others, rfl, ha, hothers⟩ :=
    List.map_eq_cons_iff.mp (Option.some.inj hcalled)
  obtain ⟨b, others, rfl, hb, hothers⟩ := List.map_eq_cons_iff.mp hothers
  obtain ⟨c, others, rfl, hc, hothers⟩ := List.map_eq_cons_iff.mp hothers
  obtain rfl := List.map_eq_nil_iff.mp hothers
  have hfirst : handlerName [] "x" = "tool_x" := by decide +kernel
  have hsecond : handlerName (handlerNames "tool_x") "x_input" = "tool_x_input_2" := by
    decide +kernel
  have hthird : handlerName (handlerNames "tool_x_input_2" ++ handlerNames "tool_x")
      "x-input" = "tool_x_input_3" := by
    decide +kernel
  refine ⟨files, lines, h, hmem, hdistinct, hnames.trans (congrArg (ownNames ++ ·) ?_)⟩
  simp only [toolNames, handlers, nameHandlers, ha, hb, hc, List.append_nil, hfirst,
    hsecond, hthird]
  rfl

end ApiWorkbench.Server
