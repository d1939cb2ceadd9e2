import ApiWorkbench.Proofs.Server.Names
import Mathlib.Data.Bool.AllAny

/-!
# Reading the source of expressions

An expression of a generated module is one line of source. It is read in two steps: from
its characters as tokens, which are words, marks, literals and brackets, and from the
tokens as phrases, in which every bracket has been closed by the one that belongs to it.
A literal ends at the first quote like the one it began with that is not escaped, and
stands for the letters that its escapes stand for. So what is in a literal is no part of
the source around it.

The reader takes no source that runs over several lines or has a comment, and none of
the escapes and prefixes of literals that are never written.

`ReadsAs` says that a source is read as certain phrases, whatever comes after it, as
long as that does not go on with a word or a literal. It is put together piece by piece,
the way sources are.

## Main results

* `readSource_of_readsAs`: what a source is read as.
* `ReadsAs.append`, `ReadsAs.group`, `ReadsAs.listed`: the sources that are put
  together from others.
-/

namespace ApiWorkbench.Server

open Text (Letter)

/-! ## Tokens -/

/-- What a literal stands for: a text, or bytes. -/
inductive LiteralKind where
  | text
  | bytes
deriving DecidableEq, Repr

/-- A pair of brackets. -/
inductive Bracket where
  | round
  | square
  | curly
deriving DecidableEq, Repr

/-- What stands between brackets. -/
inductive Atom where
  /-- a name or a number -/
  | word (chars : String)
  | mark (c : Char)
  /-- a text, by the literal for it -/
  | text (content : String)
  /-- a torn text, by the literal for it -/
  | torn (content : Text.Torn)
  /-- bytes, by the literal for them -/
  | bytes (content : List UInt8)
deriving DecidableEq, Repr

/-- A token of source. -/
inductive Token where
  | atom (a : Atom)
  | opening (bracket : Bracket)
  | closing (bracket : Bracket)
deriving DecidableEq, Repr

/-- Where in a token the reader is. -/
inductive Mode where
  | between
  | word (chars : List Char)
  | literal (kind : LiteralKind) (quote : Char) (content : List Letter)
  /-- after the backslash of an escape -/
  | escape (kind : LiteralKind) (quote : Char) (content : List Letter)
  /-- in the digits of a code, with the number that they spell so far and how
  many are to come -/
  | code (kind : LiteralKind) (quote : Char) (content : List Letter) (value left : Nat)
  /-- after a literal with nothing in it; one more quote would begin a literal that may
  run over lines -/
  | empty (kind : LiteralKind) (quote : Char)
deriving DecidableEq, Repr

/-- The marks that expressions are made with. -/
def marks : List Char :=
  [',', ':', '=', '.', '+', '-']

/-- Whether a character begins and ends literals. -/
def isQuote (c : Char) : Bool :=
  c == '\'' || c == '"'

/-- The text of letters, as an atom. -/
def lettersAtom (letters : List Letter) : Atom :=
  if h : letters.any Letter.isHalf then .torn ⟨letters, h⟩
  else .text (String.ofList (letters.map Letter.shown))

/-- What a literal stands for, as an atom. -/
def literalAtom (kind : LiteralKind) (content : List Letter) : Atom :=
  match kind with
  | .text => lettersAtom content
  | .bytes => .bytes (content.map fun letter => letter.code.toUInt8)

/-- What a character brings about between two tokens. -/
def begun (c : Char) : Option (List Token × Mode) :=
  if Text.isWordChar c then some ([], .word [c])
  else if isQuote c then some ([], .literal .text c [])
  else if marks.contains c then some ([.atom (.mark c)], .between)
  else match c with
    | ' ' => some ([], .between)
    | '(' => some ([.opening .round], .between)
    | ')' => some ([.closing .round], .between)
    | '[' => some ([.opening .square], .between)
    | ']' => some ([.closing .square], .between)
    | '\x7b' => some ([.opening .curly], .between)
    | '\x7d' => some ([.closing .curly], .between)
    | _ => none

/-- The character that a letter stands for after a backslash. -/
def escaped? : Char → Option Char
  | '\\' => some '\\'
  | '\'' => some '\''
  | '"' => some '"'
  | 'a' => some '\x07'
  | 'b' => some '\x08'
  | 'f' => some '\x0c'
  | 'n' => some '\n'
  | 'r' => some '\r'
  | 't' => some '\t'
  | 'v' => some '\x0b'
  | _ => none

/-- How many digits a code has, by the letter before it; codes that need more than two
are for texts only. -/
def codeLength? : LiteralKind → Char → Option Nat
  | _, 'x' => some 2
  | .text, 'u' => some 4
  | .text, 'U' => some 8
  | _, _ => none

/-- The letter with a code. -/
def letterOfCode? (code : Nat) : Option Letter :=
  if code < 0x110000 then some (.ofCode code) else none

/-- Whether a character may stand for itself in a literal. -/
def standsInLiteral (kind : LiteralKind) (c : Char) : Bool :=
  c != '\n' && c != '\r' && c != '\x00' && (kind == .text || c.toNat < 0x80)

/-- The tokens that end with a character, and where the reader is after it; none if the
character cannot be there. -/
def step : Mode → Char → Option (List Token × Mode)
  | .between, c => begun c
  | .word chars, c =>
    if Text.isWordChar c then some ([], .word (chars ++ [c]))
    else if isQuote c then
      (if chars = ['b'] then some ([], .literal .bytes c []) else none)
    else (begun c).map fun (tokens, mode) =>
      (.atom (.word (String.ofList chars)) :: tokens, mode)
  | .literal kind quote content, c =>
    if c = quote then
      (if content = [] then some ([], .empty kind quote)
        else some ([.atom (literalAtom kind content)], .between))
    else if c = '\\' then some ([], .escape kind quote content)
    else if standsInLiteral kind c then
      some ([], .literal kind quote (content ++ [.char c]))
    else none
  | .escape kind quote content, c =>
    match escaped? c, codeLength? kind c with
    | some d, _ => some ([], .literal kind quote (content ++ [.char d]))
    | none, some length => some ([], .code kind quote content 0 length)
    | none, none => none
  | .code kind quote content value left, c =>
    (Text.hexDigit? c).bind fun digit =>
      if left = 1 then
        (letterOfCode? (16 * value + digit)).map fun letter =>
          ([], .literal kind quote (content ++ [letter]))
      else some ([], .code kind quote content (16 * value + digit) (left - 1))
  | .empty kind quote, c =>
    if c = quote then none
    else (begun c).map fun (tokens, mode) =>
      (.atom (literalAtom kind []) :: tokens, mode)

/-- The tokens that end with the source; none if the source cannot end there. -/
def finish : Mode → Option (List Token)
  | .between => some []
  | .word chars => some [.atom (.word (String.ofList chars))]
  | .empty kind _ => some [.atom (literalAtom kind [])]
  | _ => none

/-- The tokens of source from some point on. -/
def tokensFrom : Mode → List Char → Option (List Token)
  | mode, [] => finish mode
  | mode, c :: rest =>
      (step mode c).bind fun (tokens, next) => (tokensFrom next rest).map (tokens ++ ·)

/-- The tokens of source. -/
def tokensOf (source : String) : Option (List Token) :=
  tokensFrom .between source.toList

/-! ## Phrases -/

/-- An atom, or what stands between a bracket and the one that closes it. -/
inductive Phrase where
  | atom (a : Atom)
  | group (bracket : Bracket) (content : List Phrase)

/-- The phrases that tokens make. `opened` are the brackets that have still to be
closed, innermost first, each with the phrases before it, and `done` are the phrases
since the innermost one. -/
def phrasesFrom (opened : List (Bracket × List Phrase)) (done : List Phrase) :
    List Token → Option (List Phrase)
  | [] => if opened.isEmpty then some done else none
  | .atom a :: rest => phrasesFrom opened (done ++ [.atom a]) rest
  | .opening bracket :: rest => phrasesFrom ((bracket, done) :: opened) [] rest
  | .closing bracket :: rest =>
    match opened with
    | (innermost, before) :: others =>
      if innermost = bracket then
        phrasesFrom others (before ++ [.group bracket done]) rest else none
    | [] => none

/-- The phrases that tokens make, if every bracket is closed by the one that
belongs to it. -/
def phrasesOf (tokens : List Token) : Option (List Phrase) :=
  phrasesFrom [] [] tokens

/-- The phrases of source. -/
def readSource (source : String) : Option (List Phrase) :=
  (tokensOf source).bind phrasesOf

mutual

/-- The tokens of a phrase. -/
def Phrase.tokens : Phrase → List Token
  | .atom a => [.atom a]
  | .group bracket content =>
      .opening bracket :: (phraseTokens content ++ [.closing bracket])

/-- The tokens of phrases. -/
def phraseTokens : List Phrase → List Token
  | [] => []
  | phrase :: rest => phrase.tokens ++ phraseTokens rest

end

@[simp] theorem phraseTokens_nil : phraseTokens [] = [] := rfl

@[simp] theorem phraseTokens_cons (phrase : Phrase) (rest : List Phrase) :
    phraseTokens (phrase :: rest) = phrase.tokens ++ phraseTokens rest := rfl

@[simp] theorem phraseTokens_append (phrases others : List Phrase) :
    phraseTokens (phrases ++ others) = phraseTokens phrases ++ phraseTokens others := by
  induction phrases with
  | nil => rfl
  | cons phrase rest ih => simp [ih]

mutual

theorem phrasesFrom_tokens (opened : List (Bracket × List Phrase)) (done : List Phrase)
    (rest : List Token) :
    ∀ phrase : Phrase, phrasesFrom opened done (phrase.tokens ++ rest) =
      phrasesFrom opened (done ++ [phrase]) rest
  | .atom a => rfl
  | .group bracket content => by
      rw [Phrase.tokens, List.cons_append, List.append_assoc,
        phrasesFrom, phrasesFrom_phraseTokens, List.nil_append, List.singleton_append,
        phrasesFrom, if_pos rfl]

/-- The tokens of phrases make these phrases. -/
theorem phrasesFrom_phraseTokens (opened : List (Bracket × List Phrase))
    (done : List Phrase) (rest : List Token) :
    ∀ phrases : List Phrase,
      phrasesFrom opened done (phraseTokens phrases ++ rest) =
        phrasesFrom opened (done ++ phrases) rest
  | [] => by simp
  | phrase :: others => by
      rw [phraseTokens_cons, List.append_assoc, phrasesFrom_tokens,
        phrasesFrom_phraseTokens, List.append_assoc, List.singleton_append]

end

theorem phrasesOf_phraseTokens (phrases : List Phrase) :
    phrasesOf (phraseTokens phrases) = some phrases := by
  have h := phrasesFrom_phraseTokens [] [] [] phrases
  rwa [List.append_nil, List.nil_append, phrasesFrom, if_pos (by rfl)] at h

/-! ## Pieces of source -/

/-- Source that does not go on with a word or a literal. -/
def Stops (chars : List Char) : Prop :=
  ∀ c ∈ chars.head?, Text.isWordChar c = false ∧ isQuote c = false

/-- Source is read as phrases, whatever comes after it, if that does not go on with a
word or a literal. -/
def ReadsAs (source : String) (phrases : List Phrase) : Prop :=
  ∀ rest, Stops rest →
    tokensFrom .between (source.toList ++ rest) =
      (tokensFrom .between rest).map (phraseTokens phrases ++ ·)

theorem stops_nil : Stops [] := by
  simp [Stops]

theorem Stops.append {chars rest : List Char} (h : Stops chars) (hrest : Stops rest) :
    Stops (chars ++ rest) := by
  cases chars with
  | nil => exact hrest
  | cons c chars => simpa [Stops] using h

/-- A character is read where the reader is, and then what comes after it. -/
theorem tokensFrom_step {mode next : Mode} {c : Char}
    {tokens : List Token} (h : step mode c = some (tokens, next)) (rest : List Char) :
    tokensFrom mode (c :: rest) = (tokensFrom next rest).map (tokens ++ ·) := by
  rw [tokensFrom, h, Option.bind_some]

/-- A character that ends no token. -/
theorem tokensFrom_silent {mode next : Mode} {c : Char}
    (h : step mode c = some ([], next)) (rest : List Char) :
    tokensFrom mode (c :: rest) = tokensFrom next rest := by
  rw [tokensFrom_step h]
  exact Option.map_id' ..

/-- The tokens of source that is read as phrases are those of the phrases. -/
theorem ReadsAs.tokensOf_eq {source : String} {phrases : List Phrase}
    (h : ReadsAs source phrases) :
    tokensOf source = some (phraseTokens phrases) := by
  have htokens := h [] stops_nil
  rwa [List.append_nil, tokensFrom, finish, Option.map_some, List.append_nil] at htokens

theorem readSource_of_readsAs {source : String} {phrases : List Phrase}
    (h : ReadsAs source phrases) :
    readSource source = some phrases := by
  rw [readSource, h.tokensOf_eq, Option.bind_some, phrasesOf_phraseTokens]

/-- A token that is still open where source stops ends there. -/
theorem tokensFrom_pending {mode : Mode}
    {a : Atom} {rest : List Char} (hfinish : finish mode = some [.atom a])
    (hstep : ∀ c, Text.isWordChar c = false → isQuote c = false →
      step mode c = (begun c).map fun (tokens, next) => (.atom a :: tokens, next))
        (hrest : Stops rest) :
    tokensFrom mode rest = (tokensFrom .between rest).map (.atom a :: ·) := by
  cases rest with
  | nil => rw [tokensFrom, tokensFrom, hfinish, finish, Option.map_some]
  | cons c rest =>
      obtain ⟨hword, hquote⟩ := hrest c rfl
      rw [tokensFrom, tokensFrom, hstep c hword hquote, step]
      cases begun c with
      | none => rfl
      | some found => simp [Function.comp_def]

/-- Pieces of source one after the other. -/
theorem ReadsAs.append {first second : String} {phrases others : List Phrase}
    (h : ReadsAs first phrases) (hsecond : ReadsAs second others)
    (hstops : Stops second.toList) : ReadsAs (first ++ second) (phrases ++ others) := by
  intro rest hrest
  rw [String.toList_append, List.append_assoc, h _ (hstops.append hrest),
    hsecond rest hrest, Option.map_map]
  simp [Function.comp_def]

theorem ReadsAs.empty : ReadsAs "" [] := by
  intro rest _
  simp

/-! ## Words -/

/-- A text of word characters, not an empty one. -/
def IsWord (text : String) : Prop :=
  text ≠ "" ∧ ∀ c ∈ text.toList, Text.isWordChar c = true

instance : DecidablePred IsWord := fun _ =>
  decidable_of_iff _ (and_congr_right' List.all_eq_true)

theorem begun_word {c : Char} (h : Text.isWordChar c = true) :
    begun c = some ([], .word [c]) :=
  if_pos h

theorem tokensFrom_word {chars rest : List Char} (hrest : Stops rest) :
    tokensFrom (.word chars) rest =
      (tokensFrom .between rest).map (.atom (.word (String.ofList chars)) :: ·) := by
  refine tokensFrom_pending rfl (fun c hword hquote => ?_) hrest
  simp [step, hword, hquote]

theorem tokensFrom_word_append (chars : List Char) {more : List Char} (rest : List Char)
    (hmore : ∀ c ∈ more, Text.isWordChar c = true) :
    tokensFrom (.word chars) (more ++ rest) =
      tokensFrom (.word (chars ++ more)) rest := by
  induction more generalizing chars with
  | nil => simp
  | cons c more ih =>
      have hstep : step (.word chars) c = some ([], .word (chars ++ [c])) :=
        if_pos (hmore c List.mem_cons_self)
      rw [List.cons_append, tokensFrom_silent hstep, ih _ fun d hd =>
        hmore d (List.mem_cons_of_mem c hd)]
      simp

/-- A word as a phrase. -/
def word (text : String) : Phrase := .atom (.word text)

theorem ReadsAs.word {text : String} (h : IsWord text) :
    ReadsAs text [Server.word text] := by
  intro rest hrest
  obtain ⟨hne, hchars⟩ := h
  cases htext : text.toList with
  | nil => exact absurd (String.toList_eq_nil_iff.mp htext) hne
  | cons c chars =>
      rw [htext] at hchars
      have hstep : step .between c = some ([], .word [c]) :=
        begun_word (hchars c List.mem_cons_self)
      rw [List.cons_append, tokensFrom_silent hstep,
        tokensFrom_word_append _ _ fun d hd => hchars d (List.mem_cons_of_mem c hd),
          tokensFrom_word hrest,
        List.singleton_append, ← htext, String.ofList_toList]
      rfl

/-! ## Marks and brackets -/

/-- Source that is read as phrases whatever comes after it. -/
def IsGap (source : String) (phrases : List Phrase) : Prop :=
  ∀ rest, tokensFrom .between (source.toList ++ rest) =
    (tokensFrom .between rest).map (phraseTokens phrases ++ ·)

theorem IsGap.append {gap source : String} {phrases others : List Phrase}
    (hgap : IsGap gap phrases) (h : ReadsAs source others) :
    ReadsAs (gap ++ source) (phrases ++ others) := by
  intro rest hrest
  rw [String.toList_append, List.append_assoc, hgap, h rest hrest, Option.map_map]
  simp [Function.comp_def]

theorem isGap_blank : IsGap " " [] := by
  intro rest
  exact tokensFrom_step (rfl : step .between ' ' = some ([], .between)) rest

theorem isGap_mark {c : Char} (h : c ∈ marks) :
    IsGap (String.singleton c) [.atom (.mark c)] := by
  intro rest
  have hstep : ∀ c ∈ marks, step .between c = some ([.atom (.mark c)], .between) :=
    List.all_iff_forall_prop.mp (by decide)
  rw [String.toList_singleton, List.singleton_append, tokensFrom_step (hstep c h)]
  rfl

/-- The mark between two phrases of a list. -/
def comma : Phrase := .atom (.mark ',')

/-- The mark between a name and what is under it. -/
def colon : Phrase := .atom (.mark ':')

/-- The mark between a name and what is set for it. -/
def equals : Phrase := .atom (.mark '=')

theorem IsGap.trans {gap other : String} {phrases others : List Phrase}
    (hgap : IsGap gap phrases) (hother : IsGap other others) :
    IsGap (gap ++ other) (phrases ++ others) := by
  intro rest
  rw [String.toList_append, List.append_assoc, hgap, hother, Option.map_map]
  simp [Function.comp_def]

theorem isGap_comma : IsGap ", " [comma] :=
  (isGap_mark (c := ',') (by decide)).trans isGap_blank

theorem isGap_colon : IsGap ": " [colon] :=
  (isGap_mark (c := ':') (by decide)).trans isGap_blank

theorem isGap_equals : IsGap "=" [equals] :=
  isGap_mark (c := '=') (by decide)

/-- The bracket that opens a pair of brackets. -/
def Bracket.opens : Bracket → String
  | .round => "("
  | .square => "["
  | .curly => "\x7b"

/-- The bracket that closes a pair of brackets. -/
def Bracket.closes : Bracket → String
  | .round => ")"
  | .square => "]"
  | .curly => "\x7d"

/-- What stands between brackets is one phrase. -/
theorem ReadsAs.group {source : String} {phrases : List Phrase} (bracket : Bracket)
    (h : ReadsAs source phrases) :
    ReadsAs (bracket.opens ++ source ++ bracket.closes) [.group bracket phrases] := by
  intro rest _
  obtain ⟨c, hopens, hopening⟩ : ∃ c, bracket.opens.toList = [c] ∧
      step .between c = some ([.opening bracket], .between) := by
    cases bracket <;> exact ⟨_, rfl, rfl⟩
  obtain ⟨d, hcloses, hclosing, hstops⟩ : ∃ d, bracket.closes.toList = [d] ∧
      step .between d = some ([.closing bracket], .between) ∧
      Text.isWordChar d = false ∧ isQuote d = false := by
    cases bracket <;> exact ⟨_, rfl, rfl, by decide, by decide⟩
  have hrest : Stops (d :: rest) := by simpa [Stops] using hstops
  rw [String.toList_append, String.toList_append, hopens, hcloses, List.append_assoc,
    List.append_assoc, List.singleton_append, List.singleton_append, tokensFrom_step
    hopening, h _ hrest, tokensFrom_step hclosing, Option.map_map, Option.map_map]
  simp [Function.comp_def, Phrase.tokens]

/-- The source before brackets, and what stands between them. -/
theorem ReadsAs.grouped {before source : String} {names phrases : List Phrase}
    (bracket : Bracket) (hbefore : ReadsAs before names) (h : ReadsAs source phrases) :
    ReadsAs (before ++ (bracket.opens ++ source ++ bracket.closes))
      (names ++ [.group bracket phrases]) := by
  refine hbefore.append (h.group bracket) ?_
  rw [String.append_assoc, String.toList_append]
  cases bracket <;> exact fun c hc => by cases hc; decide

/-- What is under a name. -/
theorem ReadsAs.keyed {key value : String} {names phrases : List Phrase}
    (hkey : ReadsAs key names) (h : ReadsAs value phrases) :
    ReadsAs (key ++ ": " ++ value) (names ++ colon :: phrases) := by
  rw [String.append_assoc]
  refine hkey.append (isGap_colon.append h) ?_
  rw [String.toList_append]
  exact fun c hc => by cases hc; decide

/-- What is set for a name. -/
theorem ReadsAs.assigned {name value : String} {names phrases : List Phrase}
    (hname : ReadsAs name names) (h : ReadsAs value phrases) :
    ReadsAs (name ++ ("=" ++ value)) (names ++ equals :: phrases) := by
  refine hname.append (isGap_equals.append h) ?_
  rw [String.toList_append]
  exact fun c hc => by cases hc; decide

/-! ## Lists -/

/-- Whether a phrase parts others from each other. -/
def Phrase.isSeparator : Phrase → Bool
  | .atom (.mark ',') => true
  | .atom (.mark ':') => true
  | _ => false

/-- None of the phrases parts the others from each other. -/
def Unparted (phrases : List Phrase) : Prop :=
  ∀ phrase ∈ phrases, phrase.isSeparator = false

@[simp] theorem isSeparator_word (text : String) :
    (word text).isSeparator = false := rfl

@[simp] theorem isSeparator_group (bracket : Bracket) (content : List Phrase) :
    (Phrase.group bracket content).isSeparator = false := rfl

@[simp] theorem unparted_nil : Unparted [] := by
  simp [Unparted]

@[simp] theorem unparted_cons {phrase : Phrase} {rest : List Phrase} :
    Unparted (phrase :: rest) ↔ phrase.isSeparator = false ∧ Unparted rest :=
  List.forall_mem_cons

theorem Unparted.append {phrases others : List Phrase} (h : Unparted phrases)
    (hothers : Unparted others) :
    Unparted (phrases ++ others) :=
  fun phrase hphrase => (List.mem_append.mp hphrase).elim (h phrase) (hothers phrase)

/-- Phrases one after the other with commas between them. -/
def listed (phrases : List (List Phrase)) : List Phrase :=
  [comma].intercalate phrases

theorem ReadsAs.listed {sources : List String} {phrases : List (List Phrase)}
    (h : List.Forall₂ ReadsAs sources phrases) :
    ReadsAs (", ".intercalate sources) (listed phrases) := by
  induction h with
  | nil => exact .empty
  | @cons source entry sources entries hentry hrest ih =>
      cases hrest with
      | nil => simpa [Server.listed] using hentry
      | cons =>
          rw [String.intercalate_cons_cons, String.append_assoc, Server.listed,
            List.intercalate_cons_cons, List.append_assoc]
          have hmore := isGap_comma.append ih
          refine hentry.append hmore ?_
          rw [String.toList_append]
          exact fun c hc => by cases hc; decide

/-- Whether a phrase parts the entries of a list. -/
def Phrase.isComma : Phrase → Bool
  | .atom (.mark ',') => true
  | _ => false

/-- The entries of a list. -/
def entriesOf (phrases : List Phrase) : List (List Phrase) :=
  if phrases.isEmpty then [] else phrases.splitOnP Phrase.isComma

/-- What can be an entry of a list: something, without commas of its own. -/
def IsEntry (entry : List Phrase) : Prop :=
  entry ≠ [] ∧ ∀ phrase ∈ entry, phrase.isComma = false

theorem isComma_of_isSeparator {phrase : Phrase} (h : phrase.isSeparator = false) :
    phrase.isComma = false := by
  unfold Phrase.isComma
  split
  · exact h
  · rfl

theorem Unparted.isEntry {phrases : List Phrase} (h : Unparted phrases)
    (hne : phrases ≠ []) : IsEntry phrases :=
  ⟨hne, fun phrase hphrase => isComma_of_isSeparator (h phrase hphrase)⟩

/-- What is under a name is an entry, if it could be one by itself. -/
theorem IsEntry.keyed {names phrases : List Phrase} (hnames : Unparted names)
    (h : IsEntry phrases) :
    IsEntry (names ++ colon :: phrases) := by
  refine ⟨by simp, fun phrase hphrase => ?_⟩
  rcases List.mem_append.mp hphrase with hphrase | hphrase
  · exact isComma_of_isSeparator (hnames phrase hphrase)
  rcases List.mem_cons.mp hphrase with rfl | hphrase
  · rfl
  · exact h.2 phrase hphrase

private theorem listed_ne_nil {entry : List Phrase} (rest : List (List Phrase))
    (h : entry ≠ []) :
    listed (entry :: rest) ≠ [] := by
  cases rest with
  | nil => simpa [listed] using h
  | cons next rest => simp [listed, List.intercalate_cons_cons, h]

/-- A list that is put together from entries has these entries. -/
theorem entriesOf_listed {entries : List (List Phrase)}
    (h : ∀ entry ∈ entries, IsEntry entry) :
    entriesOf (listed entries) = entries := by
  induction entries with
  | nil => rfl
  | cons entry rest ih =>
      obtain ⟨hne, hcommas⟩ := h entry List.mem_cons_self
      have hrest : ∀ other ∈ rest, IsEntry other := fun other hother =>
        h other (List.mem_cons_of_mem entry hother)
      rw [entriesOf, if_neg (by simpa using listed_ne_nil rest hne)]
      cases rest with
      | nil =>
          rw [listed, List.intercalate_singleton]
          exact List.splitOnP_eq_singleton hcommas
      | cons next rest =>
          have hmore := ih hrest
          rw [entriesOf, if_neg
            (by simpa using listed_ne_nil rest (hrest next List.mem_cons_self).1)]
            at hmore
          rw [listed, List.intercalate_cons_cons,
            List.append_assoc, List.singleton_append,
            List.splitOnP_append_cons_of_forall_mem hcommas comma rfl]
          exact congrArg (entry :: ·) hmore

/-- What stands before the first mark that parts phrases. -/
def keyOf (phrases : List Phrase) : List Phrase :=
  phrases.takeWhile (!·.isSeparator)

/-- What stands after the first mark that parts phrases. -/
def underKey (phrases : List Phrase) : List Phrase :=
  (phrases.dropWhile (!·.isSeparator)).tail

theorem keyOf_append {names : List Phrase} (h : Unparted names)
    (phrases : List Phrase) :
    keyOf (names ++ colon :: phrases) = names := by
  have hcolon : colon.isSeparator = true := rfl
  rw [keyOf,
    List.takeWhile_append_of_pos fun phrase hphrase => by simp [h phrase hphrase],
    List.takeWhile_cons_of_neg (by simp [hcolon]), List.append_nil]

theorem underKey_append {names : List Phrase} (h : Unparted names)
    (phrases : List Phrase) :
    underKey (names ++ colon :: phrases) = phrases := by
  have hcolon : colon.isSeparator = true := rfl
  rw [underKey,
    List.dropWhile_append_of_pos fun phrase hphrase => by simp [h phrase hphrase],
    List.dropWhile_cons_of_neg (by simp [hcolon]), List.tail_cons]

end ApiWorkbench.Server
