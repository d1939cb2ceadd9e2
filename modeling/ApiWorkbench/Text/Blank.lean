/-!
# White space, words, lines and replaced parts

White space is that of Unicode 14. A line ends at any of the ten Unicode line
boundaries, and a carriage return followed by a line feed counts as one of them. A text
file is read with both older line ends turned into line feeds.

Every occurrence of a part of a text can be replaced, from left to right; occurrences
do not overlap.
-/

namespace ApiWorkbench.Text

/-- Unicode white space, with the four ASCII separators. -/
def isBlank (c : Char) : Bool :=
  let n := c.toNat
  (9 ≤ n && n ≤ 13) || (28 ≤ n && n ≤ 32) || n == 0x85 || n == 0xa0 || n == 0x1680
    || (0x2000 ≤ n && n ≤ 0x200a) || n == 0x2028 || n == 0x2029 ||
      n == 0x202f || n == 0x205f
    || n == 0x3000

/-- White space that may stand around a number: all but the ASCII separators. -/
def isNumberBlank (c : Char) : Bool :=
  isBlank c && !(28 ≤ c.toNat && c.toNat ≤ 31)

/-- Characters that end a line. -/
def isLineBoundary (c : Char) : Bool :=
  let n := c.toNat
  (10 ≤ n && n ≤ 13) || (28 ≤ n && n ≤ 30) || n == 0x85 || n == 0x2028 || n == 0x2029

/-- The list without the characters of `drop` at both ends. -/
def trimBy (drop : Char → Bool) (text : List Char) : List Char :=
  ((text.dropWhile drop).reverse.dropWhile drop).reverse

/-- The text without white space at both ends. -/
def strip (text : String) : String :=
  String.ofList (trimBy isBlank text.toList)

/-- The maximal runs of characters that are not in `gap`. -/
def runsBy (gap : Char → Bool) : List Char → List (List Char)
  | [] => []
  | c :: rest =>
    if gap c then runsBy gap rest
    else match rest.head?.any (!gap ·), runsBy gap rest with
      | true, run :: runs => (c :: run) :: runs
      | _, runs => [c] :: runs

/-- The words of a text: what white space separates. -/
def words (text : String) : List String :=
  (runsBy isBlank text.toList).map String.ofList

/-- The pieces of a text between the occurrences of a character; one more than
there are of these. -/
def splitAt (separator : Char) : List Char → List (List Char)
  | [] => [[]]
  | c :: rest =>
    match splitAt separator rest with
    | [] => [[c]]
    | piece :: pieces =>
        if c == separator then [] :: piece :: pieces else (c :: piece) :: pieces

/-- The lines of a text, without their ends; a line end at the very end opens
no further line. -/
def linesOf : List Char → List (List Char)
  | [] => []
  | '\r' :: '\n' :: rest => [] :: linesOf rest
  | c :: rest =>
    if isLineBoundary c then [] :: linesOf rest
    else match linesOf rest with
      | [] => [[c]]
      | line :: lines => (c :: line) :: lines

/-- Both carriage returns and carriage returns with a line feed, as line feeds. -/
def withLineFeeds : List Char → List Char
  | [] => []
  | '\r' :: '\n' :: rest => '\n' :: withLineFeeds rest
  | '\r' :: rest => '\n' :: withLineFeeds rest
  | c :: rest => c :: withLineFeeds rest

/-- The words of a text with single spaces between them. -/
def oneLine (text : String) : String :=
  " ".intercalate (words text)

/-- Replaces `old` by `new` after passing over `skip` characters, which belong to
an occurrence. -/
def replaceFrom (old new : List Char) : (skip : Nat) → List Char → List Char
  | _, [] => []
  | skip + 1, _ :: rest => replaceFrom old new skip rest
  | 0, c :: rest =>
    if old.isPrefixOf (c :: rest) then new ++ replaceFrom old new (old.length - 1) rest
    else c :: replaceFrom old new 0 rest

/-- `text` with every occurrence of the nonempty `old` replaced by `new`. -/
def replaceAll (old new text : String) : String :=
  String.ofList (replaceFrom old.toList new.toList 0 text.toList)

end ApiWorkbench.Text
