import ApiWorkbench.Json.Reader
import ApiWorkbench.Shape.Document
import ApiWorkbench.Swagger.Document
import ApiWorkbench.Text.Blank
import ApiWorkbench.Yaml.Reader

/-!
# Importing documents

A text is read as JSON if it is JSON and as YAML otherwise; at its top there has to be
an object, and the names of all members become texts. The version that the document
states decides whether it is taken as it is or converted first. What comes out has the
shape of a document and is complete.
-/

namespace ApiWorkbench.Document

/-- Why a text cannot be imported. -/
inductive ImportError where
  /-- the text is neither JSON nor YAML -/
  | unreadable
  /-- there is no object at the top -/
  | notAMapping
  /-- the document states no version that is known -/
  | unknownVersion
  /-- the document does not have the shape of one; there is at least one problem -/
  | misshapen (problems : List Shape.Problem)
  /-- a value stands where it cannot be used -/
  | faulty (fault : Fault)
  /-- a pair holds a list or an object that it is itself a part of; an import would go
  on, but what it comes to is no value of this library -/
  | knotted
deriving DecidableEq, Repr

/-- What the message about a text that cannot be read begins with. -/
def unreadablePrefix : String := "Failed to parse definition: "

/-- The most problems of shape that a message names. -/
def shownProblems : Nat := 5

/-- The wording of an import error; none for a fault, which is no error of the text,
and for a knot. -/
def ImportError.message : ImportError → Option String
  | .unreadable => some (unreadablePrefix ++ "malformed YAML")
  | .notAMapping => some (unreadablePrefix ++ "expected a mapping at the top level")
  | .unknownVersion =>
    some "Invalid OpenAPI specification: expected an 'openapi: 3.x' or 'swagger: 2.x' document"
  | .misshapen problems =>
    some ("Invalid OpenAPI specification: "
      ++ "; ".intercalate ((problems.take shownProblems).map Shape.Problem.message))
  | .faulty _ | .knotted => none

mutual

/-- A value with the names of all members as texts. What is in a pair stays as it is. -/
def withTextNames : Value → Except Fault Value
  | .scalar s => pure (.scalar s)
  | .list xs => do pure (.list (← itemsWithTextNames xs))
  | .pair a b => pure (.pair a b)
  | .set names => pure (.set names)
  | .object ms => do pure (.object (Members.ofEntries (← membersWithTextNames ms)))

/-- List items with the names of all members as texts. -/
def itemsWithTextNames : List Value → Except Fault (List Value)
  | [] => pure []
  | v :: rest => do
    let w ← withTextNames v
    pure (w :: (← itemsWithTextNames rest))

/-- Members under the texts of their names; names that have become the same are
not joined yet. -/
def membersWithTextNames : List (Scalar × Value) → Except Fault (List (Scalar × Value))
  | [] => pure []
  | (k, v) :: rest => do
    let name ← k.textName
    let w ← withTextNames v
    pure ((name, w) :: (← membersWithTextNames rest))

end

/-- The value of a text that is JSON or else YAML. Making the names of its members texts
would not end for an object that is a part of itself. -/
def readText (text : String) : Except ImportError Value :=
  match Json.read text with
  | .ok v => pure v
  | .error _ =>
    match Yaml.read text with
    | .ok v => pure v
    | .error .malformed => throw .unreadable
    | .error (.meaningless fault) => throw (.faulty fault)
    | .error (.circular false _) => throw .notAMapping
    | .error (.circular true false) => throw (.faulty .endless)
    | .error (.circular true true) => throw .knotted

/-- A step that may meet a fault, as part of an import. -/
def importing {α : Type} (result : Except Fault α) : Except ImportError α :=
  result.mapError .faulty

/-- The object that a text holds, its names as texts. -/
def parse (text : String) : Except ImportError Value := do
  let v ← readText text
  if v.isObject then importing (withTextNames v) else throw .notAMapping

/-- The formats of documents. -/
inductive Format where
  | current
  | legacy
deriving DecidableEq, Repr

/-- The name of a format. -/
def Format.name : Format → String
  | .current => "current"
  | .legacy => "legacy"

/-- Whether a version, a text or a double, begins with some characters. -/
def versionBegins (start : String) : Value → Bool
  | .str s => s.startsWith start
  | .scalar (.torn text) => text.shown.startsWith start
  | .float x => x.literal.startsWith start
  | _ => false

/-- The format that a document states. -/
def format? (document : Value) : Option Format :=
  match document with
  | .object ms =>
    if versionBegins "3." ((Members.get? "openapi" ms).getD .null) then some .current
    else if versionBegins "2."
      ((Members.get? "swagger" ms).getD .null) then some .legacy
    else none
  | _ => none

/-- The format that a text states; none if it cannot be read. -/
def formatOfText (text : String) : Except Fault (Option Format) :=
  match parse text with
  | .ok document => pure (format? document)
  | .error (.faulty fault) => throw fault
  | .error _ => pure none

/-- The text that a value is as a version. -/
def versionText : Value → Value
  | .scalar (.torn text) => .scalar (.torn text)
  | v => .str v.display

/-- A document of the current format with its version as a text. -/
def withTextVersion (document : Value) : Value :=
  match document with
  | .object ms =>
    match Members.get? "openapi" ms with
    | some v => .object (Members.put "openapi" (versionText v) ms)
    | none => document
  | _ => document

/-- Ends an import if a document does not have the shape of one, or if its shape
cannot be checked. -/
def requireShape (document : Value) : Except ImportError Unit :=
  match Shape.documentProblems document with
  | [] => pure ()
  | problems =>
    throw (if problems.any Shape.Problem.endsCheck then .faulty .notANumber
      else .misshapen problems)

/-- The complete document that a text holds. -/
def importText (text : String) : Except ImportError Value := do
  let source ← parse text
  let document ← match format? source with
    | some .current => pure (withTextVersion source)
    | some .legacy => importing (Swagger.convertDocument source)
    | none => throw .unknownVersion
  requireShape document
  importing (complete document)

/-- The complete document that a file holds. -/
def importFile (content : String) : Except ImportError Value :=
  importText (String.ofList (Text.withLineFeeds content.toList))

end ApiWorkbench.Document
