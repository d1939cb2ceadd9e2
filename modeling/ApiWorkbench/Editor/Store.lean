import ApiWorkbench.Json.Reader
import ApiWorkbench.Json.Writer

/-!
# Snapshot stores

A store keeps at most one document, as JSON text. A store in memory takes every text; a
store on disk keeps it as a file in a directory, and something else may stand where the
directory or the file belongs: then nothing can be written, nothing is found and nothing
can be taken away.

What is in a store may have been written by anyone. A text that is no JSON object
is no snapshot.

A file cannot hold a torn text. It is emptied before that is noticed, so that the
snapshot in it is lost.
-/

namespace ApiWorkbench.Editor

/-- What there is in the place of a snapshot. -/
inductive Store.Contents where
  | nothing
  | text (text : String)
  /-- a file stands where the directory belongs -/
  | noDirectory
  /-- a directory stands where the file belongs -/
  | noFile
deriving DecidableEq, Repr

/-- Where a store keeps its snapshot. -/
inductive Store.Medium where
  | memory
  | disk
deriving DecidableEq, Repr

/-- A store for one document. -/
structure Store where
  medium : Store.Medium
  contents : Store.Contents
deriving DecidableEq, Repr

namespace Store

/-- The name of the file that holds the snapshot. -/
def fileName : String := "openapi3.json"

/-- Why a store could not do what it was asked. -/
inductive Failure where
  /-- something else stands in the place of the snapshot -/
  | blocked
  | fault (cause : Fault)
deriving DecidableEq, Repr

/-- A store that holds nothing. -/
def empty (medium : Medium) : Store :=
  ⟨medium, .nothing⟩

/-- The store with a text in place of a snapshot. -/
def withText (text : String) (store : Store) : Store :=
  { store with contents := .text text }

namespace Medium

/-- How the document is set out. -/
def layout : Medium → Json.Layout
  | memory => .ascii
  | disk => .indented

/-- Whether a document can be kept once its text is there. -/
def holds : Medium → Value → Bool
  | memory, _ => true
  | disk, document => document.isWhole

end Medium

/-- A document as the text that is stored. -/
def encode (medium : Medium) (document : Value) : Except Failure String :=
  (Json.write medium.layout document).mapError .fault

/-- The document that a stored text stands for; none if it is no JSON object. -/
def decode (text : String) : Except Fault (Option Value) :=
  match Json.read text with
  | .ok (.object ms) => pure (some (.object ms))
  | .ok _ => pure none
  | .error (.syntaxProblem _ _) => pure none
  | .error .tooManyDigits => throw .notANumber

/-- Puts a document into the store: the store afterwards, and what went
wrong, if anything. -/
def write (store : Store) (document : Value) : Store × Option Failure :=
  match store.contents, encode store.medium document with
  | .noDirectory, _ => (store, some .blocked)
  | _, .error failure => (store, some failure)
  | .noFile, .ok _ => (store, some .blocked)
  | _, .ok text =>
    if store.medium.holds document then (store.withText text, none)
    else (store.withText "", some (.fault .torn))

/-- The document in the store, if there is one. -/
def read (store : Store) : Except Fault (Option Value) :=
  match store.contents with
  | .text text => decode text
  | _ => pure none

/-- The store with nothing in it. -/
def clear (store : Store) : Except Failure Store :=
  match store.contents with
  | .nothing | .text _ => pure { store with contents := .nothing }
  | _ => throw .blocked

/-- The text of the snapshot file. -/
def fileText? (store : Store) : Option String :=
  match store.medium, store.contents with
  | .disk, .text text => some text
  | _, _ => none

end Store

end ApiWorkbench.Editor
