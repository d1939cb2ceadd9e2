import ApiWorkbench.Command.Reader
import ApiWorkbench.CommandLine.Help
import ApiWorkbench.Document.Export
import ApiWorkbench.Document.Import
import ApiWorkbench.Editor.Session
import ApiWorkbench.Server.Scaffold

/-!
# Reports

A request is answered by a report: what is said and written, in turn, and how it ends. A
report is made from what there is under the paths of the request before anything is
written. Writing may fail where it meets something else under its path; each step that
writes carries the failure that this would be.

Nothing is written for a request that fails, apart from such a step and from a file that
is emptied for a text that it cannot hold: all that is to be written is known first.
-/

namespace ApiWorkbench.CommandLine

/-- Whether a character may stand among the parameters of a control sequence. -/
def isControlParameter (c : Char) : Bool :=
  c == ';' || c == '?' || ('0' ≤ c && c ≤ '9')

/-- The number of characters after an escape that belong to a control sequence: a
bracket, parameters and a letter. None if no sequence is there. -/
def controlLength? : List Char → Option Nat
  | '[' :: rest =>
    let parameters := rest.takeWhile isControlParameter
    (rest.drop parameters.length).head?.bind fun c =>
      if ('A' ≤ c && c ≤ 'Z') || ('a' ≤ c && c ≤ 'z') then some (parameters.length + 2)
      else none
  | _ => none

/-- Text without the control sequences of terminals, after passing over
`skip` characters. -/
def withoutControls : (skip : Nat) → List Char → List Char
  | _, [] => []
  | skip + 1, _ :: rest => withoutControls skip rest
  | 0, c :: rest =>
    match c == '\x1b', controlLength? rest with
    | true, some length => withoutControls length rest
    | _, _ => c :: withoutControls 0 rest

/-- A line as it is printed where there is no terminal. -/
def printed (line : String) : String :=
  String.ofList (withoutControls 0 line.toList)

/-- Why a request failed. -/
inductive Failure where
  | invalidDocument (cause : Document.ImportError)
  | invalidScript (script : Path) (detail : String)
  | unwritableSnapshot (snapshot : Path)
  | noSnapshot (store : Path)
  /-- a value that cannot be dealt with, or a file that cannot be written -/
  | stopped
  /-- a torn text, for which a file has been emptied -/
  | torn
deriving DecidableEq

namespace Failure

/-- What is said about a failure, if anything. -/
def message : Failure → Option String
  | invalidDocument cause => cause.message
  | invalidScript script detail =>
      some ("Invalid command file " ++ script.text ++ ": " ++ detail)
  | unwritableSnapshot snapshot =>
    some ("Cannot write snapshot to " ++ snapshot.text ++
      ": something else is in its place")
  | noSnapshot store => some ("No saved snapshot in " ++ store.text)
  | stopped | torn => none

end Failure

/-- A step of a report. -/
inductive Action where
  | say (line : String)
  /-- makes a directory and those that it is in, as far as they are missing -/
  | makeDirectories (path : Path) (otherwise : Failure)
  | write (path : Path) (content : String) (otherwise : Failure)
  /-- fails to write a torn text, which is noticed when the file has been emptied -/
  | spoil (path : Path) (otherwise : Failure)

/-- How a request ends. -/
inductive Ending where
  | finished
  | failed (failure : Failure)
  | misused (misuse : Misuse)

namespace Ending

/-- The status that the program exits with. -/
def status : Ending → Nat
  | finished => 0
  | failed _ => 1
  | misused _ => 2

end Ending

/-- What is done for a request. -/
structure Report where
  actions : List Action
  ending : Ending

namespace Report

/-- Nothing but a failure. -/
def failed (failure : Failure) : Report :=
  ⟨[], .failed failure⟩

/-- Nothing but a misuse. -/
def misused (misuse : Misuse) : Report :=
  ⟨[], .misused misuse⟩

/-- An action and then the rest. -/
def after (action : Action) (report : Report) : Report :=
  { report with actions := action :: report.actions }

/-- A report that goes on with a result, or fails. -/
def ofExcept {α : Type} (result : Except Failure α) (next : α → Report) : Report :=
  match result with
  | .ok a => next a
  | .error failure => failed failure

end Report

/-! ## What has to be there -/

/-- The content of a file that has to be there. -/
def requireFile (look : Path → Entry) (given : GivenPath) : Except Misuse String :=
  match given.seen look with
  | .file content => pure content
  | .directory => throw (.notAFile given.text)
  | .nothing => throw (.noSuchFile given.text)

/-- Makes sure that no directory is where a file is to be written. -/
def allowFile (look : Path → Entry) (given : GivenPath) : Except Misuse Unit :=
  match given.seen look with
  | .directory => throw (.notAFile given.text)
  | _ => pure ()

/-- Makes sure that no file is where a directory is needed. -/
def allowDirectory (look : Path → Entry) (given : GivenPath) : Except Misuse Unit :=
  match given.seen look with
  | .file _ => throw (.notADirectory given.text)
  | _ => pure ()

/-! ## Parts of reports -/

/-- The document in the content of a file. -/
def loadDocument (content : String) : Except Failure Value :=
  (Document.importFile content).mapError fun cause => match cause with
    | .faulty _ | .knotted => .stopped
    | cause => .invalidDocument cause

/-- What a fault comes to on the command line. -/
def orStop {α : Type} (result : Except Fault α) : Except Failure α :=
  result.mapError fun _ => .stopped

/-- Writes a pruned document and says so. -/
def writePruned (pruned : Value) (output : Path) (said : String) : Report :=
  .ofExcept (orStop (Document.prunedContent output.text pruned)) fun content =>
    let written :=
      if Document.fitsFile output.text pruned then Action.write output content .stopped
      else .spoil output .stopped
    ⟨[.makeDirectories output.parent .stopped, written, .say (said ++ output.text)],
      .finished⟩

/-- Writes a document and says so. -/
def writeDocument (document : Value) (output : Path) (said : String) : Report :=
  .ofExcept (orStop (Document.prune document)) fun pruned =>
    writePruned pruned output said

/-- The commands in the content of a file; none in an empty one. -/
def loadScript (script : Path) (content : String) :
    Except Failure Editor.Script.Commands :=
  match Yaml.readAnchored (String.ofList (Text.withLineFeeds content.toList)) with
  | .error .malformed => throw (.invalidScript script "malformed YAML")
  | .error (.meaningless _) | .error (.circular _ _) => throw .stopped
  | .ok v =>
    match Command.readAll (if v.isNull then .list [] else v) with
    | .valid commands => pure commands
    | .invalid problems =>
      throw
        (.invalidScript script ("; ".intercalate (problems.map Shape.Problem.message)))

/-- The store whose snapshot would be under a path. -/
def storeAt (look : Path → Entry) (snapshot : Path) : Editor.Store :=
  match look snapshot with
  | .nothing => ⟨.disk, .nothing⟩
  | .file content => ⟨.disk, .text content⟩
  | .directory => ⟨.disk, .noFile⟩

/-! ## Reports -/

/-- Imports a document and writes it. -/
def reportImport (content : String) (document output : Path) : Report :=
  let source := String.ofList (Text.withLineFeeds content.toList)
  .ofExcept (orStop (Document.formatOfText source)) fun format =>
    let name := (format.map Document.Format.name).getD "invalid"
    .after (.say (s!"Reading {document.text} (format: {name})...")) <|
      .ofExcept (loadDocument content) fun document =>
        writeDocument document output "Specification saved to "

/-- Applies a script to a document and writes the result. -/
def reportScript (content : String) (script : Path) (scriptContent : String)
    (output : Path) : Report :=
  .ofExcept (loadDocument content) fun document =>
    .ofExcept (loadScript script scriptContent) fun commands =>
      .after (.say s!"Applying {commands.length} commands...") <|
        .ofExcept (orStop (Editor.Script.run commands document)) fun pruned =>
          writePruned pruned output "Specification saved to "

/-- Writes the files of a generated server. -/
def writeServer (files : List (String × String)) (output : Path) : Report :=
  let steps := files.flatMap fun (name, content) =>
    let path := output.entry name
    [.write path content .stopped, .say ("  Created " ++ path.text)]
  ⟨.makeDirectories output .stopped :: steps
    ++ [.say (s!"Generated {files.length} files in " ++ output.text)], .finished⟩

/-- Generates a server for a document. -/
def reportServer (content : String) (options : Server.Options) (output : Path) :
    Report :=
  .ofExcept (loadDocument content) fun document =>
    .after (.say "Generating server...") <|
      .ofExcept ((Server.scaffold options document).mapError fun _ => .stopped)
          fun files =>
        writeServer files output

/-- Saves a document in a store. -/
def reportSave (content : String) (look : Path → Entry) (store : GivenPath) : Report :=
  let snapshot := snapshotPath store
  let unwritable := Failure.unwritableSnapshot snapshot
  .ofExcept (loadDocument content) fun document =>
    let session := Editor.Session.start (some document) (storeAt look snapshot)
    .after (.makeDirectories store.path unwritable) <|
      match session.save with
      | (_, some .blocked) => .failed unwritable
      | (_, some (.fault .torn)) => ⟨[.spoil snapshot unwritable], .failed .torn⟩
      | (_, some (.fault _)) => .failed .stopped
      | (session, none) =>
        match session.store.fileText? with
        | some text =>
          ⟨[.write snapshot text unwritable,
            .say ("Snapshot saved to " ++ store.path.text)], .finished⟩
        | none => .failed .stopped

/-- Writes the document in a store. -/
def reportUndo (look : Path → Entry) (store : GivenPath) (output : Path) : Report :=
  let session := Editor.Session.start none (storeAt look (snapshotPath store))
  .ofExcept (orStop session.store.read) fun stored =>
    if stored.isNone then .failed (.noSnapshot store.path)
    else .ofExcept (orStop session.undo) fun session =>
      writeDocument session.state.document output "Snapshot restored to "

/-- The report on a request, given what there is under its paths. -/
def Request.reportOrMisuse (look : Path → Entry) : Request → Except Misuse Report
  | .help topic => pure ⟨(helpLines topic).map .say, .finished⟩
  | .importDocument document output => do
    let content ← requireFile look document
    allowFile look output
    pure (reportImport content document.path output.path)
  | .applyScript document script output => do
    let content ← requireFile look document
    let scriptContent ← requireFile look script
    allowFile look output
    pure (reportScript content script.path scriptContent output.path)
  | .generate document output options => do
    let content ← requireFile look document
    allowDirectory look output
    pure (reportServer content options output.path)
  | .save document store => do
    let content ← requireFile look document
    allowDirectory look store
    pure (reportSave content look store)
  | .undo output store => do
    allowFile look output
    allowDirectory look store
    pure (reportUndo look store output.path)

/-- The report on a request; a request that does not fit what there is, is a misuse. -/
def Request.report (look : Path → Entry) (request : Request) : Report :=
  match request.reportOrMisuse look with
  | .ok report => report
  | .error misuse => .misused misuse

end ApiWorkbench.CommandLine
