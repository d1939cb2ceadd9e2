import ApiWorkbench.Proofs.Command.RoundTrip
import ApiWorkbench.Proofs.CommandLine.FileTrees
import ApiWorkbench.Proofs.Result
import ApiWorkbench.Proofs.Yaml.Reread

/-!
# Runs that fail

A report is made before anything is written, and it has actions that write only if it
finishes or empties a file for a torn text (`Report.Careful`). What else it does before
it fails makes directories at most. So a run that fails leaves all files as they were,
unless one of its actions cannot be carried out (`Call.obstacle?`): it meets something
else under its path, and then those before it have been carried out; or it would write a
torn text, and then the file is empty.

The report on a script writes only after every item of the list was read as a command
and every command was applied.

## Main results

* `report_careful`: no request has a report that writes and fails, but for torn texts.
* `everyCommandApplied_of_report`: a script that is written was read and
  applied as a whole.
* `files_of_failed_run`: one run that fails; a stretch of such runs; and what has to be
  for a script to be written.
* `file_emptied_by_run`: a run that fails at a torn text, and leaves an empty file.
-/

namespace ApiWorkbench.CommandLine

open Editor Shape

/-! ## Reports -/

namespace Report

/-- A report that finishes, or does not write, or empties a file for a torn text. -/
def Careful (report : Report) : Prop :=
  report.ending = .finished ∨ (∀ action ∈ report.actions, action.isWrite = false) ∨
    ∃ action ∈ report.actions, action.isSpoil = true

variable {report : Report} {failure : Failure} {α : Type} {result : Except Failure α}
  {next : α → Report}

theorem careful_failed (failure : Failure) : (failed failure).Careful :=
  .inr (.inl (by simp [failed]))

theorem careful_misused (misuse : Misuse) : (misused misuse).Careful :=
  .inr (.inl (by simp [misused]))

theorem Careful.after {action : Action} (hreport : report.Careful)
    (haction : action.isWrite = false) :
    (Report.after action report).Careful :=
  hreport.imp id fun hrest => hrest.imp (fun hnone =>
    List.forall_mem_cons.mpr ⟨haction, hnone⟩) fun ⟨spoil, hmem, hspoil⟩ =>
    ⟨spoil, List.mem_cons_of_mem _ hmem, hspoil⟩

theorem careful_ofExcept (h : ∀ a, result = .ok a → (next a).Careful) :
    (ofExcept result next).Careful := by
  cases result with
  | error failure => exact careful_failed failure
  | ok a => exact h a rfl

/-- Whether there is an action that writes. -/
def Writes (report : Report) : Prop :=
  ∃ action ∈ report.actions, action.isWrite = true

/-- A report that goes on with a result and writes has a result to go on with. -/
theorem exists_of_writes_ofExcept (h : (ofExcept result next).Writes) :
    ∃ a, result = .ok a ∧ (next a).Writes := by
  cases result with
  | error failure => simp [ofExcept, failed, Writes] at h
  | ok a => exact ⟨a, rfl, h⟩

theorem writes_after {action : Action} (haction : action.isWrite = false) :
    (Report.after action report).Writes ↔ report.Writes := by
  simp [Report.after, Writes, haction]

end Report

open Report

variable {look : Path → Entry}

/-! ## Requests -/

/-- Arguments without options before the command make the request that the command makes
of its own arguments. -/
theorem Request.read_of_arguments {environment : Environment} {arguments : List String}
    (verb : Verb) (operands : List String) (own : Arguments) (hcommon :
      readArguments commonOptions true arguments = .ok ⟨[], verb.name :: operands⟩)
    (hown : readArguments (verb.options ++ [helpOption]) false operands = .ok own)
    (hhelp : own.value? helpOption.name = none) :
    Request.read environment arguments = verb.request environment own := by
  have hverb : Verb.all.find? (·.name == verb.name) = some verb := by
    cases verb <;> rfl
  have hnone : (Arguments.mk [] (verb.name :: operands)).value? helpOption.name =
      none := rfl
  unfold Request.read
  rw [hcommon, ok_bind, hnone, if_neg (by simp)]
  dsimp only
  rw [hverb]
  dsimp only
  rw [hown, ok_bind, hhelp, if_neg (by simp)]

/-! ## What has to be there -/

section

variable {given document script output : GivenPath} {content scriptContent : String}

theorem requireFile_eq_ok_iff :
    requireFile look given = .ok content ↔ given.seen look = .file content := by
  unfold requireFile
  split <;> simp_all

theorem allowFile_eq_ok_iff : allowFile look given = .ok () ↔
    given.seen look ≠ .directory := by
  unfold allowFile
  split <;> simp_all

/-- The report on a script for files that are there. -/
theorem report_applyScript (hdocument : document.seen look = .file content)
    (hscript : script.seen look = .file scriptContent)
    (houtput : output.seen look ≠ .directory) :
    Request.report look (.applyScript document script output) =
      reportScript content script.path scriptContent output.path := by
  rw [Request.report, Request.reportOrMisuse, requireFile_eq_ok_iff.mpr hdocument,
    ok_bind, requireFile_eq_ok_iff.mpr hscript, ok_bind,
    allowFile_eq_ok_iff.mpr houtput]
  rfl

end

theorem writePruned_careful (pruned : Value) (output : Path) (said : String) :
    (writePruned pruned output said).Careful :=
  careful_ofExcept fun _ _ => .inl rfl

theorem writeDocument_careful (document : Value) (output : Path) (said : String) :
    (writeDocument document output said).Careful :=
  careful_ofExcept fun pruned _ => writePruned_careful pruned output said

theorem reportImport_careful (content : String) (document output : Path) :
    (reportImport content document output).Careful := by
  refine careful_ofExcept fun format _ => ?_
  exact .after (careful_ofExcept fun document _ =>
    writeDocument_careful document output _) rfl

theorem reportScript_careful (content : String) (script : Path) (scriptContent : String)
    (output : Path) :
    (reportScript content script scriptContent output).Careful := by
  refine careful_ofExcept fun document _ => careful_ofExcept fun commands _ => ?_
  exact .after (careful_ofExcept fun pruned _ =>
    writePruned_careful pruned output _) rfl

theorem reportServer_careful (content : String) (options : Server.Options)
    (output : Path) :
    (reportServer content options output).Careful := by
  refine careful_ofExcept fun document _ => ?_
  exact .after (careful_ofExcept fun files _ => .inl rfl) rfl

theorem reportSave_careful (content : String) (look : Path → Entry)
    (store : GivenPath) :
    (reportSave content look store).Careful := by
  refine careful_ofExcept fun document _ => .after ?_ rfl
  split
  · exact careful_failed _
  · exact .inr (.inr ⟨_, List.mem_singleton_self _, rfl⟩)
  · exact careful_failed _
  · split
    · exact .inl rfl
    · exact careful_failed _

theorem reportUndo_careful (look : Path → Entry) (store : GivenPath) (output : Path) :
    (reportUndo look store output).Careful := by
  refine careful_ofExcept fun stored _ => ?_
  split
  · exact careful_failed _
  · exact careful_ofExcept fun session _ => writeDocument_careful _ output _

/-- No request has a report that writes and fails, but for torn texts. -/
theorem report_careful (look : Path → Entry) (request : Request) :
    (request.report look).Careful := by
  unfold Request.report
  split
  · rename_i report hreport
    cases request with
    | help topic =>
        obtain rfl := Except.ok.inj hreport
        exact .inl rfl
    | importDocument document output =>
        obtain ⟨content, -, hreport⟩ := bind_eq_ok.mp hreport
        obtain ⟨_, -, hreport⟩ := bind_eq_ok.mp hreport
        obtain rfl := Except.ok.inj hreport
        exact reportImport_careful _ _ _
    | applyScript document script output =>
        obtain ⟨content, -, hreport⟩ := bind_eq_ok.mp hreport
        obtain ⟨scriptContent, -, hreport⟩ := bind_eq_ok.mp hreport
        obtain ⟨_, -, hreport⟩ := bind_eq_ok.mp hreport
        obtain rfl := Except.ok.inj hreport
        exact reportScript_careful _ _ _ _
    | generate document output options =>
        obtain ⟨content, -, hreport⟩ := bind_eq_ok.mp hreport
        obtain ⟨_, -, hreport⟩ := bind_eq_ok.mp hreport
        obtain rfl := Except.ok.inj hreport
        exact reportServer_careful _ _ _
    | save document store =>
        obtain ⟨content, -, hreport⟩ := bind_eq_ok.mp hreport
        obtain ⟨_, -, hreport⟩ := bind_eq_ok.mp hreport
        obtain rfl := Except.ok.inj hreport
        exact reportSave_careful _ _ _
    | undo output store =>
        obtain ⟨_, -, hreport⟩ := bind_eq_ok.mp hreport
        obtain ⟨_, -, hreport⟩ := bind_eq_ok.mp hreport
        obtain rfl := Except.ok.inj hreport
        exact reportUndo_careful _ _ _
  · exact careful_misused _

/-! ## Scripts -/

section

variable {μ : Type}

/-- A list of commands is read if each of its items is. -/
theorem readAll_eq_valid {v : Tree μ} {commands : List (Command μ)}
    (h : Command.readAll v = .valid commands) :
    ∃ items, v.items = .ok items ∧ List.Forall₂ (fun item command => Command.read item =
      .valid command) items commands := by
  cases v with
  | list xs => exact ⟨xs, rfl, items_eq_valid_iff.mp h⟩
  | pair a b => exact ⟨[a, b], rfl, items_eq_valid_iff.mp h⟩
  | set names => exact ⟨names.map .scalar, rfl, items_eq_valid_iff.mp h⟩
  | scalar s | marked mark ms => simp [Command.readAll, toList, Validated.fail] at h

end

/-- What a script and a document have to be for every command of the script to be read
and applied: the document is imported, the script is a list, or nothing at all, each
item of the list is read as a command, and the commands in turn lead to a last state. -/
def EveryCommandApplied (content scriptContent : String) : Prop :=
  ∃ document v commands last, loadDocument content = .ok document ∧
    Yaml.readAnchored (String.ofList (Text.withLineFeeds scriptContent.toList)) =
      .ok v ∧
    (v.isNull = true ∧ commands = [] ∨
      ∃ items, v.items = .ok items ∧ List.Forall₂
        (fun item command => Command.read item = .valid command) items commands) ∧
    Script.applyFrom 0 (.ofDocument (AnchoredValue.ofValue document)) commands =
      .ok last

theorem exists_of_loadScript {script : Path} {scriptContent : String}
    {commands : Script.Commands} (h : loadScript script scriptContent = .ok commands) :
    ∃ v, Yaml.readAnchored (String.ofList (Text.withLineFeeds scriptContent.toList)) =
      .ok v ∧
      Command.readAll (if v.isNull then .list [] else v) = .valid commands := by
  unfold loadScript at h
  split at h
  · simp at h
  · simp at h
  · simp at h
  · rename_i v hv
    split at h
    · rename_i read hread
      obtain rfl := Except.ok.inj h
      exact ⟨v, hv, hread⟩
    · simp at h

/-- A report on a script writes only after all commands were read and applied. -/
theorem everyCommandApplied_of_writes
    {content scriptContent : String} {script output : Path}
    (h : (reportScript content script scriptContent output).Writes) :
    EveryCommandApplied content scriptContent := by
  obtain ⟨document, hdocument, h⟩ := exists_of_writes_ofExcept h
  obtain ⟨commands, hcommands, h⟩ := exists_of_writes_ofExcept h
  rw [writes_after rfl] at h
  obtain ⟨pruned, hpruned, -⟩ := exists_of_writes_ofExcept h
  obtain ⟨last, hlast⟩ : ∃ last, Script.applyFrom 0
      (.ofDocument (AnchoredValue.ofValue document)) commands = .ok last := by
    unfold Script.run at hpruned
    cases happly : Script.applyFrom 0 (.ofDocument (AnchoredValue.ofValue document))
      commands with
    | error fault => simp [happly, orStop, Except.mapError] at hpruned
    | ok last => exact ⟨last, rfl⟩
  obtain ⟨v, hv, hread⟩ := exists_of_loadScript hcommands
  refine ⟨document, v, commands, last, hdocument, hv, ?_, hlast⟩
  cases hnull : v.isNull with
  | true =>
      rw [hnull, if_pos rfl] at hread
      have hnone : Validated.valid [] = Validated.valid commands := hread
      exact .inl ⟨rfl, (Validated.valid.inj hnone).symm⟩
  | false =>
      rw [hnull, if_neg Bool.false_ne_true] at hread
      exact .inr (readAll_eq_valid hread)

theorem everyCommandApplied_of_report {document script output : GivenPath}
    (h : (Request.report look (.applyScript document script output)).Writes) :
    ∃ content scriptContent, document.seen look = .file content ∧
      script.seen look = .file scriptContent ∧
      EveryCommandApplied content scriptContent := by
  unfold Request.report at h
  split at h
  · rename_i report hreport
    obtain ⟨content, hcontent, hreport⟩ := bind_eq_ok.mp hreport
    obtain ⟨scriptContent, hscript, hreport⟩ := bind_eq_ok.mp hreport
    obtain ⟨_, -, hreport⟩ := bind_eq_ok.mp hreport
    obtain rfl := Except.ok.inj hreport
    exact ⟨content, scriptContent, requireFile_eq_ok_iff.mp hcontent,
      requireFile_eq_ok_iff.mp hscript, everyCommandApplied_of_writes h⟩
  · simp [misused, Writes] at h

/-! ## Runs -/

/-- One use of the program. -/
structure Call where
  environment : Environment
  arguments : List String

namespace Call

/-- The report that is made in a tree; none if the arguments are a misuse. -/
def report? (call : Call) (tree : FileTree) : Option Report :=
  match Request.read call.environment call.arguments with
  | .error _ => none
  | .ok request => some (request.report tree.look)

/-- The failure with which a run is stopped at an action that meets something else under
its path, or at a torn text that it has emptied a file for. -/
def obstacle? (call : Call) (tree : FileTree) : Option Failure :=
  (call.report? tree).bind fun report => (tree.perform report.actions).2.2

/-- What the program does in a tree. -/
def run (call : Call) (tree : FileTree) : FileTree × Outcome :=
  CommandLine.run tree call.environment call.arguments

/-- A run that fails, and not because an action could not be carried out. -/
def Fails (call : Call) (tree : FileTree) : Prop :=
  (call.run tree).2.ending.status ≠ 0 ∧ call.obstacle? tree = none

variable {call : Call} {tree : FileTree}

theorem exists_request {report : Report} (h : call.report? tree = some report) :
    ∃ request, Request.read call.environment call.arguments = .ok request ∧
      request.report tree.look = report := by
  unfold report? at h
  cases hrequest : Request.read call.environment call.arguments with
  | error misuse => simp [hrequest] at h
  | ok request =>
      rw [hrequest] at h
      exact ⟨request, rfl, Option.some.inj h⟩

/-- A run carries out its report, up to an action that cannot be carried out. -/
theorem run_eq {report : Report} (h : call.report? tree = some report) :
    (call.run tree).1 = (tree.perform report.actions).1 ∧
      (call.obstacle? tree = none → (call.run tree).2.ending = report.ending) := by
  obtain ⟨request, hrequest, rfl⟩ := exists_request h
  rw [obstacle?, h, run, CommandLine.run, hrequest, Option.bind_some]
  dsimp only
  rcases hperform : tree.perform (request.report tree.look).actions
    with ⟨tree', said, _ | failure⟩
  · exact ⟨rfl, fun _ => rfl⟩
  · simp

theorem run_of_no_report (h : call.report? tree = none) : (call.run tree).1 = tree := by
  unfold report? at h
  cases hrequest : Request.read call.environment call.arguments with
  | error misuse => rw [run, CommandLine.run, hrequest]
  | ok request => simp [hrequest] at h

/-- A run that fails leaves all files. -/
theorem Fails.files (h : call.Fails tree) : (call.run tree).1.files = tree.files := by
  obtain ⟨hstatus, hobstacle⟩ := h
  cases hreport : call.report? tree with
  | none => rw [run_of_no_report hreport]
  | some report =>
      obtain ⟨htree, hending⟩ := run_eq hreport
      have hcareful : report.Careful := by
        obtain ⟨request, -, rfl⟩ := exists_request hreport
        exact report_careful _ _
      rw [htree]
      rcases hcareful with hfinished | hnone | hspoil
      · refine absurd ?_ hstatus
        rw [hending hobstacle, hfinished]
        rfl
      · exact FileTree.files_perform hnone tree
      · rw [obstacle?, hreport, Option.bind_some] at hobstacle
        exact absurd hobstacle (FileTree.perform_of_spoil hspoil tree)

/-- A run that changes files has a report that writes. -/
theorem writes_of_files_ne (h : (call.run tree).1.files ≠ tree.files) :
    ∃ report, call.report? tree = some report ∧ report.Writes := by
  cases hreport : call.report? tree with
  | none =>
      rw [run_of_no_report hreport] at h
      exact absurd rfl h
  | some report =>
      refine ⟨report, rfl, ?_⟩
      by_contra hnone
      rw [(run_eq hreport).1] at h
      refine h (FileTree.files_perform (fun action haction => ?_) tree)
      exact Bool.eq_false_iff.mpr fun hwrite => hnone ⟨action, haction, hwrite⟩

end Call

/-- The tree after one run after the other. -/
def treeAfter (tree : FileTree) : List Call → FileTree
  | [] => tree
  | call :: rest => treeAfter (call.run tree).1 rest

theorem treeAfter_append (tree : FileTree) (before after : List Call) :
    treeAfter tree (before ++ after) = treeAfter (treeAfter tree before) after := by
  induction before generalizing tree with
  | nil => rfl
  | cons call rest ih => exact ih _

/-- Runs that all fail leave all files. -/
theorem files_treeAfter {tree : FileTree} {calls : List Call}
    (h : ∀ done call rest, calls = done ++ call :: rest →
      call.Fails (treeAfter tree done)) :
    (treeAfter tree calls).files = tree.files := by
  induction calls generalizing tree with
  | nil => rfl
  | cons call rest ih =>
      have hfirst : call.Fails tree := h [] call rest rfl
      refine (ih fun done next more hrest => ?_).trans hfirst.files
      subst hrest
      exact h (call :: done) next more rfl

/-- A run that fails, after whatever runs, leaves the content of every file, and so
does a stretch of such runs. Files change only if the report writes, and a report on
a script writes only if every item of the script was read as a command and every
command was applied. -/
theorem files_of_failed_run (tree : FileTree) (before : List Call) (call : Call) :
    (call.Fails (treeAfter tree before) →
      (treeAfter tree (before ++ [call])).files = (treeAfter tree before).files) ∧
    (∀ failing, (∀ done next rest, failing = done ++ next :: rest →
      next.Fails (treeAfter tree (before ++ done))) →
      (treeAfter tree (before ++ failing)).files = (treeAfter tree before).files) ∧
    ((treeAfter tree (before ++ [call])).files ≠ (treeAfter tree before).files →
      ∃ report, call.report? (treeAfter tree before) = some report ∧ report.Writes) ∧
    ∀ document script output report,
      Request.read call.environment call.arguments =
        .ok (.applyScript document script output) →
      call.report? (treeAfter tree before) = some report → report.Writes →
      ∃ content scriptContent, document.seen (treeAfter tree before).look =
        .file content ∧
        script.seen (treeAfter tree before).look = .file scriptContent ∧
          EveryCommandApplied content scriptContent := by
  refine ⟨fun hfails => ?_, fun failing hfails => ?_, fun hchanged => ?_,
    fun document script output report hrequest hreport hwrites => ?_⟩
  · rw [treeAfter_append]
    exact hfails.files
  · rw [treeAfter_append]
    refine files_treeAfter fun done next rest hfailing => ?_
    rw [← treeAfter_append]
    exact hfails done next rest hfailing
  · rw [treeAfter_append] at hchanged
    exact Call.writes_of_files_ne hchanged
  · rw [Call.report?, hrequest, Option.some.injEq] at hreport
    subst hreport
    exact everyCommandApplied_of_report hwrites

/-- A tree with a document, a script of one command, a list that is no document, and a
file to write to. -/
def workTree : FileTree :=
  .directory [("spec.json", .file "\x7b\"openapi\": \"3.0.0\"\x7d"), ("script.yaml",
    .file "- type: ADD_TAG\n"), ("list.json", .file "[]"), ("out.json", .file "kept")]

/-- The script of that tree is a list of one object. -/
theorem readAnchored_script :
    Yaml.readAnchored (String.ofList (Text.withLineFeeds "- type: ADD_TAG\n".toList)) =
    .ok (.list [.marked none [(.str "type", .str "ADD_TAG")]]) := by
  have hcompose :
      Yaml.compose (String.ofList (Text.withLineFeeds "- type: ADD_TAG\n".toList)) =
      .ok (some (.sequence 9 .sequence [.mapping 7 .mapping [(.scalar 5 .str ['t', 'y',
      'p', 'e'], .scalar 3 .str ['A', 'D', 'D', '_', 'T', 'A', 'G'])]])) := rfl
  have hleaf : ∀ number,
      Yaml.DenotesLeaf (.str "type") (.scalar number .str ['t', 'y', 'p', 'e']) ∧
      Yaml.DenotesLeaf (.str "ADD_TAG")
        (.scalar number .str ['A', 'D', 'D', '_', 'T', 'A', 'G']) := fun number =>
    ⟨.scalar rfl (by simp) (by simp) (by decide +kernel),
      .scalar rfl (by simp) (by simp) (by decide +kernel)⟩
  have hsurvey : Yaml.survey (.sequence 9 .sequence [.mapping 7 .mapping
      [(.scalar 5 .str
        ['t', 'y', 'p', 'e'], .scalar 3 .str ['A', 'D', 'D', '_', 'T', 'A', 'G'])]]) =
        .ok () :=
    Yaml.survey_of_denotes
      (.list (.cons (.object (.cons (hleaf 5).1 (.scalar (hleaf 3).2) .nil)) .nil))
  rw [Yaml.readAnchored, Yaml.readMarked, hcompose, ok_bind]
  dsimp only
  rw [hsurvey, ok_bind]
  simp only [Yaml.valueOf, Yaml.itemValues, Yaml.memberValues, Yaml.entryValues]
  rfl

/-- Applying that script to the document of the tree makes a report that writes. -/
theorem reportScript_writes :
    (reportScript "\x7b\"openapi\": \"3.0.0\"\x7d" (.ofText "script.yaml")
      "- type: ADD_TAG\n" (.ofText "out.json")).Writes := by
  have hscript : loadScript (.ofText "script.yaml") "- type: ADD_TAG\n" =
      .ok [.tags .add] := by
    unfold loadScript
    rw [readAnchored_script]
    rfl
  have hdocument : (loadDocument "\x7b\"openapi\": \"3.0.0\"\x7d").toOption.any
      (fun document =>
      (Script.run [.tags .add] document).toOption.any fun pruned =>
        (Document.prunedContent (Path.ofText "out.json").text pruned).isOk) =
          true := by decide +kernel
  cases hload : loadDocument "\x7b\"openapi\": \"3.0.0\"\x7d" with
  | error failure => simp [hload, Except.toOption] at hdocument
  | ok document =>
      cases hrun : Script.run [.tags .add] document with
      | error fault => simp [hload, hrun, Except.toOption] at hdocument
      | ok pruned =>
          cases hcontent : Document.prunedContent (Path.ofText "out.json").text
            pruned with
          | error fault =>
              simp [hload, hrun, hcontent, Except.toOption, Except.isOk, Except.toBool]
                at hdocument
          | ok content =>
              unfold reportScript writePruned
              rw [hload, hscript]
              dsimp only [Report.ofExcept]
              rw [hrun, writes_after rfl]
              dsimp only [Report.ofExcept, orStop, Except.mapError]
              rw [hcontent]
              refine ⟨_, List.mem_cons_of_mem _ List.mem_cons_self, ?_⟩
              split <;> rfl

/-- In that tree the import of the list fails, and so does going back where nothing
was saved: all files are kept. The script is applied to the document, which has a
report that writes. -/
theorem files_of_failed_run_of_workTree :
    (treeAfter workTree [⟨.empty, ["import", "list.json", "-o", "out.json"]⟩,
      ⟨.empty, ["undo", "-o", "out.json"]⟩]).files = workTree.files ∧
      ∃ report, (Call.mk .empty ["apply", "spec.json", "script.yaml", "-o",
        "out.json"]).report? workTree = some report ∧
        report.Writes ∧ ∃ content scriptContent,
          (GivenPath.mk "spec.json").seen workTree.look = .file content ∧
          (GivenPath.mk "script.yaml").seen workTree.look = .file scriptContent ∧
          EveryCommandApplied content scriptContent := by
  have himport : (Call.mk .empty ["import", "list.json", "-o", "out.json"]).Fails
      workTree :=
    ⟨by decide +kernel, Option.isNone_iff_eq_none.mp (by decide +kernel)⟩
  have hundo : (Call.mk .empty ["undo", "-o", "out.json"]).Fails
      (treeAfter workTree [⟨.empty, ["import", "list.json", "-o", "out.json"]⟩]) :=
    ⟨by decide +kernel, Option.isNone_iff_eq_none.mp (by decide +kernel)⟩
  constructor
  · refine (files_of_failed_run workTree [] ⟨.empty, []⟩).2.1
      _ fun done next rest hcalls => ?_
    rcases done with _ | ⟨first, _ | ⟨second, done⟩⟩
    · obtain ⟨rfl, -⟩ := List.cons.inj hcalls
      exact himport
    · obtain ⟨rfl, htail⟩ := List.cons.inj hcalls
      obtain ⟨rfl, -⟩ := List.cons.inj htail
      exact hundo
    · simp at hcalls
  · have hrequest : Request.read .empty ["apply", "spec.json", "script.yaml", "-o",
        "out.json"] = .ok (.applyScript ⟨"spec.json"⟩ ⟨"script.yaml"⟩ ⟨"out.json"⟩) :=
      Request.read_of_arguments .applyScript ["spec.json", "script.yaml", "-o",
        "out.json"] ⟨[("output", "out.json")], ["spec.json", "script.yaml"]⟩
        (by decide +kernel) (by decide +kernel) (by decide)
    have hreport :
        (Call.mk .empty ["apply", "spec.json", "script.yaml", "-o", "out.json"]).report?
        workTree = some (reportScript "\x7b\"openapi\": \"3.0.0\"\x7d"
        (.ofText "script.yaml") "- type: ADD_TAG\n" (.ofText "out.json")) := by
      rw [Call.report?, hrequest]
      exact congrArg some
        (report_applyScript (by decide +kernel) (by decide +kernel) (by decide +kernel))
    exact ⟨_, hreport, reportScript_writes,
      (files_of_failed_run workTree [] ⟨.empty,
        ["apply", "spec.json", "script.yaml", "-o", "out.json"]⟩).2.2.2 ⟨"spec.json"⟩
        ⟨"script.yaml"⟩ ⟨"out.json"⟩ _ hrequest hreport reportScript_writes⟩

/-- A tree with a document that has a torn text, and a file to write to. -/
def tornTree : FileTree :=
  .directory [("torn.json", .file
    "\x7b\"openapi\": \"3.0.0\", \"x-a\": \"\\ud800\"\x7d"), ("out.json", .file "kept")]

/-- In that tree the import fails at the torn text, and what was in the file to
write to is lost. -/
theorem file_emptied_by_run :
    ((Call.mk .empty ["import", "torn.json", "-o", "out.json"]).run
      tornTree).2.ending.status ≠ 0 ∧
      (Call.mk .empty ["import", "torn.json", "-o", "out.json"]).obstacle? tornTree =
        some .torn ∧
      tornTree.look (.ofText "out.json") = .file "kept" ∧
      ((Call.mk .empty ["import", "torn.json", "-o", "out.json"]).run tornTree).1.look
        (.ofText "out.json") = .file "" :=
  ⟨by decide +kernel, by decide +kernel, by decide +kernel, by decide +kernel⟩

end ApiWorkbench.CommandLine
