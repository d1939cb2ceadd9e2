import ApiWorkbench.Proofs.CommandLine.FailedRuns
import ApiWorkbench.Proofs.CommandLine.Places

/-!
# Runs that export a document

An import and an undo both end with the export of a document: its content is made, the
directories of the output are made, and the content is written. Either run delivers the
content if there is one that a file can hold and if it can be put in the tree, and it
ends well in no other case.

## Main results

* `Exports.delivers_iff`, `Exports.status_iff`: when a run that exports
  something delivers it.
* `exports_writeDocument`: what a run exports that writes a document.
* `exports_importDocument`: what an import exports.
-/

namespace ApiWorkbench.CommandLine

open Editor FileTree Report

variable {tree : FileTree} {call : Call} {output : Path} {result : Except Fault String}
  {content : String}

/-! ## Reports -/

namespace Report

/-- A report that writes a content, if there is one. -/
def deliver (result : Except Fault String) (output : Path) (said : String) : Report :=
  .ofExcept (orStop result) fun content =>
    ⟨[.makeDirectories output.parent .stopped, .write output content .stopped,
      .say said], .finished⟩

/-- A report that says something first. -/
def saying (lines : List String) (report : Report) : Report :=
  { report with actions := lines.map .say ++ report.actions }

end Report

/-- What a file of the given name holds after a document was exported to it. -/
def exported (name : String) (document : Value) : Except Fault String := do
  let pruned ← Document.prune document
  let content ← Document.prunedContent name pruned
  if Document.fitsFile name pruned then pure content else throw .torn

namespace FileTree

/-- What is said does not matter for a tree. -/
theorem perform_saying (lines : List String) (actions : List Action) (tree : FileTree) :
    (tree.perform (lines.map .say ++ actions)).1 = (tree.perform actions).1 ∧
      (tree.perform (lines.map .say ++ actions)).2.2 = (tree.perform actions).2.2 := by
  induction lines with
  | nil => exact ⟨rfl, rfl⟩
  | cons line rest ih => exact ih

/-- Making directories and writing a file puts it in the tree. -/
theorem perform_of_held {held : FileTree} (h : tree.hold? output content = some held)
    (said : String) (otherwise : Failure) :
    tree.perform [.makeDirectories output.parent otherwise,
      .write output content otherwise, .say said] = (held, [said], none) := by
  obtain ⟨made, hmade, hwrite⟩ := Option.bind_eq_some_iff.mp h
  rw [FileTree.perform, hmade]
  dsimp only
  rw [FileTree.perform, hwrite]
  rfl

theorem perform_of_not_held (h : tree.hold? output content = none) (said : String)
    (otherwise : Failure) :
    (tree.perform [.makeDirectories output.parent otherwise,
      .write output content otherwise, .say said]).2.2 = some otherwise := by
  rw [FileTree.perform]
  cases hmade : tree.makeDirectories? output.parent with
  | none => rfl
  | some made =>
      rw [hold?, hmade, Option.bind_some] at h
      dsimp only
      rw [FileTree.perform, h]

end FileTree

/-! ## Runs -/

theorem Ending.status_eq_zero_iff {ending : Ending} :
    ending.status = 0 ↔ ending = .finished := by
  cases ending <;> simp [Ending.status]

namespace Call

/-- A run ends well if its report finishes and nothing is in its way. -/
theorem status_eq_zero_iff {report : Report} (h : call.report? tree = some report) :
    (call.run tree).2.ending.status = 0 ↔ (tree.perform report.actions).2.2 = none ∧
      report.ending = .finished := by
  obtain ⟨request, hrequest, rfl⟩ := exists_request h
  rw [run, CommandLine.run, hrequest, Ending.status_eq_zero_iff]
  dsimp only
  rcases tree.perform (request.report tree.look).actions with ⟨tree', said, _ | failure⟩
  · simp
  · simp

/-- A run ends well and leaves a content under a path. -/
def Delivers (call : Call) (tree : FileTree) (output : Path)
    (content : String) : Prop :=
  (call.run tree).2.ending.status = 0 ∧ (call.run tree).1.look output = .file content

/-- The report of a run writes the content that there is, or fails where there is none
or where no file can be put. -/
inductive Exports (call : Call) (tree : FileTree) (output : Path)
    (result : Except Fault String) : Prop where
  | delivers (lines : List String) (said : String)
      (h : call.report? tree = some (saying lines (deliver result output said)))
  | fails (hstatus : (call.run tree).2.ending.status ≠ 0) (hnone : tree.CanHold output →
      ¬ Succeeds result)

/-- A run that exports something puts it in the tree, or fails where there is none or
where no file can be put. -/
theorem Exports.held_or_failed (h : call.Exports tree output result) :
    (∃ content, result = .ok content ∧
      tree.hold? output content = some (call.run tree).1 ∧
        (call.run tree).2.ending.status = 0) ∨
      (call.run tree).2.ending.status ≠ 0 ∧
        (tree.CanHold output → ¬ Succeeds result) := by
  cases h with
  | fails hstatus hnone => exact .inr ⟨hstatus, hnone⟩
  | delivers lines said h =>
      have hstatus := status_eq_zero_iff h
      have htree := (run_eq h).1
      simp only [saying, (perform_saying lines _ tree).1,
        (perform_saying lines _ tree).2] at hstatus htree
      cases result with
      | error fault =>
          refine .inr ⟨fun hzero =>
            ?_, fun _ ⟨content, hcontent⟩ => by simp at hcontent⟩
          have hfinished := (hstatus.mp hzero).2
          contradiction
      | ok content =>
          cases hhold : tree.hold? output content with
          | none =>
              refine .inr ⟨fun hzero => ?_, fun hcan => ?_⟩
              · have hfailed := (perform_of_not_held hhold said .stopped).symm.trans
                  (hstatus.mp hzero).1
                contradiction
              · obtain ⟨held, hsome⟩ := (exists_hold?_iff content).mpr hcan
                rw [hhold] at hsome
                contradiction
          | some held =>
              have hperform := perform_of_held hhold said .stopped
              refine .inl ⟨content, rfl, ?_,
                hstatus.mpr ⟨congrArg (·.2.2) hperform, rfl⟩⟩
              rw [htree, hhold]
              exact congrArg (some ·.1) hperform.symm

/-- A run that exports something delivers it if it can be put in the tree. -/
theorem Exports.delivers_iff (h : call.Exports tree output result) :
    call.Delivers tree output content ↔ tree.CanHold output ∧ result = .ok content := by
  rcases h.held_or_failed with ⟨exported, rfl, hheld, hstatus⟩ | ⟨hstatus, hnone⟩
  · have hlook := look_of_hold? hheld
    have hcan := (exists_hold?_iff exported).mp ⟨_, hheld⟩
    rw [Delivers, hlook]
    simp [hstatus, hcan]
  · exact iff_of_false (fun hdelivers => hstatus hdelivers.1) fun ⟨hcan, hresult⟩ =>
      hnone hcan ⟨content, hresult⟩

/-- It ends well if there is something to deliver and it can be put in the tree. -/
theorem Exports.status_iff (h : call.Exports tree output result) :
    (call.run tree).2.ending.status = 0 ↔ tree.CanHold output ∧ Succeeds result := by
  rcases h.held_or_failed with ⟨exported, rfl, hheld, hstatus⟩ | ⟨hstatus, hnone⟩
  · have hcan := (exists_hold?_iff exported).mp ⟨_, hheld⟩
    exact iff_of_true hstatus ⟨hcan, succeeds_ok exported⟩
  · exact iff_of_false hstatus fun ⟨hcan, hresult⟩ => hnone hcan hresult

end Call

/-- What a run exports that writes a document. A torn text makes it fail once the
file is empty. -/
theorem exports_writeDocument {document : Value} (lines : List String) (said : String)
    (h : call.report? tree = some (saying lines (writeDocument document output said))) :
    call.Exports tree output (exported output.text document) := by
  unfold writeDocument writePruned at h
  unfold exported
  cases hprune : Document.prune document with
  | error fault =>
      rw [hprune] at h
      exact .delivers lines said h
  | ok pruned =>
      rw [hprune] at h
      dsimp only [orStop, Except.mapError, Report.ofExcept] at h
      rw [ok_bind]
      cases hcontent : Document.prunedContent output.text pruned with
      | error fault =>
          rw [hcontent] at h
          exact .delivers lines said h
      | ok content =>
          rw [hcontent] at h
          rw [ok_bind]
          dsimp only at h
          split
          · rename_i hfits
            rw [if_pos hfits] at h
            exact .delivers lines (said ++ output.text) h
          · rename_i hfits
            rw [if_neg hfits] at h
            refine .fails (fun hstatus => ?_) fun _ ⟨content, hnone⟩ => nomatch hnone
            refine perform_of_spoil ?_ tree ((Call.status_eq_zero_iff h).mp hstatus).1
            exact ⟨.spoil output .stopped, by simp [saying], rfl⟩

/-! ## Importing -/

variable {spec : GivenPath} {document : Value}

theorem allowFile_of_canHold {out : GivenPath} (h : tree.CanHold out.path) :
    allowFile tree.look out = .ok () := by
  refine allowFile_eq_ok_iff.mpr fun hseen => h.look_ne_directory ?_
  unfold GivenPath.seen at hseen
  split at hseen
  · contradiction
  · split at hseen
    · split at hseen <;> contradiction
    · exact hseen

/-- A run whose request is a misuse if a directory is where the output belongs has to be
looked at only if none is. -/
theorem Call.Exports.of_allowFile {request : Request} {out : GivenPath}
    (hrequest : Request.read call.environment call.arguments = .ok request)
    (hmisused : ∀ misuse, allowFile tree.look out = .error misuse →
      request.report tree.look = misused misuse)
    (hallowed : allowFile tree.look out = .ok () →
      call.report? tree = some (request.report tree.look) →
      call.Exports tree out.path result) : call.Exports tree out.path result := by
  have hreport : call.report? tree = some (request.report tree.look) := by
    rw [Call.report?, hrequest]
  cases hallow : allowFile tree.look out with
  | error misuse =>
      refine .fails (fun hstatus => ?_) fun hcan => ?_
      · have hfinished := ((Call.status_eq_zero_iff hreport).mp hstatus).2
        rw [hmisused misuse hallow] at hfinished
        cases hfinished
      rw [allowFile_of_canHold hcan] at hallow
      contradiction
  | ok allowed => exact hallowed hallow hreport

theorem exists_formatOfText {text : String}
    (h : Document.importText text = .ok document) :
    ∃ format, Document.formatOfText text = .ok format := by
  unfold Document.importText at h
  obtain ⟨source, hsource, -⟩ := bind_eq_ok.mp h
  unfold Document.formatOfText
  rw [hsource]
  exact ⟨_, rfl⟩

/-- What an import exports. -/
theorem exports_importDocument {out : GivenPath}
    (hrequest : Request.read call.environment call.arguments =
      .ok (.importDocument spec out))
    (hspec : spec.seen tree.look = .file content)
    (himport : Document.importFile content = .ok document) :
    call.Exports tree out.path (exported out.path.text document) := by
  refine .of_allowFile hrequest (fun misuse hmisuse => ?_) fun hallow hreport => ?_
  · rw [Request.report, Request.reportOrMisuse, requireFile_eq_ok_iff.mpr hspec,
      ok_bind, hmisuse]
    rfl
  · obtain ⟨format, hformat⟩ := exists_formatOfText himport
    have hload : loadDocument content = .ok document := by
      rw [loadDocument, himport]
      rfl
    let name := (format.map Document.Format.name).getD "invalid"
    refine exports_writeDocument [s!"Reading {spec.path.text} (format: {name})..."]
      "Specification saved to " ?_
    rw [hreport, Request.report, Request.reportOrMisuse,
      requireFile_eq_ok_iff.mpr hspec, ok_bind, hallow, ok_bind]
    dsimp only [pure_eq_ok]
    rw [reportImport, hformat]
    dsimp only [orStop, Except.mapError, Report.ofExcept]
    rw [hload]
    rfl

end ApiWorkbench.CommandLine
