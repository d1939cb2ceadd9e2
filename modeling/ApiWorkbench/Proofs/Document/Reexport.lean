import ApiWorkbench.Document.Import
import ApiWorkbench.Proofs.Document.ShapeKept

/-!
# Exporting, importing and exporting again

What is exported after an import is a document of the current format and in shape.
Importing it again completes it, and the next export prunes it to what it was: the same
members in the same order, at every depth.

An import ends with a complete document in shape, whether the text was of the
current format or was converted first. Its version is a text that begins as versions
of the current format do, and neither completing nor pruning touches it. Pruning
leaves at least title and version of the information about the document, since its
shape asks for both; so the exported document is pruned in the sense of `Pruned`,
and completion is undone.

## Main results

* `importText_spec`: what is known of an imported document.
* `reexport_eq_export`: an export is in shape and is the export of its own import.
* `importText_complete`: an imported document is complete and in shape.
* `importText_canonical`: what holds of every imported document.
-/

namespace ApiWorkbench.Document

open Shape

/-! ## The version of a document -/

/-- A document states a version of the current format, as a text. -/
def StatesVersion (ms : Members) : Prop :=
  ∃ v, Members.get? "openapi" ms = some v ∧ versionText v = v ∧
    versionBegins "3." v = true

/-- A version is no empty text. -/
theorem StatesVersion.filled {ms : Members} (h : StatesVersion ms) :
    Filled "openapi" (.str defaultVersion) ms := by
  obtain ⟨v, hget, htext, hbegins⟩ := h
  refine ⟨v, hget, fun hblank => ?_⟩
  unfold versionText at htext
  split at htext
  · simp [Tree.isBlank, Scalar.isBlank] at hblank
  · rw [← htext] at hblank hbegins
    obtain hempty : _ = "" := by simpa [Tree.isBlank, Scalar.isBlank] using hblank
    simp [versionBegins, hempty] at hbegins

theorem format?_of_statesVersion {ms : Members} (h : StatesVersion ms) :
    format? (.object ms) = some .current := by
  obtain ⟨v, hget, -, hbegins⟩ := h
  rw [format?, hget, Option.getD_some, hbegins, if_pos rfl]

/-- A version that is a text already is taken as it is. -/
theorem withTextVersion_of_statesVersion {ms : Members} (h : StatesVersion ms) :
    withTextVersion (.object ms) = .object ms := by
  obtain ⟨v, hget, htext, -⟩ := h
  rw [withTextVersion, hget]
  dsimp only
  rw [htext, Members.put_of_get? hget]

/-- The text that a version is begins like the version, and is one already. -/
private theorem versionText_of_begins {v : Value} (h : versionBegins "3." v = true) :
    versionText (versionText v) = versionText v ∧
    versionBegins "3." (versionText v) = true := by
  unfold versionBegins at h
  split at h
  · exact ⟨rfl, h⟩
  · exact ⟨rfl, h⟩
  · exact ⟨rfl, h⟩
  · contradiction

/-- A document of the current format states its version as a text when it has
been made one. -/
theorem withTextVersion_statesVersion {source : Value}
    (h : format? source = some .current) :
    ∃ ms, withTextVersion source = .object ms ∧ StatesVersion ms := by
  unfold format? at h
  split at h
  · rename_i ms
    split at h
    · rename_i hbegins
      cases hget : Members.get? "openapi" ms with
      | none => simp [hget, versionBegins] at hbegins
      | some v =>
          rw [hget, Option.getD_some] at hbegins
          obtain ⟨htext, htextBegins⟩ := versionText_of_begins hbegins
          exact
            ⟨Members.put "openapi" (versionText v) ms, by rw [withTextVersion, hget],
            versionText v, by simp, htext, htextBegins⟩
    · split at h
      · simp at h
      · simp at h
  · simp at h

/-- Completion leaves the version that a document states. -/
theorem complete_statesVersion {ms : Members} {result : Value} (hms : StatesVersion ms)
    (h : complete (.object ms) = .ok result) : ∃ ns, result = .object ns ∧
      StatesVersion ns := by
  rw [complete, Tree.members, pure_eq_ok, ok_bind] at h
  obtain ⟨ms₁, htags, h⟩ := bind_eq_ok.mp h
  obtain ⟨ms₂, hinfo, h⟩ := bind_eq_ok.mp h
  obtain ⟨ms₃, hcomponents, h⟩ := bind_eq_ok.mp h
  obtain ⟨ms₄, hpaths, h⟩ := bind_eq_ok.mp h
  obtain rfl := Except.ok.inj h
  have hget : Members.get? "openapi" ms₄ = Members.get? "openapi" ms := by
    rw [Members.get?_modifyM_of_ne (by decide) hpaths,
      Members.get?_modifyM_of_ne (by decide) hcomponents]
    rw [get?_fill_of_ne (by decide), get?_fill_of_ne (by decide), get?_fill_of_ne
      (by decide), get?_fill_of_ne (by decide), get?_fill_of_ne (by decide)]
    rw [Members.get?_modifyM_of_ne (by decide) hinfo, get?_fill_of_ne (by decide),
      Members.get?_modifyM_of_ne (by decide) htags]
  have hstates : StatesVersion ms₄ := by
    rw [StatesVersion, hget]
    exact hms
  exact ⟨_, by rw [fill_of_filled hstates.filled], hstates⟩

/-- Pruning leaves the version that a document states. -/
theorem prune_statesVersion {ms ns : Members} (hms : StatesVersion ms)
    (h : prune (.object ms) = .ok (.object ns)) :
    StatesVersion ns := by
  obtain ⟨ms₁, ms₂, ms₃, ms₄, hpaths, htags, hexternalDocs, hinfo, heq⟩ :=
    prune_eq_ok.mp h
  rw [(Tree.marked.inj heq).2, StatesVersion]
  rw [get?_dropEmptyComponents (by decide),
    get?_dropEmptyLists (by decide) (by decide) (by decide)]
  rw [Members.get?_modifyM_of_ne (by decide) hinfo, (actsAt_dropUnless _ _).get
    (by decide) hexternalDocs, Members.get?_modifyM_of_ne (by decide) htags,
    Members.get?_modifyM_of_ne (by decide) hpaths]
  exact hms

/-! ## Imported documents -/

theorem importing_eq_ok {α : Type} {result : Except Fault α} {a : α} :
    importing result = .ok a ↔ result = .ok a := by
  cases result with
  | error fault => simp [importing, Except.mapError]
  | ok b => simp [importing, Except.mapError]

theorem requireShape_eq_ok {document : Value} :
    requireShape document = .ok () ↔ Fits (.kind .document) document := by
  rw [Fits, Accepts, requireShape, Shape.documentProblems]
  split
  · simp_all
  · simp_all

/-- A converted document is complete and states the default version. -/
theorem convertDocument_spec {source document : Value}
    (h : Swagger.convertDocument source = .ok document) :
    complete document = .ok document ∧ ∃ ms, document = .object ms ∧
      StatesVersion ms := by
  obtain ⟨ms, -, h⟩ := bind_eq_ok.mp h
  obtain ⟨infoMembers, -, h⟩ := bind_eq_ok.mp h
  obtain ⟨info, -, h⟩ := bind_eq_ok.mp h
  obtain ⟨servers, -, h⟩ := bind_eq_ok.mp h
  obtain ⟨pathMembers, -, h⟩ := bind_eq_ok.mp h
  obtain ⟨paths, -, h⟩ := bind_eq_ok.mp h
  obtain ⟨definitions, -, h⟩ := bind_eq_ok.mp h
  obtain ⟨schemas, -, h⟩ := bind_eq_ok.mp h
  obtain ⟨parameterMembers, -, h⟩ := bind_eq_ok.mp h
  obtain ⟨parameters, -, h⟩ := bind_eq_ok.mp h
  obtain ⟨definitions', -, h⟩ := bind_eq_ok.mp h
  obtain ⟨schemes, -, h⟩ := bind_eq_ok.mp h
  refine ⟨complete_idempotent h,
    complete_statesVersion ⟨.str defaultVersion, ?_, rfl, ?_⟩ h⟩
  on_goal 2 => simp [versionBegins, defaultVersion]
  rw [List.filter_cons_of_pos (by rfl), List.map_cons, Members.get?_cons]
  simp

/-- What is done to a document of the current format once it is parsed. -/
theorem importText_of_current {text : String} {source : Value}
    (hparse : parse text = .ok source) (hformat : format? source = some .current) :
    importText text = requireShape (withTextVersion source) >>= fun _ =>
      importing (complete (withTextVersion source)) := by
  rw [importText, hparse, ok_bind, hformat]
  rfl

/-- A document of the legacy format is converted before. -/
theorem importText_of_legacy {text : String} {source : Value}
    (hparse : parse text = .ok source) (hformat : format? source = some .legacy) :
    importText text = importing (Swagger.convertDocument source) >>= fun document =>
      requireShape document >>= fun _ => importing (complete document) := by
  rw [importText, hparse, ok_bind, hformat]

/-- An import completes a document in shape that states a version of the current
format. -/
theorem importText_spec {text : String} {document : Value}
    (h : importText text = .ok document) :
    ∃ ms, Fits (.kind .document) (.object ms) ∧ StatesVersion ms ∧
      complete (.object ms) = .ok document := by
  have hsource := h
  obtain ⟨source, hparse, -⟩ := bind_eq_ok.mp hsource
  cases hformat : format? source with
  | none => simp [importText, hparse, hformat] at h
  | some format =>
      cases format with
      | current =>
          rw [importText_of_current hparse hformat] at h
          obtain ⟨_, hshape, h⟩ := bind_eq_ok.mp h
          obtain ⟨ms, heq, hstates⟩ := withTextVersion_statesVersion hformat
          rw [heq] at hshape h
          exact ⟨ms, requireShape_eq_ok.mp hshape, hstates, importing_eq_ok.mp h⟩
      | legacy =>
          rw [importText_of_legacy hparse hformat] at h
          obtain ⟨converted, hconverted, h⟩ := bind_eq_ok.mp h
          obtain ⟨_, hshape, h⟩ := bind_eq_ok.mp h
          obtain ⟨-, ms, rfl, hstates⟩ :=
            convertDocument_spec (importing_eq_ok.mp hconverted)
          exact ⟨ms, requireShape_eq_ok.mp hshape, hstates, importing_eq_ok.mp h⟩

/-- A document in shape has information that says something, if it has any
that is an object. -/
private theorem info_ne_nil {ms : Members} (h : Fits (.kind .document) (.object ms))
    {info : Members} (hget : Members.get? "info" ms = some (.object info)) :
    info ≠ [] := by
  have hshape : InShape .document ms := (fits_kind (by simp)).mp h
  have hfield : DocumentKind.optionalField "info" (.kind .info) ∈
      documentKinds.fields .document := by
    simp [documentKinds, DocumentKind.fields]
  rcases accepts_nullable.mp ((hshape.fields _ hfield).value _ hget) with hnull | hinfo
  · simp [Tree.isNull] at hnull
  · have hinShape : InShape .info info := (fits_kind (by simp)).mp hinfo
    have htitle : DocumentKind.requiredText "title" ∈ documentKinds.fields .info := by
      simp [documentKinds, DocumentKind.fields]
    rintro rfl
    have hrequired := (hinShape.fields _ htitle).required rfl
    simp [DocumentKind.requiredText] at hrequired

/-! ## The second export -/

/-- What is exported after an import is a document of the current format, in shape, and
the same comes out when it is completed and pruned once more, and when a text that holds
it is imported and exported. -/
theorem reexport_eq_export {text : String}
    {document exported : Value} (himport : importText text = .ok document)
    (hexport : prune document = .ok exported) :
    format? exported = some .current ∧ Shape.documentProblems exported = [] ∧
      (∃ completed, complete exported = .ok completed ∧
      prune completed = .ok exported) ∧
      ∀ again, parse again = .ok exported →
        ∃ imported, importText again = .ok imported ∧
          prune imported = .ok exported := by
  obtain ⟨source, hfits, hstates, hcomplete⟩ := importText_spec himport
  obtain ⟨ms, rfl, hms⟩ := complete_of_ok hcomplete
  obtain ⟨ms', heq, hstatesComplete⟩ := complete_statesVersion hstates hcomplete
  obtain rfl : ms = ms' := (Tree.marked.inj heq).2
  have hfitsExport := prune_accepted (complete_accepted hfits hcomplete) hexport
  obtain ⟨ps, rfl, hpruned⟩ := pruned_of_ok hms hexport
  have hstatesExport := prune_statesVersion hstatesComplete hexport
  obtain ⟨completed, hcompleted, hback⟩ :=
    prune_complete_of_pruned (hpruned fun _ => info_ne_nil hfitsExport)
  refine ⟨format?_of_statesVersion hstatesExport, hfitsExport,
    ⟨completed, hcompleted, hback⟩, ?_⟩
  intro again hparse
  refine ⟨completed, ?_, hback⟩
  rw [importText_of_current hparse (format?_of_statesVersion hstatesExport),
    withTextVersion_of_statesVersion hstatesExport, requireShape_eq_ok.mpr hfitsExport,
    ok_bind]
  exact importing_eq_ok.mpr hcompleted

/-- A document with shared parameters, repeated tags and a callback. -/
def sharingText : String :=
  "\x7b\"openapi\": \"3.0.0\", \"info\": \x7b\"title\": \"a\", \"version\": \"1\"\x7d, \"paths\": \x7b\"/a\": \x7b"
  ++ "\"parameters\": [\x7b\"name\": \"q\", \"in\": \"query\"\x7d], \"get\": \x7b\"tags\": [\"a\", \"a\"], "
  ++ "\"callbacks\": \x7b\"c\": \x7b\"/b\": \x7b\"post\": \x7b\x7d\x7d\x7d\x7d\x7d\x7d\x7d\x7d"

/-- A test that the document of a text passes tells that there is such a document. -/
theorem exists_of_importText (text : String) (passes : Value → Bool)
    (h : (importText text).toOption.any passes = true) :
    ∃ document, importText text = .ok document ∧ passes document = true := by
  cases himport : importText text with
  | error e => simp [himport, Except.toOption] at h
  | ok document => exact ⟨document, rfl, by simpa [himport, Except.toOption] using h⟩

/-- It is imported and exported. -/
theorem sharing_exported :
    ∃ document exported, importText sharingText = .ok document ∧
      prune document = .ok exported := by
  obtain ⟨document, himport, hprune⟩ := exists_of_importText sharingText
    (fun document => (prune document).isOk) (by decide +kernel)
  obtain ⟨exported, hexport⟩ := isOk_iff.mp hprune
  exact ⟨document, exported, himport, hexport⟩

/-- A document with shared parameters and a callback is exported, imported and
exported again. -/
theorem reexport_eq_export_of_sharing :
    ∃ document exported, importText sharingText = .ok document ∧
      prune document = .ok exported ∧
      format? exported = some .current ∧ Shape.documentProblems exported = [] ∧
      (∃ completed, complete exported = .ok completed ∧
      prune completed = .ok exported) ∧
      ∀ again, parse again = .ok exported →
        ∃ imported, importText again = .ok imported ∧
          prune imported = .ok exported := by
  obtain ⟨document, exported, himport, hexport⟩ := sharing_exported
  exact ⟨document, exported, himport, hexport, reexport_eq_export himport hexport⟩

/-! ## What an import guarantees -/

/-- The members that every operation of a complete document has. -/
def filledParts : List String :=
  ["tags", "parameters", "externalDocs"]

/-- An operation has the members that completion gives. -/
def HasFilledParts (op : Members) : Prop :=
  ∀ name ∈ filledParts, ∃ v, Members.get? (.str name) op = some v

theorem CompleteOperation.hasFilledParts {op : Members} (h : CompleteOperation op) :
    HasFilledParts op := by
  obtain ⟨tags, htags, -⟩ := h.tags
  obtain ⟨own, hown, -⟩ := h.parameters
  obtain ⟨externalDocs, hexternalDocs, -⟩ := h.externalDocs
  simp [HasFilledParts, filledParts, htags, hown, hexternalDocs]

/-- Properties of path items and operations that follow from others hold throughout
where those do. -/
theorem Throughout.imp {onItem onItem' onOperation onOperation' : Members → Prop}
    {paths : Members} (h : Throughout onItem onOperation paths)
    (hitem : ∀ item, onItem item → onItem' item)
    (hoperation : ∀ op, onOperation op → onOperation' op) :
    Throughout onItem' onOperation' paths where
  item item hwithin := hitem item (h.item item hwithin)
  operation item op hwithin hop := hoperation op (h.operation item op hwithin hop)

/-- An imported document is complete, states a version of the current format
and is in shape. -/
theorem importText_complete {text : String} {document : Value}
    (h : importText text = .ok document) :
    ∃ ms, document = .object ms ∧ Complete ms ∧ StatesVersion ms ∧
      Fits (.kind .document) (.object ms) := by
  obtain ⟨source, hfits, hstates, hcomplete⟩ := importText_spec h
  obtain ⟨ms, rfl, hms⟩ := complete_of_ok hcomplete
  obtain ⟨ms', heq, hstates'⟩ := complete_statesVersion hstates hcomplete
  obtain rfl : ms = ms' := (Tree.marked.inj heq).2
  exact ⟨ms, rfl, hms, hstates', complete_accepted hfits hcomplete⟩

/-- An imported document is left alone by completion, has the shape of a document and is
of the current format. None of its path items, at any callback depth, shares parameters
any more, and every operation has tags, parameters and external documents. What is
accepted before completion is accepted after it. -/
theorem importText_canonical {text : String} {document : Value}
    (h : importText text = .ok document) :
    complete document = .ok document ∧ Shape.documentProblems document = [] ∧
      format? document = some .current ∧
      (∃ ms paths, document = .object ms ∧
        Members.get? "paths" ms = some (.object paths) ∧
        Throughout (fun item => Members.get? "parameters" item = none)
          HasFilledParts paths) ∧
      ∀ accepted completed, Shape.documentProblems accepted = [] →
        complete accepted = .ok completed →
        Shape.documentProblems completed = [] := by
  obtain ⟨ms, rfl, hms, hstates, hfits⟩ := importText_complete h
  obtain ⟨paths, hpaths, hcompletePaths⟩ := hms.paths
  refine ⟨complete_fixed hms, hfits, format?_of_statesVersion hstates, ?_, ?_⟩
  · exact ⟨ms, paths, rfl, hpaths,
      hcompletePaths.imp (fun _ hitem => hitem) fun _ hop => hop.hasFilledParts⟩
  · intro accepted completed haccepted hcompleted
    exact complete_accepted haccepted hcompleted

/-- The import of a document with shared parameters and a callback. -/
theorem importText_canonical_of_sharing :
    ∃ document, importText sharingText = .ok document ∧
      complete document = .ok document ∧ Shape.documentProblems document = [] ∧
        format? document = some .current ∧
      (∃ ms paths, document = .object ms ∧
        Members.get? "paths" ms = some (.object paths) ∧
        Throughout (fun item => Members.get? "parameters" item = none)
          HasFilledParts paths) ∧
      ∀ accepted completed, Shape.documentProblems accepted = [] →
        complete accepted = .ok completed →
        Shape.documentProblems completed = [] := by
  obtain ⟨document, -, himport, -⟩ := sharing_exported
  exact ⟨document, himport, importText_canonical himport⟩

end ApiWorkbench.Document
