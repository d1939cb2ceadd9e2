import ApiWorkbench.Editor.Session
import ApiWorkbench.Proofs.Editor.Edit
import ApiWorkbench.Proofs.Json.RoundTrip

/-!
# Sessions as a machine

A session keeps its store as text, in memory or on disk. Seen from outside it is a
machine that holds three documents: the one that is edited, the snapshot to go back to,
and the one that is stored. Saving stores the image of the document under writing and
reading, which is the document itself if its names are different texts; where a command
has made other names, it is what JSON leaves of them. Sessions behave like this machine
at every step of every run that starts with an empty store.

The two stores part at torn texts. In memory they are kept as escapes; a file cannot
hold them, and it has been emptied by the time this is noticed.

## Main results

* `step_simulates`: a step of a session and a step of the machine end alike and lead to
  corresponding states.
* `session_follows_machine`: a run of a session shows what a run of the machine shows,
  and the same over both stores if no torn document is saved.
* `stored_differs_from_document`: what is stored need not be the document, even
  though all that was given to the session has texts for names; and the stores need
  not end a step alike.
-/

namespace ApiWorkbench.Editor

/-! ## Steps of a session -/

namespace Session

/-- What can be done in a session. -/
inductive Step where
  | dispatch (commands : List (Command Unit))
  | save
  | undo
  /-- a new session over the same store, with the sample if no document is given -/
  | restart (document : Option Members)
  | clear
  | read

/-- How a step ended. -/
inductive Outcome where
  | done
  | failed (cause : Store.Failure)
  | shown (stored : Option Value)

/-- A session after a step. One that fails leaves what was done before it failed. -/
def step (session : Session) : Step → Session × Outcome
  | .dispatch commands =>
    match session.dispatchAll commands with
    | (session, none) => (session, .done)
    | (session, some fault) => (session, .failed (.fault fault))
  | .save =>
    match session.save with
    | (session, none) => (session, .done)
    | (session, some failure) => (session, .failed failure)
  | .undo =>
    match session.undo with
    | .ok session => (session, .done)
    | .error fault => (session, .failed (.fault fault))
  | .restart document => (session.restart (document.map .object), .done)
  | .clear =>
    match session.clear with
    | .ok session => (session, .done)
    | .error failure => (session, .failed failure)
  | .read =>
    match session.store.read with
    | .ok stored => (session, .shown stored)
    | .error fault => (session, .failed (.fault fault))

/-- What is seen after a step. -/
structure Observation where
  document : Value
  snapshot : Option Value
  outcome : Outcome

/-- What is seen after each step of a run. -/
def run (session : Session) : List Step → List Observation
  | [] => []
  | step :: rest =>
    let (next, outcome) := session.step step
    ⟨next.state.document, next.state.snapshot, outcome⟩ :: next.run rest

end Session

/-! ## The machine -/

/-- The document that is edited, the snapshot and the document that is stored. -/
structure Machine extends State Unit where
  stored : Option Value

namespace Machine

open Session

/-- The machine with nothing stored. -/
def start (document : Option Members) : Machine :=
  ⟨(document.map fun ms => State.ofDocument (.object ms)).getD .initial, none⟩

/-- The state after the commands of a script, up to the first that fails. -/
def applyUntil (state : State Unit) : List (Command Unit) → State Unit × Option Fault
  | [] => (state, none)
  | command :: rest =>
    match state.apply command with
    | .ok state => applyUntil state rest
    | .error fault => (state, some fault)

/-- The machine after its document was given to a store, which holds the image of the
document after it if it can hold it, and nothing if it notices too late that it
cannot. -/
def save (medium : Store.Medium) (machine : Machine) : Machine × Outcome :=
  let machine := { machine with snapshot := some machine.document }
  match Json.image machine.document with
  | .ok stored =>
    if medium.holds machine.document then
      ({ machine with stored := some stored }, .done)
    else ({ machine with stored := none }, .failed (.fault .torn))
  | .error fault => (machine, .failed (.fault fault))

/-- The machine after a step. -/
def step (medium : Store.Medium) (machine : Machine) : Step → Machine × Outcome
  | .dispatch commands =>
    match applyUntil machine.toState commands with
    | (state, none) => ({ machine with toState := state }, .done)
    | (state, some fault) => ({ machine with toState := state }, .failed (.fault fault))
  | .save => machine.save medium
  | .undo =>
    match machine.stored.or machine.snapshot with
    | some document =>
      match Document.complete document with
      | .ok document => ({ machine with document }, .done)
      | .error fault => (machine, .failed (.fault fault))
    | none => (machine, .done)
  | .restart document => ({ start document with stored := machine.stored }, .done)
  | .clear => ({ machine with stored := none }, .done)
  | .read => (machine, .shown machine.stored)

/-- What is seen after each step of a run. -/
def run (medium : Store.Medium) (machine : Machine) : List Step → List Observation
  | [] => []
  | step :: rest =>
    let (next, outcome) := machine.step medium step
    ⟨next.document, next.snapshot, outcome⟩ :: next.run medium rest

/-- A run over a store in memory in which no document with a torn text is saved. -/
def SavesWhole (machine : Machine) : List Step → Prop
  | [] => True
  | step :: rest =>
    (step = .save → machine.document.isWhole = true) ∧
      (machine.step .memory step).1.SavesWhole rest

end Machine

/-! ## Documents stay objects -/

/-- All documents of a state are objects. -/
structure State.HoldsObjects (state : State Unit) : Prop where
  document : ∃ ms, state.document = .object ms
  snapshot : ∀ v, state.snapshot = some v → ∃ ms, v = .object ms

private theorem object_of_complete {v completed : Value}
    (h : Document.complete v = .ok completed) :
    ∃ ms, completed = .object ms := by
  unfold Document.complete at h
  simp only [bind_eq_ok] at h
  obtain ⟨_, -, _, -, _, -, _, -, _, -, h⟩ := h
  exact ⟨_, (Except.ok.inj h).symm⟩

private theorem accept_holdsObjects {state state' : State Unit}
    {v : Value} (hstate : state.HoldsObjects) (h : state.accept .plain v = .ok state') :
    state'.HoldsObjects := by
  obtain ⟨completed, hcomplete, h⟩ := bind_eq_ok.mp h
  obtain rfl := Except.ok.inj h
  exact ⟨object_of_complete hcomplete, hstate.snapshot⟩

private theorem edit_holdsObjects {state state' : State Unit}
    {e : Edit Unit} (hstate : state.HoldsObjects) (h : state.edit e = .ok state') :
    state'.HoldsObjects := by
  rcases State.edit_cases h with rfl | ⟨ms, ns, -, -, rfl⟩
  · exact hstate
  · exact ⟨⟨ns, rfl⟩, hstate.snapshot⟩

/-- No command makes a document anything but an object. -/
theorem apply_holdsObjects {state state' : State Unit} {command : Command Unit}
    (hstate : state.HoldsObjects) (h : state.apply command = .ok state') :
    state'.HoldsObjects := by
  unfold State.apply State.applyWith at h
  split at h
  · obtain rfl := Except.ok.inj h
    exact hstate
  · cases command with
    | setDocument document => exact accept_holdsObjects hstate h
    | saveSnapshot =>
        obtain rfl := Except.ok.inj h
        refine ⟨hstate.document, fun v hv => ?_⟩
        obtain rfl := Option.some.inj hv
        exact hstate.document
    | undo =>
        dsimp only [State.goBack] at h
        split at h
        · exact accept_holdsObjects hstate h
        · obtain rfl := Except.ok.inj h
          exact hstate
    | loadSample =>
        obtain rfl := Except.ok.inj h
        exact ⟨⟨_, rfl⟩, hstate.snapshot⟩
    | reset =>
        obtain rfl := Except.ok.inj h
        exact ⟨⟨_, rfl⟩, hstate.snapshot⟩
    | _ => exact edit_holdsObjects hstate h

private theorem start_holdsObjects (document : Option Members) :
    (Machine.start document).HoldsObjects := by
  cases document with
  | none =>
      exact ⟨⟨_, rfl⟩,
        fun v hv => by simp [Machine.start, State.initial, State.ofDocument] at hv⟩
  | some ms =>
      exact ⟨⟨ms, rfl⟩, fun v hv => by simp [Machine.start, State.ofDocument] at hv⟩

/-! ## The store -/

namespace Store

/-- Nothing stands in the place of a snapshot but a text. -/
def Free (store : Store) : Prop :=
  store.contents = .nothing ∨ ∃ text, store.contents = .text text

/-- A document that has a text is written where nothing is in the way. -/
theorem write_of_free {store : Store} (hfree : store.Free) (document : Value) :
    store.write document =
      match encode store.medium document with
      | .ok text =>
        if store.medium.holds document then (store.withText text, none)
        else (store.withText "", some (.fault .torn))
      | .error failure => (store, some failure) := by
  unfold write
  rcases hfree with hnothing | ⟨old, hold⟩
  · rw [hnothing]
    cases encode store.medium document <;> rfl
  · rw [hold]
    cases encode store.medium document <;> rfl

/-- An empty text stands for no document. -/
theorem decode_empty : decode "" = .ok none := rfl

/-- The text of a document that a store holds stands for the document's image. -/
theorem carries_of_holds {medium : Medium} {document : Value}
    (h : medium.holds document = true) :
    medium.layout.Carries document := by
  cases medium with
  | memory => exact .inl rfl
  | disk => exact .inr h

/-- An object that has an image is encoded as a text, which stands for the image where
the store can hold the object. -/
private theorem encode_of_image (medium : Medium) {ms : Members} {v : Value}
    (himage : Json.image (.object ms) = .ok v) :
    ∃ text, encode medium (.object ms) = .ok text ∧
      (medium.holds (.object ms) = true → decode text = .ok (some v)) := by
  obtain ⟨text, hwrite, hread⟩ :=
    (Json.write_agrees medium.layout (.object ms)).ok_right himage
  obtain ⟨ns, rfl⟩ := Json.object_of_image himage
  refine ⟨text, ?_, fun hholds => ?_⟩
  · rw [encode, hwrite]
    rfl
  · rw [decode, hread (carries_of_holds hholds)]
    rfl

/-- An object that has an image is written as a text that stands for the image. -/
theorem write_of_image {store : Store} (hfree : store.Free) {ms : Members} {v : Value}
    (himage : Json.image (.object ms) = .ok v)
    (hholds : store.medium.holds (.object ms) = true) :
    ∃ text, store.write (.object ms) = (store.withText text, none) ∧
      decode text = .ok (some v) := by
  obtain ⟨text, hencode, hdecode⟩ := encode_of_image store.medium himage
  refine ⟨text, ?_, hdecode hholds⟩
  rw [write_of_free hfree, hencode]
  exact if_pos hholds

/-- An object that has an image but cannot be held leaves an empty text. -/
theorem write_of_torn {store : Store} (hfree : store.Free) {ms : Members} {v : Value}
    (himage : Json.image (.object ms) = .ok v)
    (hholds : ¬ store.medium.holds (.object ms) = true) :
    store.write (.object ms) = (store.withText "", some (.fault .torn)) := by
  obtain ⟨text, hencode, -⟩ := encode_of_image store.medium himage
  rw [write_of_free hfree, hencode]
  exact if_neg hholds

/-- An object without an image is not written. -/
theorem write_of_no_image {store : Store} (hfree : store.Free) {ms : Members}
    {fault : Fault} (himage : Json.image (.object ms) = .error fault) :
    store.write (.object ms) = (store, some (.fault fault)) := by
  have hwrite := (Json.write_agrees store.medium.layout (.object ms)).error_right himage
  have hencode : encode store.medium (.object ms) = .error (.fault fault) := by
    rw [encode, hwrite]
    rfl
  rw [write_of_free hfree, hencode]

end Store

/-! ## Sessions follow the machine -/

/-- A session and a machine that look alike from outside: the store has a text for what
the machine has stored. An empty file is a text for nothing. -/
structure Simulates (medium : Store.Medium) (session : Session) (machine : Machine) :
    Prop where
  medium : session.store.medium = medium
  state : session.state = machine.toState
  objects : machine.toState.HoldsObjects
  contents : (session.store.contents = .nothing ∧ machine.stored = none) ∨
    ∃ text, session.store.contents = .text text ∧ Store.decode text = .ok machine.stored

section

variable {medium : Store.Medium} {session : Session} {machine : Machine}

theorem Simulates.free (h : Simulates medium session machine) : session.store.Free := by
  rcases h.contents with ⟨hnothing, -⟩ | ⟨text, htext, -⟩
  · exact .inl hnothing
  · exact .inr ⟨text, htext⟩

theorem Simulates.read (h : Simulates medium session machine) :
    session.store.read = .ok machine.stored := by
  unfold Store.read
  rcases h.contents with ⟨hnothing, hstored⟩ | ⟨text, htext, hdecode⟩
  · rw [hnothing, hstored]
    rfl
  · rw [htext]
    exact hdecode

/-- Scripts change both in the same way, and fail at the same command. -/
theorem dispatchAll_simulates (h : Simulates medium session machine)
    (commands : List (Command Unit)) :
    (session.dispatchAll commands).2 = (Machine.applyUntil machine.toState commands).2 ∧
      Simulates medium (session.dispatchAll commands).1
        { machine with
          toState := (Machine.applyUntil machine.toState commands).1 } := by
  induction commands generalizing session machine with
  | nil => exact ⟨rfl, h⟩
  | cons command rest ih =>
      unfold Session.dispatchAll Machine.applyUntil Session.dispatch
      rw [h.state]
      cases happly : machine.toState.apply command with
      | error fault => exact ⟨rfl, h⟩
      | ok state =>
          have hnext : Simulates medium { session with state }
              { machine with toState := state } :=
            ⟨h.medium, rfl, apply_holdsObjects h.objects happly, h.contents⟩
          exact ih hnext

/-- Saving gives the store a text for the image of the document, empties it or leaves
it. -/
theorem save_simulates (h : Simulates medium session machine) :
    (session.step .save).2 = (machine.save medium).2 ∧
      Simulates medium (session.step .save).1 (machine.save medium).1 := by
  obtain ⟨ms, hms⟩ := h.objects.document
  have hobjects : State.HoldsObjects
      { machine.toState with snapshot := some machine.document } := by
    refine ⟨h.objects.document, fun v hv => ?_⟩
    obtain rfl := Option.some.inj hv
    exact h.objects.document
  simp only [Session.step, Session.save, Machine.save, State.remember, h.state, hms]
  cases himage : Json.image (.object ms) with
  | ok v =>
      dsimp only
      by_cases hholds : medium.holds (.object ms) = true
      · obtain ⟨text, hwrite, hdecode⟩ :=
          Store.write_of_image h.free himage (h.medium ▸ hholds)
        rw [hwrite, if_pos hholds]
        exact ⟨rfl, h.medium, rfl, hms ▸ hobjects, .inr ⟨text, rfl, hdecode⟩⟩
      · rw [Store.write_of_torn h.free himage (h.medium ▸ hholds), if_neg hholds]
        exact ⟨rfl, h.medium, rfl, hms ▸ hobjects, .inr ⟨"", rfl, Store.decode_empty⟩⟩
  | error fault =>
      rw [Store.write_of_no_image h.free himage]
      exact ⟨rfl, h.medium, rfl, hms ▸ hobjects, h.contents⟩

private theorem complete_simulates (h : Simulates medium session machine)
    {v completed : Value} (hcomplete : Document.complete v = .ok completed) :
    Simulates medium { session with state := machine.toState.withDocument completed }
      { machine with document := completed } :=
  ⟨h.medium, rfl, ⟨object_of_complete hcomplete, h.objects.snapshot⟩, h.contents⟩

private theorem undo_eq (h : Simulates medium session machine) :
    session.undo = match machine.stored.or machine.snapshot with
      | some v => do
          pure { session with
            state := machine.toState.withDocument (← Document.complete v) }
      | none => pure session := by
  have hundo : ∀ state : State Unit,
      state.apply .undo = state.goBack .plain := fun _ => rfl
  simp only [Session.undo, h.read, ok_bind]
  cases machine.stored with
  | some v =>
      simp only [State.accept, Handling.plain, id, h.state, Option.some_or]
      cases Document.complete v <;> rfl
  | none =>
      simp only [Session.dispatch, hundo, State.goBack, h.state, Option.none_or]
      cases machine.snapshot with
      | none => rw [pure_eq_ok, ok_bind, pure_eq_ok, pure_eq_ok, ← h.state]
      | some v =>
          simp only [State.accept, Handling.plain, id]
          cases Document.complete v <;> rfl

/-- Going back takes what is stored, or else the snapshot. -/
theorem undo_simulates (h : Simulates medium session machine) :
    (session.step .undo).2 = (machine.step medium .undo).2 ∧
      Simulates medium (session.step .undo).1 (machine.step medium .undo).1 := by
  simp only [Session.step, undo_eq h, Machine.step]
  cases machine.stored.or machine.snapshot with
  | none => exact ⟨rfl, h⟩
  | some v =>
      dsimp only
      cases hcomplete : Document.complete v with
      | error fault => exact ⟨rfl, h⟩
      | ok completed => exact ⟨rfl, complete_simulates h hcomplete⟩

/-- A step of a session ends as one of the machine does, and leads to states that
look alike again. -/
theorem step_simulates (h : Simulates medium session machine) (step : Session.Step) :
    (session.step step).2 = (machine.step medium step).2 ∧
      Simulates medium (session.step step).1 (machine.step medium step).1 := by
  cases step with
  | dispatch commands =>
      have hdispatch := dispatchAll_simulates h commands
      unfold Session.step Machine.step
      dsimp only
      generalize session.dispatchAll commands = ended at hdispatch ⊢
      generalize Machine.applyUntil machine.toState commands = ended' at hdispatch ⊢
      obtain ⟨session', failure⟩ := ended
      obtain ⟨state', failure'⟩ := ended'
      obtain ⟨rfl, hnext⟩ := hdispatch
      cases failure with
      | none => exact ⟨rfl, hnext⟩
      | some fault => exact ⟨rfl, hnext⟩
  | save => exact save_simulates h
  | undo => exact undo_simulates h
  | restart document =>
      refine ⟨rfl, h.medium, ?_, start_holdsObjects document, h.contents⟩
      cases document <;> rfl
  | clear =>
      unfold Session.step Session.clear Store.clear
      rcases h.free with hnothing | ⟨text, htext⟩
      · rw [hnothing]
        exact ⟨rfl, h.medium, h.state, h.objects, .inl ⟨rfl, rfl⟩⟩
      · rw [htext]
        exact ⟨rfl, h.medium, h.state, h.objects, .inl ⟨rfl, rfl⟩⟩
  | read =>
      unfold Session.step
      rw [h.read]
      exact ⟨rfl, h⟩

/-- Runs that start alike show the same at every step. -/
theorem run_simulates (h : Simulates medium session machine)
    (steps : List Session.Step) :
    session.run steps = machine.run medium steps := by
  induction steps generalizing session machine with
  | nil => rfl
  | cons step rest ih =>
      have hstep := step_simulates h step
      unfold Session.run Machine.run
      generalize session.step step = ended at hstep ⊢
      generalize machine.step medium step = ended' at hstep ⊢
      obtain ⟨next, outcome⟩ := ended
      obtain ⟨next', outcome'⟩ := ended'
      obtain ⟨rfl, hnext⟩ := hstep
      dsimp only at hnext ⊢
      rw [hnext.state, ih hnext]

end

theorem start_simulates (medium : Store.Medium) (document : Option Members) :
    Simulates medium (Session.start (document.map .object) (Store.empty medium))
      (Machine.start document) := by
  refine ⟨rfl, ?_, start_holdsObjects document, .inl ⟨rfl, ?_⟩⟩
  · cases document <;> rfl
  · cases document <;> rfl

/-! ## The two stores -/

/-- It does not matter where a document is saved that has no torn text. -/
theorem step_of_whole {machine : Machine} {step : Session.Step}
    (h : step = .save → machine.document.isWhole = true) :
    machine.step .disk step = machine.step .memory step := by
  cases step with
  | save =>
      have hdisk : Store.Medium.disk.holds machine.document = true := h rfl
      have hmemory : Store.Medium.memory.holds machine.document = true := rfl
      simp only [Machine.step, Machine.save, hdisk, hmemory]
  | dispatch commands | undo | restart document | clear | read => rfl

theorem run_of_savesWhole {machine : Machine} {steps : List Session.Step}
    (h : machine.SavesWhole steps) :
    machine.run .disk steps = machine.run .memory steps := by
  induction steps generalizing machine with
  | nil => rfl
  | cons step rest ih =>
      obtain ⟨hwhole, hrest⟩ := h
      have htail := ih hrest
      unfold Machine.run
      rw [step_of_whole hwhole]
      dsimp only
      rw [htail]

/-- Over either store, empty at first, a session shows at every step of a run what the
machine shows, and the same over both stores if no document with a torn text is saved.
What the machine stores is the image of the document. A document without torn texts is
its own image exactly if it is one that JSON knows. -/
theorem session_follows_machine :
    (∀ (medium : Store.Medium) (document : Option Members) (steps : List Session.Step),
      (Session.start (document.map .object) (Store.empty medium)).run steps =
        (Machine.start document).run medium steps) ∧
      (∀ (document : Option Members) (steps : List Session.Step),
        (Machine.start document).SavesWhole steps →
          (Machine.start document).run .disk steps =
            (Machine.start document).run .memory steps) ∧
      ∀ ms : Members,
        (Value.object ms).isWhole = true ∧ Json.image (.object ms) = .ok (.object ms) ↔
          Json.Plain (.object ms) :=
  ⟨fun medium document steps => run_simulates (start_simulates medium document) steps,
    fun _ _ => run_of_savesWhole,
    fun _ => ⟨fun ⟨hwhole, himage⟩ => (Json.image_eq_self_iff hwhole).mp himage,
      fun hplain =>
        ⟨hplain.isWhole, (Json.image_eq_self_iff hplain.isWhole).mpr hplain⟩⟩⟩

/-- A document that is edited, saved and restored. -/
def savedDocument : Members :=
  [("paths", .object [("/a", .emptyObject)])]

/-- Editing, saving, restarting and going back shows the same over both stores. -/
theorem session_follows_machine_of_saved :
    (Machine.start (some savedDocument)).run .disk
        [.dispatch [.tags .add], .save, .restart none, .undo] =
      (Machine.start (some savedDocument)).run .memory
        [.dispatch [.tags .add], .save, .restart none, .undo] :=
  session_follows_machine.2.1 _ _ ⟨nofun, fun _ => rfl, nofun, nofun, trivial⟩

/-- A document whose request body has pairs for its content; adding a media type makes
an object of them. -/
def pairsDocument : Members :=
  [("paths", .object [("/a", .object [("post", .object [("requestBody", .object
    [("content", .list [.list [.int 1, .str "x"], .list [.str "1", .str "y"]])])])])])]

/-- That document with the media type: two names are one in JSON. -/
def mixedDocument : Members :=
  [("paths", .object [("/a", .object [("post", .object [("requestBody", .object
    [("content", .object [(.int 1, .str "x"), ("1", .str "y"),
      ("application/json", .object [("schema", .emptyObject)])])])])])])]

/-- What is left of it after saving. -/
def mergedDocument : Members :=
  [("paths", .object [("/a", .object [("post", .object [("requestBody", .object
    [("content", .object [("1", .str "y"),
      ("application/json", .object [("schema", .emptyObject)])])])])])])]

/-- A document with a torn text. -/
def tornDocument : Members :=
  [("x-a", .scalar (.torn ⟨[.half 0], rfl⟩))]

private theorem image_mixedDocument :
    Json.image (.object mixedDocument) = .ok (.object mergedDocument) := by
  have hwritable : isWritable 1 = true := Json.isWritable_of_natAbs_lt (by decide)
  have hname : Json.nameImage (.int 1) = .ok (.str "1") := by
    rw [Json.nameImage, Json.scalarText, if_pos hwritable]
    · rfl
    · simp
    · simp
  simp only [mixedDocument, Json.image, Json.memberImages, hname, ok_bind]
  rfl

/-- A session over either store saves a document and then finds another one in the
store. A document with a torn text is saved in memory, but not on disk. -/
theorem stored_differs_from_document :
    (∀ medium : Store.Medium,
      (Session.start (some (.object pairsDocument)) (Store.empty medium)).run [.dispatch
      [.operation "/a" .post (.addMediaType ⟨.requestBody, none⟩ "application/json")],
      .save, .read] = [⟨.object mixedDocument, none, .done⟩, ⟨.object mixedDocument,
      some (.object mixedDocument), .done⟩, ⟨.object mixedDocument,
      some (.object mixedDocument), .shown (some (.object mergedDocument))⟩]) ∧
      mergedDocument ≠ mixedDocument ∧
      (Session.start (some (.object tornDocument)) (Store.empty .memory)).run
        [.save, .read] = [⟨.object tornDocument, some (.object tornDocument), .done⟩,
        ⟨.object tornDocument, some (.object tornDocument),
        .shown (some (.object tornDocument))⟩] ∧
      (Session.start (some (.object tornDocument)) (Store.empty .disk)).run
        [.save, .read] =
        [⟨.object tornDocument, some (.object tornDocument), .failed (.fault .torn)⟩,
        ⟨.object tornDocument, some (.object tornDocument), .shown none⟩] := by
  refine ⟨?_, ?_, ?_, ?_⟩
  · intro medium
    have hrun := run_simulates (start_simulates medium (some pairsDocument))
      [.dispatch [.operation "/a" .post
        (.addMediaType ⟨.requestBody, none⟩ "application/json")], .save, .read]
    have hdispatch : Machine.applyUntil (Machine.start (some pairsDocument)).toState
        [.operation "/a" .post
          (.addMediaType ⟨.requestBody, none⟩ "application/json")] =
          (State.ofDocument (Value.object mixedDocument), none) := rfl
    have hholds : medium.holds (.object mixedDocument) = true := by
      cases medium <;> rfl
    refine hrun.trans ?_
    simp only [Machine.run, Machine.step, hdispatch, State.ofDocument, Machine.save,
      image_mixedDocument]
    rw [if_pos hholds]
  · intro heq
    simp [mergedDocument, mixedDocument] at heq
  · exact (run_simulates (start_simulates .memory (some tornDocument))
      [.save, .read]).trans rfl
  · exact (run_simulates (start_simulates .disk (some tornDocument))
      [.save, .read]).trans rfl

end ApiWorkbench.Editor
