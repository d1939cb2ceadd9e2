import ApiWorkbench.Proofs.Editor.Sessions
import ApiWorkbench.Proofs.Editor.Snapshots
import ApiWorkbench.Proofs.Result

/-!
# Saving that fails

Saving remembers the document first and gives it to the store then. So where the store
cannot take it, the document and the store are as they were, but the snapshot is the
document that could not be stored. One failure touches the store as well: a file is
emptied before it is noticed that a torn text cannot be written to it.

It takes a look at the snapshot to notice this. Going back takes one only where the
store holds nothing, and of the commands only `undo` does. Sessions that differ in
nothing but the snapshot stay so as long as no step looks back, and end every step
alike. Where a later step does look back, it finds the document of the failed save.

## Main results

* `Session.step_same`: a step that does not look back makes the same of sessions that
  differ in the snapshot alone.
* `Session.run_same`: so does a run of such steps, and what follows when a step has
  renewed the snapshot.
* `failed_save`: what saving that fails leaves behind, and what comes of it later.
* `failed_save_noticed`: going back after it may lead to another document than it
  would have led to.
-/

namespace ApiWorkbench.Editor

open Document

/-! ## Stores that take no document -/

/-- A store that a document spoils: its file can be opened, and the text of the document
cannot be written to it. -/
structure Store.SpoiledBy (store : Store) (document : Value) : Prop where
  onDisk : store.medium = .disk
  free : store.Free
  torn : document.isWhole = false
  encodes : ∃ text, Store.encode .disk document = .ok text

theorem Store.spoiledBy_of_encode {store : Store} {document : Value} {text : String}
    (hfree : store.Free) (hencode : Store.encode store.medium document = .ok text)
    (hholds : ¬ store.medium.holds document) : store.SpoiledBy document := by
  cases hmedium : store.medium with
  | memory =>
      rw [hmedium] at hholds
      exact absurd rfl hholds
  | disk =>
      rw [hmedium] at hencode hholds
      exact ⟨hmedium, hfree, Bool.not_eq_true _ ▸ hholds, text, hencode⟩

/-- Where something is in the way, nothing is written. -/
theorem Store.write_of_not_free {store : Store} (hfree : ¬ store.Free)
    (document : Value) :
    (store.write document).1 = store := by
  unfold Store.write
  cases hcontents : store.contents with
  | nothing => exact absurd (.inl hcontents) hfree
  | text text => exact absurd (.inr ⟨text, hcontents⟩) hfree
  | noDirectory => rfl
  | noFile => cases Store.encode store.medium document <;> rfl

/-- A store that does not take a document is as it was, unless the document spoils
it. -/
theorem Store.write_failed {store after : Store} {document : Value}
    {failure : Store.Failure} (h : store.write document = (after, some failure)) :
    (store.SpoiledBy document ∧ after = store.withText "") ∨
      (¬ store.SpoiledBy document ∧ after = store) := by
  by_cases hfree : store.Free
  · rw [Store.write_of_free hfree] at h
    cases hencode : Store.encode store.medium document with
    | error fault =>
        rw [hencode] at h
        refine .inr ⟨fun hspoiled => ?_, (Prod.mk.inj h).1.symm⟩
        obtain ⟨text, htext⟩ := hspoiled.encodes
        rw [hspoiled.onDisk, htext] at hencode
        exact nomatch hencode
    | ok text =>
        rw [hencode] at h
        dsimp only at h
        split at h
        · exact nomatch (Prod.mk.inj h).2
        · rename_i hholds
          exact .inl ⟨Store.spoiledBy_of_encode hfree hencode hholds,
            (Prod.mk.inj h).1.symm⟩
  · refine .inr ⟨fun hspoiled => hfree hspoiled.free, ?_⟩
    rw [← Store.write_of_not_free hfree document, h]

/-! ## Commands that do not look back -/

section

variable {s t : State Unit} {command : Command Unit}

/-- An edit makes the same of the document, whatever the snapshot is. -/
theorem edit_same_document (e : Edit Unit) (h : s.document = t.document) :
    Agree (·.document = ·.document) (s.edit e) (t.edit e) := by
  rw [State.edit, State.edit, h]
  cases t.document.members with
  | error fault => exact .error fault
  | ok ms =>
      rw [ok_bind, ok_bind]
      cases e ms with
      | error fault => exact .error fault
      | ok found => cases found with
        | none => exact .ok h
        | some ns => exact .ok rfl

/-- So does a command other than `undo`. -/
theorem apply_same_document (hcommand : command ≠ .undo) (h : s.document = t.document) :
    Agree (·.document = ·.document) (s.apply command) (t.apply command) := by
  unfold State.apply State.applyWith
  split
  · exact .ok h
  · cases command with
    | setDocument document =>
        dsimp only [State.accept, Handling.plain, id]
        cases complete (.object document) with
        | error fault => exact .error fault
        | ok completed => exact .ok rfl
    | saveSnapshot => exact .ok h
    | undo => contradiction
    | loadSample | reset => exact .ok rfl
    | _ => exact edit_same_document _ h

end

/-! ## Sessions that differ in the snapshot -/

namespace Session

variable {s t session after : Session} {commands : List (Command Unit)}

/-- Sessions that differ in nothing but the snapshot. -/
structure SameButSnapshot (s t : Session) : Prop where
  document : s.state.document = t.state.document
  store : s.store = t.store

/-- A step for which it may matter what the snapshot is. -/
def LooksBack (session : Session) : Step → Prop
  | .dispatch commands => .undo ∈ commands
  | .undo => session.store.read = .ok none
  | _ => False

/-- A step after which it does not matter any more what the snapshot was. -/
def Step.Renews : Step → Prop
  | .save | .restart _ => True
  | _ => False

/-- A run in which no step looks back before one has renewed the snapshot. -/
def NeverLooksBack (session : Session) : List Step → Prop
  | [] => True
  | step :: rest =>
      ¬ session.LooksBack step ∧
        (step.Renews ∨ (session.step step).1.NeverLooksBack rest)

/-- What is seen of a step apart from the snapshot. -/
def Observation.shown (seen : Observation) : Value × Outcome :=
  (seen.document, seen.outcome)

/-- The document that going back leads to. -/
def restored (session : Session) : Except Fault Value :=
  (·.state.document) <$> session.undo

theorem dispatch_same {command : Command Unit} (hcommand : command ≠ .undo)
    (h : s.SameButSnapshot t) :
    Agree SameButSnapshot (s.dispatch command) (t.dispatch command) :=
  (apply_same_document hcommand h.document).bind fun _ _ hdocument =>
    .ok ⟨hdocument, h.store⟩

theorem dispatchAll_same (hcommands : .undo ∉ commands) (h : s.SameButSnapshot t) :
    (s.dispatchAll commands).2 = (t.dispatchAll commands).2 ∧
      (s.dispatchAll commands).1.SameButSnapshot (t.dispatchAll commands).1 := by
  induction commands generalizing s t with
  | nil => exact ⟨rfl, h⟩
  | cons command rest ih =>
      rw [List.mem_cons, not_or] at hcommands
      obtain ⟨hcommand, hrest⟩ := hcommands
      have hagree := dispatch_same (Ne.symm hcommand) h
      unfold dispatchAll
      generalize s.dispatch command = result at hagree ⊢
      generalize t.dispatch command = result' at hagree ⊢
      cases hagree with
      | error fault => exact ⟨rfl, h⟩
      | ok hnext => exact ih hrest hnext

/-- Where something is stored, or cannot be read, going back does not take the
snapshot into account. -/
theorem undo_same (hread : s.store.read ≠ .ok none) (hstore : s.store = t.store) :
    Agree SameButSnapshot s.undo t.undo := by
  rw [undo, undo, ← hstore]
  cases hstored : s.store.read with
  | error fault => exact .error fault
  | ok stored => cases stored with
    | none => exact absurd hstored hread
    | some v =>
        rw [ok_bind, ok_bind]
        dsimp only [State.accept, Handling.plain, id]
        cases complete v with
        | error fault => exact .error fault
        | ok completed => exact .ok ⟨rfl, rfl⟩

/-- A step that does not look back ends alike for both sessions, and they differ in
nothing but the snapshot again. -/
theorem step_same {step : Step} (hstep : ¬ s.LooksBack step) (h : s.SameButSnapshot t) :
    (s.step step).2 = (t.step step).2 ∧
      (s.step step).1.SameButSnapshot (t.step step).1 := by
  cases step with
  | dispatch commands =>
      obtain ⟨hfault, hsame⟩ := dispatchAll_same hstep h
      unfold Session.step
      dsimp only
      generalize s.dispatchAll commands = ended at hfault hsame ⊢
      generalize t.dispatchAll commands = ended' at hfault hsame ⊢
      obtain ⟨next, fault⟩ := ended
      obtain ⟨next', fault'⟩ := ended'
      obtain rfl : fault = fault' := hfault
      cases fault with
      | none => exact ⟨rfl, hsame⟩
      | some fault => exact ⟨rfl, hsame⟩
  | save =>
      unfold Session.step Session.save
      simp only [State.remember, h.document, h.store]
      cases (t.store.write t.state.document).2 with
      | none => exact ⟨trivial, rfl, rfl⟩
      | some failure => exact ⟨trivial, rfl, rfl⟩
  | undo =>
      have hagree := undo_same hstep h.store
      unfold Session.step
      dsimp only
      generalize s.undo = result at hagree ⊢
      generalize t.undo = result' at hagree ⊢
      cases hagree with
      | error fault => exact ⟨rfl, h⟩
      | ok hsame => exact ⟨rfl, hsame⟩
  | restart document => exact ⟨rfl, rfl, h.store⟩
  | clear =>
      unfold Session.step Session.clear
      simp only [h.store]
      cases t.store.clear with
      | ok store => exact ⟨rfl, h.document, rfl⟩
      | error failure => exact ⟨rfl, h⟩
  | read =>
      unfold Session.step
      simp only [h.store]
      cases t.store.read with
      | ok stored => exact ⟨rfl, h⟩
      | error fault => exact ⟨rfl, h⟩

/-- The sessions are the same after a step that renews the snapshot. -/
theorem step_renews {step : Step} (hstep : step.Renews) (h : s.SameButSnapshot t) :
    s.step step = t.step step := by
  cases step with
  | save =>
      unfold Session.step Session.save
      simp only [State.remember, h.document, h.store]
  | restart document =>
      unfold Session.step Session.restart
      rw [h.store]
  | dispatch | undo | clear | read => exact hstep.elim

/-- A run shows the same of both sessions, apart from the snapshot. -/
theorem run_same {steps : List Step} (hsteps : s.NeverLooksBack steps)
    (h : s.SameButSnapshot t) :
    (s.run steps).map Observation.shown = (t.run steps).map Observation.shown := by
  induction steps generalizing s t with
  | nil => rfl
  | cons step rest ih =>
      obtain ⟨hstep, hrest⟩ := hsteps
      unfold run
      rcases hrest with hrenews | hrest
      · rw [step_renews hrenews h]
      · obtain ⟨houtcome, hsame⟩ := step_same hstep h
        have hshown := ih hrest hsame
        simp only [List.map_cons, Observation.shown, houtcome, hsame.document]
          at hshown ⊢
        rw [hshown]

/-! ## Going back later -/

theorem dispatchAll_store (session : Session) (commands : List (Command Unit)) :
    (session.dispatchAll commands).1.store = session.store := by
  induction commands generalizing session with
  | nil => rfl
  | cons command rest ih =>
      unfold dispatchAll dispatch
      cases session.state.apply command with
      | error fault => rfl
      | ok state => exact ih { session with state }

/-- Commands of which none saves leave the snapshot. -/
theorem dispatchAll_snapshot (hcommands : .saveSnapshot ∉ commands) :
    (session.dispatchAll commands).1.state.snapshot = session.state.snapshot := by
  induction commands generalizing session with
  | nil => rfl
  | cons command rest ih =>
      rw [List.mem_cons, not_or] at hcommands
      obtain ⟨hcommand, hrest⟩ := hcommands
      unfold dispatchAll dispatch
      cases happly : session.state.apply command with
      | error fault => rfl
      | ok state =>
          have hnext := @ih { session with state } hrest
          exact hnext.trans (applyWith_snapshot (Ne.symm hcommand) happly)

/-- Where something is stored, or cannot be read, going back leads to the same whatever
was done to the document. -/
theorem restored_same (hread : s.store.read ≠ .ok none) (hstore : s.store = t.store) :
    s.restored = t.restored := by
  have hagree := undo_same hread hstore
  unfold restored
  generalize s.undo = result at hagree ⊢
  generalize t.undo = result' at hagree ⊢
  cases hagree with
  | error fault => rfl
  | ok hsame => exact congrArg Except.ok hsame.document

/-- Where nothing is stored, going back leads to the snapshot. -/
theorem restored_of_snapshot {saved : Value} (hread : session.store.read = .ok none)
    (hsnapshot : session.state.snapshot = some saved) :
    session.restored = complete saved := by
  rw [restored, undo, hread, ok_bind, dispatch, apply_undo hsnapshot]
  cases complete saved with
  | error fault => rfl
  | ok completed => rfl

/-! ## Saving -/

/-- What saving leaves behind that fails. -/
theorem save_failed {failure : Store.Failure}
    (h : session.save = (after, some failure)) :
    after.state = session.state.remember ∧
      session.store.write session.state.document = (after.store, some failure) := by
  obtain ⟨rfl, hfailure⟩ := Prod.mk.inj h
  exact ⟨rfl, Prod.ext rfl hfailure⟩

end Session

/-- Saving that fails leaves the document and makes it the snapshot. If it spoils the
store, nothing is stored any more. Otherwise the store is left too: a run that does not
look back ends its steps alike and shows the same documents as without it, and going
back later leads to where it would have led, as long as something is stored. Where
nothing is, going back leads to the document that could not be stored. -/
theorem failed_save {session after : Session} {failure : Store.Failure}
    (h : session.save = (after, some failure)) :
    after.state.document = session.state.document ∧
      after.state.snapshot = some session.state.document ∧
      (session.store.SpoiledBy session.state.document →
        after.store = session.store.withText "" ∧ after.store.read = .ok none) ∧
      (¬ session.store.SpoiledBy session.state.document →
        after.store = session.store ∧
        (∀ steps, session.NeverLooksBack steps →
          (after.run steps).map Session.Observation.shown =
            (session.run steps).map Session.Observation.shown) ∧
        ∀ commands, session.store.read ≠ .ok none →
          (after.dispatchAll commands).1.restored =
            (session.dispatchAll commands).1.restored) ∧
      ∀ commands, after.store.read = .ok none → .saveSnapshot ∉ commands →
        (after.dispatchAll commands).1.restored = complete session.state.document := by
  obtain ⟨hstate, hwrite⟩ := Session.save_failed h
  have hdocument : after.state.document = session.state.document := by
    rw [hstate]
    rfl
  have hsnapshot : after.state.snapshot = some session.state.document := by
    rw [hstate]
    rfl
  refine ⟨hdocument, hsnapshot, fun hspoiled => ?_, fun hspoiled => ?_,
    fun commands hread hcommands => ?_⟩
  · obtain ⟨-, hstore⟩ | ⟨hno, -⟩ := Store.write_failed hwrite
    · refine ⟨hstore, ?_⟩
      rw [hstore]
      exact Store.decode_empty
    · exact absurd hspoiled hno
  · obtain ⟨hyes, -⟩ | ⟨-, hstore⟩ := Store.write_failed hwrite
    · exact absurd hyes hspoiled
    have hsame : session.SameButSnapshot after := ⟨hdocument.symm, hstore.symm⟩
    refine ⟨hstore, fun steps hsteps => (Session.run_same hsteps hsame).symm,
      fun commands hread => (Session.restored_same ?_ ?_).symm⟩
    · rwa [Session.dispatchAll_store]
    · rw [Session.dispatchAll_store, Session.dispatchAll_store, hstore]
  · refine Session.restored_of_snapshot ?_ ?_
    · rwa [Session.dispatchAll_store]
    · rw [Session.dispatchAll_snapshot hcommands, hsnapshot]

/-- A session that stores an empty object and has a set in its document, which no
store can take. -/
def unstorable : Session :=
  ⟨.ofDocument (.object [("x-names", .set [])]), ⟨.memory, .text "\x7b\x7d"⟩⟩

/-- A session that remembers the empty document and has a tag in its document by now.
Something else stands where the directory of its store belongs. -/
def blocked : Session :=
  ((Session.start (some Template.document) ⟨.disk, .noDirectory⟩).dispatchAll
    [.saveSnapshot, .tags .add]).1

private theorem not_free_blocked : ¬ blocked.store.Free := by
  rw [blocked, Session.dispatchAll_store]
  simp [Store.Free, Session.start]

/-- A session that stores an empty object in a file and has a torn text in its
document. -/
def spoiling : Session :=
  ⟨.ofDocument (.object tornDocument), ⟨.disk, .text "\x7b\x7d"⟩⟩

theorem spoiledBy_spoiling : spoiling.store.SpoiledBy spoiling.state.document :=
  ⟨rfl, .inr ⟨_, rfl⟩, rfl, _, rfl⟩

/-- Adding a tag, going back and starting anew are unaffected by a failed save where
something is stored. Where nothing is, going back after adding another tag leads to the
document with one tag. So it does where something was stored until the save. -/
theorem failed_save_of_each :
    (∃ after failure, unstorable.save = (after, some failure) ∧
      (after.run [.dispatch [.tags .add], .undo, .restart none, .undo]).map
          Session.Observation.shown =
        (unstorable.run [.dispatch [.tags .add], .undo, .restart none, .undo]).map
          Session.Observation.shown ∧
      (after.dispatchAll [.undo]).1.restored =
        (unstorable.dispatchAll [.undo]).1.restored) ∧
    (∃ after failure, blocked.save = (after, some failure) ∧
      (after.dispatchAll [.tags .add]).1.restored = complete blocked.state.document) ∧
    ∃ after failure, spoiling.save = (after, some failure) ∧
      after.store.read = .ok none ∧
      (after.dispatchAll [.tags .add]).1.restored =
        complete spoiling.state.document := by
  have hread : unstorable.store.read ≠ .ok none := by
    rw [show unstorable.store.read = .ok (some (.object [])) from rfl]
    simp
  refine ⟨?_, ?_, ?_⟩
  · obtain ⟨after, failure, hsave⟩ :
      ∃ after failure, unstorable.save = (after, some failure) := ⟨_, _, rfl⟩
    obtain ⟨-, -, -, hkept, -⟩ := failed_save hsave
    obtain ⟨-, hruns, hback⟩ := hkept fun hspoiled => nomatch hspoiled.onDisk
    refine ⟨after, failure, hsave, hruns _ ⟨?_, .inr ⟨?_, .inr ⟨id, .inl trivial⟩⟩⟩,
      hback _ hread⟩
    · simp [Session.LooksBack]
    · exact hread
  · obtain ⟨after, failure, hsave⟩ :
      ∃ after failure, blocked.save = (after, some failure) := ⟨_, _, rfl⟩
    obtain ⟨-, -, -, hkept, hback⟩ := failed_save hsave
    obtain ⟨hstore, -⟩ := hkept fun hspoiled => not_free_blocked hspoiled.free
    exact ⟨after, failure, hsave, hback _ (hstore ▸ rfl) (by simp)⟩
  · obtain ⟨after, failure, hsave⟩ :
      ∃ after failure, spoiling.save = (after, some failure) := ⟨_, _, rfl⟩
    obtain ⟨-, -, hspoiled, -, hback⟩ := failed_save hsave
    obtain ⟨-, hnothing⟩ := hspoiled spoiledBy_spoiling
    exact ⟨after, failure, hsave, hnothing, hback _ hnothing (by simp)⟩

/-- Without the failed save going back leads to the empty document, and after it to the
document with the tag. A file that held an object holds none after a save of a document
with a torn text. -/
theorem failed_save_noticed :
    (∃ after failure, blocked.save = (after, some failure) ∧
      after.state.snapshot ≠ blocked.state.snapshot ∧
      blocked.restored = .ok Template.document ∧
      after.restored = .ok blocked.state.document ∧
      blocked.state.document ≠ Template.document) ∧
    ∃ after failure, spoiling.save = (after, some failure) ∧
      spoiling.store.read = .ok (some .emptyObject) ∧ after.store.read = .ok none := by
  have htags : (Template.document : Value).member "tags" = .ok .null := rfl
  have hdocument : blocked.state.document ≠ Template.document := by
    intro heq
    have htag : blocked.state.document.member "tags" = .ok (.list [Template.tag]) := rfl
    rw [heq, htags] at htag
    simp at htag
  exact ⟨⟨_, _, rfl, fun heq => hdocument (Option.some.inj heq), rfl, rfl, hdocument⟩,
    _, _, rfl, rfl, rfl⟩

end ApiWorkbench.Editor
