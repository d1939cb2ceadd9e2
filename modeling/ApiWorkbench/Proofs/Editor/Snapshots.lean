import ApiWorkbench.Editor.State
import ApiWorkbench.Proofs.Document.CompleteParts

/-!
# What the snapshot remembers

Of all commands only `saveSnapshot` sets the snapshot, and it sets it to the document of
that moment. Every other command leaves it alone, whatever it does to the document, and
whatever the marks of documents are. So after a run the snapshot is the document as it
was just before the last `saveSnapshot` of the run, or the snapshot from before the run.

Going back completes the snapshot and takes nothing else into account. It leaves the
snapshot alone, so going back twice is going back once; and a snapshot that was
canonical when it was taken comes back as it was.

## Main results

* `applyWith_snapshot`: a command other than `saveSnapshot` leaves the snapshot.
* `applyAll_snapshot`: so does a run without `saveSnapshot`.
* `snapshot_of_run`: what the snapshot is after a run, and what going back makes of it.
-/

namespace ApiWorkbench.Editor

open Document

/-! ## One command -/

section

variable {μ : Type} {handling : Handling μ} {state next : State μ} {command : Command μ}

theorem accept_snapshot {document : Tree μ}
    (h : state.accept handling document = .ok next) :
    next.snapshot = state.snapshot := by
  obtain ⟨completed, -, h⟩ := bind_eq_ok.mp h
  obtain rfl := Except.ok.inj h
  rfl

theorem goBack_snapshot (h : state.goBack handling = .ok next) :
    next.snapshot = state.snapshot := by
  unfold State.goBack at h
  split at h
  · exact accept_snapshot h
  · obtain rfl := Except.ok.inj h
    rfl

variable [Inhabited μ]

theorem edit_snapshot {e : Edit μ} (h : state.edit e = .ok next) :
    next.snapshot = state.snapshot := by
  obtain ⟨ms, -, h⟩ := bind_eq_ok.mp h
  obtain ⟨found, -, h⟩ := bind_eq_ok.mp h
  split at h
  · obtain rfl := Except.ok.inj h
    rfl
  · obtain rfl := Except.ok.inj h
    rfl

/-- A command that does not save leaves the snapshot. -/
theorem applyWith_snapshot (hcommand : command ≠ .saveSnapshot)
    (h : state.applyWith handling command = .ok next) :
    next.snapshot = state.snapshot := by
  unfold State.applyWith at h
  split at h
  · obtain rfl := Except.ok.inj h
    rfl
  · cases command with
    | setDocument document => exact accept_snapshot h
    | saveSnapshot => exact absurd rfl hcommand
    | undo => exact goBack_snapshot h
    | loadSample | reset =>
        obtain rfl := Except.ok.inj h
        rfl
    | _ => exact edit_snapshot h

end

/-! ## Runs -/

variable {state last : State Unit} {commands before after : List (Command Unit)}

/-- A run without saving leaves the snapshot. -/
theorem applyAll_snapshot (hcommands : .saveSnapshot ∉ commands)
    (h : state.applyAll commands = .ok last) :
    last.snapshot = state.snapshot := by
  induction commands generalizing state with
  | nil =>
      obtain rfl := Except.ok.inj h
      rfl
  | cons command rest ih =>
      rw [List.mem_cons, not_or] at hcommands
      obtain ⟨hcommand, hrest⟩ := hcommands
      obtain ⟨next, hnext, h⟩ := bind_eq_ok.mp h
      exact (ih hrest h).trans (applyWith_snapshot (Ne.symm hcommand) hnext)

/-- A run in two parts. -/
theorem applyAll_append : state.applyAll (before ++ after) = .ok last ↔
    ∃ held, state.applyAll before = .ok held ∧ held.applyAll after = .ok last := by
  rw [State.applyAll, List.foldlM_append]
  exact bind_eq_ok

/-- After the last time that a run saves, the snapshot is the document of that
moment. -/
theorem snapshot_of_last_save (hafter : .saveSnapshot ∉ after)
    (h : state.applyAll (before ++ .saveSnapshot :: after) = .ok last) :
    ∃ held, state.applyAll before = .ok held ∧ last.snapshot = some held.document := by
  obtain ⟨held, hheld, h⟩ := applyAll_append.mp h
  obtain ⟨saved, hsaved, h⟩ := bind_eq_ok.mp h
  obtain rfl : held.remember = saved := Except.ok.inj hsaved
  exact ⟨held, hheld, applyAll_snapshot hafter h⟩

/-! ## Going back -/

/-- Going back takes the snapshot in completed form. -/
theorem apply_undo {saved : Value} (h : last.snapshot = some saved) :
    last.apply .undo = (fun document => last.withDocument document) <$>
      complete saved := by
  have hundo : last.apply .undo = last.goBack .plain := rfl
  rw [hundo, State.goBack, h]
  dsimp only [State.accept, Handling.plain, id]
  cases complete saved with
  | error fault => rfl
  | ok document => rfl

theorem apply_undo_of_none (h : last.snapshot = none) :
    last.apply .undo = .ok last := by
  have hundo : last.apply .undo = last.goBack .plain := rfl
  rw [hundo, State.goBack, h]
  rfl

/-- Going back a second time changes nothing. -/
theorem apply_undo_again {back : State Unit} (h : last.apply .undo = .ok back) :
    back.apply .undo = .ok back := by
  have hsnapshot := applyWith_snapshot (by simp) h
  cases hlast : last.snapshot with
  | none => exact apply_undo_of_none (hsnapshot.trans hlast)
  | some saved =>
      rw [apply_undo hlast] at h
      obtain ⟨document, hcomplete, rfl⟩ := map_eq_ok.mp h
      rw [apply_undo (hsnapshot.trans hlast), hcomplete, map_ok]
      rfl

/-- After a run the snapshot is the document held just before the last `saveSnapshot` of
the run, or the one from before the run if there is none. Going back at the end makes
the completed snapshot the document, or does nothing where there is no snapshot; doing
so again changes nothing more; and a canonical snapshot comes back exactly. -/
theorem snapshot_of_run (hrun : state.applyAll commands = .ok last) :
    (∀ before after, commands = before ++ .saveSnapshot :: after →
      .saveSnapshot ∉ after →
      ∃ held, state.applyAll before = .ok held ∧ last.snapshot = some held.document) ∧
    (.saveSnapshot ∉ commands → last.snapshot = state.snapshot) ∧
    (last.snapshot = none → last.apply .undo = .ok last) ∧
    (∀ saved, last.snapshot = some saved →
      last.apply .undo = (fun document => last.withDocument document) <$>
        complete saved ∧
      (Canonical saved → last.apply .undo = .ok (last.withDocument saved))) ∧
    ∀ back, last.apply .undo = .ok back → back.apply .undo = .ok back := by
  refine ⟨?_, fun hcommands => applyAll_snapshot hcommands hrun, apply_undo_of_none, ?_,
    fun _ => apply_undo_again⟩
  · rintro before after rfl hafter
    exact snapshot_of_last_save hafter hrun
  · intro saved hsaved
    refine ⟨apply_undo hsaved, fun hcanonical => ?_⟩
    rw [apply_undo hsaved, show complete saved = .ok saved from hcanonical, map_ok]

/-- The sample with a tag is saved, then a path is added and the whole document
replaced. Going back gives the sample with its tag. -/
theorem snapshot_of_run_of_sample :
    ∃ last held, State.initial.applyAll [.saveSnapshot, .tags .add, .saveSnapshot,
      .paths .add, .reset] = .ok last ∧
      State.initial.applyAll [.saveSnapshot, .tags .add] = .ok held ∧
      last.snapshot = some held.document ∧
      Canonical held.document ∧
      last.apply .undo = .ok (last.withDocument held.document) := by
  obtain ⟨last, hrun⟩ : ∃ last, State.initial.applyAll
      [.saveSnapshot, .tags .add, .saveSnapshot, .paths .add, .reset] = .ok last :=
        ⟨_, rfl⟩
  obtain ⟨hsaves, -, -, hback, -⟩ := snapshot_of_run hrun
  obtain ⟨held, hheld, hsnapshot⟩ :=
    hsaves [.saveSnapshot, .tags .add] [.paths .add, .reset] rfl (by simp)
  have hcanonical : Canonical held.document := by
    obtain rfl := Except.ok.inj hheld
    rfl
  exact ⟨last, held, hrun, hheld, hsnapshot, hcanonical,
    (hback _ hsnapshot).2 hcanonical⟩

end ApiWorkbench.Editor
