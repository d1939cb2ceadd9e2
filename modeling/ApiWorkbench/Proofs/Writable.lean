import ApiWorkbench.Json.Writer
import ApiWorkbench.Proofs.Result
import ApiWorkbench.Proofs.Tree
import ApiWorkbench.Yaml.Writer

/-!
# Values that can be written

Not every value of a document has a text. JSON has none for dates and moments, for bytes
and for sets; YAML has one for all of these, but neither has one for an integer that is
too long to be read again, nor for a pair where a name stands. Whether a value can be
written depends on what is in it, at any depth, and on nothing else.

## Main results

* `Json.write_succeeds_iff`, `Yaml.write_succeeds_iff`: which values have a text.
-/

namespace ApiWorkbench.Json

open ApiWorkbench.Tree (Everywhere)

/-- Whether there is JSON for a scalar. -/
def isWritableScalar : Scalar → Bool
  | .int n => isWritable n
  | .bytes _ => false
  | .date _ => false
  | .moment _ => false
  | .pair _ _ => false
  | _ => true

/-- Whether there is JSON for a value if there is for its parts. -/
def isWritablePart : Value → Bool
  | .scalar s => isWritableScalar s
  | .set _ => false
  | _ => true

/-- There is JSON for everything in a value. -/
def Writable (v : Value) : Prop :=
  Everywhere (fun part => isWritablePart part = true) v

theorem writable_scalar {s : Scalar} :
    Writable (.scalar s) ↔ isWritableScalar s = true :=
  Tree.everywhere_scalar fun _ _ h => nomatch h

theorem writable_list {xs : List Value} : Writable (.list xs) ↔ ∀ x ∈ xs, Writable x :=
  Tree.everywhere_list.trans (and_iff_right (by rfl))

theorem writable_pair {a b : Value} : Writable (.pair a b) ↔ Writable a ∧ Writable b :=
  Tree.everywhere_pair.trans (and_iff_right (by rfl))

theorem not_writable_set {names : List Scalar} : ¬ Writable (.set names) :=
  fun h => nomatch (Tree.everywhere_set.mp h).1

theorem writable_object {ms : Members} :
    Writable (.object ms) ↔ ∀ e ∈ ms, isWritableScalar e.1 = true ∧ Writable e.2 :=
  Tree.everywhere_marked.trans <| (and_iff_right (by rfl)).trans <|
    forall₂_congr fun _ _ => and_congr_left fun _ => writable_scalar

theorem scalarText_succeeds_iff (layout : Layout) (s : Scalar) :
    Succeeds (scalarText layout s) ↔ isWritableScalar s = true := by
  cases s with
  | int n =>
      rw [scalarText, isWritableScalar]
      split
      · next h => simp [h, succeeds_ok]
      · next h => simp [h, Succeeds]
  | _ => simp [scalarText, isWritableScalar, Succeeds]

theorem nameText_succeeds_iff (layout : Layout) (k : Scalar) :
    Succeeds (nameText layout k) ↔ isWritableScalar k = true := by
  rw [← scalarText_succeeds_iff layout]
  cases k with
  | str | torn => exact iff_of_true (succeeds_ok _) (succeeds_ok _)
  | _ => exact succeeds_bind_pure

theorem itemTexts_succeeds_iff {layout : Layout} {depth : Nat} {xs : List Value} :
    Succeeds (itemTexts layout depth xs) ↔
      ∀ x ∈ xs, Succeeds (valueText layout depth x) := by
  induction xs with
  | nil => simp [itemTexts, Succeeds]
  | cons x rest ih =>
      rw [itemTexts, succeeds_bind_iff fun _ => succeeds_bind_pure, ih,
        List.forall_mem_cons]

theorem memberTexts_succeeds_iff {layout : Layout} {depth : Nat} {ms : Members} :
    Succeeds (memberTexts layout depth ms) ↔
      ∀ e ∈ ms, isWritableScalar e.1 = true ∧
        Succeeds (valueText layout depth e.2) := by
  induction ms with
  | nil => simp [memberTexts, Succeeds]
  | cons e rest ih =>
      rw [memberTexts, succeeds_bind_iff fun _ => succeeds_bind_iff fun _ =>
        succeeds_bind_pure, nameText_succeeds_iff, ih, List.forall_mem_cons, and_assoc]

/-- There is JSON for a value if there is for everything in it, whatever the layout. -/
theorem valueText_succeeds_iff (layout : Layout) (v : Value) :
    ∀ depth, Succeeds (valueText layout depth v) ↔ Writable v := by
  induction v using Tree.parts_induction with
  | scalar s =>
      exact fun depth => (scalarText_succeeds_iff layout s).trans writable_scalar.symm
  | list xs ih =>
      intro depth
      rw [valueText, succeeds_bind_pure, itemTexts_succeeds_iff, writable_list]
      exact forall₂_congr fun x hx => ih x hx (depth + 1)
  | pair a b iha ihb =>
      intro depth
      rw [valueText, succeeds_bind_iff fun _ => succeeds_bind_pure, iha, ihb,
        writable_pair]
  | set names => exact fun depth => iff_of_false (fun h => nomatch h) not_writable_set
  | marked mark ms ih =>
      intro depth
      rw [valueText, succeeds_bind_pure, memberTexts_succeeds_iff, writable_object]
      exact forall₂_congr fun e he => and_congr_right fun _ => ih e he (depth + 1)

theorem write_succeeds_iff (layout : Layout) (v : Value) :
    Succeeds (write layout v) ↔ Writable v :=
  valueText_succeeds_iff layout v 0

end ApiWorkbench.Json

namespace ApiWorkbench.Yaml

open ApiWorkbench.Tree (Everywhere)

/-- Whether there is YAML for a scalar. -/
def isWritableScalar : Scalar → Bool
  | .int n => isWritable n
  | .pair _ _ => false
  | _ => true

/-- Whether there is YAML for a value if there is for its parts. -/
def isWritablePart : Value → Bool
  | .scalar s => isWritableScalar s
  | _ => true

/-- There is YAML for everything in a value. -/
def Writable (v : Value) : Prop :=
  Everywhere (fun part => isWritablePart part = true) v

theorem writable_scalar {s : Scalar} :
    Writable (.scalar s) ↔ isWritableScalar s = true :=
  Tree.everywhere_scalar fun _ _ h => nomatch h

theorem writable_list {xs : List Value} : Writable (.list xs) ↔ ∀ x ∈ xs, Writable x :=
  Tree.everywhere_list.trans (and_iff_right (by rfl))

theorem writable_pair {a b : Value} : Writable (.pair a b) ↔ Writable a ∧ Writable b :=
  Tree.everywhere_pair.trans (and_iff_right (by rfl))

theorem writable_set {names : List Scalar} :
    Writable (.set names) ↔ ∀ k ∈ names, isWritableScalar k = true :=
  Tree.everywhere_set.trans <| (and_iff_right (by rfl)).trans <|
    forall₂_congr fun _ _ => writable_scalar

theorem writable_object {ms : Members} :
    Writable (.object ms) ↔ ∀ e ∈ ms, isWritableScalar e.1 = true ∧ Writable e.2 :=
  Tree.everywhere_marked.trans <| (and_iff_right (by rfl)).trans <|
    forall₂_congr fun _ _ => and_congr_left fun _ => writable_scalar

theorem scalarSource_succeeds_iff (indent : Nat) (isKey : Bool) (s : Scalar) :
    Succeeds (scalarSource indent isKey s) ↔ isWritableScalar s = true := by
  cases s with
  | int n =>
      rw [scalarSource, isWritableScalar]
      split
      · next h => simp [h, succeeds_ok]
      · next h => simp [h, Succeeds]
  | _ => simp [scalarSource, isWritableScalar, Succeeds]

theorem isSimpleKey_succeeds_iff (k : Scalar) :
    Succeeds (isSimpleKey k) ↔ isWritableScalar k = true := by
  rw [isSimpleKey, succeeds_bind_iff (Q := True) fun _ =>
    ?_, and_true, ← scalarSource_succeeds_iff 0 true]
  · cases k with
    | str | torn => exact iff_of_true (succeeds_ok _) (succeeds_ok _)
    | _ => rfl
  · split <;> exact iff_of_true (succeeds_ok _) trivial

theorem keyLines_succeeds_iff {indent : Nat} {simple : Bool} {k : Scalar}
    {value : Except Fault String} :
    Succeeds (keyLines indent simple k value) ↔ isWritableScalar k = true ∧
      Succeeds value := by
  rw [keyLines]
  split <;>
    rw [succeeds_bind_iff fun _ => succeeds_bind_pure, scalarSource_succeeds_iff]

theorem setSource_succeeds_iff {indent : Nat} {names : List Scalar} :
    Succeeds (setSource indent names) ↔ ∀ k ∈ names, isWritableScalar k = true := by
  have hline : ∀ k, Succeeds (do keyLines indent (← isSimpleKey k) k (pure " null")) ↔
      isWritableScalar k = true := by
    intro k
    rw [succeeds_bind_iff fun _ => keyLines_succeeds_iff, isSimpleKey_succeeds_iff]
    simp [Succeeds]
  cases names with
  | nil => simp [setSource, Succeeds]
  | cons k rest =>
      rw [setSource, succeeds_bind_pure, mapM_succeeds_iff]
      · exact forall₂_congr fun k _ => hline k
      · simp

/-- There is YAML for a value after an indicator and after a key. -/
def HasSource (v : Value) : Prop :=
  (∀ indent, Succeeds (afterIndicator indent v) ↔ Writable v) ∧ ∀ indent,
    Succeeds (afterKey indent v) ↔ Writable v

theorem itemLines_succeeds_iff {xs : List Value} (h : ∀ x ∈ xs, HasSource x)
    {indent : Nat} :
    Succeeds (itemLines indent xs) ↔ ∀ x ∈ xs, Writable x := by
  induction xs with
  | nil => simp [itemLines, Succeeds]
  | cons x rest ih =>
      obtain ⟨hfirst, hrest⟩ := List.forall_mem_cons.mp h
      rw [itemLines, succeeds_bind_iff fun _ => succeeds_bind_pure, hfirst.1, ih hrest,
        List.forall_mem_cons]

theorem memberLines_succeeds_iff {ms : Members} (h : ∀ e ∈ ms, HasSource e.2)
    {indent : Nat} :
    Succeeds (memberLines indent ms) ↔ ∀ e ∈ ms, isWritableScalar e.1 = true ∧
      Writable e.2 := by
  induction ms with
  | nil => simp [memberLines, Succeeds]
  | cons e rest ih =>
      obtain ⟨⟨hindicator, hkey⟩, hrest⟩ := List.forall_mem_cons.mp h
      have hvalue : ∀ simple : Bool,
          Succeeds (if simple then afterKey indent e.2 else afterIndicator indent e.2) ↔
          Writable e.2 := by
        intro simple
        split
        · exact hkey indent
        · exact hindicator indent
      have hentry : ∀ simple, Succeeds (do
          let entry ← keyLines indent simple e.1
            (if simple then afterKey indent e.2 else afterIndicator indent e.2)
          pure (entry :: (← memberLines indent rest))) ↔
          (isWritableScalar e.1 = true ∧ Writable e.2) ∧
            ∀ o ∈ rest, isWritableScalar o.1 = true ∧ Writable o.2 := by
        intro simple
        rw [succeeds_bind_iff fun _ => succeeds_bind_pure, keyLines_succeeds_iff,
          hvalue, ih hrest]
      rw [memberLines, succeeds_bind_iff hentry, isSimpleKey_succeeds_iff,
        List.forall_mem_cons, ← and_assoc, and_self_left]

theorem hasSource (v : Value) : HasSource v := by
  induction v using Tree.parts_induction with
  | scalar s =>
      refine ⟨fun indent => ?_, fun indent => ?_⟩
      · rw [afterIndicator, succeeds_bind_pure, scalarSource_succeeds_iff,
          writable_scalar]
      · rw [afterKey, succeeds_bind_pure, scalarSource_succeeds_iff, writable_scalar]
  | list xs ih =>
      cases xs with
      | nil =>
          exact ⟨fun _ => iff_of_true (succeeds_ok _) (writable_list.mpr (by simp)),
            fun _ => iff_of_true (succeeds_ok _) (writable_list.mpr (by simp))⟩
      | cons x rest =>
          refine ⟨fun indent => ?_, fun indent => ?_⟩
          · rw [afterIndicator, succeeds_bind_pure, itemLines_succeeds_iff ih,
              writable_list]
            simp
          · rw [afterKey, succeeds_bind_pure, itemLines_succeeds_iff ih, writable_list]
            simp
  | pair a b iha ihb =>
      refine ⟨fun indent => ?_, fun indent => ?_⟩
      · rw [afterIndicator, succeeds_bind_iff fun _ => succeeds_bind_pure, iha.1, ihb.1,
          writable_pair]
      · rw [afterKey, succeeds_bind_iff fun _ => succeeds_bind_pure, iha.1, ihb.1,
          writable_pair]
  | set names =>
      refine ⟨fun indent => ?_, fun indent => ?_⟩
      · rw [afterIndicator, succeeds_bind_pure, setSource_succeeds_iff, writable_set]
      · rw [afterKey, succeeds_bind_pure, setSource_succeeds_iff, writable_set]
  | marked mark ms ih =>
      cases ms with
      | nil =>
          exact ⟨fun _ => iff_of_true (succeeds_ok _) (writable_object.mpr (by simp)),
            fun _ => iff_of_true (succeeds_ok _) (writable_object.mpr (by simp))⟩
      | cons e rest =>
          refine ⟨fun indent => ?_, fun indent => ?_⟩
          · rw [afterIndicator, succeeds_bind_pure, memberLines_succeeds_iff ih,
              writable_object]
            simp
          · rw [afterKey, succeeds_bind_pure, memberLines_succeeds_iff ih,
              writable_object]
            simp

/-- There is YAML for a value if there is for everything in it. -/
theorem write_succeeds_iff (v : Value) : Succeeds (write v) ↔ Writable v := by
  cases v with
  | scalar s =>
      rw [write, succeeds_bind_pure, scalarSource_succeeds_iff, writable_scalar]
  | list xs =>
      cases xs with
      | nil => exact iff_of_true (succeeds_ok _) (writable_list.mpr (by simp))
      | cons x rest =>
          rw [write, succeeds_bind_pure, itemLines_succeeds_iff fun x _ => hasSource x,
            writable_list]
          simp
  | pair a b =>
      rw [write, succeeds_bind_iff fun _ => succeeds_bind_pure, (hasSource a).1,
        (hasSource b).1, writable_pair]
  | set names => rw [write, succeeds_bind_pure, setSource_succeeds_iff, writable_set]
  | marked mark ms =>
      cases ms with
      | nil => exact iff_of_true (succeeds_ok _) (writable_object.mpr (by simp))
      | cons e rest =>
          rw [write, succeeds_bind_pure, memberLines_succeeds_iff fun e _ =>
            hasSource e.2, writable_object]
          simp

end ApiWorkbench.Yaml
