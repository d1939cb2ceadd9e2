import ApiWorkbench.Proofs.Document.Completeness
import ApiWorkbench.Proofs.Document.Dropping
import ApiWorkbench.Proofs.Letters

/-!
# What pruning leaves alone

Pruning drops external documents without an address, a licence without a name, a contact
that names no way to reach anyone, and lists and component maps that are empty; the tags
of an operation are each kept once. `Stripped` says of the members of a document,
without running the pruning, that nothing of this is in it.

Pruning brings this about, and leaves alone what has it. So a document is stripped
exactly when pruning it changes nothing, and pruning a document twice is pruning it
once. What pruning makes of the parts of a document is said of each of them without the
order of the steps (`PrunesTo`); what is dropped is trimmed away at once.

## Main results

* `prunesTo_of_prune`: what pruning makes of the parts of a document.
* `prune_eq_self_iff`: a document is left alone exactly when it is stripped.
* `prune_idempotent`: a second pruning changes nothing.
-/

namespace ApiWorkbench.Document

open Members

/-! ## Operations -/

/-- The items of what is not blank are not none. -/
theorem items_ne_nil {v : Value} {xs : List Value} (hxs : v.items = .ok xs)
    (hv : v.isBlank = false) : xs ≠ [] := by
  rintro rfl
  cases v with
  | scalar s =>
      cases s with
      | torn text =>
          exact text.letters_ne_nil (List.map_eq_nil_iff.mp (Except.ok.inj hxs))
      | _ => simp_all [Tree.items, Tree.isBlank, Scalar.isBlank]
  | _ => simp_all [Tree.items, Tree.isBlank]

theorem distinct_ne_nil {xs : List Value} (h : xs ≠ []) : distinct [] xs ≠ [] := by
  cases xs with
  | nil => contradiction
  | cons x xs => simp [distinct]

/-- Values that have been made distinct are distinct, also for those who have seen
less. -/
private theorem distinct_distinct {seen seen' xs : List Value} (h : seen' ⊆ seen) :
    distinct seen' (distinct seen xs) = distinct seen xs := by
  induction xs generalizing seen seen' with
  | nil => rfl
  | cons x xs ih =>
      by_cases hx : seen.any x.same = true
      · rw [distinct, if_pos hx]
        exact ih h
      · have hx' : ¬ seen'.any x.same = true := by
          intro hany
          obtain ⟨y, hy, hsame⟩ := List.any_eq_true.mp hany
          exact hx (List.any_eq_true.mpr ⟨y, h hy, hsame⟩)
        rw [distinct, if_neg hx, distinct, if_neg hx', ih (List.cons_subset_cons x h)]

/-- Values that are each one of the given ones are constant if those are. -/
private theorem isConstant_distinct {seen xs : List Value}
    (h : xs.all isConstant = true) :
    (distinct seen xs).all isConstant = true := by
  induction xs generalizing seen with
  | nil => rfl
  | cons x xs ih =>
      rw [List.all_cons, Bool.and_eq_true] at h
      unfold distinct
      split
      · exact ih h.2
      · rw [List.all_cons, h.1, ih h.2, Bool.and_self]

/-- Pruning the tags of an operation a second time changes nothing. -/
theorem pruneOperationTags_fixed {v w : Value} (h : pruneOperationTags v = .ok w) :
    pruneOperationTags w = .ok w := by
  obtain ⟨names, -, h⟩ := bind_eq_ok.mp h
  split at h
  · obtain rfl := Except.ok.inj h
    rw [pruneOperationTags, Tree.items, pure_eq_ok, ok_bind,
      if_pos (isConstant_distinct ‹_›), distinct_distinct (List.Subset.refl [])]
    rfl
  · simp at h

private theorem pruneOperationTags_notBlank {v w : Value} (hv : v.isBlank = false)
    (h : pruneOperationTags v = .ok w) : w.isBlank = false := by
  obtain ⟨names, hnames, h⟩ := bind_eq_ok.mp h
  split at h
  · obtain rfl := Except.ok.inj h
    have hne := distinct_ne_nil (items_ne_nil hnames hv)
    simpa [Tree.isBlank] using hne
  · simp at h

/-- An operation from which pruning takes nothing. -/
structure StrippedOperation (op : Members) : Prop where
  tags : ∀ v, Members.get? "tags" op = some v → v.isBlank = false ∧
    pruneOperationTags v = .ok v
  externalDocs : Kept "externalDocs" ["url"] op
  callbacks : PathItemEdit.UsableCallbacks op

/-- The steps in which an operation is pruned. -/
theorem pruneOperation_eq_ok {op op' : Members} :
    pruneOperation op = .ok op' ↔
      ∃ op₁, dropUnless "externalDocs" ["url"] op = .ok op₁ ∧
      Members.modifyM "tags" pruneOperationTags (dropBlank "tags" op₁) = .ok op' :=
  bind_eq_ok

/-- Pruning trims an operation, and then makes its tags distinct. -/
theorem pruneOperation_eq_ok_trim {op op' : Members} (h : pruneOperation op = .ok op') :
    Members.modifyM "tags" pruneOperationTags
      (trim [("externalDocs", lacks ["url"]), ("tags", Tree.isBlank)] op) =
      .ok op' := by
  obtain ⟨op₁, hop₁, hop'⟩ := pruneOperation_eq_ok.mp h
  rw [← hop', dropBlank_eq_trim, dropUnless_eq_trim hop₁, ← trim_append (by simp)]
  rfl

/-- Pruning leaves the callbacks of an operation to those who visit it. -/
theorem mem_of_mem_pruneOperation {op op' : Members} (h : pruneOperation op = .ok op')
    {v : Value} (hv : (Scalar.str "callbacks", v) ∈ op') :
    (Scalar.str "callbacks", v) ∈ op := by
  have htrim := pruneOperation_eq_ok_trim h
  rw [Members.modifyM_eq] at htrim
  split at htrim
  · obtain ⟨w, -, rfl⟩ := map_eq_ok.mp htrim
    rcases Members.mem_put_str hv with hv | hv
    · exact (List.mem_filter.mp hv).1
    · simp at hv
  · obtain rfl := Except.ok.inj htrim
    exact (List.mem_filter.mp hv).1

theorem pruneOperation_stripped {op op' : Members}
    (husable : PathItemEdit.UsableCallbacks op) (h : pruneOperation op = .ok op') :
    StrippedOperation op' := by
  have htrim := pruneOperation_eq_ok_trim h
  refine ⟨fun w hw => ?_, fun v hv => ?_, fun v hv =>
    husable v (mem_of_mem_pruneOperation h hv)⟩
  · obtain ⟨v, hv, hvw⟩ := Members.get?_modifyM_self htrim hw
    have hblank := (get?_trim_eq_some.mp hv).2 Tree.isBlank (by simp)
    exact ⟨pruneOperationTags_notBlank hblank hvw, pruneOperationTags_fixed hvw⟩
  · rw [Members.get?_modifyM_of_ne (by decide) htrim] at hv
    exact hasAny_eq_true_iff.mpr ((get?_trim_eq_some.mp hv).2 _ (by simp))

theorem pruneOperation_fixed {op : Members} (h : StrippedOperation op) :
    pruneOperation op = .ok op := by
  refine pruneOperation_eq_ok.mpr ⟨op, dropUnless_of_kept h.externalDocs, ?_⟩
  rw [dropBlank_of_notBlank fun v hv => (h.tags v hv).1]
  exact Members.modifyM_fixed fun v hv => (h.tags v hv).2

/-! ## Paths -/

/-- A map of paths whose operations are stripped, at any callback depth. -/
def StrippedPaths (paths : Members) : Prop :=
  Throughout (fun _ => True) StrippedOperation paths

theorem pruning_regular : pruning.Regular where
  item _ _ he := he
  callbacks _ _ _ _ h hv := mem_of_mem_pruneOperation h hv

theorem pathItems_pruning_stripped {paths paths' : Members}
    (h : pruning.pathItems paths = .ok paths') :
    StrippedPaths paths' :=
  PathItemEdit.pathItems_throughout pruning_regular (fun _ _ _ _ => trivial)
    (fun _ _ _ _ _ _ husable hop' => pruneOperation_stripped husable hop')
    (throughout_of_forall (fun _ => trivial) (fun _ => trivial) paths) h

theorem pathItems_pruning_fixed {paths : Members} (h : StrippedPaths paths) :
    pruning.pathItems paths = .ok paths :=
  PathItemEdit.pathItems_fixed (fun _ _ => rfl)
    (fun _ _ _ hop => pruneOperation_fixed hop) (fun _ hop => hop.callbacks) h

/-! ## Tags, information and components -/

/-- Tags whose objects have external documents with an address, or none. -/
def PrunedTags (v : Value) : Prop :=
  ∃ tags, v.items = .ok tags ∧ ∀ ms, Value.object ms ∈ tags →
    Kept "externalDocs" ["url"] ms

theorem withinAny_eq_object {change : Members → Except Fault Members}
    {v : Value} {ns : Members} (h : withinAny change v = .ok (.object ns)) :
    ∃ ms, v = .object ms ∧ change ms = .ok ns := by
  cases v with
  | marked mark ms =>
      obtain ⟨ns', hns', h⟩ := bind_eq_ok.mp h
      obtain rfl := (Tree.marked.inj (Except.ok.inj h)).2
      exact ⟨ms, rfl, hns'⟩
  | _ => simp [withinAny] at h

/-- An object among pruned tags is pruned. -/
private theorem kept_of_withinAny {v : Value} {ms : Members}
    (h : withinAny pruneTag v = .ok (.object ms)) :
    Kept "externalDocs" ["url"] ms := by
  obtain ⟨_, -, htag⟩ := withinAny_eq_object h
  exact kept_of_dropUnless htag

theorem pruneTags_pruned {v w : Value} (h : pruneTags v = .ok w)
    (hw : w.isBlank = false) : PrunedTags w := by
  unfold pruneTags at h
  split at h
  · obtain ⟨tags, htags, h⟩ := bind_eq_ok.mp h
    obtain rfl := Except.ok.inj h
    refine ⟨tags, rfl, fun ms hms => ?_⟩
    obtain ⟨tag, -, htag⟩ := exists_of_mem_mapM htags hms
    exact kept_of_withinAny htag
  · obtain ⟨first, hfirst, h⟩ := bind_eq_ok.mp h
    obtain ⟨second, hsecond, h⟩ := bind_eq_ok.mp h
    obtain rfl := Except.ok.inj h
    refine ⟨[first, second], rfl, fun ms hms => ?_⟩
    simp only [List.mem_cons, List.not_mem_nil, or_false] at hms
    rcases hms with rfl | rfl
    · exact kept_of_withinAny hfirst
    · exact kept_of_withinAny hsecond
  · split at h
    · obtain rfl := Except.ok.inj h
      simp_all
    · obtain ⟨xs, hxs, heq⟩ := bind_eq_ok.mp h
      obtain rfl := Except.ok.inj heq
      exact ⟨xs, hxs, fun ms hms => absurd hms (object_notMem_items hxs ‹_› ‹_› ms)⟩

theorem withinAny_fixed {change : Members → Except Fault Members} {v : Value}
    (h : ∀ ms, v = .object ms → change ms = .ok ms) : withinAny change v = .ok v := by
  cases v with
  | marked mark ms =>
      rw [withinAny, h ms rfl]
      rfl
  | _ => rfl

theorem pruneTags_fixed {v : Value} (h : PrunedTags v) : pruneTags v = .ok v := by
  obtain ⟨tags, htags, hkept⟩ := h
  have hfixed : ∀ tag ∈ tags, withinAny pruneTag tag = .ok tag := fun tag htag =>
    withinAny_fixed fun ms hms => dropUnless_of_kept (hkept ms (hms ▸ htag))
  unfold pruneTags
  split
  · obtain rfl := Except.ok.inj htags
    rw [mapM_eq_ok_iff.mpr (List.forall₂_same.mpr hfixed)]
    rfl
  · obtain rfl := Except.ok.inj htags
    rw [hfixed _ (by simp), ok_bind, hfixed _ (by simp)]
    rfl
  · rw [htags]
    split
    · rfl
    · rfl

/-- Information about a document with a contact that can be reached and a licence with a
name, or without them. -/
structure PrunedInfo (info : Members) : Prop where
  contact : Kept "contact" ["name", "email", "url"] info
  license : Kept "license" ["name"] info

theorem pruneInfo_eq_trim {info info' : Members} (h : pruneInfo info = .ok info') :
    info' = trim [("license", lacks ["name"]),
      ("contact", lacks ["name", "email", "url"])] info := by
  obtain ⟨info₁, hlicense, hcontact⟩ := bind_eq_ok.mp h
  rw [dropUnless_eq_trim hcontact, dropUnless_eq_trim hlicense, ← trim_append (by simp)]
  rfl

theorem pruneInfo_pruned {info info' : Members} (h : pruneInfo info = .ok info') :
    PrunedInfo info' := by
  obtain rfl := pruneInfo_eq_trim h
  constructor <;> exact fun v hv =>
    hasAny_eq_true_iff.mpr ((get?_trim_eq_some.mp hv).2 _ (by simp))

theorem pruneInfo_fixed {info : Members} (h : PrunedInfo info) :
    pruneInfo info = .ok info := by
  rw [pruneInfo, dropUnless_of_kept h.license, ok_bind, dropUnless_of_kept h.contact]

/-- Components without blank component maps. -/
def PrunedComponents (components : Members) : Prop :=
  ∀ name ∈ componentMaps, NotBlank name components

theorem pruneComponents_eq (components : Members) :
    pruneComponents components =
      dropBlank "securitySchemes" (dropBlank "schemas"
        (dropBlank "callbacks" (dropBlank "links" components))) := rfl

/-- Components are trimmed. -/
theorem pruneComponents_eq_trim (components : Members) :
    pruneComponents components = trim (blankUnder componentMaps) components :=
  foldl_dropBlank_eq_trim (by decide) components

theorem pruneComponents_pruned (components : Members) :
    PrunedComponents (pruneComponents components) := by
  intro name hname v hv
  rw [pruneComponents_eq_trim] at hv
  exact (get?_trim_eq_some.mp hv).2 Tree.isBlank (List.mem_map_of_mem hname)

theorem pruneComponents_fixed {components : Members} (h : PrunedComponents components) :
    pruneComponents components = components := by
  simp only [PrunedComponents, componentMaps, List.forall_mem_cons, List.not_mem_nil,
    false_imp_iff, implies_true, and_true] at h
  obtain ⟨hlinks, hcallbacks, hschemas, hschemes⟩ := h
  rw [pruneComponents_eq, dropBlank_of_notBlank hlinks, dropBlank_of_notBlank
    hcallbacks, dropBlank_of_notBlank hschemas, dropBlank_of_notBlank hschemes]

/-! ## Documents -/

/-- The paths of a document, pruned; a blank value is left alone. -/
def prunePaths (paths : Value) : Except Fault Value :=
  if paths.isBlank then pure paths else pruning.apply paths

/-- The members of a document without blank security, servers and tags. -/
def dropEmptyLists (ms : Members) : Members :=
  dropBlank "tags" (dropBlank "servers" (dropBlank "security" ms))

/-- The members of a document with its components pruned, if anything is left of
them. -/
def dropEmptyComponents (ms : Members) : Members :=
  match Members.get? "components" ms with
  | some (.object components) =>
    dropBlank "components"
      (Members.put "components" (.object (pruneComponents components)) ms)
  | _ => ms

/-- The steps in which a document is pruned. -/
theorem prune_eq_ok {ms : Members} {result : Value} :
    prune (.object ms) = .ok result ↔ ∃ ms₁ ms₂ ms₃ ms₄,
      Members.modifyM "paths" prunePaths ms = .ok ms₁ ∧
      Members.modifyM "tags" pruneTags ms₁ = .ok ms₂ ∧
      dropUnless "externalDocs" ["url"] ms₂ = .ok ms₃ ∧
      Members.modifyM "info" (withinAny pruneInfo) ms₃ = .ok ms₄ ∧
      result = .object (dropEmptyComponents (dropEmptyLists ms₄)) := by
  have hlast : ∀ ms₄ : Members,
      (match Members.get? "components" (dropEmptyLists ms₄) with
      | some (.object components) =>
        (pure (.object (dropBlank "components" (Members.put "components" (.object
          (pruneComponents components)) (dropEmptyLists ms₄)))) : Except Fault Value)
      | _ => pure (.object (dropEmptyLists ms₄))) =
      .ok (.object (dropEmptyComponents (dropEmptyLists ms₄))) := by
    intro ms₄
    unfold dropEmptyComponents
    split
    · simp_all
    · rfl
  constructor
  · intro h
    rw [prune, Tree.members, pure_eq_ok, ok_bind] at h
    obtain ⟨ms₁, hpaths, h⟩ := bind_eq_ok.mp h
    obtain ⟨ms₂, htags, h⟩ := bind_eq_ok.mp h
    obtain ⟨ms₃, hexternalDocs, h⟩ := bind_eq_ok.mp h
    obtain ⟨ms₄, hinfo, h⟩ := bind_eq_ok.mp h
    exact ⟨ms₁, ms₂, ms₃, ms₄, hpaths, htags, hexternalDocs, hinfo,
      Except.ok.inj (h.symm.trans (hlast ms₄))⟩
  · rintro ⟨ms₁, ms₂, ms₃, ms₄, hpaths, htags, hexternalDocs, hinfo, rfl⟩
    rw [prune, Tree.members, pure_eq_ok, ok_bind]
    refine bind_eq_ok.mpr ⟨ms₁, hpaths,
      bind_eq_ok.mpr ⟨ms₂, htags, bind_eq_ok.mpr ⟨ms₃, hexternalDocs, ?_⟩⟩⟩
    exact bind_eq_ok.mpr ⟨ms₄, hinfo, hlast ms₄⟩


/-- Whether components are an object of which nothing is left. -/
def isEmptied : Value → Bool
  | .object components => (trim (blankUnder componentMaps) components).isEmpty
  | _ => false

/-- The members of a document of which there may be no need. -/
def needlessParts : List (String × (Value → Bool)) :=
  [("externalDocs", lacks ["url"]), ("security", Tree.isBlank),
    ("servers", Tree.isBlank), ("tags", Tree.isBlank), ("components", isEmptied)]

/-- Members of a document and what the parts of pruning make of them. -/
structure PrunesTo (ms ns : Members) : Prop where
  others : SameBut ["paths", "tags", "info", "components"] (trim needlessParts ms) ns
  paths : Option.Rel (fun v w => prunePaths v = .ok w) (Members.get? "paths" ms)
    (Members.get? "paths" ns)
  tags : ∀ v, Members.get? "tags" ms = some v → v.isBlank = false →
    ∃ w, Members.get? "tags" ns = some w ∧ pruneTags v = .ok w
  info : Option.Rel (fun v w => withinAny pruneInfo v = .ok w) (Members.get? "info" ms)
    (Members.get? "info" ns)
  components : ∀ v, Members.get? "components" ms = some v → isEmptied v = false →
    ∃ w, Members.get? "components" ns = some w ∧
      withinAny (fun ms => pure (pruneComponents ms)) v = .ok w

theorem dropEmptyLists_eq_trim (ms : Members) :
    dropEmptyLists ms = trim (blankUnder ["security", "servers", "tags"]) ms :=
  foldl_dropBlank_eq_trim (show ["security", "servers", "tags"].Nodup by decide) ms

/-- Components are changed where they are, and dropped if nothing is left of them. -/
theorem sameBut_dropEmptyComponents (ms : Members) :
    SameBut ["components"] (trim [("components", isEmptied)] ms)
      (dropEmptyComponents ms) := by
  unfold dropEmptyComponents
  split
  · rename_i components hget
    have hsame :=
      sameBut_put hget (.object (trim (blankUnder componentMaps) components))
    rw [dropBlank_eq_trim, trim_singleton, trim_singleton, valueAt, valueAt, get?_put,
      if_pos rfl, hget, Option.getD_some, Option.getD_some, Tree.isBlank, isEmptied,
      pruneComponents_eq_trim]
    split
    · exact Aligned.filter hsame fun name => !name.same "components"
    · exact hsame
  · rename_i hnone
    have hleft : isEmptied (valueAt "components" ms) = false := by
      unfold valueAt isEmptied
      cases hget : Members.get? "components" ms with
      | none => rfl
      | some v =>
          cases v with
          | marked mark components => exact absurd hget (hnone components)
          | _ => rfl
    rw [trim_singleton, hleft, if_neg Bool.false_ne_true]
    exact .refl _ _

section

variable {ms : Members} {b : String}

theorem get?_dropEmptyLists (hsecurity : b ≠ "security")
    (hservers : b ≠ "servers") (htags : b ≠ "tags") (ms : Members) :
    Members.get? (.str b) (dropEmptyLists ms) = Members.get? (.str b) ms := by
  rw [dropEmptyLists_eq_trim,
    get?_trim_of_notMem (by simp [blankUnder, hsecurity, hservers, htags])]

theorem get?_dropEmptyComponents (hb : b ≠ "components") (ms : Members) :
    Members.get? (.str b) (dropEmptyComponents ms) = Members.get? (.str b) ms := by
  rw [(sameBut_dropEmptyComponents ms).get?_eq (by simpa using hb),
    get?_trim_of_notMem (by simpa using hb)]

/-- Components of which something is left are pruned. -/
theorem get?_components_dropEmptyComponents {v : Value}
    (hv : Members.get? "components" ms = some v) (hleft : isEmptied v = false) :
    ∃ w, Members.get? "components" (dropEmptyComponents ms) = some w ∧
      withinAny (fun ms => pure (pruneComponents ms)) v = .ok w := by
  unfold dropEmptyComponents
  rw [hv]
  cases v with
  | marked mark components =>
      refine ⟨.object (pruneComponents components), ?_, rfl⟩
      rw [isEmptied, ← pruneComponents_eq_trim] at hleft
      dsimp only
      rw [dropBlank_eq_trim, get?_trim_eq_some, get?_put, if_pos rfl]
      refine ⟨rfl, fun needless hmem => ?_⟩
      obtain rfl : needless = Tree.isBlank := by simpa using hmem
      exact hleft
  | _ => exact ⟨_, hv, rfl⟩

end

theorem pruneTags_isBlank {v w : Value} (h : pruneTags v = .ok w) :
    w.isBlank = v.isBlank := by
  unfold pruneTags at h
  split at h
  · obtain ⟨tags, htags, h⟩ := bind_eq_ok.mp h
    obtain rfl := Except.ok.inj h
    have hlength := (mapM_eq_ok_iff.mp htags).length_eq
    rw [Tree.isBlank, Tree.isBlank, Bool.eq_iff_iff, List.isEmpty_iff_length_eq_zero,
      List.isEmpty_iff_length_eq_zero, hlength]
  · obtain ⟨first, -, h⟩ := bind_eq_ok.mp h
    obtain ⟨second, -, h⟩ := bind_eq_ok.mp h
    obtain rfl := Except.ok.inj h
    rfl
  · split at h
    · rw [Except.ok.inj h]
    · obtain ⟨_, -, h⟩ := bind_eq_ok.mp h
      rw [Except.ok.inj h]

section

variable {ms ms₁ ms₂ ms₄ : Members}

/-- Tags that have been pruned, with what comes after, are blank if they were before. -/
private theorem tags_isBlank_of_rel
    (h : Option.Rel (fun v w => pruneTags v = .ok w) (Members.get? "tags" ms)
      (Members.get? "tags" ms₄)) :
    (valueAt "tags" ms₄).isBlank = (valueAt "tags" ms).isBlank := by
  unfold valueAt
  generalize Members.get? "tags" ms = before at h ⊢
  generalize Members.get? "tags" ms₄ = after at h ⊢
  cases h with
  | none => rfl
  | some hvw => exact pruneTags_isBlank hvw

/-- The steps of pruning leave everything but the parts that they prune, and what there
is no need of. -/
private theorem sameBut_of_steps (hpaths : modifyM "paths" prunePaths ms = .ok ms₁)
    (htags : modifyM "tags" pruneTags ms₁ = .ok ms₂)
    (hinfo : modifyM "info" (withinAny pruneInfo)
      (trim [("externalDocs", lacks ["url"])] ms₂) = .ok ms₄)
    (hblank : (valueAt "tags" ms₄).isBlank = (valueAt "tags" ms).isBlank) :
    SameBut ["paths", "tags", "info", "components"] (trim needlessParts ms)
      (dropEmptyComponents (dropEmptyLists ms₄)) := by
  have h₂ : SameBut ["paths", "tags", "info"] ms ms₂ :=
    ((sameBut_modifyM hpaths).mono (by simp)).trans
      ((sameBut_modifyM htags).mono (by simp))
  have h₃ := h₂.trim [("externalDocs", lacks ["url"])] (by simp [valueAt, h₂.get?_eq])
  have h₄ := h₃.trans ((sameBut_modifyM hinfo).mono (by simp))
  have h₅ : SameBut ["paths", "tags", "info"]
      (trim (blankUnder ["security", "servers", "tags"])
        (trim [("externalDocs", lacks ["url"])] ms))
      (dropEmptyLists ms₄) := by
    have htagsTrim : valueAt "tags" (trim [("externalDocs", lacks ["url"])] ms) =
        valueAt "tags" ms := by
      rw [valueAt, valueAt, get?_trim_of_notMem (by simp)]
    rw [dropEmptyLists_eq_trim]
    refine h₄.trim _ ?_
    simp only [blankUnder, List.forall_mem_map, List.forall_mem_cons, htagsTrim, hblank]
    simp [valueAt, h₄.get?_eq]
  have h₆ := h₅.trim [("components", isEmptied)] (by simp [valueAt, h₅.get?_eq])
  have hneedless : needlessParts = [("externalDocs", lacks ["url"])] ++
      blankUnder ["security", "servers", "tags"] ++ [("components", isEmptied)] := rfl
  rw [hneedless, trim_append (by simp [blankUnder]), trim_append (by simp [blankUnder])]
  exact (h₆.mono (by simp)).trans ((sameBut_dropEmptyComponents _).mono (by simp))

end

/-- The parts of a document after pruning, each made of what was there before. -/
theorem prunesTo_of_prune {document result : Value} (h : prune document = .ok result) :
    ∃ ms ns, document = .object ms ∧ result = .object ns ∧ PrunesTo ms ns := by
  obtain ⟨ms, hms, -⟩ := bind_eq_ok.mp h
  obtain rfl := members_eq_ok.mp hms
  obtain ⟨ms₁, ms₂, ms₃, ms₄, hpaths, htags, hexternalDocs, hinfo, rfl⟩ :=
    prune_eq_ok.mp h
  refine ⟨ms, _, rfl, rfl, ?_⟩
  obtain rfl := dropUnless_eq_trim hexternalDocs
  -- each step leaves what is not under its own names
  have hother₁ := fun a ha => get?_modifyM_of_ne (a := a) ha hpaths
  have hother₂ := fun a ha => get?_modifyM_of_ne (a := a) ha htags
  have hother₃ : ∀ a : String, a ≠ "externalDocs" →
      Members.get? (.str a) (trim [("externalDocs", lacks ["url"])] ms₂) =
        Members.get? (.str a) ms₂ :=
    fun a ha => get?_trim_of_notMem (by simpa using ha)
  have hother₄ := fun a ha => get?_modifyM_of_ne (a := a) ha hinfo
  have htagsRel : Option.Rel (fun v w => pruneTags v = .ok w) (Members.get? "tags" ms)
      (Members.get? "tags" ms₄) := by
    rw [hother₄ _ (by decide), hother₃ _ (by decide), ← hother₁ _ (by decide)]
    exact rel_get?_modifyM htags
  refine
    { others := ?_
      paths := ?_
      tags := fun v hv hblank => ?_
      info := ?_
      components := fun v hv hleft => ?_ }
  · exact sameBut_of_steps hpaths htags hinfo (tags_isBlank_of_rel htagsRel)
  · rw [get?_dropEmptyComponents (by decide),
      get?_dropEmptyLists (by decide) (by decide) (by decide), hother₄ _ (by decide),
      hother₃ _ (by decide), hother₂ _ (by decide)]
    exact rel_get?_modifyM hpaths
  · obtain ⟨w, hw, hvw⟩ := exists_of_rel_left (hv ▸ htagsRel)
    refine ⟨w, ?_, hvw⟩
    rw [get?_dropEmptyComponents (by decide), dropEmptyLists_eq_trim, get?_trim_eq_some]
    refine ⟨hw, fun needless hmem => ?_⟩
    obtain rfl : needless = Tree.isBlank := by simpa [blankUnder] using hmem
    rw [pruneTags_isBlank hvw, hblank]
  · rw [get?_dropEmptyComponents (by decide),
      get?_dropEmptyLists (by decide) (by decide) (by decide), ← hother₁
      _ (by decide), ← hother₂ _ (by decide), ← hother₃ _ (by decide)]
    exact rel_get?_modifyM hinfo
  · refine get?_components_dropEmptyComponents ?_ hleft
    rw [get?_dropEmptyLists (by decide) (by decide) (by decide), hother₄ _ (by decide),
      hother₃ _ (by decide), hother₂ _ (by decide), hother₁ _ (by decide), hv]

/-! ## Stripped documents -/

/-- The members of a document from which pruning takes nothing. -/
structure Stripped (ms : Members) : Prop where
  tags : ∀ v, Members.get? "tags" ms = some v → v.isBlank = false ∧ PrunedTags v
  info : ∀ info, Members.get? "info" ms = some (.object info) → PrunedInfo info
  externalDocs : Kept "externalDocs" ["url"] ms
  security : NotBlank "security" ms
  servers : NotBlank "servers" ms
  paths : ∀ v, Members.get? "paths" ms = some v → v.isBlank = true ∨
    ∃ paths, v = .object paths ∧ StrippedPaths paths
  components : ∀ components, Members.get? "components" ms = some (.object components) →
    components ≠ [] ∧ PrunedComponents components

theorem prunePaths_stripped {v w : Value} (h : prunePaths v = .ok w) :
    w.isBlank = true ∨ ∃ paths, w = .object paths ∧ StrippedPaths paths := by
  unfold prunePaths at h
  split at h
  · obtain rfl := Except.ok.inj h
    exact .inl ‹_›
  · obtain ⟨paths, -, h⟩ := bind_eq_ok.mp h
    obtain ⟨paths', hpaths', h⟩ := bind_eq_ok.mp h
    exact .inr ⟨paths', (Except.ok.inj h).symm, pathItems_pruning_stripped hpaths'⟩

theorem prunePaths_fixed {v : Value}
    (h : v.isBlank = true ∨ ∃ paths, v = .object paths ∧ StrippedPaths paths) :
    prunePaths v = .ok v := by
  unfold prunePaths
  split
  · rfl
  · rcases h with hblank | ⟨paths, rfl, hpaths⟩
    · contradiction
    · rw [PathItemEdit.apply, Tree.members, pure_eq_ok, ok_bind,
        pathItems_pruning_fixed hpaths]
      rfl

section

variable {ms ns : Members}

/-- What is left of a part that pruning does not look into is not needless. -/
private theorem PrunesTo.needed (h : PrunesTo ms ns) {name : String}
    {needless : Value → Bool} (hname : name ∉ ["paths", "tags", "info", "components"])
    (hneedless : (name, needless) ∈ needlessParts) {v : Value}
    (hv : Members.get? (.str name) ns = some v) : needless v = false := by
  rw [h.others.get?_eq hname, get?_trim_eq_some] at hv
  exact hv.2 needless hneedless

/-- What is left under a name was there, and there is need of it. -/
theorem PrunesTo.exists_before (h : PrunesTo ms ns) {name : String}
    (needless : Value → Bool) (hneedless : (name, needless) ∈ needlessParts) {w : Value}
    (hw : Members.get? (.str name) ns = some w) :
    ∃ v, Members.get? (.str name) ms = some v ∧ needless v = false := by
  cases hv : Members.get? (.str name) (trim needlessParts ms) with
  | none =>
      rw [Aligned.get?_none h.others hv] at hw
      contradiction
  | some v =>
      rw [get?_trim_eq_some] at hv
      exact ⟨v, hv.1, hv.2 needless hneedless⟩

theorem PrunesTo.stripped (h : PrunesTo ms ns) : Stripped ns where
  tags w hw := by
    obtain ⟨v, hv, hblank⟩ := h.exists_before Tree.isBlank (by simp [needlessParts]) hw
    obtain ⟨u, hu, hmade⟩ := h.tags v hv hblank
    obtain rfl : w = u := by simpa [hu] using hw.symm
    have hwBlank : w.isBlank = false := (pruneTags_isBlank hmade).trans hblank
    exact ⟨hwBlank, pruneTags_pruned hmade hwBlank⟩
  info info' hinfo' := by
    obtain ⟨v, -, hmade⟩ := exists_of_rel_right (hinfo' ▸ h.info)
    obtain ⟨info, -, hinfo⟩ := withinAny_eq_object hmade
    exact pruneInfo_pruned hinfo
  externalDocs v hv :=
    hasAny_eq_true_iff.mpr (h.needed (by simp) (by simp [needlessParts]) hv)
  security v hv := h.needed (by simp) (by simp [needlessParts]) hv
  servers v hv := h.needed (by simp) (by simp [needlessParts]) hv
  paths w hw := by
    obtain ⟨v, -, hmade⟩ := exists_of_rel_right (hw ▸ h.paths)
    exact prunePaths_stripped hmade
  components components' hcomponents' := by
    obtain ⟨v, hv, hleft⟩ :=
      h.exists_before isEmptied (by simp [needlessParts]) hcomponents'
    obtain ⟨w, hw, hmade⟩ := h.components v hv hleft
    obtain rfl : w = .object components' := by simpa [hw] using hcomponents'
    obtain ⟨components, rfl, hpruned⟩ := withinAny_eq_object hmade
    obtain rfl := Except.ok.inj hpruned
    refine ⟨?_, pruneComponents_pruned components⟩
    rw [isEmptied, ← pruneComponents_eq_trim] at hleft
    simpa using hleft

/-- The result of pruning is a stripped document. -/
theorem prune_stripped {document result : Value} (h : prune document = .ok result) :
    ∃ ms, result = .object ms ∧ Stripped ms := by
  obtain ⟨_, ns, -, rfl, hns⟩ := prunesTo_of_prune h
  exact ⟨ns, rfl, hns.stripped⟩

private theorem dropEmptyComponents_fixed (h : Stripped ms) :
    dropEmptyComponents ms = ms := by
  unfold dropEmptyComponents
  split
  · rename_i components hget
    obtain ⟨hne, hpruned⟩ := h.components components hget
    rw [pruneComponents_fixed hpruned, put_of_get? hget]
    refine dropBlank_of_notBlank fun v hv => ?_
    obtain rfl := Option.some.inj (hget.symm.trans hv)
    simpa [Tree.isBlank] using hne
  · rfl

/-- Pruning leaves a stripped document alone. -/
theorem prune_fixed (h : Stripped ms) : prune (.object ms) = .ok (.object ms) := by
  have hinfo : modifyM "info" (withinAny pruneInfo) ms = .ok ms :=
    modifyM_fixed fun v hv =>
    withinAny_fixed fun info hobject =>
      pruneInfo_fixed (h.info info (by rw [hv, hobject]))
  have hlists : dropEmptyLists ms = ms := by
    rw [dropEmptyLists, dropBlank_of_notBlank h.security, dropBlank_of_notBlank
      h.servers, dropBlank_of_notBlank fun v hv => (h.tags v hv).1]
  refine prune_eq_ok.mpr ⟨ms, ms, ms, ms, modifyM_fixed fun v hv =>
    prunePaths_fixed (h.paths v hv), modifyM_fixed fun v hv =>
    pruneTags_fixed (h.tags v hv).2, dropUnless_of_kept h.externalDocs, hinfo, ?_⟩
  rw [hlists, dropEmptyComponents_fixed h]

end

/-- A document is left alone by pruning exactly when it is stripped. -/
theorem prune_eq_self_iff {document : Value} :
    prune document = .ok document ↔ ∃ ms, document = .object ms ∧ Stripped ms := by
  constructor
  · exact prune_stripped
  · rintro ⟨ms, rfl, h⟩
    exact prune_fixed h

/-- A second pruning changes nothing. -/
theorem prune_idempotent {document result : Value} (h : prune document = .ok result) :
    prune result = .ok result :=
  prune_eq_self_iff.mpr (prune_stripped h)

end ApiWorkbench.Document
