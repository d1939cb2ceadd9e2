import ApiWorkbench.Proofs.Document.EveryDepth
import ApiWorkbench.Proofs.Document.Stripped

/-!
# What pruning takes away, and nothing else

Pruning a document trims the document, its information, its components, its tags and its
operations at every callback depth, and makes the tags of operations distinct. That is
said here member by member, together with what it does not touch: every other member of
any of these keeps its value, and all that is left keeps its place.

## Main results

* `distinct_eq_eraseDupsBy`: tags that are made distinct are the first
  occurrences in order.
* `pruning_pathsPruned`: what becomes of the operations at every depth.
* `documentPruned_of_prune`: what becomes of a document.
-/

namespace ApiWorkbench.Document

open Members

/-! ## Operations -/

private theorem eraseDupsBy_loop_eq (seen xs : List Value) :
    List.eraseDupsBy.loop Tree.same xs seen = seen.reverse ++ distinct seen xs := by
  induction xs generalizing seen with
  | nil => simp [List.eraseDupsBy.loop, distinct]
  | cons x xs ih =>
      rw [List.eraseDupsBy.loop, distinct]
      cases seen.any x.same with
      | true => exact ih seen
      | false => simp [ih]

/-- Values that are made distinct are the first occurrences in order. -/
theorem distinct_eq_eraseDupsBy (xs : List Value) :
    distinct [] xs = xs.eraseDupsBy Tree.same := by
  rw [List.eraseDupsBy, eraseDupsBy_loop_eq]
  rfl

/-- What becomes of an operation, given what becomes of the maps of paths in
its callbacks. -/
structure OperationPruned (inside : Members → Members → Prop) (op op' : Members) :
    Prop where
  others : SameBut ["tags", "callbacks"]
    (trim [("externalDocs", lacks ["url"]), ("tags", Tree.isBlank)] op) op'
  tags : ∀ v, get? "tags" op = some v → v.isBlank = false →
    ∃ names, v.items = .ok names ∧
      get? "tags" op' = some (.list (names.eraseDupsBy Tree.same))
  callbacks : ∀ v, get? "callbacks" op = some v →
    ∃ w, get? "callbacks" op' = some w ∧ CallbacksBecome inside v w

/-- What becomes of a map of paths: operations are pruned. -/
def PathsPruned : Members → Members → Prop :=
  AtEveryDepth (PathLevel id fun inside _ => OperationPruned inside)

theorem pruning_operationPruned
    {inside : Members → Members → Prop} {op op₁ op' : Members}
    (hagree : PathItemEdit.AgreeButCallbacks (CallbacksBecome inside) op op₁)
    (h : pruneOperation op₁ = .ok op') : OperationPruned inside op op' := by
  have htrim := pruneOperation_eq_ok_trim h
  refine
    { others := ?_
      tags := fun v hv hblank => ?_
      callbacks := fun v hv => ?_ }
  · have hsame := hagree.sameBut.trim [("externalDocs", lacks ["url"]),
      ("tags", Tree.isBlank)] (by simp [valueAt, hagree.get?_eq])
    exact (hsame.mono (by simp)).trans ((sameBut_modifyM htrim).mono (by simp))
  · have hread : get? "tags" (trim [("externalDocs", lacks ["url"]),
        ("tags", Tree.isBlank)] op₁) = some v := by
      rw [get?_trim_eq_some, hagree.get?_eq (by decide)]
      exact ⟨hv, by simpa using hblank⟩
    obtain ⟨w, hw, hmade⟩ := exists_of_rel_left (hread ▸ rel_get?_modifyM htrim)
    obtain ⟨names, hnames, hmade⟩ := bind_eq_ok.mp hmade
    split at hmade
    · obtain rfl := Except.ok.inj hmade
      exact ⟨names, hnames, by rw [hw, distinct_eq_eraseDupsBy]⟩
    · simp at hmade
  · obtain ⟨w, hw, hvw⟩ := hagree.get?_callbacks hv
    refine ⟨w, ?_, hvw⟩
    rw [get?_modifyM_of_ne (by decide) htrim, get?_trim_of_notMem (by simp), hw]

/-- Operations are pruned at every callback depth, and path items keep everything
else. -/
theorem pruning_pathsPruned {paths paths' : Members}
    (h : pruning.pathItems paths = .ok paths') :
    PathsPruned paths paths' :=
  PathItemEdit.atEveryDepth_of_pathItems id pruning_operationPruned h

/-! ## Documents -/

/-- What becomes of a tag. -/
def TagPruned (tag tag' : Members) : Prop :=
  tag' = trim [("externalDocs", lacks ["url"])] tag

/-- What becomes of the information about a document. -/
def InfoPruned (info info' : Members) : Prop :=
  info' =
    trim [("license", lacks ["name"]), ("contact", lacks ["name", "email", "url"])] info

/-- What becomes of the components of a document. -/
def ComponentsPruned (components components' : Members) : Prop :=
  components' = trim (blankUnder componentMaps) components

/-- What becomes of the members of a document. -/
structure DocumentPruned (ms ns : Members) : Prop where
  others : SameBut ["paths", "tags", "info", "components"] (trim needlessParts ms) ns
  paths : ∀ v, get? "paths" ms = some v → ∃ w, get? "paths" ns = some w ∧
    OnObject PathsPruned v w
  tags : ∀ v, get? "tags" ms = some v → v.isBlank = false →
    ∃ w, get? "tags" ns = some w ∧ TagsBecome TagPruned v w
  info : ∀ v, get? "info" ms = some v → ∃ w, get? "info" ns = some w ∧
    OnObject InfoPruned v w
  components : ∀ v, get? "components" ms = some v → isEmptied v = false →
    ∃ w, get? "components" ns = some w ∧ OnObject ComponentsPruned v w

section

variable {v w : Value}

theorem onObject_of_withinAny {change : Members → Except Fault Members}
    (h : withinAny change v = .ok w) :
    OnObject (fun ms ns => change ms = .ok ns) v w := by
  cases v with
  | marked mark ms =>
      obtain ⟨ns, hns, heq⟩ := bind_eq_ok.mp h
      exact ⟨ns, (Except.ok.inj heq).symm, hns⟩
  | _ => exact (Except.ok.inj h).symm

private theorem onObject_pruneTag (h : withinAny pruneTag v = .ok w) :
    OnObject TagPruned v w :=
  (onObject_of_withinAny h).imp fun _ _ _ htag => dropUnless_eq_trim htag

theorem pruneTags_tagsBecome (h : pruneTags v = .ok w) : TagsBecome TagPruned v w := by
  unfold pruneTags at h
  split at h
  · obtain ⟨tags', htags', h⟩ := bind_eq_ok.mp h
    exact ⟨tags', (Except.ok.inj h).symm, (mapM_eq_ok_iff.mp htags').imp fun _ _ =>
      onObject_pruneTag⟩
  · obtain ⟨first, hfirst, h⟩ := bind_eq_ok.mp h
    obtain ⟨second, hsecond, h⟩ := bind_eq_ok.mp h
    exact ⟨first, second, (Except.ok.inj h).symm, onObject_pruneTag hfirst,
      onObject_pruneTag hsecond⟩
  · obtain rfl : w = v := by
      split at h
      · exact (Except.ok.inj h).symm
      · obtain ⟨_, -, heq⟩ := bind_eq_ok.mp h
        exact (Except.ok.inj heq).symm
    exact tagsBecome_self ‹_› ‹_›

theorem prunePaths_onObject (h : prunePaths v = .ok w) : OnObject PathsPruned v w := by
  unfold prunePaths at h
  split at h
  · rename_i hblank
    obtain rfl := Except.ok.inj h
    cases v with
    | marked mark paths =>
        obtain rfl : paths = [] := by simpa [Tree.isBlank] using hblank
        exact ⟨[], rfl, pruning_pathsPruned rfl⟩
    | _ => rfl
  · obtain ⟨paths, hread, h⟩ := bind_eq_ok.mp h
    obtain ⟨paths', hpaths', heq⟩ := bind_eq_ok.mp h
    obtain rfl := members_eq_ok.mp hread
    exact ⟨paths', (Except.ok.inj heq).symm, pruning_pathsPruned hpaths'⟩

end

/-- Pruning of a document takes away what is needless and makes the tags of
operations distinct, and leaves everything else with the same values in the same
order, at every depth. -/
theorem documentPruned_of_prune {document result : Value}
    (h : prune document = .ok result) :
    ∃ ms ns, document = .object ms ∧ result = .object ns ∧ DocumentPruned ms ns := by
  obtain ⟨ms, ns, rfl, rfl, hns⟩ := prunesTo_of_prune h
  refine ⟨ms, ns, rfl, rfl, ?_⟩
  refine
    { others := hns.others
      paths := fun v hv => ?_
      tags := fun v hv hblank => ?_
      info := fun v hv => ?_
      components := fun v hv hleft => ?_ }
  · obtain ⟨w, hw, hmade⟩ := exists_of_rel_left (hv ▸ hns.paths)
    exact ⟨w, hw, prunePaths_onObject hmade⟩
  · obtain ⟨w, hw, hmade⟩ := hns.tags v hv hblank
    exact ⟨w, hw, pruneTags_tagsBecome hmade⟩
  · obtain ⟨w, hw, hmade⟩ := exists_of_rel_left (hv ▸ hns.info)
    exact ⟨w, hw, (onObject_of_withinAny hmade).imp fun _ _ _ hinfo =>
      pruneInfo_eq_trim hinfo⟩
  · obtain ⟨w, hw, hmade⟩ := hns.components v hv hleft
    refine ⟨w, hw, (onObject_of_withinAny hmade).imp fun components _ _ hpruned => ?_⟩
    exact (Except.ok.inj hpruned).symm.trans (pruneComponents_eq_trim components)

end ApiWorkbench.Document
