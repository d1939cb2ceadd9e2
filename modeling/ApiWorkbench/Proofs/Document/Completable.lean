import ApiWorkbench.Proofs.Document.Reexport
import ApiWorkbench.Proofs.Document.TextNames

/-!
# Documents that can be completed

A shape makes sure that there are items where completion looks for items and objects
where it looks for objects. Of a parameter that may pass for a reference it asks
nothing else, and so its name may be something that is no name. Then it cannot be
told from others, and completion cannot join the parameters of its path item to those
of an operation. That is the only way in which a document that is in shape is
completed in vain.

## Main results

* `completion_succeeds_iff`: paths are completed exactly when parameters can be told
  apart and callbacks are maps.
* `complete_succeeds_iff`: documents in shape are completed exactly when the parameters
  in their paths can be told apart.
-/

namespace ApiWorkbench.Document

open Shape

/-! ## Parameters that can be told apart -/

theorem newParameters_succeeds_iff {shared : List Value} {seen : List ParameterKey} :
    Succeeds (newParameters seen shared) ↔ HasKeys shared := by
  induction shared generalizing seen with
  | nil => simp [newParameters, succeeds_ok, HasKeys, parameterKeys]
  | cons v rest ih =>
      cases v with
      | marked mark ms =>
          rw [hasKeys_cons_object, newParameters, succeeds_bind]
          constructor
          · rintro ⟨key, hkey, hrest⟩
            refine ⟨⟨key, hkey⟩, ?_⟩
            split at hrest
            · exact ih.mp hrest
            · obtain ⟨others, hothers, -⟩ := succeeds_bind.mp hrest
              exact ih.mp ⟨others, hothers⟩
          · rintro ⟨⟨key, hkey⟩, hrest⟩
            refine ⟨key, hkey, ?_⟩
            split
            · exact ih.mpr hrest
            · obtain ⟨others, hothers⟩ := ih.mpr hrest
              exact succeeds_bind.mpr ⟨others, hothers, succeeds_ok _⟩
      | _ => simpa [newParameters, HasKeys, parameterKeys] using ih

/-- Parameters are merged when they can be told apart. -/
theorem mergeParameters_succeeds_iff {shared own : List Value} :
    Succeeds (mergeParameters shared own) ↔ HasKeys own ∧ HasKeys shared := by
  rw [mergeParameters, succeeds_bind]
  constructor
  · rintro ⟨seen, hseen, hrest⟩
    obtain ⟨added, hadded, -⟩ := succeeds_bind.mp hrest
    exact ⟨⟨seen, hseen⟩, newParameters_succeeds_iff.mp ⟨added, hadded⟩⟩
  · rintro ⟨⟨seen, hseen⟩, hshared⟩
    obtain ⟨added, hadded⟩ := newParameters_succeeds_iff.mpr hshared
    exact ⟨seen, hseen, succeeds_bind.mpr ⟨added, hadded, succeeds_ok _⟩⟩

/-- The parameters that an operation or a path item lists: none in a place
that is blank. -/
def listedParameters (ms : Members) : Except Fault (List Value) :=
  (((Members.get? "parameters" ms).getD .null).orElse (.list [])).items

/-- There are parameters to list, and each object among them is identified. -/
def ParametersIdentified (ms : Members) : Prop :=
  ∃ parameters, listedParameters ms = .ok parameters ∧ HasKeys parameters

/-- An operation is completed when its own parameters and those that are shared with it
are identified. -/
theorem completeOperation_succeeds_iff {item op : Members} :
    Succeeds (completeOperation item op) ↔ ParametersIdentified item ∧
      ParametersIdentified op := by
  have hown : Members.get? "parameters" (filledOperation op) =
      some (((Members.get? "parameters" op).getD .null).orElse (.list [])) := by
    rw [filledOperation, get?_fill_of_ne (by decide), get?_fill_self,
      get?_fill_of_ne (by decide)]
  simp only [Succeeds, completeOperation_eq_ok, hown, Option.some.injEq]
  constructor
  · rintro ⟨op', own, shared, merged, rfl, hshared, ⟨items, hitems, hmerged⟩, -⟩
    obtain ⟨hownKeys, hsharedKeys⟩ := mergeParameters_succeeds_iff.mp ⟨merged, hmerged⟩
    exact ⟨⟨shared, hshared, hsharedKeys⟩, items, hitems, hownKeys⟩
  · rintro ⟨⟨shared, hshared, hsharedKeys⟩, items, hitems, hownKeys⟩
    obtain ⟨merged, hmerged⟩ := mergeParameters_succeeds_iff.mpr ⟨hownKeys, hsharedKeys⟩
    exact ⟨_, _, shared, merged, rfl, hshared, ⟨items, hitems, hmerged⟩, rfl⟩

/-! ## Paths -/

/-- Every operation at any callback depth has parameters that are identified, its own
and those of its path item. -/
def IdentifiedPaths (paths : Members) : Prop :=
  ∀ item op, ItemWithin paths item → HoldsOperation item op →
    ParametersIdentified item ∧ ParametersIdentified op

/-- Paths are completed when parameters are identified and callbacks are
maps, if anything. -/
theorem completion_succeeds_iff {paths : Members} :
    Succeeds (completion.pathItems paths) ↔
      ∀ item op, ItemWithin paths item → HoldsOperation item op →
        PathItemEdit.UsableCallbacks op ∧ ParametersIdentified item ∧
          ParametersIdentified op := by
  refine PathItemEdit.pathItems_succeeds_iff fun item op op₁ hagree => ?_
  have hparameters : ParametersIdentified op₁ ↔ ParametersIdentified op := by
    rw [ParametersIdentified, listedParameters, hagree.get?_eq (by decide)]
    rfl
  rw [show completion.operation = completeOperation from rfl,
    completeOperation_succeeds_iff, hparameters]

/-! ## Documents in shape -/

/-- What is accepted as a list and is not null has items. -/
theorem items_of_fits {shape : Shape DocumentKind}
    {v : Value} (h : Fits (.nullable (.list shape)) v) (hnull : v.isNull = false) :
    Succeeds v.items := by
  rcases accepts_nullable.mp h with h | h
  · simp [hnull] at h
  · cases v with
    | list xs => exact succeeds_ok xs
    | pair a b => exact succeeds_ok [a, b]
    | set names => exact succeeds_ok (names.map Tree.scalar)
    | scalar s => simp [Accepts, check, problemsOf] at h
    | marked mark ms => simp [Accepts, check, problemsOf] at h

theorem isNull_eq_false_of_not_isBlank {v : Value} (h : ¬ v.isBlank = true) :
    v.isNull = false := by
  cases hnull : v.isNull with
  | false => rfl
  | true =>
      unfold Tree.isNull at hnull
      split at hnull
      · simp [Tree.isBlank, Scalar.isBlank] at h
      · contradiction

/-- A member of an object in shape, or null in place of a missing one, is accepted
where null is. -/
theorem fits_getD {k : DocumentKind} {ms : Members}
    (h : InShape k ms) (name : String) (shape : Shape DocumentKind)
    (hfield : DocumentKind.optionalField name shape ∈ k.fields) :
    Fits (.nullable shape) ((Members.get? (.str name) ms).getD .null) := by
  cases hget : Members.get? (.str name) ms with
  | none => exact accepts_nullable.mpr (.inl rfl)
  | some v => exact (h.fields _ hfield).value v hget

/-- The operation that a path item in shape has under a method is in shape. -/
theorem inShape_of_method {item op : Members} (hitem : InShape .pathItem item)
    {method : Method} (hop : Members.get? (.str method.name) item = some (.object op)) :
    InShape .operation op := by
  have hfield : DocumentKind.optionalField method.name (.kind .operation) ∈
      DocumentKind.pathItem.fields := by
    cases method with
    | _ => simp [DocumentKind.fields, Method.all]
  rcases accepts_nullable.mp ((hitem.fields _ hfield).value _ hop) with hnull | hfits
  · simp [Tree.isNull] at hnull
  · exact (fits_kind (by simp)).mp hfits

/-- The operations of a path item in shape are in shape, if each stands under a
name of its own. -/
theorem inShape_of_holdsOperation {item op : Members} (hapart : NamedApart item)
    (hitem : InShape .pathItem item) (hop : HoldsOperation item op) :
    InShape .operation op := by
  obtain ⟨name, hmethod, hmem⟩ := hop
  obtain ⟨method, rfl⟩ := isMethod_iff.mp hmethod
  exact inShape_of_method hitem (hapart.get?_eq hmem)

theorem inShape_operation {item op : Members} (hapart : NamesApart (.object item))
    (hitem : InShape .pathItem item) (hop : HoldsOperation item op) :
    NamesApart (.object op) ∧ InShape .operation op := by
  refine ⟨?_, inShape_of_holdsOperation hapart.top hitem hop⟩
  obtain ⟨name, -, hmem⟩ := hop
  exact hapart.member hmem

/-- The path items of a map of paths in shape are in shape. -/
theorem inShape_of_holdsItem {paths item : Members}
    (hpaths : Fits (.map (.kind .pathItem)) (.object paths))
    (hitem : HoldsItem paths item) : InShape .pathItem item := by
  obtain ⟨name, hmem⟩ := hitem
  exact (fits_kind (by simp)).mp (accepts_map.mp hpaths _ hmem).2

theorem inShape_item {paths item : Members} (hapart : NamesApart (.object paths))
    (hpaths : Fits (.map (.kind .pathItem)) (.object paths))
    (hitem : HoldsItem paths item) :
    NamesApart (.object item) ∧ InShape .pathItem item := by
  refine ⟨?_, inShape_of_holdsItem hpaths hitem⟩
  obtain ⟨name, hmem⟩ := hitem
  exact hapart.member hmem

/-- The callbacks of an operation in shape are a map, if anything. -/
theorem usableCallbacks_of_inShape {op : Members} (hapart : NamesApart (.object op))
    (hop : InShape .operation op) :
    PathItemEdit.UsableCallbacks op := by
  intro v hv
  have hfield : DocumentKind.optionalField "callbacks" (.map (.map (.kind .pathItem))) ∈
      DocumentKind.operation.fields := by
    simp [DocumentKind.fields]
  rcases accepts_nullable.mp ((hop.fields _ hfield).value v (hapart.top.get?_eq hv))
    with hnull | hfits
  · unfold Tree.isNull at hnull
    split at hnull
    · exact .inr rfl
    · contradiction
  · obtain ⟨map, rfl⟩ := object_of_accepts_map hfits
    exact .inl rfl

/-- What is inside a callback of an operation in shape are paths in shape. -/
theorem fits_callback {op inner : Members} (hapart : NamesApart (.object op))
    (hop : InShape .operation op) (hinner : HoldsCallback op inner) :
    NamesApart (.object inner) ∧ Fits (.map (.kind .pathItem)) (.object inner) := by
  obtain ⟨map, name, hmap, hmem⟩ := hinner
  have hfield : DocumentKind.optionalField "callbacks" (.map (.map (.kind .pathItem))) ∈
      DocumentKind.operation.fields := by
    simp [DocumentKind.fields]
  refine ⟨(hapart.member hmap).member hmem, ?_⟩
  rcases accepts_nullable.mp ((hop.fields _ hfield).value _ (hapart.top.get?_eq hmap))
    with hnull | hfits
  · simp [Tree.isNull] at hnull
  · exact (accepts_map.mp hfits _ hmem).2

/-- The paths of a document in shape are a map of path items. -/
theorem fits_paths {ms : Members} (h : InShape .document ms) {v : Value}
    (hv : Members.get? "paths" ms = some v) :
    Fits (.map (.kind .pathItem)) v := by
  have hfield : ({ name := "paths", shape := .map (.kind .pathItem) } :
      Shape.Field DocumentKind) ∈ DocumentKind.document.fields := by
    simp [DocumentKind.fields]
  exact (h.fields _ hfield).value v hv

/-- All path items and operations in paths in shape are in shape, at any callback
depth. -/
theorem inShape_within {paths item : Members} (hapart : NamesApart (.object paths))
    (hpaths : Fits (.map (.kind .pathItem)) (.object paths))
    (hwithin : ItemWithin paths item) :
    NamesApart (.object item) ∧ InShape .pathItem item := by
  induction hwithin with
  | top hitem => exact inShape_item hapart hpaths hitem
  | nested _ hop hinner hitem ih =>
      obtain ⟨hitemApart, hitemShape⟩ := ih
      obtain ⟨hopApart, hopShape⟩ := inShape_operation hitemApart hitemShape hop
      obtain ⟨hinnerApart, hinnerFits⟩ := fits_callback hopApart hopShape hinner
      exact inShape_item hinnerApart hinnerFits hitem

/-- Paths in shape are completed exactly when the parameters in them are identified. -/
theorem completion_succeeds_iff_identified
    {paths : Members} (hapart : NamesApart (.object paths))
    (hpaths : Fits (.map (.kind .pathItem)) (.object paths)) :
    Succeeds (completion.pathItems paths) ↔ IdentifiedPaths paths := by
  rw [completion_succeeds_iff]
  refine forall₄_congr fun item op hwithin hop => and_iff_right ?_
  obtain ⟨hitemApart, hitem⟩ := inShape_within hapart hpaths hwithin
  obtain ⟨hopApart, hopShape⟩ := inShape_operation hitemApart hitem hop
  exact usableCallbacks_of_inShape hopApart hopShape

/-- Tags are completed if they can be listed, unless they are blank. -/
theorem completeTags_succeeds_iff {v : Value} :
    Succeeds (completeTags v) ↔ v.isBlank = true ∨ Succeeds v.items := by
  unfold completeTags
  split
  · exact iff_of_true (succeeds_ok _) (.inr (succeeds_ok _))
  · exact iff_of_true (succeeds_ok _) (.inr (succeeds_ok _))
  · split
    · exact iff_of_true (succeeds_ok _) (.inl ‹_›)
    · rw [succeeds_bind_pure, or_iff_right ‹_›]

private theorem completeTags_succeeds {v : Value}
    (h : Fits (.nullable (.list (.kind .tag))) v) :
    Succeeds (completeTags v) := by
  rw [completeTags_succeeds_iff, or_iff_not_imp_left]
  exact fun hblank => items_of_fits h (isNull_eq_false_of_not_isBlank hblank)

/-- An object stands where something accepted as one, or as null, was filled in
with an object. -/
private theorem object_orElse {k : DocumentKind} {v : Value}
    (h : Fits (.nullable (.kind k)) v) (empty : Members) :
    ∃ ms, v.orElse (.object empty) = .object ms := by
  unfold Tree.orElse
  split
  · exact ⟨empty, rfl⟩
  · rcases accepts_nullable.mp h with hnull | hfits
    · rw [isNull_eq_false_of_not_isBlank ‹_›] at hnull
      contradiction
    · exact object_of_accepts_kind hfits

/-- A document is completed if its tags are, if the information about it and its
components are objects where they are not blank, and if its paths are completed. -/
theorem complete_succeeds_iff_parts {ms : Members} : Succeeds (complete (.object ms)) ↔
    (∀ v, Members.get? "tags" ms = some v → Succeeds (completeTags v)) ∧
    Succeeds (((Members.get? "info" ms).getD .null).orElse untitledInfo).members ∧
    Succeeds (((Members.get? "components" ms).getD .null).orElse .emptyObject).members ∧
    Succeeds (completion.apply
      (((Members.get? "paths" ms).getD .null).orElse .emptyObject)) := by
  have hobject :
      ∀ (name : String) (empty : Value) (change : Members → Members) (ns : Members),
      Succeeds (Members.modifyM name (withinObject change) (fill name empty ns)) ↔
        Succeeds (((Members.get? name ns).getD .null).orElse empty).members := by
    intro name empty change ns
    rw [Members.modifyM_succeeds_iff, get?_fill_self]
    simp only [Option.some.injEq, forall_eq']
    exact succeeds_bind_pure
  rw [complete, Tree.members, pure_eq_ok, ok_bind]
  refine (succeeds_bind_iff_of fun ms₁ htags => ?_).trans
    (and_congr_left' Members.modifyM_succeeds_iff)
  have hother₁ := fun a ha => Members.get?_modifyM_of_ne (a := a) ha htags
  refine (succeeds_bind_iff_of fun ms₂ hinfo => ?_).trans (and_congr_left' ?_)
  · have hother₂ := fun a ha => Members.get?_modifyM_of_ne (a := a) ha hinfo
    dsimp only
    generalize hfilled : fill "paths" .emptyObject (fill "servers" (.list [])
      (fill "security" (.list []) (fill "externalDocs" .emptyObject ms₂))) = filled
    have hcomponents : Members.get? "components" filled =
        Members.get? "components" ms := by
      rw [← hfilled, get?_fill_of_ne (by decide), get?_fill_of_ne (by decide),
        get?_fill_of_ne (by decide), get?_fill_of_ne (by decide), hother₂ _ (by decide),
        get?_fill_of_ne (by decide), hother₁ _ (by decide)]
    have hpaths : Members.get? "paths" filled =
        some (((Members.get? "paths" ms).getD .null).orElse .emptyObject) := by
      rw [← hfilled, get?_fill_self, get?_fill_of_ne (by decide),
        get?_fill_of_ne (by decide), get?_fill_of_ne (by decide), hother₂ _ (by decide),
        get?_fill_of_ne (by decide), hother₁ _ (by decide)]
    refine (succeeds_bind_iff_of fun ms₃ hchanged => ?_).trans (and_congr_left' ?_)
    · have hget : Members.get? "paths" ms₃ =
          some (((Members.get? "paths" ms).getD .null).orElse .emptyObject) := by
        rw [Members.get?_modifyM_of_ne (by decide) hchanged,
          get?_fill_of_ne (by decide), hpaths]
      rw [succeeds_bind_pure, Members.modifyM_succeeds_iff, hget]
      simp
    · rw [hobject, hcomponents]
  · rw [hobject, hother₁ _ (by decide)]

/-- A document in shape is completed exactly when its paths are. -/
private theorem complete_succeeds_iff_paths {ms : Members} (h : InShape .document ms) :
    Succeeds (complete (.object ms)) ↔
      Succeeds (completion.apply
        (((Members.get? "paths" ms).getD .null).orElse .emptyObject)) := by
  have hobject : ∀ {kind : DocumentKind} {v : Value} (empty : Members),
      Fits (.nullable (.kind kind)) v →
      Succeeds (v.orElse (.object empty)).members := by
    intro kind v empty hfits
    obtain ⟨inner, hinner⟩ := object_orElse hfits empty
    exact ⟨inner, hinner ▸ rfl⟩
  have htagsField : DocumentKind.optionalField "tags" (.list (.kind .tag)) ∈
      DocumentKind.document.fields := by
    simp [DocumentKind.fields]
  rw [complete_succeeds_iff_parts, and_iff_right, and_iff_right, and_iff_right]
  · exact hobject []
      (fits_getD h "components" (.kind .components) (by simp [DocumentKind.fields]))
  · exact hobject _ (fits_getD h "info" (.kind .info) (by simp [DocumentKind.fields]))
  · exact fun v hv => completeTags_succeeds ((h.fields _ htagsField).value v hv)

/-- A document in shape is completed exactly when the parameters in its paths
are identified. -/
theorem complete_succeeds_iff {ms : Members} (hapart : NamesApart (.object ms))
    (h : InShape .document ms) :
    Succeeds (complete (.object ms)) ↔
      ∀ paths, Members.get? "paths" ms = some (.object paths) →
        IdentifiedPaths paths := by
  rw [complete_succeeds_iff_paths h]
  have happly : ∀ paths, Succeeds (completion.apply (.object paths)) ↔
      Succeeds (completion.pathItems paths) := by
    intro paths
    rw [PathItemEdit.apply, Tree.members, pure_eq_ok, ok_bind]
    exact ⟨fun hs => (succeeds_bind.mp hs).imp fun _ hs => hs.1,
      fun hs => succeeds_bind.mpr (hs.imp fun _ hns => ⟨hns, succeeds_ok _⟩)⟩
  cases hget : Members.get? "paths" ms with
  | none =>
      have hnone : Succeeds (completion.pathItems []) := succeeds_ok []
      simpa [Tree.orElse, Tree.isBlank, Scalar.isBlank, happly] using hnone
  | some v =>
      have hfits := fits_paths h hget
      obtain ⟨paths, rfl⟩ := object_of_accepts_map hfits
      have hpathsApart := hapart.member (Members.mem_of_get?_str hget)
      have horElse : (Value.object paths).orElse .emptyObject = .object paths := by
        unfold Tree.orElse
        split
        · exact (object_of_isBlank ‹_›).symm
        · rfl
      rw [Option.getD_some, horElse, happly,
        completion_succeeds_iff_identified hpathsApart hfits]
      simp

end ApiWorkbench.Document
