import ApiWorkbench.Proofs.Document.EditedPlaces
import ApiWorkbench.Proofs.Document.Reexport
import ApiWorkbench.Proofs.Writable
import ApiWorkbench.Document.Export

/-!
# Which imported documents can be exported

Pruning looks into members that it takes for objects, and it tells tags apart. What it
finds there in an imported document is what the shapes ask for, with one exception: no
shape says what the external documents of an operation are. Where they are a text, a
list or a number, the document is imported, and it cannot be pruned.

So an import is pruned exactly when the external documents of every operation, at any
callback depth, are an object. It is exported exactly when, besides, what is left of it
can be written: an import may hold bytes and sets, which have no JSON, and integers that
are too long for any text.

## Main results

* `pruneOperation_succeeds_iff`, `prune_succeeds_iff`: what pruning needs of an
  operation and of a document in shape.
* `importText_listsTags`: what the tags of an imported operation are, at any
  callback depth.
* `importText_exports_iff`: which imported documents are pruned and exported.
-/

namespace ApiWorkbench.Document

open Shape

/-! ## Members that are looked into -/

/-- What is under a name, if anything, is blank or an object, so that something can be
looked for in it. -/
def LooksInto (name : String) (ms : Members) : Prop :=
  ∀ v, Members.get? (.str name) ms = some v → v.isBlank = true ∨ v.isObject = true

theorem hasAny_succeeds_iff (name : String) (rest : List String) {v : Value} :
    Succeeds (hasAny (name :: rest) v) ↔ v.isBlank = true ∨ v.isObject = true := by
  by_cases hblank : v.isBlank = true
  · exact iff_of_true ⟨false, hasAny_of_isBlank hblank⟩ (.inl hblank)
  rw [hasAny, if_neg hblank, or_iff_right hblank]
  cases v with
  | marked mark ms => exact iff_of_true (anyM_succeeds fun name _ => succeeds_ok _) rfl
  | _ => exact iff_of_false (not_succeeds_iff.mpr ⟨_, rfl⟩) Bool.false_ne_true

theorem dropUnless_succeeds_iff {name : String} (needed : String) (rest : List String)
    {ms : Members} :
    Succeeds (dropUnless name (needed :: rest) ms) ↔ LooksInto name ms := by
  unfold dropUnless LooksInto
  cases Members.get? (.str name) ms with
  | none => simp [succeeds_ok]
  | some v =>
      simp only [Option.some.injEq, forall_eq']
      rw [← hasAny_succeeds_iff needed rest]
      exact succeeds_bind_pure

theorem looksInto_congr {name : String} {ms ms' : Members}
    (h : Members.get? (.str name) ms = Members.get? (.str name) ms') :
    LooksInto name ms ↔ LooksInto name ms' := by
  rw [LooksInto, LooksInto, h]

/-- What has to be of a kind, if anything, can be looked into. -/
theorem looksInto_of_inShape (kind : DocumentKind)
    {k : DocumentKind} {ms : Members} (h : InShape k ms)
    {name : String} (hfield : DocumentKind.optionalField name (.kind kind) ∈ k.fields) :
    LooksInto name ms := by
  intro v hv
  by_cases hblank : v.isBlank = true
  · exact .inl hblank
  rcases accepts_nullable.mp ((h.fields _ hfield).value v hv) with hnull | hfits
  · simp [isNull_eq_false_of_not_isBlank hblank] at hnull
  · obtain ⟨inner, rfl⟩ := object_of_accepts_kind hfits
    exact .inr rfl

/-! ## Tags and information -/

/-- The tags of an operation, if any, can be told apart. -/
def TagsApart (op : Members) : Prop :=
  ∀ v, Members.get? "tags" op = some v → v.isBlank = true ∨
    Succeeds (pruneOperationTags v)

theorem pruneOperation_succeeds_iff {op : Members} :
    Succeeds (pruneOperation op) ↔ LooksInto "externalDocs" op ∧ TagsApart op := by
  have htags : ∀ op₁, dropUnless "externalDocs" ["url"] op = .ok op₁ →
      (Succeeds (Members.modifyM "tags" pruneOperationTags (dropBlank "tags" op₁)) ↔
        TagsApart op) := by
    intro op₁ hop₁
    have hget := (actsAt_dropUnless "externalDocs" ["url"]).get
      (show "tags" ≠ "externalDocs" by decide) hop₁
    rw [Members.modifyM_succeeds_iff, TagsApart, ← hget, dropBlank]
    cases hv : Members.get? (.str "tags") op₁ with
    | none => simp [hv]
    | some v =>
        by_cases hblank : v.isBlank = true
        · simp [hblank]
        · simp [hblank, hv]
  rw [pruneOperation, succeeds_bind, ← dropUnless_succeeds_iff "url" []]
  constructor
  · rintro ⟨op₁, hop₁, hrest⟩
    exact ⟨⟨op₁, hop₁⟩, (htags op₁ hop₁).mp hrest⟩
  · rintro ⟨⟨op₁, hop₁⟩, hapart⟩
    exact ⟨op₁, hop₁, (htags op₁ hop₁).mpr hapart⟩

/-- Tags that are texts can be told apart. -/
theorem tagsApart_of_fits {op : Members}
    (h : Fits (.nullable (.list .text)) (Members.valueAt "tags" op)) :
    TagsApart op := by
  intro v hv
  rw [Members.valueAt, hv, Option.getD_some] at h
  by_cases hblank : v.isBlank = true
  · exact .inl hblank
  obtain ⟨names, hnames⟩ := items_of_fits h (isNull_eq_false_of_not_isBlank hblank)
  have hlist : Fits (.list .text) v := by
    rcases accepts_nullable.mp h with hnull | hlist
    · simp [isNull_eq_false_of_not_isBlank hblank] at hnull
    · exact hlist
  have hconstant : names.all isConstant = true := by
    refine List.all_eq_true.mpr fun x hx => ?_
    obtain ⟨s, rfl⟩ := scalar_of_accepts_text (accepts_items hlist hnames x hx)
    rfl
  exact .inr ⟨_, by rw [pruneOperationTags, hnames, ok_bind, if_pos hconstant]; rfl⟩

/-- A tag of a document is an object whose external documents can be looked into. -/
private theorem pruneTag_succeeds {v : Value} (h : Fits (.kind .tag) v) :
    Succeeds (withinAny pruneTag v) := by
  obtain ⟨tag, rfl⟩ := object_of_accepts_kind h
  have hshape : InShape .tag tag := (fits_kind (by simp)).mp h
  have hlooks : LooksInto "externalDocs" tag :=
    looksInto_of_inShape .externalDocs hshape (by simp [DocumentKind.fields])
  exact succeeds_bind_pure.mpr ((dropUnless_succeeds_iff "url" []).mpr hlooks)

theorem pruneTags_succeeds {v : Value} (h : Fits (.nullable (.list (.kind .tag))) v) :
    Succeeds (pruneTags v) := by
  unfold pruneTags
  split
  · next tags =>
    have htags : ∀ tag ∈ tags, Fits (.kind .tag) tag := by
      rcases accepts_nullable.mp h with hnull | hlist
      · simp [Tree.isNull] at hnull
      · exact accepts_list.mp hlist
    exact succeeds_bind_pure.mpr (mapM_succeeds_iff.mpr fun tag htag =>
      pruneTag_succeeds (htags tag htag))
  · next a b =>
    have hboth : Fits (.kind .tag) a ∧ Fits (.kind .tag) b := by
      rcases accepts_nullable.mp h with hnull | hlist
      · simp [Tree.isNull] at hnull
      · exact accepts_pair.mp hlist
    exact (succeeds_bind_iff fun _ => succeeds_bind_pure).mpr
      ⟨pruneTag_succeeds hboth.1, pruneTag_succeeds hboth.2⟩
  · split
    · exact succeeds_ok _
    · next hblank =>
      obtain ⟨items, hitems⟩ := items_of_fits h (isNull_eq_false_of_not_isBlank hblank)
      exact succeeds_bind_pure.mpr ⟨items, hitems⟩

theorem pruneInfo_succeeds {v : Value} (h : Fits (.nullable (.kind .info)) v) :
    Succeeds (withinAny pruneInfo v) := by
  cases v with
  | marked mark info =>
      have hshape : InShape .info info := by
        rcases accepts_nullable.mp h with hnull | hinfo
        · simp [Tree.isNull] at hnull
        · exact (fits_kind (by simp)).mp hinfo
      have hlicense : LooksInto "license" info :=
        looksInto_of_inShape .license hshape (by simp [DocumentKind.fields])
      have hcontact : LooksInto "contact" info :=
        looksInto_of_inShape .contact hshape (by simp [DocumentKind.fields])
      obtain ⟨info₁, hinfo₁⟩ := (dropUnless_succeeds_iff "name" []).mpr hlicense
      have hget := (actsAt_dropUnless "license" ["name"]).get
        (show "contact" ≠ "license" by decide) hinfo₁
      refine succeeds_bind_pure.mpr (succeeds_bind.mpr ⟨info₁, hinfo₁, ?_⟩)
      exact (dropUnless_succeeds_iff "name" ["email", "url"]).mpr
        ((looksInto_congr hget).mpr hcontact)
  | _ => exact succeeds_ok _

/-- A document in shape is pruned if its paths are. -/
theorem prune_succeeds_iff {ms : Members} (h : InShape .document ms) :
    Succeeds (prune (.object ms)) ↔ ∀ v, Members.get? "paths" ms = some v →
      Succeeds (prunePaths v) := by
  rw [← Members.modifyM_succeeds_iff]
  constructor
  · rintro ⟨result, hresult⟩
    obtain ⟨ms₁, -, -, -, hpaths, -⟩ := prune_eq_ok.mp hresult
    exact ⟨ms₁, hpaths⟩
  · rintro ⟨ms₁, hpaths⟩
    have hget₁ := fun {b : String} (hb : b ≠ "paths") =>
      (actsAt_modifyM "paths" prunePaths).get hb hpaths
    obtain ⟨ms₂, htags⟩ : Succeeds (Members.modifyM "tags" pruneTags ms₁) := by
      rw [Members.modifyM_succeeds_iff, hget₁ (by decide)]
      intro v hv
      have hfield : DocumentKind.optionalField "tags" (.list (.kind .tag)) ∈
          DocumentKind.document.fields := by
        simp [DocumentKind.fields]
      exact pruneTags_succeeds ((h.fields _ hfield).value v hv)
    have hget₂ := fun {b : String} (hb : b ≠ "tags") =>
      (actsAt_modifyM "tags" pruneTags).get hb htags
    obtain ⟨ms₃, hexternalDocs⟩ : Succeeds (dropUnless "externalDocs" ["url"] ms₂) := by
      rw [dropUnless_succeeds_iff,
        looksInto_congr ((hget₂ (by decide)).trans (hget₁ (by decide)))]
      exact looksInto_of_inShape .externalDocs h (by simp [DocumentKind.fields])
    have hget₃ := fun {b : String} (hb : b ≠ "externalDocs") =>
      (actsAt_dropUnless "externalDocs" ["url"]).get hb hexternalDocs
    obtain ⟨ms₄, hinfo⟩ :
        Succeeds (Members.modifyM "info" (withinAny pruneInfo) ms₃) := by
      rw [Members.modifyM_succeeds_iff, hget₃ (by decide), hget₂ (by decide),
        hget₁ (by decide)]
      intro v hv
      have hfield : DocumentKind.optionalField "info" (.kind .info) ∈
          DocumentKind.document.fields := by
        simp [DocumentKind.fields]
      exact pruneInfo_succeeds ((h.fields _ hfield).value v hv)
    exact ⟨_,
      prune_eq_ok.mpr ⟨ms₁, ms₂, ms₃, ms₄, hpaths, htags, hexternalDocs, hinfo, rfl⟩⟩

/-! ## The tags of imported operations -/

/-- The tags of an operation are a list of texts, or there are none. -/
def ListsTags (op : Members) : Prop :=
  Fits (.nullable (.list .text)) (Members.valueAt "tags" op)

theorem listsTags_of_inShape {op : Members} (h : InShape .operation op) :
    ListsTags op :=
  fits_getD h "tags" (.list .text) (by simp [DocumentKind.fields])

/-- Completion fills in an empty list where there are no tags. -/
theorem listsTags_of_completeOperation {item op op' : Members} (hop : ListsTags op)
    (h : completeOperation item op = .ok op') : ListsTags op' := by
  obtain ⟨_, _, merged, _, _, _, rfl⟩ := completeOperation_eq_ok.mp h
  rw [ListsTags, Members.valueAt, Members.get?_put, if_neg (by decide), filledOperation,
    get?_fill_of_ne (by decide), get?_fill_of_ne (by decide), get?_fill_self,
      Option.getD_some, Tree.orElse]
  split
  · exact fits_nullable_list (by simp)
  · exact hop

/-- Completing paths leaves the tags of their operations. -/
private theorem listsTags_of_completion
    {paths paths' : Members} (hpaths : Throughout (fun _ => True) ListsTags paths)
    (h : completion.pathItems paths = .ok paths') :
    Throughout (fun _ => True) ListsTags paths' := by
  refine PathItemEdit.pathItems_throughout completion_regular
    (fun _ _ _ _ => trivial) ?_ hpaths h
  intro item op op₁ op' hop hagree _ hop'
  refine listsTags_of_completeOperation ?_ hop'
  rwa [ListsTags, Members.valueAt, hagree.get?_eq (by decide)]

/-- The operations of a document in shape list tags at any callback depth, if names are
different texts. -/
private theorem listsTags_of_namesApart
    {ms paths : Members} (hapart : NamesApart (.object ms)) (h : InShape .document ms)
    (hpaths : Members.get? "paths" ms = some (.object paths)) :
    Throughout (fun _ => True) ListsTags paths := by
  have hpathsApart := hapart.member (Members.mem_of_get?_str hpaths)
  refine ⟨fun _ _ => trivial, fun item op hwithin hop => ?_⟩
  obtain ⟨hitemApart, hitem⟩ := inShape_within hpathsApart (fits_paths h hpaths) hwithin
  exact listsTags_of_inShape (inShape_operation hitemApart hitem hop).2

/-- The operations of a converted document in shape list tags; there are none in
callbacks. -/
private theorem listsTags_of_convertDocument
    {source : Value} {ms paths : Members} (hapart : NamesApart source)
    (hconvert : Swagger.convertDocument source = .ok (.object ms))
    (h : InShape .document ms)
    (hpaths : Members.get? "paths" ms = some (.object paths)) :
    Throughout (fun _ => True) ListsTags paths := by
  have hpathsApart := (convertDocument_editedApart hapart hconvert).paths paths hpaths
  have hcallbacks := throughout_iff.mp (convertDocument_hasNoCallbacks hconvert hpaths)
  refine throughout_iff.mpr fun item hitem => ⟨trivial, fun op hop => ⟨?_, ?_⟩⟩
  · have hitemShape := inShape_of_holdsItem (fits_paths h hpaths) hitem
    exact listsTags_of_inShape
      (inShape_of_holdsOperation (hpathsApart.items item hitem).names hitemShape hop)
  · rintro inner ⟨callbacks, name, hmem, -⟩
    exact absurd hmem (((hcallbacks item hitem).2 op hop).1 _)

/-- The operations of an imported document list tags, at any callback depth. -/
theorem importText_listsTags {text : String}
    {ms paths : Members} (h : importText text = .ok (.object ms))
    (hpaths : Members.get? "paths" ms = some (.object paths)) :
    Throughout (fun _ => True) ListsTags paths := by
  obtain ⟨source, hparse, h⟩ := bind_eq_ok.mp h
  have hapart := parse_namesApart hparse
  dsimp only at h
  split at h
  · rename_i hformat
    obtain ⟨document, hdocument, h⟩ := bind_eq_ok.mp h
    obtain rfl := Except.ok.inj hdocument
    obtain ⟨_, hshape, h⟩ := bind_eq_ok.mp h
    obtain ⟨ns, hversion, -⟩ := withTextVersion_statesVersion hformat
    have hnamesApart := withTextVersion_namesApart hapart
    rw [hversion] at h hnamesApart hshape
    obtain ⟨-, before, after, hbefore, hcompletion, hafter⟩ :=
      complete_parts (importing_eq_ok.mp h)
    obtain rfl : after = paths := by simpa [hafter] using hpaths
    refine listsTags_of_completion ?_ hcompletion
    rcases eq_nil_or_eq_some_of_orElse hbefore with rfl | hget
    · exact throughout_nil
    · exact listsTags_of_namesApart hnamesApart
        ((fits_kind (by simp)).mp (requireShape_eq_ok.mp hshape)) hget
  · obtain ⟨document, hconvert, h⟩ := bind_eq_ok.mp h
    obtain ⟨_, hshape, h⟩ := bind_eq_ok.mp h
    have hconverted := importing_eq_ok.mp hconvert
    have hfixed := (convertDocument_spec hconverted).1
    rw [importing_eq_ok.mpr hfixed, Except.ok.injEq] at h
    rw [h] at hconverted hshape
    exact listsTags_of_convertDocument hapart hconverted
      ((fits_kind (by simp)).mp (requireShape_eq_ok.mp hshape)) hpaths
  · simp at h

/-! ## Exports -/

/-- The external documents of an operation are an object. -/
def HasDocsObject (op : Members) : Prop :=
  (Members.valueAt "externalDocs" op).isObject = true

/-- Whatever is blank in the place of external documents has been replaced by an object
in a complete operation. -/
theorem looksInto_iff_hasDocsObject {op : Members} (h : CompleteOperation op) :
    LooksInto "externalDocs" op ↔ HasDocsObject op := by
  obtain ⟨docs, hdocs, hempty⟩ := h.externalDocs
  have hvalue : Members.valueAt "externalDocs" op = docs := by
    rw [Members.valueAt, hdocs, Option.getD_some]
  rw [LooksInto, HasDocsObject, hvalue, hdocs]
  constructor
  · intro hlooks
    rcases hlooks docs rfl with hblank | hobject
    · rw [hempty hblank]
      rfl
    · exact hobject
  · intro hobject v hv
    exact .inr (Option.some.inj hv ▸ hobject)

/-- Complete paths whose operations list tags are pruned exactly when all external
documents are objects. -/
theorem pruning_succeeds_iff {paths : Members} (hcomplete : CompletePaths paths)
    (htags : Throughout (fun _ => True) ListsTags paths) :
    Succeeds (pruning.pathItems paths) ↔
      Throughout (fun _ => True) HasDocsObject paths := by
  have hstep : ∀ item op op₁,
      PathItemEdit.AgreeButCallbacks (fun v w => PathItemEdit.callbacks pruning v =
        .ok w) op op₁ →
      (Succeeds (pruning.operation item op₁) ↔ LooksInto "externalDocs" op ∧
        TagsApart op) := by
    intro item op op₁ hagree
    rw [show pruning.operation item op₁ = pruneOperation op₁ from rfl,
      pruneOperation_succeeds_iff, TagsApart, TagsApart,
      looksInto_congr (hagree.get?_eq (by decide)), hagree.get?_eq (by decide)]
  rw [PathItemEdit.pathItems_succeeds_iff hstep]
  constructor
  · intro h
    refine ⟨fun _ _ => trivial, fun item op hwithin hop => ?_⟩
    exact (looksInto_iff_hasDocsObject (hcomplete.operation item op hwithin hop)).mp
      (h item op hwithin hop).2.1
  · intro h item op hwithin hop
    have hcompleteOp := hcomplete.operation item op hwithin hop
    exact ⟨hcompleteOp.callbacks,
      (looksInto_iff_hasDocsObject hcompleteOp).mpr (h.operation item op hwithin hop),
      tagsApart_of_fits (htags.operation item op hwithin hop)⟩

theorem prunePaths_succeeds_iff {paths : Members} :
    Succeeds (prunePaths (.object paths)) ↔ Succeeds (pruning.pathItems paths) := by
  rw [prunePaths]
  split
  · rename_i hblank
    obtain rfl := (Tree.marked.inj (object_of_isBlank hblank)).2
    exact iff_of_true (succeeds_ok _) (succeeds_ok [])
  · exact succeeds_bind_pure

theorem toJson_succeeds_iff {document : Value} :
    Succeeds (toJson document) ↔
      Succeeds (prune document) ∧ ∀ pruned, prune document = .ok pruned →
        Json.Writable pruned := by
  rw [toJson, succeeds_bind_forall]
  exact and_congr_right fun _ => forall₂_congr fun pruned _ =>
    Json.write_succeeds_iff .indented pruned

theorem toYaml_succeeds_iff {document : Value} :
    Succeeds (toYaml document) ↔
      Succeeds (prune document) ∧ ∀ pruned, prune document = .ok pruned →
        Yaml.Writable pruned := by
  rw [toYaml, succeeds_bind_forall]
  exact and_congr_right fun _ => forall₂_congr fun pruned _ =>
    Yaml.write_succeeds_iff pruned

/-- An imported document is pruned exactly when the external documents of every
operation, at any callback depth, are an object. It is exported exactly when that is so
and what is left of it has a text. -/
theorem importText_exports_iff {text : String} {document : Value}
    (h : importText text = .ok document) :
    ∃ ms paths, document = .object ms ∧ Members.get? "paths" ms = some (.object paths) ∧
      (Succeeds (prune document) ↔ Throughout (fun _ => True) HasDocsObject paths) ∧
      (Succeeds (toJson document) ↔ Throughout (fun _ => True) HasDocsObject paths ∧
        ∀ pruned, prune document = .ok pruned → Json.Writable pruned) ∧
      (Succeeds (toYaml document) ↔ Throughout (fun _ => True) HasDocsObject paths ∧
        ∀ pruned, prune document = .ok pruned → Yaml.Writable pruned) := by
  obtain ⟨ms, rfl, hms, -, hfits⟩ := importText_complete h
  have hshape : InShape .document ms := (fits_kind (by simp)).mp hfits
  obtain ⟨paths, hpaths, hcompletePaths⟩ := hms.paths
  have hprune : Succeeds (prune (.object ms)) ↔
      Throughout (fun _ => True) HasDocsObject paths := by
    rw [prune_succeeds_iff hshape, hpaths, ← pruning_succeeds_iff hcompletePaths
      (importText_listsTags h hpaths), ← prunePaths_succeeds_iff]
    simp only [Option.some.injEq, forall_eq']
  exact ⟨ms, paths, rfl, hpaths, hprune, toJson_succeeds_iff.trans
    (and_congr_left' hprune), toYaml_succeeds_iff.trans (and_congr_left' hprune)⟩

/-- The import of a document with shared parameters and a callback. -/
theorem importText_exports_iff_of_sharing :
    ∃ document, importText sharingText = .ok document ∧
      ∃ ms paths, document = .object ms ∧
        Members.get? "paths" ms = some (.object paths) ∧
        (Succeeds (prune document) ↔ Throughout (fun _ => True) HasDocsObject paths) ∧
        (Succeeds (toJson document) ↔ Throughout (fun _ => True) HasDocsObject paths ∧
          ∀ pruned, prune document = .ok pruned → Json.Writable pruned) ∧
        (Succeeds (toYaml document) ↔ Throughout (fun _ => True) HasDocsObject paths ∧
          ∀ pruned, prune document = .ok pruned → Yaml.Writable pruned) := by
  obtain ⟨document, -, himport, -⟩ := sharing_exported
  exact ⟨document, himport, importText_exports_iff himport⟩

/-- A document whose only operation has a text for external documents. -/
def textDocsText : String :=
  "\x7b\"openapi\": \"3.0.0\", \"paths\": \x7b\"/a\": \x7b\"get\": \x7b\"externalDocs\": \"x\"\x7d\x7d\x7d\x7d"

/-- It is imported, and it is neither pruned nor exported. -/
theorem importText_of_textDocs :
    ∃ document, importText textDocsText = .ok document ∧
      ¬ Succeeds (prune document) ∧ ¬ Succeeds (toJson document) ∧
        ¬ Succeeds (toYaml document) := by
  obtain ⟨document, himport, hfails⟩ := exists_of_importText textDocsText
    (fun document => !(prune document).isOk) (by decide +kernel)
  have hprune : ¬ Succeeds (prune document) := fun hprune => by
    simp [isOk_iff.mpr hprune] at hfails
  exact ⟨document, himport, hprune,
    fun hjson => hprune (toJson_succeeds_iff.mp hjson).1,
    fun hyaml => hprune (toYaml_succeeds_iff.mp hyaml).1⟩

end ApiWorkbench.Document
