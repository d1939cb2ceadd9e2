import Mathlib.Data.List.Nodup
import ApiWorkbench.Proofs.Document.Completable

/-!
# Names in the places that are edited

The editor goes from paths to path items, operations and responses, and from components
to security schemes. In an imported document each of these maps has different texts for
names, so there is nothing in it that is not found under its name.

For a document of the current format this comes from the reading of the text, and
completion leaves the names. For a converted document it comes from the maps that are
converted entry by entry, from the methods, each of which is looked at once, and from
the codes of responses, which are put one after the other.

## Main results

* `EditedApart`: the places that are edited have different texts for names.
* `importText_editedApart`: so it is in an imported document.
-/

namespace ApiWorkbench.Document

/-- The responses of an operation have different texts for names. -/
def ResponsesApart (op : Members) : Prop :=
  ∀ responses, Members.get? "responses" op = some (.object responses) →
    NamedApart responses

/-- A path item has different texts for names, and so have the responses of
its operations. -/
structure ItemApart (item : Members) : Prop where
  names : NamedApart item
  responses : ∀ op, HoldsOperation item op → ResponsesApart op

/-- A map of paths has different texts for names, and so have its path items. -/
structure PathsApart (paths : Members) : Prop where
  names : NamedApart paths
  items : ∀ item, HoldsItem paths item → ItemApart item

/-- Paths, path items, responses and security schemes of a document have different
texts for names. -/
structure EditedApart (ms : Members) : Prop where
  paths : ∀ paths, Members.get? "paths" ms = some (.object paths) → PathsApart paths
  schemes : ∀ components schemes,
    Members.get? "components" ms = some (.object components) →
    Members.get? "securitySchemes" components = some (.object schemes) →
      NamedApart schemes

theorem namedApart_nil : NamedApart [] := ⟨by simp, List.nodup_nil⟩

/-- Where the names in every object are different texts, they are in the places
that are edited. -/
theorem editedApart_of_namesApart {ms : Members} (h : NamesApart (.object ms)) :
    EditedApart ms where
  paths paths hpaths := by
    have hpathsApart := h.member (Members.mem_of_get?_str hpaths)
    refine ⟨hpathsApart.top, ?_⟩
    rintro item ⟨name, hitem⟩
    have hitemApart := hpathsApart.member hitem
    refine ⟨hitemApart.top, ?_⟩
    rintro op ⟨method, -, hop⟩ responses hresponses
    exact ((hitemApart.member hop).member (Members.mem_of_get?_str hresponses)).top
  schemes components schemes hcomponents hschemes :=
    ((h.member (Members.mem_of_get?_str hcomponents)).member
      (Members.mem_of_get?_str hschemes)).top

/-! ## Completion -/

/-- What completion makes of the components and of the paths of a document. -/
theorem complete_parts {ms ns : Members}
    (h : complete (.object ms) = .ok (.object ns)) :
    (∃ components, ((Members.get? "components" ms).getD .null).orElse .emptyObject =
      .object components ∧
      Members.get? "components" ns = some (.object (completeComponents components))) ∧
    ∃ paths paths', ((Members.get? "paths" ms).getD .null).orElse .emptyObject =
      .object paths ∧
      completion.pathItems paths = .ok paths' ∧
      Members.get? "paths" ns = some (.object paths') := by
  obtain ⟨_, _, heq, heq', hns⟩ := completesTo_of_complete h
  obtain rfl := (Tree.marked.inj heq).2
  obtain rfl := (Tree.marked.inj heq').2
  exact ⟨hns.components, hns.paths⟩

/-- Completion fills in the security requirements and the servers of a document, and
otherwise leaves them. -/
theorem get?_complete {name : String} (hname : name ∈ ["security", "servers"])
    {ms ns : Members} (h : complete (.object ms) = .ok (.object ns)) :
    Members.get? name ns =
      some (((Members.get? name ms).getD .null).orElse (.list [])) := by
  obtain ⟨_, _, heq, heq', hns⟩ := completesTo_of_complete h
  obtain rfl := (Tree.marked.inj heq).2
  obtain rfl := (Tree.marked.inj heq').2
  simp only [List.mem_cons, List.not_mem_nil, or_false] at hname
  rcases hname with rfl | rfl
  · exact hns.filled ("security", .list []) (by simp)
  · exact hns.filled ("servers", .list []) (by simp)

/-- Completion leaves what the security requirements and the servers of a document
list. -/
theorem listAt_complete {name : String} (hname : name ∈ ["security", "servers"])
    {ms ns : Members} (h : complete (.object ms) = .ok (.object ns)) :
    Members.listAt name ns = Members.listAt name ms := by
  rw [Members.listAt, Members.listAt, Members.valueAt, Members.valueAt,
    get?_complete hname h, Option.getD_some, Tree.orElse]
  split
  · rename_i hblank
    rw [Tree.itemsOrNone, Tree.itemsOrNone, if_pos hblank]
    rfl
  · rfl

/-- An object that is filled in where nothing is has no members; otherwise it was
there. -/
theorem eq_nil_or_eq_some_of_orElse {found : Option Value} {inner : Members}
    (h : (found.getD .null).orElse .emptyObject = .object inner) : inner = [] ∨
      found = some (.object inner) := by
  unfold Tree.orElse at h
  split at h
  · exact .inl (Tree.marked.inj h).2.symm
  · cases found with
    | none => simp at h
    | some v => exact .inr (congrArg some h)

theorem pathsApart_nil : PathsApart [] :=
  ⟨namedApart_nil, fun item ⟨name, hitem⟩ => by simp at hitem⟩

/-- Completing paths leaves the names in them. -/
private theorem pathsApart_of_completion {paths paths' : Members}
    (hpaths : PathsApart paths) (h : completion.pathItems paths = .ok paths') :
    PathsApart paths' := by
  have hnames := ((PathItemEdit.pathItems_iff completion).mp h).names_eq
  refine ⟨hpaths.names.sublist (hnames ▸ .refl _), fun item' hitem' => ?_⟩
  obtain ⟨item, changed, hitem, hchanged, rfl⟩ :=
    PathItemEdit.holdsItem_pathItems h hitem'
  have hitemNames := ((PathItemEdit.operations_iff completion).mp hchanged).names_eq
  have hsublist : (Members.names (Members.erase "parameters" changed)).Sublist
      (Members.names item) := by
    rw [← hitemNames]
    exact List.filter_sublist.map _
  refine ⟨(hpaths.items item hitem).names.sublist hsublist, ?_⟩
  rintro op' ⟨method, hmethod, hmem⟩ responses hresponses
  obtain ⟨op, op₁, hop, hnested, hop'⟩ :=
    PathItemEdit.holdsOperation_operations hchanged
      ⟨method, hmethod, Members.mem_erase hmem⟩
  rw [get?_completeOperation hop' (by decide),
    (PathItemEdit.agreeButCallbacks_of_nested hnested).get?_eq (by decide)]
      at hresponses
  exact (hpaths.items item hitem).responses op hop responses hresponses

/-- Completing a document leaves the names in the places that are edited. -/
theorem complete_editedApart {ms ns : Members}
    (h : complete (.object ms) = .ok (.object ns)) (hms : EditedApart ms) :
    EditedApart ns := by
  obtain ⟨⟨components, hread, hcomponents⟩, paths, paths', hreadPaths, hcompletion,
      hpaths⟩ := complete_parts h
  constructor
  · intro found hfound
    obtain rfl : paths' = found := by simpa [hpaths] using hfound
    have hpathsApart : PathsApart paths := by
      rcases eq_nil_or_eq_some_of_orElse hreadPaths with rfl | hget
      · exact pathsApart_nil
      · exact hms.paths paths hget
    exact pathsApart_of_completion hpathsApart hcompletion
  · intro found schemes hfound hschemes
    obtain rfl : completeComponents components = found := by
      simpa [hcomponents] using hfound
    rw [completeComponents_eq, get?_fill_self, get?_fill_of_ne (by decide),
      get?_fill_of_ne (by decide), get?_fill_of_ne (by decide), Option.some.injEq]
      at hschemes
    rcases eq_nil_or_eq_some_of_orElse hschemes with rfl | hget
    · exact namedApart_nil
    · rcases eq_nil_or_eq_some_of_orElse hread with rfl | hgetComponents
      · simp at hget
      · exact hms.schemes components schemes hgetComponents hget

/-! ## Conversion -/

/-- What is found in a record of what is not null is one of its fields. -/
theorem mem_of_get?_recordOf {fields : List (String × Value)} {ms : Members}
    {name : String} {v : Value} (hms : Tree.recordOf fields = .object ms)
    (hv : Members.get? (.str name) ms = some v) : (name, v) ∈ fields := by
  obtain rfl := (Tree.marked.inj hms).2
  obtain ⟨field, hfield, heq⟩ := List.mem_map.mp (Members.mem_of_get?_str hv)
  obtain ⟨hname, rfl⟩ := Prod.mk.inj heq
  obtain rfl := Scalar.str.inj hname
  exact (List.mem_filter.mp hfield).1

/-- A member that is not null is found in a record of what is not null. -/
theorem get?_recordOf {fields : List (String × Value)}
    (name : String) (hnames : (fields.map (·.1)).Nodup) {ms : Members}
    (hms : Tree.recordOf fields = .object ms) {v : Value} (hv : (name, v) ∈ fields)
    (hnull : v.isNull = false) : Members.get? name ms = some v := by
  obtain rfl := (Tree.marked.inj hms).2
  refine Members.get?_of_mem ?_
    (List.mem_map_of_mem (List.mem_filter.mpr ⟨hv, by simp [hnull]⟩))
  have htexts : (fields.map fun field => Scalar.str field.1).Nodup := by
    rw [show (fun field : String × Value => Scalar.str field.1) =
      Scalar.str ∘ (·.1) from rfl, ← List.map_map]
    exact List.Nodup.map (fun _ _ => Scalar.str.inj) hnames
  simpa [Members.names, Function.comp_def]
    using htexts.sublist (List.filter_sublist.map _)

/-- What is found in a record of what is not null is not null. -/
theorem notNull_of_get?_recordOf {fields : List (String × Value)} {ms : Members}
    (hms : Tree.recordOf fields = .object ms) {name : String} {v : Value}
    (hv : Members.get? name ms = some v) :
    v ≠ .null := by
  obtain rfl := (Tree.marked.inj hms).2
  obtain ⟨field, hfield, heq⟩ := List.mem_map.mp (Members.mem_of_get?_str hv)
  obtain rfl := (Prod.mk.inj heq).2
  intro hnull
  simp [hnull, Tree.isNull] at hfield

/-- Objects that are converted one by one keep their names. -/
theorem convertObjects_spec {convert : Members → Except Fault Value} {ms ns : Members}
    (h : Swagger.convertObjects convert ms = .ok ns) :
    (Members.names ns).Sublist (Members.names ms) ∧ ∀ e ∈ ns, ∃ inner,
      convert inner = .ok e.2 := by
  induction ms generalizing ns with
  | nil =>
      obtain rfl := Except.ok.inj h
      exact ⟨.refl _, by simp⟩
  | cons e rest ih =>
      obtain ⟨name, v⟩ := e
      cases v with
      | marked mark inner =>
          obtain ⟨converted, hconverted, h⟩ := bind_eq_ok.mp h
          obtain ⟨others, hothers, h⟩ := bind_eq_ok.mp h
          obtain rfl := Except.ok.inj h
          obtain ⟨hnames, hmade⟩ := ih hothers
          refine ⟨hnames.cons_cons name, ?_⟩
          simpa using ⟨⟨inner, hconverted⟩, fun k v hkv => hmade (k, v) hkv⟩
      | _ =>
          obtain ⟨hnames, hmade⟩ := ih h
          exact ⟨hnames.cons name, hmade⟩

/-- Security definitions that are converted keep their names. -/
private theorem convertSchemes_names {ms ns : Members}
    (h : Swagger.convertSchemes ms = .ok ns) :
    (Members.names ns).Sublist (Members.names ms) := by
  induction ms generalizing ns with
  | nil =>
      obtain rfl := Except.ok.inj h
      exact .refl _
  | cons e rest ih =>
      obtain ⟨name, scheme⟩ := e
      obtain ⟨converted, -, h⟩ := bind_eq_ok.mp h
      obtain ⟨others, hothers, h⟩ := bind_eq_ok.mp h
      obtain rfl := Except.ok.inj h
      cases converted with
      | none => exact (ih hothers).cons name
      | some v => exact (ih hothers).cons_cons name

/-- The codes of converted responses are texts. -/
private theorem isText_of_convertResponses {produces : Value} {ms ns : Members}
    (h : Swagger.convertResponses produces ms = .ok ns) : ∀ e ∈ ns, e.1.IsText := by
  induction ms generalizing ns with
  | nil =>
      obtain rfl := Except.ok.inj h
      simp
  | cons e rest ih =>
      obtain ⟨code, v⟩ := e
      cases v with
      | marked mark response =>
          obtain ⟨converted, -, h⟩ := bind_eq_ok.mp h
          obtain ⟨name, hname, h⟩ := bind_eq_ok.mp h
          obtain ⟨others, hothers, h⟩ := bind_eq_ok.mp h
          obtain rfl := Except.ok.inj h
          exact List.forall_mem_cons.mpr ⟨isText_of_textName hname, ih hothers⟩
      | _ => exact ih h

private theorem convertOperation_apart {document : Value}
    {item op : Members} {converted : Value}
    (h : Swagger.convertOperation document item op = .ok converted) :
    ∀ op', converted = .object op' → ResponsesApart op' := by
  obtain ⟨parameters, -, h⟩ := bind_eq_ok.mp h
  obtain ⟨kept, -, h⟩ := bind_eq_ok.mp h
  obtain ⟨body, -, h⟩ := bind_eq_ok.mp h
  obtain ⟨codes, -, h⟩ := bind_eq_ok.mp h
  obtain ⟨responses, hresponses, h⟩ := bind_eq_ok.mp h
  intro op' hop' found hfound
  have hmem := mem_of_get?_recordOf ((Except.ok.inj h).trans hop') hfound
  obtain rfl : found = Members.ofEntries responses := by simpa using hmem
  exact namedApart_ofEntries (isText_of_convertResponses hresponses)

/-- The operation that a path item of the legacy format has under a method,
converted. -/
def convertedMember (document : Value) (item : Members) (method : Method) :
    Except Fault (Option (Scalar × Value)) :=
  match Members.get? method.name item with
  | some (.object op) => do
      pure (some (Scalar.str method.name, ← Swagger.convertOperation document item op))
  | _ => pure none

theorem convertedMembers_spec {document : Value}
    {item : Members} {methods : List Method} {ms : Members}
    (h : methods.filterMapM (convertedMember document item) = .ok ms) :
    (Members.names ms).Sublist (methods.map fun method => Scalar.str method.name) ∧
      ∀ e ∈ ms, ∃ op, Swagger.convertOperation document item op = .ok e.2 := by
  induction methods generalizing ms with
  | nil =>
      obtain rfl := Except.ok.inj h
      exact ⟨.refl _, by simp⟩
  | cons method rest ih =>
      rw [List.filterMapM_cons, bind_eq_ok] at h
      obtain ⟨made, hmade, h⟩ := h
      cases made with
      | none =>
          obtain ⟨hnames, heach⟩ := ih h
          exact ⟨hnames.cons _, heach⟩
      | some e =>
          obtain ⟨others, hothers, h⟩ := bind_eq_ok.mp h
          obtain rfl := Except.ok.inj h
          obtain ⟨hnames, heach⟩ := ih hothers
          unfold convertedMember at hmade
          split at hmade
          · rename_i op hget
            obtain ⟨converted, hconverted, hmade⟩ := bind_eq_ok.mp hmade
            obtain rfl := Option.some.inj (Except.ok.inj hmade)
            refine ⟨hnames.cons_cons _, ?_⟩
            simpa using ⟨⟨op, hconverted⟩, fun k v hkv => heach (k, v) hkv⟩
          · simp at hmade

/-- A converted path item has each method once. -/
private theorem convertPathItem_apart {document : Value} {item : Members}
    {converted : Value} (h : Swagger.convertPathItem document item = .ok converted) :
    ∀ item', converted = .object item' → ItemApart item' := by
  obtain ⟨operations, hoperations, h⟩ := bind_eq_ok.mp h
  obtain rfl := Except.ok.inj h
  intro item' heq
  obtain rfl := (Tree.marked.inj heq).2
  have hspec : (Members.names operations).Sublist (Method.all.map fun method =>
    Scalar.str method.name) ∧
      ∀ e ∈ operations, ∃ op, Swagger.convertOperation document item op = .ok e.2 :=
    convertedMembers_spec hoperations
  refine ⟨⟨fun e he => ?_, (show (Method.all.map fun method =>
    Scalar.str method.name).Nodup by decide).sublist hspec.1⟩, ?_⟩
  · obtain ⟨method, -, hname⟩ :=
      List.mem_map.mp (hspec.1.subset (List.mem_map_of_mem he))
    exact Scalar.isText_of_eq_str ⟨method.name, hname.symm⟩
  · rintro op ⟨method, -, hop⟩
    obtain ⟨source, hsource⟩ := hspec.2 _ hop
    exact convertOperation_apart hsource op rfl

/-- The members of what was read have different texts for names, in a part that is an
object or blank. -/
private theorem namedApart_membersOrNone
    {ms inner : Members} (h : NamesApart (.object ms))
    {name : String} (hinner : (Swagger.fieldOf ms name).membersOrNone = .ok inner) :
    NamedApart inner := by
  unfold Swagger.fieldOf Tree.membersOrNone at hinner
  split at hinner
  · obtain rfl := Except.ok.inj hinner
    exact namedApart_nil
  · cases hget : Members.get? (.str name) ms with
    | none => simp [hget, Tree.members] at hinner
    | some v =>
        rw [hget, Option.getD_some, members_eq_ok] at hinner
        obtain rfl := hinner
        exact (h.member (Members.mem_of_get?_str hget)).top

/-- The names in the places that are edited are different texts in a converted
document. -/
theorem convertDocument_editedApart
    {source : Value} {ns : Members} (hapart : NamesApart source)
    (h : Swagger.convertDocument source = .ok (.object ns)) : EditedApart ns := by
  obtain ⟨ms, hms, h⟩ := bind_eq_ok.mp h
  obtain rfl := members_eq_ok.mp hms
  obtain ⟨infoMembers, -, h⟩ := bind_eq_ok.mp h
  obtain ⟨info, -, h⟩ := bind_eq_ok.mp h
  obtain ⟨servers, -, h⟩ := bind_eq_ok.mp h
  obtain ⟨pathMembers, hpathMembers, h⟩ := bind_eq_ok.mp h
  obtain ⟨paths, hpaths, h⟩ := bind_eq_ok.mp h
  obtain ⟨definitions, -, h⟩ := bind_eq_ok.mp h
  obtain ⟨schemas, -, h⟩ := bind_eq_ok.mp h
  obtain ⟨parameterMembers, -, h⟩ := bind_eq_ok.mp h
  obtain ⟨parameters, -, h⟩ := bind_eq_ok.mp h
  obtain ⟨definitions', hdefinitions, h⟩ := bind_eq_ok.mp h
  obtain ⟨schemes, hschemes, h⟩ := bind_eq_ok.mp h
  refine complete_editedApart h ⟨?_, ?_⟩
  · intro found hfound
    have hmem := mem_of_get?_recordOf rfl hfound
    obtain rfl : found = paths := by simpa using hmem
    obtain ⟨hnames, hmade⟩ := convertObjects_spec hpaths
    refine ⟨(namedApart_membersOrNone hapart hpathMembers).sublist hnames, ?_⟩
    rintro item ⟨name, hitem⟩
    obtain ⟨inner, hinner⟩ := hmade _ hitem
    exact convertPathItem_apart hinner item rfl
  · intro components found hcomponents hfound
    have hmem := mem_of_get?_recordOf rfl hcomponents
    have hrecord : Tree.recordOf [("schemas", Swagger.objectOrNull schemas),
        ("parameters", Swagger.objectOrNull parameters),
          ("securitySchemes", Swagger.objectOrNull schemes)] =
          Value.object components := by
      simpa [eq_comm] using hmem
    have hmemSchemes := mem_of_get?_recordOf hrecord hfound
    have hobject : Value.object found = Swagger.objectOrNull schemes := by
      simpa using hmemSchemes
    unfold Swagger.objectOrNull at hobject
    split at hobject
    · simp at hobject
    · obtain rfl := (Tree.marked.inj hobject).2
      exact (namedApart_membersOrNone hapart hdefinitions).sublist
        (convertSchemes_names hschemes)

/-- An operation without callbacks. -/
def HasNoCallbacks (op : Members) : Prop :=
  ∀ v, (Scalar.str "callbacks", v) ∉ op

private theorem convertOperation_hasNoCallbacks
    {document : Value} {item op op' : Members}
    (h : Swagger.convertOperation document item op = .ok (.object op')) :
    HasNoCallbacks op' := by
  obtain ⟨parameters, -, h⟩ := bind_eq_ok.mp h
  obtain ⟨kept, -, h⟩ := bind_eq_ok.mp h
  obtain ⟨body, -, h⟩ := bind_eq_ok.mp h
  obtain ⟨codes, -, h⟩ := bind_eq_ok.mp h
  obtain ⟨responses, -, h⟩ := bind_eq_ok.mp h
  intro v hv
  obtain rfl := (Tree.marked.inj (Except.ok.inj h)).2
  obtain ⟨field, hfield, hname⟩ := List.mem_map.mp hv
  have hfields := (List.mem_filter.mp hfield).1
  have hcallbacks : field.1 = "callbacks" := Scalar.str.inj (Prod.mk.inj hname).1
  simp only [List.mem_cons, List.not_mem_nil, or_false] at hfields
  rcases hfields with rfl | rfl | rfl | rfl | rfl | rfl | rfl | rfl | rfl <;>
    simp at hcallbacks

/-- The operations of converted path items have no callbacks, so there are none
deeper. -/
theorem convertObjects_hasNoCallbacks {document : Value} {ms paths : Members}
    (h : Swagger.convertObjects (Swagger.convertPathItem document) ms = .ok paths) :
    Throughout (fun _ => True) HasNoCallbacks paths := by
  refine throughout_iff.mpr fun item ⟨name, hitem⟩ =>
    ⟨trivial, fun op ⟨method, _, hop⟩ => ?_⟩
  obtain ⟨inner, hinner⟩ := (convertObjects_spec h).2 _ hitem
  obtain ⟨operations, hoperations, hinner⟩ := bind_eq_ok.mp hinner
  obtain rfl := (Tree.marked.inj (Except.ok.inj hinner)).2
  obtain ⟨source, hsource⟩ := (convertedMembers_spec hoperations).2 _ hop
  have hnone := convertOperation_hasNoCallbacks hsource
  exact ⟨hnone, fun deeper ⟨callbacks, name, hcallbacks, _⟩ =>
    absurd hcallbacks (hnone _)⟩

/-- In a converted document no operation has callbacks. -/
theorem convertDocument_hasNoCallbacks {source : Value} {ns paths : Members}
    (h : Swagger.convertDocument source = .ok (.object ns))
    (hpaths : Members.get? "paths" ns = some (.object paths)) :
    Throughout (fun _ => True) HasNoCallbacks paths := by
  obtain ⟨ms, hms, h⟩ := bind_eq_ok.mp h
  obtain ⟨infoMembers, -, h⟩ := bind_eq_ok.mp h
  obtain ⟨info, -, h⟩ := bind_eq_ok.mp h
  obtain ⟨servers, -, h⟩ := bind_eq_ok.mp h
  obtain ⟨pathMembers, -, h⟩ := bind_eq_ok.mp h
  obtain ⟨converted, hconverted, h⟩ := bind_eq_ok.mp h
  obtain ⟨definitions, -, h⟩ := bind_eq_ok.mp h
  obtain ⟨schemas, -, h⟩ := bind_eq_ok.mp h
  obtain ⟨parameterMembers, -, h⟩ := bind_eq_ok.mp h
  obtain ⟨parameters, -, h⟩ := bind_eq_ok.mp h
  obtain ⟨definitions', -, h⟩ := bind_eq_ok.mp h
  obtain ⟨schemes, -, h⟩ := bind_eq_ok.mp h
  obtain ⟨-, before, after, hbefore, hcompletion, hafter⟩ := complete_parts h
  obtain rfl : after = paths := by simpa [hafter] using hpaths
  have hnone : Throughout (fun _ => True) HasNoCallbacks before := by
    rcases eq_nil_or_eq_some_of_orElse hbefore with rfl | hget
    · exact throughout_nil
    · have hmem := mem_of_get?_recordOf rfl hget
      obtain rfl : before = converted := by simpa using hmem
      exact convertObjects_hasNoCallbacks hconverted
  refine PathItemEdit.pathItems_throughout completion_regular (fun _ _ _ _ => trivial)
    ?_ hnone hcompletion
  intro item op op₁ op' hop hagree _ hop' v hv
  obtain ⟨w, hw, -⟩ := hagree.mem_right (mem_callbacks_of_completeOperation hop' hv)
  exact hop w hw

/-! ## Imports -/

/-- In an imported document the names in the places that are edited are different
texts. -/
theorem importText_editedApart {text : String} {ms : Members}
    (h : importText text = .ok (.object ms)) :
    EditedApart ms := by
  obtain ⟨source, hparse, h⟩ := bind_eq_ok.mp h
  have hapart := parse_namesApart hparse
  dsimp only at h
  split at h
  · rename_i hformat
    obtain ⟨document, hdocument, h⟩ := bind_eq_ok.mp h
    obtain rfl := Except.ok.inj hdocument
    obtain ⟨_, -, h⟩ := bind_eq_ok.mp h
    obtain ⟨ns, hversion, -⟩ := withTextVersion_statesVersion hformat
    have hnamesApart := withTextVersion_namesApart hapart
    rw [hversion] at h hnamesApart
    exact complete_editedApart (importing_eq_ok.mp h)
      (editedApart_of_namesApart hnamesApart)
  · obtain ⟨document, hconvert, h⟩ := bind_eq_ok.mp h
    obtain ⟨_, -, h⟩ := bind_eq_ok.mp h
    have hconverted := importing_eq_ok.mp hconvert
    have hfixed := (convertDocument_spec hconverted).1
    rw [importing_eq_ok.mpr hfixed, Except.ok.injEq] at h
    exact convertDocument_editedApart hapart (h ▸ hconverted)
  · simp at h

end ApiWorkbench.Document
