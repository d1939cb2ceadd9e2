import ApiWorkbench.Proofs.Reference.Agreement
import ApiWorkbench.Proofs.Server.Repeats
import ApiWorkbench.Proofs.Server.Tools

/-!
# Tools of a completed document

Completing a document moves the parameters that a path shares into its operations.
Whoever makes tools joins them to the parameters of an operation as well, but expands
references before. So a tool of the completed document is made of parameters that were
joined as they are written, and one of the document itself of parameters that were
joined after they were expanded.

The tools are the same as far as a completed operation expands to what the operation
did. For that the pointers must lead to the same afterwards, and parameters must be
listed where they are written. Then it remains that two entries may count as the same
parameter as they are written but not as they are expanded, or the other way round. If
these go to the same place, the tools are the same but for places that are listed twice.

## Main results

* `joined_thins`: joining entries either way leaves out only parameters that
  repeat others.
* `toolOf_completed`: the tool for a completed operation.
* `toolsOf_complete`: the tools of a completed document are those of the document, but
  for repeated places.
-/

namespace ApiWorkbench.Server

open Document Reference
open Members (valueAt listAt get?)

/-! ## What a tool is made of -/

/-- The tool for an expanded operation with the parameters that it has in the end. -/
def toolWith (address : Value) (path : String) (method : Method) (operation : Members)
    (parameters : List (String × Members)) (used : List String) :
    Except ToolError Tool := do
  let operationId ← ((valueAt "operationId" operation).orElse
    (defaultOperationId method path)).text
  let name := freeToolName used (toolName operationId method.name)
  let body := valueAt "requestBody" operation
  let inputs ← toolInputs name parameters body
  let description ← toolDescription operation method path
  let placements ← placementsOf parameters
  let baseUrl ← allowText "base_url" address
  pure {
    name
    description
    inputs
    method
    path
    placements
    contentType := (bodyContent body).map (·.1)
    operationId
    baseUrl }

section

variable {address : Value} {path : String} {method : Method} {used : List String}

/-- A tool is made of an expanded operation, joined by shared parameters. -/
theorem toolOf_eq_ok {document shared operation : Value} {tool : Tool} :
    toolOf document address shared path method operation used = .ok tool ↔
      ∃ es items own merged, expand operation document = .ok (.object es) ∧
        shared.items = .ok items ∧
        listAt "parameters" es = .ok own ∧ mergeParameters items own = .ok merged ∧
        toolWith address path method es (namedParameters merged) used = .ok tool := by
  constructor
  · intro h
    obtain ⟨expanded, hexpanded, hread⟩ := bind_eq_ok.mp h
    obtain ⟨es, hes, h⟩ := bind_eq_ok.mp hread
    obtain rfl := members_eq_ok.mp (lift_eq_ok.mp hes)
    obtain ⟨operationId, hoperationId, h⟩ := bind_eq_ok.mp h
    obtain ⟨own, hown, h⟩ := bind_eq_ok.mp h
    obtain ⟨items, hitems, h⟩ := bind_eq_ok.mp h
    obtain ⟨merged, hmerged, h⟩ := bind_eq_ok.mp h
    exact ⟨es, items, own, merged, lift_eq_ok.mp hexpanded,
      lift_eq_ok.mp hitems, lift_eq_ok.mp hown, lift_eq_ok.mp hmerged,
      bind_eq_ok.mpr ⟨operationId, hoperationId, h⟩⟩
  · rintro ⟨es, items, own, merged, hexpanded, hitems, hown, hmerged, h⟩
    obtain ⟨operationId, hoperationId, h⟩ := bind_eq_ok.mp h
    refine bind_eq_ok.mpr ⟨.object es, lift_eq_ok.mpr hexpanded, ?_⟩
    refine bind_eq_ok.mpr ⟨es, lift_eq_ok.mpr rfl, ?_⟩
    refine bind_eq_ok.mpr ⟨operationId, hoperationId, ?_⟩
    refine bind_eq_ok.mpr ⟨own, lift_eq_ok.mpr hown, ?_⟩
    refine bind_eq_ok.mpr ⟨items, lift_eq_ok.mpr hitems, ?_⟩
    exact bind_eq_ok.mpr ⟨merged, lift_eq_ok.mpr hmerged, h⟩

/-- The members of an expanded operation, besides its parameters, that a tool is made
of. -/
def toolMembers : List String :=
  ["operationId", "summary", "description", "requestBody"]

theorem toolWith_congr {es es' : Members}
    (h : ∀ name ∈ toolMembers, valueAt (.str name) es' = valueAt (.str name) es)
    (parameters : List (String × Members)) :
    toolWith address path method es' parameters used =
      toolWith address path method es parameters used := by
  rw [toolWith, toolWith, toolDescription, toolDescription,
    h "operationId" (by simp [toolMembers]), h "summary" (by simp [toolMembers]),
    h "description" (by simp [toolMembers]), h "requestBody" (by simp [toolMembers])]

end

/-- Tools that differ at most in how often they list where a parameter goes. -/
structure SameButRepeats (tool tool' : Tool) : Prop where
  others : tool' = { tool with placements := tool'.placements }
  placements : tool'.placements.eraseDups = tool.placements.eraseDups

/-- Whichever repeated parameters are left out, the tool is the same but for repeats. -/
theorem toolWith_of_thinned {all kept kept' : List (String × Members)}
    (h : Thinned SamePlace [] all kept)
    (h' : Thinned SamePlace [] all kept') {address : Value}
    {path : String} {method : Method} {es : Members} {used : List String} {tool : Tool}
    (htool : toolWith address path method es kept used = .ok tool) :
    ∃ tool', toolWith address path method es kept' used = .ok tool' ∧
      SameButRepeats tool tool' := by
  obtain ⟨operationId, hoperationId, htool⟩ := bind_eq_ok.mp htool
  obtain ⟨inputs, hinputs, htool⟩ := bind_eq_ok.mp htool
  obtain ⟨description, hdescription, htool⟩ := bind_eq_ok.mp htool
  obtain ⟨placements, hplacements, htool⟩ := bind_eq_ok.mp htool
  obtain ⟨baseUrl, hbaseUrl, htool⟩ := bind_eq_ok.mp htool
  obtain ⟨before, hbefore, heq⟩ := (placementsOf_of_thinned h).ok_right hplacements
  obtain ⟨placements', hplacements', heq'⟩ :=
    (placementsOf_of_thinned h').ok_left hbefore
  rw [← toolInputs_of_thinned h, toolInputs_of_thinned h'] at hinputs
  refine ⟨{ tool with placements := placements' }, ?_, rfl, ?_⟩ <;>
    obtain rfl := Except.ok.inj htool
  · refine bind_eq_ok.mpr ⟨operationId, hoperationId, ?_⟩
    refine bind_eq_ok.mpr ⟨inputs, hinputs, ?_⟩
    refine bind_eq_ok.mpr ⟨description, hdescription, ?_⟩
    refine bind_eq_ok.mpr ⟨placements', hplacements', ?_⟩
    exact bind_eq_ok.mpr ⟨baseUrl, hbaseUrl, rfl⟩
  · exact heq'.symm.trans heq

/-! ## Entries -/

/-- An entry among parameters, as it is written and as it is expanded. -/
structure Entry where
  written : Value
  expanded : Value

namespace Entry

/-- The parameter that an entry is in the end. -/
def parameter? (entry : Entry) : Option (String × Members) :=
  named? entry.expanded

/-- Whether an entry counts as the same as an earlier one by what is written. -/
def sameWritten (earlier entry : Entry) : Bool :=
  sameEntry earlier.written entry.written

/-- Whether an entry counts as the same as an earlier one by what it is expanded to. -/
def sameExpanded (earlier entry : Entry) : Bool :=
  sameEntry earlier.expanded entry.expanded

/-- Whether an entry counts as the same as an earlier one both ways. -/
def sameBoth (earlier entry : Entry) : Bool :=
  earlier.sameWritten entry && earlier.sameExpanded entry

/-- An entry repeats an earlier one, if it is a parameter at all. -/
def Repeats (Repeat : String × Members → String × Members → Prop)
    (earlier entry : Entry) : Prop :=
  ∀ q, entry.parameter? = some q → ∃ p, earlier.parameter? = some p ∧ Repeat p q

/-- The expansion in a document. -/
def ExpandsIn (document : Value) (entry : Entry) : Prop :=
  expand entry.written document = .ok entry.expanded

end Entry

/-- An operation or a path item lists an entry among its parameters. -/
structure Lists (document : Value) (ms : Members) (entry : Entry) : Prop where
  listed : ∃ xs, listAt "parameters" ms = .ok xs ∧ entry.written ∈ xs
  expands : entry.ExpandsIn document

section

variable {document : Value}

/-- Values and what they are expanded to make entries. -/
theorem exists_entries {xs ys : List Value}
    (h : List.Forall₂ (fun x y => expand x document = .ok y) xs ys) :
    ∃ entries : List Entry, entries.map Entry.written = xs ∧
      entries.map Entry.expanded = ys ∧
      ∀ entry ∈ entries, entry.ExpandsIn document := by
  induction h with
  | nil => exact ⟨[], rfl, rfl, by simp⟩
  | @cons x y xs ys hxy _ ih =>
      obtain ⟨entries, rfl, rfl, hentries⟩ := ih
      refine ⟨⟨x, y⟩ :: entries, rfl, rfl, fun entry hentry => ?_⟩
      rcases List.mem_cons.mp hentry with rfl | hentry
      · exact hxy
      · exact hentries entry hentry

/-- A list of entries is expanded to what they are expanded to. -/
theorem expand_entries {entries : List Entry}
    (h : ∀ entry ∈ entries, entry.ExpandsIn document) :
    expand (.list (entries.map Entry.written)) document =
      .ok (.list (entries.map Entry.expanded)) := by
  refine expand_list_iff.mpr ⟨_, rfl, ?_⟩
  rw [List.forall₂_map_left_iff, List.forall₂_map_right_iff, List.forall₂_same]
  exact h

/-- What is no object is not expanded to one. -/
theorem isObject_of_expand {v w : Value} (h : expand v document = .ok w)
    (hw : w.isObject = true) :
    v.isObject = true := by
  cases v with
  | marked mark ms => rfl
  | list xs =>
      obtain ⟨ys, rfl, -⟩ := expand_list_iff.mp h
      contradiction
  | _ =>
      rw [expand_eq] at h
      obtain rfl := Except.ok.inj h
      exact hw

theorem isObject_of_named {v : Value} (h : named? v ≠ none) : v.isObject = true := by
  cases v with
  | marked mark ms => rfl
  | _ => exact absurd rfl h

theorem Entry.ExpandsIn.written_isObject {entry : Entry} (h : entry.ExpandsIn document)
    (hnamed : entry.parameter? ≠ none) : entry.written.isObject = true :=
  isObject_of_expand h (isObject_of_named hnamed)

end

/-! ## Joining entries -/

section

variable {own shared : List Entry}

/-- Own entries, joined by the objects among the shared ones that are not the same as
an entry before. -/
def joined (same : Entry → Entry → Bool) (side : Entry → Value)
    (own shared : List Entry) : List Entry :=
  own ++ (fresh same own shared).filter fun entry => (side entry).isObject

theorem mem_of_mem_joined {same : Entry → Entry → Bool}
    {side : Entry → Value} {entry : Entry} (h : entry ∈ joined same side own shared) :
    entry ∈ own ++ shared := by
  rcases List.mem_append.mp h with h | h
  · exact List.mem_append_left _ h
  · exact List.mem_append_right _ (mem_of_mem_fresh (List.mem_filter.mp h).1)

/-- The parameters among entries that were joined. -/
theorem namedParameters_joined {same : Entry → Entry → Bool} {side : Entry → Value}
    (h : ∀ entry ∈ shared, entry.parameter? ≠ none → (side entry).isObject = true) :
    namedParameters ((joined same side own shared).map Entry.expanded) =
      own.filterMap Entry.parameter? ++
        (fresh same own shared).filterMap Entry.parameter? := by
  have hkept : ((fresh same own shared).filter fun entry =>
    (side entry).isObject).filterMap Entry.parameter? =
      (fresh same own shared).filterMap Entry.parameter? := by
    rw [List.filterMap_filter]
    refine List.filterMap_congr fun entry hentry => ?_
    split
    · rfl
    · rename_i hdropped
      by_contra hnamed
      exact hdropped (h entry (mem_of_mem_fresh hentry) (Ne.symm hnamed))
  rw [namedParameters_eq, List.filterMap_map, joined, show named? ∘ Entry.expanded =
    Entry.parameter? from rfl, List.filterMap_append, hkept]

/-- Compared with leaving out what is the same both ways, one way leaves out only
parameters that repeat others, if entries do that are not the same the other way. -/
private theorem fresh_thins_of_both {same other : Entry → Entry → Bool}
    {Repeat : String × Members → String × Members → Prop}
    (htrans : ∀ x y z, same x y = true → same y z = true → same x z = true)
    (hboth : ∀ x y : Entry, x.sameBoth y = (same x y && other x y))
    (hrepeats : ∀ x ∈ own ++ shared, ∀ y ∈ shared, same x y ≠ other x y →
      x.Repeats Repeat y) :
    Thinned Repeat (own.filterMap Entry.parameter?)
      ((fresh Entry.sameBoth own shared).filterMap Entry.parameter?)
      ((fresh same own shared).filterMap Entry.parameter?) := by
  refine fresh_thins htrans (fun x y h => ?_) (fun x hx y hy hsame hnot =>
    hrepeats x hx y hy ?_) (fun x hx => hx) fun x hx => ⟨x, hx, .inl rfl⟩
  · rw [hboth] at h
    exact (Bool.and_eq_true_iff.mp h).1
  · rw [hboth, hsame, Bool.true_and] at hnot
    rw [hsame, hnot]
    decide

/-- Joining entries as they are written or as they are expanded leaves out, besides what
is the same both ways, only parameters that repeat others, if entries do that are the
same only one way. -/
theorem joined_thins {Repeat : String × Members → String × Members → Prop}
    (hrepeats : ∀ x ∈ own ++ shared, ∀ y ∈ shared, x.sameWritten y ≠ x.sameExpanded y →
      x.Repeats Repeat y) :
    ∃ all, Thinned Repeat [] all
        (own.filterMap Entry.parameter? ++
          (fresh Entry.sameWritten own shared).filterMap Entry.parameter?) ∧
      Thinned Repeat [] all
        (own.filterMap Entry.parameter? ++
          (fresh Entry.sameExpanded own shared).filterMap Entry.parameter?) := by
  refine ⟨own.filterMap Entry.parameter? ++ (fresh Entry.sameBoth own shared).filterMap
    Entry.parameter?, Thinned.append _ ?_, Thinned.append _ ?_⟩ <;> rw [List.append_nil]
  · exact fresh_thins_of_both (fun _ _ _ => sameEntry_trans) (fun _ _ => rfl) hrepeats
  · exact fresh_thins_of_both (fun _ _ _ => sameEntry_trans)
      (fun _ _ => Bool.and_comm _ _) fun x hx y hy hne => hrepeats x hx y hy hne.symm

/-- Entries that were identified still are after they were joined. -/
theorem hasKeys_joined {same : Entry → Entry → Bool} {side : Entry → Value}
    (hown : HasKeys (own.map Entry.expanded))
    (hshared : HasKeys (shared.map Entry.expanded)) :
    HasKeys ((joined same side own shared).map Entry.expanded) := by
  rw [hasKeys_iff] at hown hshared ⊢
  intro ms hms
  obtain ⟨entry, hentry, heq⟩ := List.mem_map.mp hms
  rcases List.mem_append.mp (mem_of_mem_joined hentry) with hentry | hentry
  · exact hown ms (heq ▸ List.mem_map_of_mem hentry)
  · exact hshared ms (heq ▸ List.mem_map_of_mem hentry)

end

/-! ## One operation -/

/-- The operations under the paths of a document, with their path items. -/
def HasOperation (document : Value) (item op : Members) : Prop :=
  ∃ ms paths, document = .object ms ∧ get? "paths" ms = some (.object paths) ∧
    HoldsItem paths item ∧
    HoldsOperation item op

/-- The parameters of an operation and those that its path item shares can be joined
before they are expanded, and what the tool for the operation is made of expands to the
same after the document was completed. -/
structure Foldable (document completed : Value) (item op : Members) : Prop where
  distinct : (Members.names op).Nodup
  /-- what the operation itself refers to -/
  reference : AgreeFrom document completed (.object (referencePart op))
  members : ∀ name ∈ "parameters" :: toolMembers,
    AgreeFrom document completed (valueAt (.str name) op)
  shared : AgreeFrom document completed (valueAt "parameters" item)
  /-- an operation without parameters does not have any from elsewhere -/
  inherits : get? "parameters" op = none →
    ∀ base, expand (.object (referencePart op)) document = .ok (.object base) →
    listAt "parameters" base = .ok []
  ownListed : ListedAsWritten document (valueAt "parameters" op)
  sharedListed : ListedAsWritten document (valueAt "parameters" item)
  /-- entries that count as the same as they are written but not as they are expanded,
  or the other way round, go to the same place -/
  repeats : ∀ x y, Lists document op x ∨ Lists document item x → Lists document item y →
    x.sameWritten y ≠ x.sameExpanded y → x.Repeats SamePlace y

/-- Parameters count as the same by what is written exactly if they do by what they
are expanded to. -/
def CountAlike (document : Value) (item op : Members) : Prop :=
  ∀ x y, Lists document op x ∨ Lists document item x → Lists document item y →
    x.parameter? ≠ none →
    y.parameter? ≠ none → x.sameWritten y = x.sameExpanded y

section

variable {document completed : Value}

/-- The entries that an expanded operation has for its parameters. -/
theorem exists_ownEntries {op es base : Members}
    {own : List Value} (hown : listAt "parameters" op = .ok own)
    (hlisted : ListedAsWritten document (valueAt "parameters" op))
    (hes : MemberExpansion document op base es "parameters")
    (hbase : get? "parameters" op = none → listAt "parameters" base = .ok []) :
    ∃ entries : List Entry, entries.map Entry.written = own ∧
      listAt "parameters" es = .ok (entries.map Entry.expanded) ∧ ∀ entry ∈ entries,
        Lists document op entry := by
  cases hget : get? "parameters" op with
  | none =>
      have hnil : own = [] := by
        rw [listAt, valueAt, hget] at hown
        exact (Except.ok.inj hown).symm
      subst hnil
      refine ⟨[], rfl, ?_, by simp⟩
      rw [listAt, valueAt, hes.absent hget]
      exact hbase hget
  | some v =>
      obtain ⟨w, hw, hgetw⟩ := hes.present v hget
      have hv : valueAt "parameters" op = v := by rw [valueAt, hget, Option.getD_some]
      rw [hv] at hlisted
      obtain ⟨ys, hys, hall⟩ :=
        itemsOrNone_of_expand hlisted hw (by rw [← hv]; exact hown)
      obtain ⟨entries, rfl, rfl, hentries⟩ := exists_entries hall
      refine ⟨entries, rfl, ?_, fun entry hentry =>
        ⟨⟨_, hown, List.mem_map_of_mem hentry⟩, hentries entry hentry⟩⟩
      rw [listAt, valueAt, hgetw]
      exact hys

/-- The entries of the parameters that a path item shares. -/
theorem exists_sharedEntries {item : Members} {shared : List Value}
    {w : Value} {items : List Value} (hshared : listAt "parameters" item = .ok shared)
    (hlisted : ListedAsWritten document (valueAt "parameters" item))
    (hw : expand ((valueAt "parameters" item).orElse (.list [])) document = .ok w)
    (hitems : w.items = .ok items) :
    ∃ entries : List Entry, entries.map Entry.written = shared ∧
      entries.map Entry.expanded = items ∧
      ∀ entry ∈ entries, Lists document item entry := by
  have hlistedOr :
      ListedAsWritten document ((valueAt "parameters" item).orElse (.list [])) := by
    rw [Tree.orElse]
    split
    · exact listedAsWritten_list []
    · exact hlisted
  have hsharedOr : ((valueAt "parameters" item).orElse (.list [])).items =
      .ok shared := by
    rw [← itemsOrNone_eq]
    exact hshared
  obtain ⟨ys, hys, hall⟩ := items_of_expand hlistedOr hw hsharedOr
  obtain rfl := Except.ok.inj (hys.symm.trans hitems)
  obtain ⟨entries, rfl, rfl, hentries⟩ := exists_entries hall
  exact ⟨entries, rfl, rfl, fun entry hentry =>
    ⟨⟨_, hshared, List.mem_map_of_mem hentry⟩, hentries entry hentry⟩⟩

/-- An entry is expanded to the same in a document where its pointers lead to the
same. -/
theorem Lists.expandsIn {ms : Members} {entry : Entry} (h : Lists document ms entry)
    (hagree : AgreeFrom document completed (valueAt "parameters" ms))
    (hlisted : ListedAsWritten document (valueAt "parameters" ms)) :
    entry.ExpandsIn completed := by
  obtain ⟨xs, hxs, hmem⟩ := h.listed
  have hentry : AgreeFrom document completed entry.written := fun p hp =>
    hagree p (hp.mono fun q hq =>
      mentions_of_mem_itemsOrNone hlisted.noPair hxs hmem hq)
  exact (expand_agree hentry).trans h.expands

end

/-- An operation of a path item is completed to another one. -/
def CompletedTo (item op op' : Members) : Prop :=
  ∃ op₁, PathItemEdit.nested completion op = .ok op₁ ∧
    completeOperation item op₁ = .ok op'

section

variable {item op op' : Members}

theorem CompletedTo.get?_eq (h : CompletedTo item op op') {name : String}
    (hname : name ∉ ["tags", "parameters", "externalDocs", "callbacks"]) :
    get? (.str name) op' = get? (.str name) op := by
  obtain ⟨op₁, hnested, hcomplete⟩ := h
  simp only [List.mem_cons, List.not_mem_nil, or_false, not_or] at hname
  obtain ⟨htags, hparameters, hexternalDocs, hcallbacks⟩ := hname
  rw [get?_completeOperation hcomplete (by simp [htags, hparameters, hexternalDocs]),
    (PathItemEdit.agreeButCallbacks_of_nested hnested).get?_eq hcallbacks]

/-- The parameters of a completed operation. -/
theorem CompletedTo.parameters (h : CompletedTo item op op') :
    ∃ own shared merged, listAt "parameters" op = .ok own ∧
      listAt "parameters" item = .ok shared ∧
      mergeParameters shared own = .ok merged ∧
      get? "parameters" op' = some (.list merged) := by
  obtain ⟨op₁, hnested, hcomplete⟩ := h
  obtain ⟨own, shared, merged, hown, hrest⟩ := completeOperation_parameters hcomplete
  refine ⟨own, shared, merged, ?_, hrest⟩
  rwa [listAt, valueAt, (PathItemEdit.agreeButCallbacks_of_nested hnested).get?_eq
    (by decide)] at hown

theorem nodup_names_fill {name : String} {v : Value} {ms : Members}
    (h : (Members.names ms).Nodup) :
    (Members.names (fill name v ms)).Nodup := by
  rcases fill_eq_put_or_self name v ms with heq | heq
  · rw [heq]
    exact Members.nodup_names_put (.whole name) h
  · rwa [heq]

/-- Completing an operation keeps its names different. -/
theorem CompletedTo.nodup_names (h : CompletedTo item op op')
    (hdistinct : (Members.names op).Nodup) :
    (Members.names op').Nodup := by
  obtain ⟨op₁, hnested, hcomplete⟩ := h
  rw [← ((PathItemEdit.nested_iff completion).mp hnested).names_eq] at hdistinct
  obtain ⟨own, shared, merged, -, -, -, rfl⟩ := completeOperation_eq_ok.mp hcomplete
  exact Members.nodup_names_put (.whole _)
    (nodup_names_fill (nodup_names_fill (nodup_names_fill hdistinct)))

end

section

variable {document completed : Value} {item op op' es es' base : Members}

/-- A completed operation has the entries of the operation, joined as they are written,
and each is expanded. -/
theorem parameters_of_completed
    (hop' : CompletedTo item op op') {own shared : List Entry}
    (hown : listAt "parameters" op = .ok (own.map Entry.written))
    (hshared : listAt "parameters" item = .ok (shared.map Entry.written))
    (hexpands : ∀ entry ∈ own ++ shared, entry.ExpandsIn completed)
    (hes' : MemberExpansion completed op' base es' "parameters") :
    listAt "parameters" es' =
      .ok ((joined Entry.sameWritten Entry.written own shared).map Entry.expanded) := by
  obtain ⟨own', shared', merged, hown', hshared', hmerged, hget⟩ := hop'.parameters
  obtain rfl := Except.ok.inj (hown.symm.trans hown')
  obtain rfl := Except.ok.inj (hshared.symm.trans hshared')
  have hjoined : merged = (joined Entry.sameWritten Entry.written own shared).map
      Entry.written :=
    mergeParameters_eq_fresh Entry.written hmerged
  obtain ⟨w, hw, hgetw⟩ := hes'.present _ hget
  rw [hjoined, expand_entries fun entry hentry =>
    hexpands entry (mem_of_mem_joined hentry)] at hw
  obtain rfl := Except.ok.inj hw
  rw [listAt, valueAt, hgetw]
  exact itemsOrNone_list _

/-- What a completed operation expands to has the same for a tool, and its
own parameters. -/
theorem exists_completedExpansion (hfold : Foldable document completed item op)
    (hop' : CompletedTo item op op') (hfollow : ∀ p, Reached completed (.object op') p →
      ∃ found, resolve (.str p) completed = .ok found)
    (hbase : expand (.object (referencePart op)) document = .ok (.object base))
    (hes : ∀ name : String, name ≠ "$ref" → MemberExpansion document op base es name) :
    ∃ es', expand (.object op') completed = .ok (.object es') ∧
      (∀ name ∈ toolMembers, valueAt (.str name) es' = valueAt (.str name) es) ∧
      MemberExpansion completed op' base es' "parameters" := by
  have hreference : referencePart op' = referencePart op := by
    rw [referencePart, referencePart, hop'.get?_eq (by decide)]
  have hbase' : expand (.object (referencePart op')) completed =
      .ok (.object base) := by
    rw [hreference, expand_agree hfold.reference, hbase]
  obtain ⟨v, hv⟩ := expand_succeeds hfollow
  obtain ⟨es', rfl, hes'⟩ :=
    expand_object_lookup hv hbase' (hop'.nodup_names hfold.distinct)
  refine ⟨es', hv, fun name hname => ?_, hes' "parameters" (by decide)⟩
  have hagree := hfold.members name (List.mem_cons_of_mem _ hname)
  simp only [toolMembers, List.mem_cons, List.not_mem_nil, or_false] at hname
  refine (hes name ?_).valueAt_eq (hes' name ?_) (hop'.get?_eq ?_) hagree <;>
    rcases hname with rfl | rfl | rfl | rfl <;> decide

/-- The tool for a completed operation is made of the same, with the same parameters
but for repeats. -/
theorem toolOf_completed {address : Value}
    {path : String} {method : Method} {used : List String}
    {tool : Tool} {w : Value} (hfold : Foldable document completed item op)
    (hop' : CompletedTo item op op') (hfollow : ∀ p, Reached completed (.object op') p →
      ∃ found, resolve (.str p) completed = .ok found)
    (hw : expand ((valueAt "parameters" item).orElse (.list [])) document = .ok w)
    (htool : toolOf document address w path method (.object op) used = .ok tool) :
    ∃ tool', toolOf completed address (.list []) path method (.object op') used =
      .ok tool' ∧
      SameButRepeats tool tool' ∧ (CountAlike document item op → tool' = tool) := by
  obtain ⟨es, items, ownExpanded, merged, hexpand, hitems, hownExpanded, hmerged,
      hwith⟩ := toolOf_eq_ok.mp htool
  obtain ⟨base, hbase⟩ := exists_referencePart hexpand
  obtain ⟨_, heq, hes⟩ := expand_object_lookup hexpand hbase hfold.distinct
  obtain rfl := (Tree.marked.inj heq).2
  obtain ⟨es', hexpand', hread, hes'⟩ :=
    exists_completedExpansion hfold hop' hfollow hbase hes
  -- the entries that are joined, before and after they are expanded
  obtain ⟨written, writtenShared, -, hwritten, hwrittenShared, -, -⟩ := hop'.parameters
  obtain ⟨own, rfl, hown, hlistsOwn⟩ := exists_ownEntries hwritten hfold.ownListed
    (hes "parameters" (by decide)) fun hnone => hfold.inherits hnone base hbase
  obtain ⟨shared, rfl, rfl, hlistsShared⟩ :=
    exists_sharedEntries hwrittenShared hfold.sharedListed hw hitems
  obtain rfl := Except.ok.inj (hown.symm.trans hownExpanded)
  have hlists : ∀ entry ∈ own ++ shared, Lists document op entry ∨
      Lists document item entry := fun entry hentry =>
    (List.mem_append.mp hentry).imp (hlistsOwn entry) (hlistsShared entry)
  have hexpands : ∀ entry ∈ own ++ shared,
      entry.ExpandsIn completed := fun entry hentry =>
    (List.mem_append.mp hentry).elim
      (fun h => (hlistsOwn entry h).expandsIn (hfold.members "parameters" (by simp))
        hfold.ownListed)
      (fun h => (hlistsShared entry h).expandsIn hfold.shared hfold.sharedListed)
  have hrepeats := fun x hx y hy => hfold.repeats x y (hlists x hx) (hlistsShared y hy)
  -- the parameters that are left of them
  have hjoined : merged = (joined Entry.sameExpanded Entry.expanded own shared).map
      Entry.expanded :=
    mergeParameters_eq_fresh Entry.expanded hmerged
  rw [hjoined, namedParameters_joined fun entry _ hnamed =>
    isObject_of_named hnamed, ← toolWith_congr hread] at hwith
  obtain ⟨hkeysOwn, hkeysShared⟩ := mergeParameters_succeeds_iff.mp ⟨_, hmerged⟩
  have hfinish : ∀ {tool'}, toolWith address path method es'
      (own.filterMap Entry.parameter? ++ (fresh Entry.sameWritten own shared).filterMap
      Entry.parameter?) used = .ok tool' →
        toolOf completed address (.list []) path method (.object op') used =
          .ok tool' := fun htool' => by
    have hown' := parameters_of_completed hop' hwritten hwrittenShared hexpands hes'
    refine toolOf_eq_ok.mpr ⟨es', [], _, _, hexpand', rfl, hown',
      mergeParameters_nil (hasKeys_joined hkeysOwn hkeysShared), ?_⟩
    rwa [namedParameters_joined fun entry hentry hnamed =>
      (hlistsShared entry hentry).expands.written_isObject hnamed]
  obtain ⟨all, hwritten, hexpanded⟩ := joined_thins hrepeats
  obtain ⟨tool', htool', hsame⟩ := toolWith_of_thinned hexpanded hwritten hwith
  refine ⟨tool', hfinish htool', hsame, fun halike => ?_⟩
  -- no parameter is left out only one way
  have hnever : ∀ x ∈ own ++ shared, ∀ y ∈ shared, x.sameWritten y ≠ x.sameExpanded y →
      x.Repeats (fun _ _ => False) y := by
    intro x hx y hy hne q hq
    obtain ⟨p, hp, -⟩ := hrepeats x hx y hy hne q hq
    exact absurd
      (halike x y (hlists x hx) (hlistsShared y hy) (by simp [hp]) (by simp [hq])) hne
  obtain ⟨all, hwritten, hexpanded⟩ := joined_thins hnever
  rw [(hwritten.eq_of_never fun _ _ => id).trans (hexpanded.eq_of_never fun _ _ =>
    id).symm, hwith] at htool'
  exact (Except.ok.inj htool').symm

end

/-! ## Paths -/

/-- The operations of two path items stand in a relation, method by method. -/
def OperationsRelated (R : Members → Members → Prop) (item item' : Members) : Prop :=
  List.Forall₂ (fun e e' : Method × Value => ∃ op op', e = (e.1, .object op) ∧
    e' = (e.1, .object op') ∧ R op op') (operationsIn item) (operationsIn item')

/-- Completing a path item completes its operations. -/
theorem operationsIn_completed {item changed : Members}
    (h : PathItemEdit.operations completion item item = .ok changed) :
    OperationsRelated (fun op op' => HoldsOperation item op ∧
        HoldsOperation (Members.erase "parameters" changed) op' ∧
          CompletedTo item op op')
      item (Members.erase "parameters" changed) := by
  have haligned := (PathItemEdit.operations_iff completion).mp h
  have hget : ∀ method : Method,
      get? (.str method.name) (Members.erase "parameters" changed) =
      get? (.str method.name) changed := fun method => by
    rw [Members.get?_erase, if_neg (by cases method <;> decide)]
  unfold OperationsRelated operationsIn
  induction Method.all with
  | nil => exact .nil
  | cons method rest ih =>
      rw [List.filterMap_cons, List.filterMap_cons, hget]
      cases hv : get? (.str method.name) item with
      | none =>
          rw [haligned.get?_none hv]
          exact ih
      | some v =>
          obtain ⟨k, w, hk, hw, hedit⟩ := haligned.get?_some hv
          obtain rfl := Scalar.same_str_iff.mp hk
          rw [hw]
          cases v with
          | marked mark op =>
              rw [PathItemEdit.editMember, if_pos (isMethod_name method)] at hedit
              obtain ⟨op₁, hnested, hedit⟩ := bind_eq_ok.mp hedit
              obtain ⟨op', hcomplete, heq⟩ := bind_eq_ok.mp hedit
              obtain rfl := Except.ok.inj heq
              refine .cons ⟨op, op', rfl, rfl, ?_, ?_, op₁, hnested, hcomplete⟩ ih
              · exact ⟨_, isMethod_name method, Members.mem_of_get?_str hv⟩
              · exact ⟨_, isMethod_name method,
                  Members.mem_of_get?_str ((hget method).trans hw)⟩
          | _ =>
              obtain rfl := Except.ok.inj hedit
              exact ih

/-- Tools are related one by one, and each has the name of the other. -/
def ToolsRelated (R : Tool → Tool → Prop) : List Tool → List Tool → Prop :=
  List.Forall₂ fun tool tool' => tool'.name = tool.name ∧ R tool tool'

theorem ToolsRelated.names_eq {R : Tool → Tool → Prop} {tools tools' : List Tool}
    (h : ToolsRelated R tools tools') :
    tools'.map (·.name) = tools.map (·.name) := by
  induction h with
  | nil => rfl
  | cons hname _ ih => rw [List.map_cons, List.map_cons, hname.1, ih]

theorem ToolsRelated.append {R : Tool → Tool → Prop}
    {tools tools' : List Tool} {tool tool' : Tool} (h : ToolsRelated R tools tools')
    (hname : tool'.name = tool.name) (htool : R tool tool') :
    ToolsRelated R (tools ++ [tool]) (tools' ++ [tool']) := by
  induction h with
  | nil => exact .cons ⟨hname, htool⟩ .nil
  | cons hhead _ ih => exact .cons hhead ih

/-- Adds the tool for an operation. -/
def addTool (document address shared : Value) (path : String) (tools : List Tool)
    (entry : Method × Value) :
    Except ToolError (List Tool) := do
  let tool ← toolOf document address shared path entry.1 entry.2 (tools.map (·.name))
  pure (tools ++ [tool])

section

variable {R : Tool → Tool → Prop} {document document' address w w' : Value}
  {path : Scalar}

/-- Whatever shared parameters come to, the tools of two operations are related. -/
def ToolsAlike (R : Tool → Tool → Prop) (document document' address w w' : Value)
    (path : Scalar) (op op' : Members) :
    Prop :=
  ∀ method used tool, toolOf document address w path.display method (.object op) used =
    .ok tool →
    ∃ tool', toolOf document' address w' path.display method (.object op') used =
      .ok tool' ∧
      tool'.name = tool.name ∧ R tool tool'

/-- The tools of two path items are related if those of their operations are. -/
theorem addTools_related {item item' : Members}
    (hitems : OperationsRelated (ToolsAlike R document document' address w w' path)
      item item')
    {tools made tools' : List Tool} (htools : ToolsRelated R tools tools')
    (h : (operationsIn item).foldlM (addTool document address w path.display) tools =
      .ok made) :
    ∃ made', (operationsIn item').foldlM (addTool document' address w' path.display)
      tools' = .ok made' ∧
      ToolsRelated R made made' := by
  refine foldlM_related hitems ?_ htools h
  rintro ⟨method, _⟩ entry' before before' after ⟨op, op', heq, rfl, halike⟩
    hbefore hafter
  obtain rfl := (Prod.mk.inj heq).2
  obtain ⟨tool, htool, heq⟩ := bind_eq_ok.mp hafter
  obtain rfl := Except.ok.inj heq
  obtain ⟨tool', htool', hname, hR⟩ := halike method _ tool htool
  refine ⟨before' ++ [tool'], bind_eq_ok.mpr ⟨tool', ?_, rfl⟩, hbefore.append hname hR⟩
  rw [hbefore.names_eq]
  exact htool'

theorem pathTools_eq_ok {item : Members} {tools made : List Tool} :
    pathTools document address path item tools = .ok made ↔
      ∃ w, expand ((valueAt "parameters" item).orElse (.list [])) document = .ok w ∧
        (operationsIn item).foldlM (addTool document address w path.display) tools =
          .ok made := by
  constructor
  · intro h
    obtain ⟨w, hw, hloop⟩ := bind_eq_ok.mp h
    exact ⟨w, lift_eq_ok.mp hw, hloop⟩
  · rintro ⟨w, hw, hloop⟩
    exact bind_eq_ok.mpr ⟨w, lift_eq_ok.mpr hw, hloop⟩

end

/-- The tools of a completed path item are related to those of the path item if those of
its operations are. -/
theorem pathTools_completed {R : Tool → Tool → Prop}
    {document completed address : Value} {path : Scalar} {item changed : Members}
    (hchanged : PathItemEdit.operations completion item item = .ok changed)
    (hop : ∀ op op' w, HoldsOperation item op →
      HoldsOperation (Members.erase "parameters" changed) op' →
      CompletedTo item op op' →
        expand ((valueAt "parameters" item).orElse (.list [])) document = .ok w →
        ToolsAlike R document completed address w (.list []) path op op')
    {tools made tools' : List Tool} (htools : ToolsRelated R tools tools')
    (h : pathTools document address path item tools = .ok made) :
    ∃ made', pathTools completed address path (Members.erase "parameters" changed)
      tools' = .ok made' ∧
      ToolsRelated R made made' := by
  obtain ⟨w, hw, hloop⟩ := pathTools_eq_ok.mp h
  have hitems : OperationsRelated (ToolsAlike R document completed address w (.list [])
      path) item (Members.erase "parameters" changed) := by
    refine (operationsIn_completed hchanged).imp ?_
    rintro e e' ⟨op, op', he, he', hholds, hholds', hcompleted⟩
    exact ⟨op, op', he, he', hop op op' w hholds hholds' hcompleted hw⟩
  obtain ⟨made', hmade', hrelated⟩ := addTools_related hitems htools hloop
  refine ⟨made', pathTools_eq_ok.mpr ⟨.list [], ?_, hmade'⟩, hrelated⟩
  rw [valueAt, Members.get?_erase, if_pos rfl]
  exact expand_list_iff.mpr ⟨[], rfl, .nil⟩

/-- The same for what stands under a path, be it a path item or not. -/
theorem entryTools_completed {R : Tool → Tool → Prop}
    {document completed address : Value} {path : Scalar} {v v' : Value}
    (hedit : PathItemEdit.editItem completion v = .ok v') (hop : ∀ item item' op op' w,
      v = .object item → v' = .object item' → HoldsOperation item op →
      HoldsOperation item' op' → CompletedTo item op op' →
      expand ((valueAt "parameters" item).orElse (.list [])) document = .ok w →
        ToolsAlike R document completed address w (.list []) path op op')
    {tools made tools' : List Tool} (htools : ToolsRelated R tools tools')
    (h : entryTools document address tools (path, v) = .ok made) :
    ∃ made', entryTools completed address tools' (path, v') = .ok made' ∧
      ToolsRelated R made made' := by
  cases v with
  | marked mark item =>
      obtain ⟨changed, hchanged, heq⟩ := bind_eq_ok.mp hedit
      obtain rfl := Except.ok.inj heq
      exact pathTools_completed hchanged (fun op op' w => hop item _ op op' w rfl rfl)
        htools h
  | _ =>
      obtain rfl := Except.ok.inj hedit
      obtain rfl := Except.ok.inj h
      exact ⟨tools', rfl, htools⟩

/-! ## Documents -/

/-- Completing a document leaves the address that requests go to. -/
theorem addressOf_complete {ms ns : Members}
    (h : complete (.object ms) = .ok (.object ns)) (baseUrl : Option String) :
    addressOf baseUrl ns = addressOf baseUrl ms := by
  have hservers : valueAt "servers" ns = (valueAt "servers" ms).orElse (.list []) := by
    rw [valueAt, get?_complete (by simp) h]
    rfl
  have hfirst : firstServerUrl ns = firstServerUrl ms := by
    unfold firstServerUrl
    rw [hservers, Tree.orElse]
    by_cases hblank : (valueAt "servers" ms).isBlank = true
    · rw [if_pos hblank, if_pos hblank]
      rfl
    · rw [if_neg hblank]
  unfold addressOf
  rw [hfirst]

/-- The tools of a completed document are those of the document, but for places that are
listed twice. They are exactly those if parameters count as the same by what is written
just when they do by what they are expanded to. -/
theorem toolsOf_complete {document completed : Value} {baseUrl : Option String}
    {tools : List Tool} (htools : toolsOf document baseUrl = .ok tools)
    (hcomplete : complete document = .ok completed) (hfollow : ∀ item op p,
      HasOperation completed item op → Reached completed (.object op) p →
      ∃ found, resolve (.str p) completed = .ok found)
    (hfold : ∀ item op, HasOperation document item op →
      Foldable document completed item op) :
    ∃ tools', toolsOf completed baseUrl = .ok tools' ∧
      List.Forall₂ SameButRepeats tools tools' ∧
      ((∀ item op, HasOperation document item op → CountAlike document item op) →
        tools' = tools) := by
  obtain ⟨ms, address, paths, rfl, haddress, hpaths, hloop⟩ := toolsOf_eq_ok.mp htools
  obtain ⟨ns, rfl, -⟩ := complete_of_ok hcomplete
  obtain ⟨-, read, paths', hread, hedit, hget⟩ := complete_parts hcomplete
  have hsame : paths = read := by
    rw [membersOrNone_eq] at hpaths
    exact Except.ok.inj (hpaths.symm.trans (by rw [valueAt, hread]; rfl))
  subst hsame
  -- the operations of the paths are those of the document
  have hhas : ∀ {item op}, HoldsItem paths item → HoldsOperation item op →
      HasOperation (.object ms) item op := by
    intro item op hitem hop
    rcases eq_nil_or_eq_some_of_orElse hread with rfl | hget
    · obtain ⟨name, hmem⟩ := hitem
      contradiction
    · exact ⟨ms, paths, rfl, hget, hitem, hop⟩
  have hrelated : ∃ tools',
      paths'.foldlM (entryTools (.object ns) address) [] = .ok tools' ∧
      ToolsRelated (fun tool tool' => SameButRepeats tool tool' ∧
        ((∀ item op, HasOperation (.object ms) item op →
          CountAlike (.object ms) item op) → tool' = tool))
        tools tools' := by
    refine foldlM_related
      (forall₂_and_mem ((PathItemEdit.pathItems_iff completion).mp hedit)) ?_ .nil hloop
    rintro ⟨path, v⟩ ⟨_, v'⟩ before before' after ⟨hmem, hmem', rfl, hv⟩ hbefore hafter
    refine entryTools_completed hv ?_ hbefore hafter
    rintro item item' op op' w rfl rfl hholds hholds' hcompleted hw method
      used tool htool
    have hop := hhas ⟨_, hmem⟩ hholds
    obtain ⟨tool', htool', hrepeats, hexact⟩ :=
      toolOf_completed (hfold item op hop) hcompleted (fun p =>
      hfollow item' op' p ⟨ns, paths', rfl, hget, ⟨_, hmem'⟩, hholds'⟩) hw htool
    exact ⟨tool', htool', by rw [hrepeats.others], hrepeats, fun hcount =>
      hexact (hcount item op hop)⟩
  obtain ⟨tools', htools', hrelated⟩ := hrelated
  refine ⟨tools', toolsOf_eq_ok.mpr ⟨ns, address, paths', rfl, ?_, ?_, htools'⟩, ?_,
    fun hexact => ?_⟩
  · rw [addressOf_complete hcomplete, haddress]
  · rw [valueAt, hget]
    exact membersOrNone_object paths'
  · exact hrelated.imp fun _ _ h => h.2.1
  · have heq : List.Forall₂ Eq tools' tools :=
      List.Forall₂.flip (hrelated.imp fun _ _ h => h.2.2 hexact)
    rwa [List.forall₂_eq_eq_eq] at heq

/-! ## Where the tools stay -/

/-- A document with paths and components. -/
def documentOf (paths components : List (String × Value)) : Value :=
  .record [("paths", .record paths), ("components", .record components)]

/-- A parameter in the query. -/
def queryParameter (name : String) : Value :=
  .record [("name", name), ("in", "query")]

/-- What stands for that to which a pointer leads. -/
def referenceTo (pointer : String) : Value :=
  .record [("$ref", pointer)]

/-- An operation with a parameter. -/
def sharingOperation : Members :=
  [("operationId", "x"), ("parameters", .list [queryParameter "q"])]

/-- A path item that shares the same parameter and another one by reference. -/
def sharingItem : Members :=
  [("parameters", .list [referenceTo "#/components/p", queryParameter "q"]),
    ("get", .object sharingOperation)]

/-- A document with that path item. -/
def sharingDocument : Value :=
  documentOf [("/a", .object sharingItem)] [("p", queryParameter "id")]

private theorem hasOperation_sharing {item op : Members}
    (h : HasOperation sharingDocument item op) :
    item = sharingItem ∧ op = sharingOperation := by
  obtain ⟨ms, paths, hms, hpaths, ⟨name, hitem⟩, method, hmethod, hop⟩ := h
  obtain rfl := (Tree.marked.inj hms).2
  obtain rfl : [(.str "/a", .object sharingItem)] = paths :=
    (Tree.marked.inj (Option.some.inj hpaths)).2
  obtain rfl := (Tree.marked.inj (Prod.mk.inj (List.mem_singleton.mp hitem)).2).2
  refine ⟨rfl, ?_⟩
  rcases List.mem_cons.mp hop with heq | hop
  · exact nomatch (Prod.mk.inj heq).2
  · exact (Tree.marked.inj (Prod.mk.inj (List.mem_singleton.mp hop)).2).2

private theorem lists_sharing {entry : Entry}
    (h : Lists sharingDocument sharingOperation entry ∨
      Lists sharingDocument sharingItem entry) :
    entry = ⟨queryParameter "q", queryParameter "q"⟩ ∨
    entry = ⟨referenceTo "#/components/p", queryParameter "id"⟩ := by
  have hentry : (entry.written = queryParameter "q" ∨
      entry.written = referenceTo "#/components/p") ∧
      entry.ExpandsIn sharingDocument := by
    rcases h with ⟨⟨xs, hxs, hmem⟩, hexpands⟩ | ⟨⟨xs, hxs, hmem⟩, hexpands⟩
    · obtain rfl : [queryParameter "q"] = xs := Except.ok.inj hxs
      exact ⟨.inl (List.mem_singleton.mp hmem), hexpands⟩
    · obtain rfl : [referenceTo "#/components/p", queryParameter "q"] = xs :=
        Except.ok.inj hxs
      rcases List.mem_cons.mp hmem with hmem | hmem
      · exact ⟨.inr hmem, hexpands⟩
      · exact ⟨.inl (List.mem_singleton.mp hmem), hexpands⟩
  obtain ⟨written, expanded⟩ := entry
  obtain ⟨rfl | rfl, hexpands⟩ := hentry
  · exact .inl (congrArg (Entry.mk _) (Except.ok.inj hexpands).symm)
  · exact .inr (congrArg (Entry.mk _) (Except.ok.inj hexpands).symm)

private theorem sameWritten_sharing {x y : Entry}
    (hx : Lists sharingDocument sharingOperation x ∨
      Lists sharingDocument sharingItem x)
    (hy : Lists sharingDocument sharingItem y) :
    x.sameWritten y = x.sameExpanded y := by
  rcases lists_sharing hx with rfl | rfl <;>
    rcases lists_sharing (.inr hy) with rfl | rfl <;> rfl

/-- The operation keeps its own parameter, and takes over the one that is shared by
reference, before completion and after it. -/
theorem toolsOf_complete_of_sharing :
    ∃ completed tools, complete sharingDocument = .ok completed ∧
      toolsOf sharingDocument none = .ok tools ∧
      toolsOf completed none = .ok tools ∧
      tools.map (·.placements) = [[⟨"q", "query"⟩, ⟨"id", "query"⟩]] := by
  obtain ⟨completed, item', op', hcomplete, hpaths, hoperation, hpointers, hresolve⟩ :
      ∃ completed item' op', complete sharingDocument = .ok completed ∧
      (∃ ms, completed = .object ms ∧
      get? "paths" ms = some (.object [(.str "/a", .object item')])) ∧
      item' = [(.str "get", .object op')] ∧
      pointers (.object op') ++ pointers completed =
        ["#/components/p", "#/components/p"] ∧
      resolve (.str "#/components/p") completed = .ok (queryParameter "id") :=
    ⟨_, _, _, rfl, ⟨_, rfl, rfl⟩, rfl, rfl, rfl⟩
  obtain ⟨tools, htools, hplacements⟩ : ∃ tools,
      toolsOf sharingDocument none = .ok tools ∧
      tools.map (·.placements) = [[⟨"q", "query"⟩, ⟨"id", "query"⟩]] :=
        ⟨_, rfl, by decide⟩
  have hagree : ∀ v, (∀ p ∈ pointers v, p = "#/components/p") →
      AgreeFrom sharingDocument completed v := by
    intro v hv p hp
    have hmem := List.mem_append.mp (mem_pointers_of_reached hp)
    obtain rfl : p = "#/components/p" := hmem.elim (hv p) fun h =>
      List.mem_singleton.mp h
    exact hresolve
  have hfollow : ∀ item op p, HasOperation completed item op →
      Reached completed (.object op) p →
      ∃ found, resolve (.str p) completed = .ok found := by
    rintro item op p ⟨ms, paths, rfl, hget, ⟨name, hitem⟩, method, -, hop⟩ hp
    obtain ⟨ms', hms, hget'⟩ := hpaths
    obtain rfl := (Tree.marked.inj hms).2
    obtain rfl := (Tree.marked.inj (Option.some.inj (hget.symm.trans hget'))).2
    obtain rfl := (Tree.marked.inj (Prod.mk.inj (List.mem_singleton.mp hitem)).2).2
    rw [hoperation] at hop
    obtain rfl := (Tree.marked.inj (Prod.mk.inj (List.mem_singleton.mp hop)).2).2
    have hmem := mem_pointers_of_reached hp
    rw [hpointers] at hmem
    obtain rfl : p = "#/components/p" := by simpa using hmem
    exact ⟨_, hresolve⟩
  have hfold : ∀ item op, HasOperation sharingDocument item op →
      Foldable sharingDocument completed item op := by
    intro item op hop
    obtain ⟨rfl, rfl⟩ := hasOperation_sharing hop
    exact {
      distinct := by decide
      reference := hagree _ fun p hp => nomatch (show p ∈ [] from hp)
      members := fun name hname => hagree _ fun p hp => by
        simp only [toolMembers, List.mem_cons, List.not_mem_nil, or_false] at hname
        rcases hname with rfl | rfl | rfl | rfl | rfl <;>
          exact nomatch (show p ∈ [] from hp)
      shared := hagree _ fun p hp => List.mem_singleton.mp hp
      inherits := fun h => nomatch (show some _ = none from h)
      ownListed := listedAsWritten_list _
      sharedListed := listedAsWritten_list _
      repeats := fun x y hx hy hne => absurd (sameWritten_sharing hx hy) hne }
  obtain ⟨tools', htools', -, hsame⟩ := toolsOf_complete htools hcomplete hfollow hfold
  obtain rfl := hsame fun item op hop => by
    obtain ⟨rfl, rfl⟩ := hasOperation_sharing hop
    exact fun x y hx hy _ _ => sameWritten_sharing hx hy
  exact ⟨completed, tools', hcomplete, htools, htools', hplacements⟩

/-! ## Where the tools change -/

/-- A document whose tools send parameters to other places, or cannot be made any more,
after it was completed. -/
def PlacementsChange (document : Value) : Prop :=
  ∃ completed tools, complete document = .ok completed ∧
    toolsOf document none = .ok tools ∧
    ∀ tools', toolsOf completed none = .ok tools' →
      tools'.map (·.placements) ≠ tools.map (·.placements)

private theorem placementsChange_of_ok {document completed : Value}
    {tools tools' : List Tool} (hcomplete : complete document = .ok completed)
    (htools : toolsOf document none = .ok tools)
    (htools' : toolsOf completed none = .ok tools')
    (hne : tools'.map (·.placements) ≠ tools.map (·.placements)) :
    PlacementsChange document :=
  ⟨completed, tools, hcomplete, htools, fun _ h =>
    Except.ok.inj (htools'.symm.trans h) ▸ hne⟩

/-- Without what is asked of them, the tools of a completed document are others, or
there are none. -/
theorem toolsOf_complete_changes :
    -- a parameter that is shared by reference is the same as one of the operation, but
    -- not as it is written
    PlacementsChange (documentOf
      [("/a", .record [("parameters", .list [referenceTo "#/components/p"]),
        ("get", .record [("parameters", .list [queryParameter "id"])])])]
      [("p", queryParameter "id")]) ∧
    -- the same reference with different names beside it
    PlacementsChange (documentOf
      [("/a", .record [("parameters", .list [
          .record [("$ref", "#/components/p"), ("name", "a")],
          .record [("$ref", "#/components/p"), ("name", "b")]]),
        ("get", .emptyObject)])]
      [("p", queryParameter "id")]) ∧
    -- a pointer to a parameter that is moved
    PlacementsChange (documentOf
      [("/a", .record [("parameters", .list [queryParameter "id"])]),
        ("/b", .record [("get", .record
          [("parameters", .list [referenceTo "#/paths/~1a/parameters/0"])])])] []) ∧
    -- an operation that has its parameters from elsewhere
    PlacementsChange (documentOf
      [("/a", .record [("get", referenceTo "#/components/o")])]
      [("o", .record [("parameters", .list [queryParameter "id"])])]) ∧
    -- parameters that are listed elsewhere
    PlacementsChange (documentOf
      [("/a",
        .record [("get", .record [("parameters", referenceTo "#/components/l")])])]
      [("l", .list [queryParameter "id"])]) ∧
    PlacementsChange (documentOf
      [("/a",
        .record [("parameters", referenceTo "#/components/l"), ("get", .emptyObject)])]
      [("l", .list [queryParameter "id"])]) ∧
    -- a pair of references
    PlacementsChange (documentOf
      [("/a", .record [("get", .record [("parameters",
        .pair (referenceTo "#/components/p") (referenceTo "#/components/p"))])])]
      [("p", queryParameter "id")]) ∧
    -- a pointer to an item whose number cannot be read, in a list that was not there
    PlacementsChange (documentOf
      [("/a", .record
        [("get", .record [("responses", referenceTo "#/paths/~1a/get/parameters/²")])])]
        []) := by
  refine ⟨placementsChange_of_ok rfl rfl rfl (by decide), placementsChange_of_ok
    rfl rfl rfl (by decide), placementsChange_of_ok rfl rfl rfl (by decide),
    placementsChange_of_ok rfl rfl rfl (by decide), placementsChange_of_ok
    rfl rfl rfl (by decide), placementsChange_of_ok rfl rfl rfl (by decide),
    placementsChange_of_ok rfl rfl rfl (by decide), _, _, rfl, rfl, fun tools' h => ?_⟩
  exact nomatch (show toolsOf _ none = .error _ from rfl).symm.trans h

end ApiWorkbench.Server
