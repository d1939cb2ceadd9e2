import ApiWorkbench.Proofs.Editor.Usable

/-!
# Edits of servers, tags and components

The lists of servers and of tags are read item by item, schemas and security schemes
entry by entry. The security of a document is where edits look furthest: requiring a
scheme gathers the scopes of all its flows, and removing or renaming one goes through
the requirements. On a usable document all of them find what they look for.

## Main results

* `editServers_applies`, `editTags_applies`, `editSchemas_applies`,
  `editSecurity_applies`: the edits that bring no members with them apply to
  usable documents.
-/

namespace ApiWorkbench.Editor

open Document Command

/-! ## Servers and tags -/

/-- Putting servers that are usable keeps a document usable. -/
private theorem putServers_usable {ms : Members} (hms : Usable ms) {xs : List Value}
    (hxs : ∀ x ∈ xs, ServerUsable x) : Usable (putList "servers" xs ms) :=
  Each.put hms "servers" (isListOf_list hxs)

private theorem serverUsable_template : ServerUsable Template.server :=
  ⟨_, rfl, succeeds_ok []⟩

/-- The variables of a usable server can be changed, and the server is usable
afterwards. -/
private theorem editVariables_usable (edit : Members → Members) {v : Value}
    (hv : ServerUsable v) :
    ∃ w, editVariables edit v = .ok w ∧ ServerUsable w := by
  obtain ⟨server, rfl, definitions, hdefinitions⟩ := hv
  have hedited : editVariables edit (.object server) =
      .ok (.object (putUnlessEmpty "variables" (edit definitions) server)) := by
    rw [editVariables, Tree.toMembers, pure_eq_ok, ok_bind, Members.mapAt, hdefinitions]
    rfl
  refine ⟨_, hedited, _, rfl, ?_⟩
  unfold putUnlessEmpty
  split
  · rw [Members.valueAt, Members.get?_erase, if_pos rfl]
    exact succeeds_ok []
  · rw [Members.valueAt, Members.get?_put, if_pos rfl]
    exact makesMembers_object _

private theorem editServerVariables_applies (index : Int) (edit : Members → Members) :
    Edit.Applies Usable (editServerVariables index edit) := by
  have hedit : ∀ ms, Usable ms →
      ∃ result, editServerVariables index edit ms = .ok result ∧
      ∀ ms', result = some ms' → Usable ms' := by
    intro ms hms
    obtain ⟨servers, hservers, husable⟩ :
        IsListOf ServerUsable (Members.valueAt "servers" ms) := hms "servers"
    rw [editServerVariables, Members.listAt, hservers, ok_bind]
    split
    · exact ⟨none, rfl, by simp⟩
    · rename_i i hposition
      have hi : i < servers.length := by
        unfold position? at hposition
        split at hposition
        · rename_i hbounds
          obtain rfl := Option.some.inj hposition
          simp only [Bool.and_eq_true, decide_eq_true_eq] at hbounds
          omega
        · simp at hposition
      have hmem : servers.getD i .null ∈ servers := by
        rw [List.getD_eq_getElem?_getD, List.getElem?_eq_getElem hi, Option.getD_some]
        exact List.getElem_mem hi
      obtain ⟨server, hserver, hserverUsable⟩ :=
        editVariables_usable edit (husable _ hmem)
      refine ⟨_, by rw [hserver, ok_bind]; rfl, ?_⟩
      intro ms' heq
      obtain rfl := Option.some.inj heq
      refine putServers_usable hms fun x hx => ?_
      rcases List.mem_or_eq_of_mem_set hx with hx | rfl
      · exact husable x hx
      · exact hserverUsable
  refine ⟨fun ms hms => ?_, fun ms ms' hms h => ?_⟩
  · obtain ⟨result, hresult, -⟩ := hedit ms hms
    exact ⟨result, hresult⟩
  · obtain ⟨result, hresult, husable⟩ := hedit ms hms
    rw [hresult, Except.ok.injEq] at h
    exact husable ms' h

theorem editServers_applies {e : ServerEdit Unit}
    (hupdate : ∀ index server, e ≠ .update index server)
    (hvariable : ∀ index oldName newName definition,
      e ≠ .updateVariable index oldName newName definition) :
    Edit.Applies Usable (editServers e) := by
  have hlist : ∀ ms, Usable ms → IsListOf ServerUsable
      (Members.valueAt "servers" ms) := fun ms hms => hms "servers"
  cases e with
  | add =>
      refine ⟨fun ms hms => Edit.append_succeeds ((hlist ms hms).imp fun _ h => h.1),
        fun ms ms' hms h => ?_⟩
      obtain ⟨items, hitems, rfl⟩ := Edit.append_spec h
      obtain ⟨servers, hservers, husable⟩ := hlist ms hms
      obtain rfl : servers = items := Except.ok.inj (hservers.symm.trans hitems)
      refine putServers_usable hms fun x hx => ?_
      rcases List.mem_append.mp hx with hx | hx
      · exact husable x hx
      · rw [List.mem_singleton.mp hx]
        exact serverUsable_template
  | update index server => exact absurd rfl (hupdate index server)
  | remove index =>
      refine ⟨fun ms hms => Edit.removeItem_succeeds ((hlist ms hms).imp fun _ h =>
        h.1), fun ms ms' hms h => ?_⟩
      obtain ⟨items, hitems, rfl⟩ := Edit.removeItem_spec h
      obtain ⟨servers, hservers, husable⟩ := hlist ms hms
      obtain rfl : servers = items := Except.ok.inj (hservers.symm.trans hitems)
      exact putServers_usable hms fun x hx => husable x (Edit.mem_withoutItem hx)
  | addVariable index name => exact editServerVariables_applies index _
  | updateVariable index oldName newName definition =>
      exact absurd rfl (hvariable index oldName newName definition)
  | removeVariable index name => exact editServerVariables_applies index _

theorem editTags_applies {e : TagEdit Unit} (he : ∀ index tag, e ≠ .update index tag) :
    Edit.Applies Usable (editTags e) := by
  have hlist : ∀ ms, Usable ms → IsList (Members.valueAt "tags" ms) := fun ms hms =>
    hms "tags"
  cases e with
  | add =>
      refine ⟨fun ms hms => Edit.append_succeeds (hlist ms hms), fun ms ms' hms h => ?_⟩
      obtain ⟨items, -, rfl⟩ := Edit.append_spec h
      exact Each.put hms "tags" (isList_list _)
  | update index tag => exact absurd rfl (he index tag)
  | remove index =>
      refine ⟨fun ms hms => Edit.removeItem_succeeds (hlist ms hms),
        fun ms ms' hms h => ?_⟩
      obtain ⟨items, -, rfl⟩ := Edit.removeItem_spec h
      exact Each.put hms "tags" (isList_list _)

/-! ## Components -/

/-- An edit of usable components keeps a document usable. -/
private theorem withinComponents_applies {e : Edit Unit}
    (he : Edit.Applies (Each ComponentUsable) e) :
    Edit.Applies Usable (withinComponents e) := by
  refine Edit.Applies.withinMap (fun ms hms => ?_) (fun ms inner hms hinner => ?_) he
  · exact hms "components"
  · exact Each.put hms "components" ⟨inner, orElse_object inner, hinner⟩

/-- An edit that puts a map of schemas keeps components usable. -/
private theorem schemas_applies {e : Edit Unit} (hputs : Edit.PutsObject "schemas" e)
    (hsucceeds : ∀ ms, IsMap (Members.valueAt "schemas" ms) → Succeeds (e ms)) :
    Edit.Applies (Each ComponentUsable) e where
  succeeds ms hms := hsucceeds ms (hms "schemas")
  keeps ms ms' hms h := by
    obtain ⟨inner, rfl⟩ := hputs ms ms' h
    exact Each.put hms "schemas" (isMap_object inner)

theorem editSchemas_applies (copy : Value → Value) {e : SchemaEdit Unit}
    (he : ∀ name schema, e ≠ .update name schema) :
    Edit.Applies Usable (editSchemas copy e) := by
  cases e with
  | add =>
      exact withinComponents_applies (schemas_applies (Edit.putsObject_addEntry _ _ _)
        fun _ => Edit.addEntry_succeeds)
  | update name schema => exact absurd rfl (he name schema)
  | remove name =>
      exact withinComponents_applies
          (schemas_applies (Edit.putsObject_removeEntry _ _) fun _ =>
        Edit.removeEntry_succeeds)
  | rename oldName newName =>
      exact withinComponents_applies
          (schemas_applies (Edit.putsObject_renameEntry _ _ _) fun _ h =>
        Edit.renameEntry_succeeds h)
  | duplicate name =>
      exact withinComponents_applies
          (schemas_applies (Edit.putsObject_duplicateEntry _ _ _ _) fun _ h =>
        Edit.duplicateEntry_succeeds h)

/-! ### Security schemes -/

/-- The security schemes of usable components. -/
private theorem schemes_of_usable {components : Members}
    (h : Each ComponentUsable components) :
    IsMapOf (fun v => ∃ scheme, v = .object scheme ∧ SchemeUsable scheme)
      (Members.valueAt "securitySchemes" components) :=
  h "securitySchemes"

/-- An edit of a usable scheme keeps a document usable. -/
private theorem withinScheme_applies (name : String) {e : Edit Unit}
    (he : Edit.Applies SchemeUsable e) :
    Edit.Applies Usable (withinScheme name e) := by
  refine withinComponents_applies (Edit.Applies.withinMap (Q :=
    Members.All (Addressed fun v => ∃ scheme, v = .object scheme ∧ SchemeUsable scheme))
    (fun ms hms => schemes_of_usable hms) (fun ms inner hms hinner => ?_) ?_)
  · exact Each.put hms "securitySchemes" (isMapOf_object hinner)
  · refine Edit.Applies.within (fun ms inner hms hinner => ?_)
      (fun ms inner hms hinner => ?_) he
    · obtain ⟨scheme, heq, hscheme⟩ := value_of_addressed hms rfl hinner
      rwa [(Tree.marked.inj heq).2]
    · exact all_put hms ⟨inner, rfl, hinner⟩

private theorem schemeUsable_of_no_flows {scheme : Members}
    (h : Members.mapAt "flows" scheme = .emptyObject) :
    SchemeUsable scheme :=
  ⟨[], h, fun flow ms hms => by simp at hms, by simp⟩

/-- The templates of schemes have no flows. -/
private theorem schemeUsable_template (type : SchemeType) (description : Value) :
    ∃ scheme, Template.securitySchemeOfType type.name description = .object scheme ∧
      SchemeUsable scheme := by
  refine ⟨_, rfl, schemeUsable_of_no_flows ?_⟩
  generalize hscheme : List.map _ _ = scheme
  have hflows : ∀ v, Members.get? "flows" scheme = some v → v = .emptyObject := by
    intro v hv
    rw [← hscheme] at hv
    obtain ⟨field, hfield, heq⟩ := List.mem_map.mp (Members.mem_of_get?_str hv)
    obtain ⟨hname, rfl⟩ := Prod.mk.inj heq
    obtain ⟨name, v⟩ := field
    obtain rfl := Scalar.str.inj hname
    cases type with
    | oauth2 =>
        rcases List.mem_append.mp hfield with hfield | hfield
        · split at hfield <;> simp at hfield
        · simpa [Template.securitySchemeFields, SchemeType.name] using hfield
    | _ =>
        rcases List.mem_append.mp hfield with hfield | hfield
        · split at hfield <;> simp at hfield
        · simp [Template.securitySchemeFields, SchemeType.name] at hfield
  rw [Members.mapAt, Members.valueAt]
  cases hget : Members.get? "flows" scheme with
  | none => rfl
  | some v =>
      rw [hflows v hget]
      rfl

private theorem changeSchemeType_applies (type : SchemeType) :
    Edit.Applies SchemeUsable (changeSchemeType type) := by
  obtain hnew := schemeUsable_template type
  refine ⟨fun scheme _ => ?_, fun scheme scheme' hscheme h => ?_⟩
  · unfold changeSchemeType
    split
    · exact succeeds_ok _
    · exact succeeds_ok _
  · unfold changeSchemeType at h
    split at h
    · exact (Edit.nothing_ne_some.mp h).elim
    · obtain ⟨made, hmade, husable⟩ := hnew (Members.valueAt "description" scheme)
      rw [hmade] at h
      obtain rfl := Edit.changed_eq_some.mp h
      exact husable

/-- The scopes of a flow are listed when they are a map. -/
private theorem listsScopes_of_isMap {ms : Members}
    (h : IsMap (Members.valueAt "scopes" ms)) :
    ListsScopes (.object ms) := by
  obtain ⟨scopes, hscopes⟩ := h
  exact ⟨ms,
    membersOrNone_object ms, by rw [Members.mapAt, hscopes]; exact succeeds_ok _⟩

/-- Putting a flow with a map of scopes keeps flows usable. -/
private theorem FlowsUsable.put {scheme flows : Members} (h : FlowsUsable scheme flows)
    (flow : Flow) {ms : Members} (hms : IsMap (Members.valueAt "scopes" ms)) :
    FlowsUsable scheme (Members.put flow.name (.object ms) flows) where
  scopes flow' ms' hget := by
    rw [Members.get?_put] at hget
    split at hget
    · rwa [← (Tree.marked.inj (Option.some.inj hget)).2]
    · exact h.scopes flow' ms' hget
  listed htype e he := by
    rcases Members.mem_put_str he with he | rfl
    · exact h.listed htype e he
    · exact listsScopes_of_isMap hms

private theorem FlowsUsable.erase {scheme flows : Members}
    (h : FlowsUsable scheme flows) (flow : Flow) :
    FlowsUsable scheme (Members.erase flow.name flows) where
  scopes flow' ms' hget := by
    rw [Members.get?_erase] at hget
    split at hget
    · simp at hget
    · exact h.scopes flow' ms' hget
  listed htype e he := h.listed htype e (Members.mem_erase he)

/-- Flows are put into their scheme. -/
private theorem FlowsUsable.schemeUsable {scheme flows : Members}
    (h : FlowsUsable scheme flows) :
    SchemeUsable (Members.put "flows" (.object flows) scheme) := by
  refine ⟨flows, ?_, h.scopes, ?_⟩
  · rw [Members.mapAt, Members.valueAt, Members.get?_put, if_pos rfl]
    exact orElse_object flows
  · rw [Members.valueAt, Members.get?_put, if_neg (by decide)]
    exact h.listed

private theorem toggleFlow_applies (flow : Flow) (enabled : Bool) :
    Edit.Applies SchemeUsable (toggleFlow flow enabled) := by
  have hread : ∀ scheme flows, Members.mapAt "flows" scheme = Value.object flows →
      toggleFlow flow enabled scheme = if Members.contains flow.name flows ==
        enabled then Edit.nothing else Edit.changed
        (Members.put "flows" (.object (if enabled then Members.put flow.name
        Template.oauthFlow flows else Members.erase flow.name flows)) scheme) := by
    intro scheme flows hflows
    rw [toggleFlow, hflows]
    rfl
  refine ⟨fun scheme hscheme => ?_, fun scheme scheme' hscheme h => ?_⟩
  · obtain ⟨flows, hflows, -⟩ := hscheme
    rw [hread scheme flows hflows]
    split <;> exact succeeds_ok _
  · obtain ⟨flows, hflows, husable⟩ := hscheme
    rw [hread scheme flows hflows] at h
    split at h
    · exact (Edit.nothing_ne_some.mp h).elim
    · obtain rfl := Edit.changed_eq_some.mp h
      split
      · have hscopes :
            IsMap (Members.valueAt "scopes" [(.str "scopes", .emptyObject)]) :=
          isMap_object []
        exact (husable.put flow hscopes).schemeUsable
      · exact (husable.erase flow).schemeUsable

/-- An edit of the scopes of a flow keeps the scheme usable. -/
private theorem withinFlow_applies (name : String)
    (flow : Flow) {e : Edit Unit} (hputs : Edit.PutsObject "scopes" e)
    (hsucceeds : ∀ ms, IsMap (Members.valueAt "scopes" ms) → Succeeds (e ms)) :
    Edit.Applies Usable (withinFlow name flow e) := by
  refine withinScheme_applies name
    ⟨fun scheme hscheme => ?_, fun scheme scheme' hscheme h => ?_⟩
  · obtain ⟨flows, hflows, husable⟩ := hscheme
    have hwithin : Succeeds (Edit.within flow.name e flows) := by
      unfold Edit.within
      split
      · rename_i mark ms hget
        obtain ⟨result, hresult⟩ := hsucceeds ms (husable.scopes flow ms hget)
        rw [succeeds_bind]
        refine ⟨result, hresult, ?_⟩
        cases result <;> exact succeeds_ok _
      · exact succeeds_ok none
    obtain ⟨result, hresult⟩ := hwithin
    rw [Edit.withinMap, hflows]
    refine succeeds_bind.mpr ⟨flows, rfl, succeeds_bind.mpr ⟨result, hresult, ?_⟩⟩
    cases result <;> exact succeeds_ok _
  · obtain ⟨flows, hflows, husable⟩ := hscheme
    obtain ⟨flows₀, flows', hread, hedit, rfl⟩ := Edit.withinMap_spec h
    rw [hflows] at hread
    obtain rfl := Except.ok.inj hread
    obtain ⟨ms, ms', hget, hinner, rfl⟩ := Edit.within_spec hedit
    obtain ⟨scopes, rfl⟩ := hputs ms ms' hinner
    refine (husable.put flow ?_).schemeUsable
    rw [Members.valueAt, Members.get?_put, if_pos rfl]
    exact isMap_object scopes

private theorem putsObject_renameScope (oldScope newScope : String)
    (description : Option String) :
    Edit.PutsObject "scopes" (renameScope oldScope newScope description) := by
  intro ms ms' h
  obtain ⟨present, -, h⟩ := bind_eq_ok.mp h
  split at h
  · obtain ⟨scopes, -, h⟩ := bind_eq_ok.mp h
    obtain ⟨scopes', -, h⟩ := bind_eq_ok.mp h
    exact ⟨_, (Edit.changed_eq_some.mp h).symm⟩
  · exact (Edit.nothing_ne_some.mp h).elim

private theorem renameScope_succeeds {oldScope newScope : String}
    {description : Option String}
    {ms : Members} (h : IsMap (Members.valueAt "scopes" ms)) :
    Succeeds (renameScope oldScope newScope description ms) := by
  obtain ⟨scopes, hscopes⟩ := h
  rw [renameScope, Members.mapAt, hscopes]
  refine succeeds_bind.mpr ⟨Members.contains oldScope scopes, rfl, ?_⟩
  split
  · obtain ⟨scopes', hscopes'⟩ := Edit.renamed_succeeds newScope ‹_›
    exact succeeds_bind.mpr ⟨scopes, rfl,
      succeeds_bind.mpr ⟨scopes', hscopes', succeeds_ok _⟩⟩
  · exact succeeds_ok _

/-! ### Requirements -/

private theorem components_of_document {ms : Members} (hms : Usable ms) :
    ∃ components, Members.mapAt "components" ms = .object components ∧
      Each ComponentUsable components :=
  hms "components"

/-- The security schemes of a usable document. -/
private theorem schemes_of_document {ms : Members} (hms : Usable ms) :
    ∃ schemes, schemesOf ms = .ok (.object schemes) ∧
      Members.All (Addressed fun v => ∃ scheme, v = .object scheme ∧
        SchemeUsable scheme) schemes := by
  obtain ⟨components, hcomponents, heach⟩ := components_of_document hms
  obtain ⟨schemes, hschemes, hall⟩ := schemes_of_usable heach
  refine ⟨schemes, ?_, hall⟩
  rw [schemesOf, hcomponents, Tree.members, pure_eq_ok, ok_bind, Members.mapAt,
    hschemes, pure_eq_ok]

private theorem requirements_of_document {ms : Members} (hms : Usable ms) :
    ∃ security, Members.listAt "security" ms = .ok security ∧ ∀ x ∈ security,
      x.isObject = true :=
  hms "security"

private theorem holds_succeeds {v : Value} (h : v.isObject = true) (name : String) :
    Succeeds (v.holds name) := by
  cases v with
  | marked mark ms => exact succeeds_ok _
  | _ => simp [Tree.isObject] at h

/-- The requirements that do not name a scheme. -/
private theorem released_succeeds {security : List Value}
    (h : ∀ x ∈ security, x.isObject = true) (name : String) :
    ∃ kept, security.filterM
      (fun requirement : Value => do pure !(← requirement.holds name)) = .ok kept ∧
      ∀ x ∈ kept, x.isObject = true := by
  have hreleased : Succeeds (security.filterM
      fun requirement : Value => do pure !(← requirement.holds name)) :=
    filterM_succeeds fun x hx => by
      obtain ⟨b, hb⟩ := holds_succeeds (h x hx) name
      exact succeeds_bind.mpr ⟨b, hb, succeeds_ok _⟩
  obtain ⟨kept, hkept⟩ := hreleased
  exact ⟨kept, hkept, fun x hx => h x (mem_filterM hkept hx).1⟩

/-- Putting requirements and schemes keeps a document usable. -/
private theorem putSecurity_usable {ms : Members} (hms : Usable ms)
    {security : List Value} (h : ∀ x ∈ security, x.isObject = true) :
    Usable (putList "security" security ms) :=
  Each.put hms "security" (isListOf_list h)

private theorem putSchemes_usable {ms schemes : Members} (hms : Usable ms)
    (h : Members.All (Addressed fun v => ∃ scheme, v = .object scheme ∧
      SchemeUsable scheme) schemes) :
    ∃ ms', putSchemes schemes ms = .ok ms' ∧ Usable ms' := by
  obtain ⟨components, hcomponents, heach⟩ := components_of_document hms
  refine ⟨_, by rw [putSchemes, hcomponents]; rfl, ?_⟩
  exact Each.put hms "components"
    ⟨_, orElse_object _, heach.put "securitySchemes" (isMapOf_object h)⟩

private theorem removeScheme_applies (name : String) :
    Edit.Applies Usable (removeScheme name) := by
  refine Edit.Applies.of_result fun ms hms => ?_
  obtain ⟨schemes, hschemesOf, hall⟩ := schemes_of_document hms
  obtain ⟨security, hsecurity, hobjects⟩ := requirements_of_document hms
  obtain ⟨kept, hkept, hkeptObjects⟩ := released_succeeds hobjects name
  obtain ⟨ms', hput, hms'⟩ := putSchemes_usable (putSecurity_usable hms hkeptObjects)
    (hall.erase name)
  refine ⟨some ms', ?_, ?_⟩
  · rw [removeScheme, hschemesOf, ok_bind, Tree.members, pure_eq_ok, ok_bind, hsecurity,
      ok_bind, hkept, ok_bind, hput]
    rfl
  · intro ms₁ heq
    exact Option.some.inj heq ▸ hms'

/-- A scheme is renamed in a requirement. -/
private theorem renameInRequirement_succeeds {v : Value} (h : v.isObject = true)
    (oldName newName : String) :
    ∃ w, renameInRequirement oldName newName v = .ok w ∧ w.isObject = true := by
  cases v with
  | marked mark ms =>
      by_cases hcontains : Members.contains (.str oldName) ms = true
      · obtain ⟨ms', hms'⟩ := Edit.renamed_succeeds newName hcontains
        refine ⟨.object ms', ?_, rfl⟩
        simp [renameInRequirement, Tree.holds, hcontains, Tree.members, hms']
      · exact ⟨.object ms, by simp [renameInRequirement, Tree.holds, hcontains], rfl⟩
  | _ => simp [Tree.isObject] at h

private theorem renameScheme_applies (oldName newName : String) :
    Edit.Applies Usable (renameScheme oldName newName) := by
  refine Edit.Applies.of_result fun ms hms => ?_
  obtain ⟨schemes, hschemesOf, hall⟩ := schemes_of_document hms
  obtain ⟨security, hsecurity, hobjects⟩ := requirements_of_document hms
  rw [renameScheme, hschemesOf, ok_bind]
  split
  · exact ⟨none, rfl, by simp⟩
  · have hholds : (Value.object schemes).holds oldName =
        .ok (Members.contains oldName schemes) := rfl
    rw [hholds, ok_bind]
    split
    · have hrenamed : ∀ x ∈ security,
          Succeeds (renameInRequirement oldName newName x) := fun x hx => by
        obtain ⟨w, hw, -⟩ :=
          renameInRequirement_succeeds (hobjects x hx) oldName newName
        exact ⟨w, hw⟩
      obtain ⟨security', hsecurity'⟩ := mapM_succeeds_iff.mpr hrenamed
      obtain ⟨schemes', hschemes'⟩ := Edit.renamed_succeeds newName ‹_›
      have hobjects' : ∀ x ∈ security', x.isObject = true := by
        intro y hy
        obtain ⟨x, hx, hxy⟩ := exists_of_mem_mapM hsecurity' hy
        obtain ⟨w, hw, hobject⟩ :=
          renameInRequirement_succeeds (hobjects x hx) oldName newName
        obtain rfl : w = y := Except.ok.inj (hw.symm.trans hxy)
        exact hobject
      obtain ⟨ms', hput, hms'⟩ := putSchemes_usable (putSecurity_usable hms hobjects')
        (all_rename? hall (renamed_eq_ok.mp hschemes'))
      refine ⟨some ms', ?_, ?_⟩
      · rw [hsecurity, ok_bind, hsecurity', ok_bind, Tree.members, pure_eq_ok, ok_bind,
          hschemes', ok_bind, hput]
        rfl
      · intro ms₁ heq
        exact Option.some.inj heq ▸ hms'
    · exact ⟨none, rfl, by simp⟩

/-- The scopes of flows that can be listed are gathered. -/
private theorem scopesOfFlows_succeeds
    {flows : List Value} (h : ∀ flow ∈ flows, ListsScopes flow) (scopes : List Value) :
    Succeeds (scopesOfFlows scopes flows) := by
  induction flows generalizing scopes with
  | nil => exact succeeds_ok scopes
  | cons flow rest ih =>
      obtain ⟨ms, hms, found, hfound⟩ := h flow (by simp)
      rw [scopesOfFlows, hms, ok_bind, hfound, ok_bind]
      exact ih (fun flow hflow => h flow (by simp [hflow])) _

/-- The scopes that a usable scheme asks for. -/
private theorem requiredScopes_succeeds {scheme : Members} (h : SchemeUsable scheme) :
    Succeeds (requiredScopes (.object scheme)) := by
  obtain ⟨flows, hflows, husable⟩ := h
  rw [requiredScopes, membersOrNone_object, ok_bind]
  split
  · rw [hflows, Tree.members, pure_eq_ok, ok_bind]
    refine scopesOfFlows_succeeds (fun flow hflow => ?_) []
    obtain ⟨e, he, rfl⟩ := List.mem_map.mp hflow
    exact husable.listed ‹_› e he
  · exact succeeds_ok []

private theorem requireScheme_applies (name : String) :
    Edit.Applies Usable (requireScheme name) := by
  refine Edit.Applies.of_result fun ms hms => ?_
  obtain ⟨schemes, hschemesOf, hall⟩ := schemes_of_document hms
  obtain ⟨security, hsecurity, hobjects⟩ := requirements_of_document hms
  obtain ⟨present, hpresent⟩ :
      Succeeds (security.anyM fun requirement : Value => requirement.holds name) :=
    anyM_succeeds fun x hx => holds_succeeds (hobjects x hx) name
  rw [requireScheme, hsecurity, ok_bind, hpresent, ok_bind]
  split
  · exact ⟨none, rfl, by simp⟩
  · obtain ⟨scopes, hscopes⟩ :
        Succeeds (requiredScopes ((Members.get? name schemes).getD .null)) := by
      cases hget : Members.get? (.str name) schemes with
      | none => exact succeeds_ok []
      | some v =>
          obtain ⟨scheme, rfl, hscheme⟩ := value_of_addressed hall rfl hget
          exact requiredScopes_succeeds hscheme
    refine ⟨some (putList "security" (security ++ [.record [(name, .list scopes)]]) ms),
      ?_, ?_⟩
    · rw [hschemesOf, ok_bind, Tree.member, Tree.members, pure_eq_ok, ok_bind,
        pure_eq_ok, ok_bind, hscopes, ok_bind]
      rfl
    · intro ms' heq
      obtain rfl := Option.some.inj heq
      refine putSecurity_usable hms fun x hx => ?_
      rcases List.mem_append.mp hx with hx | hx
      · exact hobjects x hx
      · rw [List.mem_singleton.mp hx]
        rfl

private theorem releaseScheme_applies (name : String) :
    Edit.Applies Usable (releaseScheme name) := by
  refine Edit.Applies.of_result fun ms hms => ?_
  obtain ⟨security, hsecurity, hobjects⟩ := requirements_of_document hms
  obtain ⟨kept, hkept, hkeptObjects⟩ := released_succeeds hobjects name
  refine ⟨some (putList "security" kept ms), ?_, ?_⟩
  · rw [releaseScheme, hsecurity, ok_bind, hkept, ok_bind]
    rfl
  · intro ms' heq
    exact Option.some.inj heq ▸ putSecurity_usable hms hkeptObjects

private theorem addSecurityScheme_applies :
    Edit.Applies (Each ComponentUsable)
      (.addEntry "securitySchemes" newSecurityScheme Template.securityScheme) where
  succeeds ms hms := Edit.addEntry_succeeds (schemes_of_usable hms).isMap
  keeps ms ms' hms h := by
    obtain ⟨entries, fresh, hentries, rfl⟩ := Edit.addEntry_spec h
    obtain ⟨schemes, hschemes, hall⟩ := schemes_of_usable hms
    rw [Members.mapAt, hschemes] at hentries
    obtain rfl := Except.ok.inj hentries
    exact Each.put hms "securitySchemes"
      (isMapOf_object (all_put hall ⟨_, rfl, schemeUsable_of_no_flows rfl⟩))

theorem editSecurity_applies {e : SecurityEdit Unit}
    (he : ∀ name scheme, e ≠ .update name scheme) :
    Edit.Applies Usable (editSecurity e) := by
  cases e with
  | add => exact withinComponents_applies addSecurityScheme_applies
  | update name scheme => exact absurd rfl (he name scheme)
  | changeType name type =>
      exact withinScheme_applies name (changeSchemeType_applies type)
  | remove name => exact removeScheme_applies name
  | rename oldName newName => exact renameScheme_applies oldName newName
  | toggleFlow name flow enabled =>
      exact withinScheme_applies name (toggleFlow_applies flow enabled)
  | addScope name flow =>
      exact withinFlow_applies name flow (Edit.putsObject_addEntry _ _ _) fun _ h =>
        Edit.addEntry_succeeds h
  | renameScope name flow oldScope newScope description =>
      exact withinFlow_applies name flow (putsObject_renameScope _ _ _) fun _ h =>
        renameScope_succeeds h
  | removeScope name flow scope =>
      exact withinFlow_applies name flow (Edit.putsObject_removeEntry _ _) fun _ h =>
        Edit.removeEntry_succeeds h
  | toggleGlobal name enabled =>
      cases enabled with
      | true => exact requireScheme_applies name
      | false => exact releaseScheme_applies name

end ApiWorkbench.Editor
