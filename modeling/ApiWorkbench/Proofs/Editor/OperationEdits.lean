import ApiWorkbench.Proofs.Editor.Usable

/-!
# Edits of operations and paths

An operation is edited under its path and its method, and within it the content of its
request body, of its responses, and its callbacks. What an edit does in the content or
with the callbacks it can do with any members, so there it is enough that there are
members to be had.

## Main results

* `editPaths_applies`, `editOperation_applies`, `renameOperation_applies`: the edits
  that bring no members with them apply to usable documents.
-/

namespace ApiWorkbench.Editor

open Document Command

/-! ## Operations -/

/-- An edit that always has a result. -/
private def AlwaysSucceeds (e : Edit Unit) : Prop :=
  ∀ ms, Succeeds (e ms)

private theorem addMediaType_succeeds (mediaType : String) :
    AlwaysSucceeds (addMediaType mediaType) := by
  intro content
  unfold addMediaType
  split <;> exact succeeds_ok _

private theorem renameMediaType_succeeds (oldType newType : String) :
    AlwaysSucceeds (renameMediaType oldType newType) := by
  intro content
  unfold renameMediaType
  split
  · exact succeeds_ok _
  · have hcontains : Members.contains (.str oldType) content = true := by simp_all
    obtain ⟨renamed, hrenamed⟩ := Edit.renamed_succeeds newType hcontains
    exact succeeds_bind.mpr ⟨renamed, hrenamed, succeeds_ok _⟩

private theorem removeMediaType_succeeds (target : Target) (mediaType : String) :
    AlwaysSucceeds (removeMediaType target mediaType) := by
  intro content
  unfold removeMediaType
  split
  · dsimp only
    split <;> exact succeeds_ok _
  · exact succeeds_ok _

/-- A member that is not there is asked nothing. -/
private theorem contentUsable_erase {holder : Members} :
    ContentUsable (.object (Members.erase "content" holder)) := by
  intro ms heq
  obtain rfl := (Tree.marked.inj heq).2
  rw [Members.valueAt, Members.get?_erase, if_pos rfl]
  exact succeeds_ok []

private theorem contentUsable_put {holder content : Members} :
    ContentUsable (.object (Members.put "content" (.object content) holder)) := by
  intro ms heq
  obtain rfl := (Tree.marked.inj heq).2
  rw [Members.valueAt, Members.get?_put, if_pos rfl]
  exact makesMembers_object content

private theorem withinBody_applies {e : Edit Unit} (he : AlwaysSucceeds e) :
    Edit.Applies OperationUsable (withinBody e) := by
  refine Edit.Applies.within (Q := fun body => ContentUsable (.object body))
    (fun op body hop hbody => ?_) (fun op body hop hbody =>
    Each.put hop "requestBody" hbody) ⟨fun body hbody => ?_, fun body body' _ h => ?_⟩
  · have husable : ContentUsable (Members.valueAt "requestBody" op) := hop "requestBody"
    rwa [Members.valueAt, hbody] at husable
  · obtain ⟨content, hcontent⟩ := hbody body rfl
    obtain ⟨result, hresult⟩ := he content
    rw [Members.mapAt, hcontent, ok_bind, hresult, ok_bind]
    cases result <;> exact succeeds_ok _
  · obtain ⟨content, -, h⟩ := bind_eq_ok.mp h
    obtain ⟨result, -, h⟩ := bind_eq_ok.mp h
    split at h
    · obtain rfl := Edit.changed_eq_some.mp h
      exact contentUsable_put
    · exact (Edit.nothing_ne_some.mp h).elim

/-- The responses of a usable operation. -/
private theorem responses_of_usable {op : Members} (hop : OperationUsable op) :
    ∃ responses, Members.mapAt "responses" op = .object responses ∧
      Members.All (Addressed ContentUsable) responses :=
  hop "responses"

private theorem withinResponse_applies (statusCode : Option String) {e : Edit Unit}
    (he : AlwaysSucceeds e) :
    Edit.Applies OperationUsable (withinResponse statusCode e) := by
  refine Edit.Applies.withinMap (Q := Members.All (Addressed ContentUsable))
    (fun op hop => responses_of_usable hop)
    (fun op responses hop h => Each.put hop "responses" (isMapOf_object h)) ?_
  refine Edit.Applies.within (Q := fun response => ContentUsable (.object response))
    (fun responses response hall h => ?_) (fun responses response hall h =>
      all_put hall h)
    ⟨fun response h => ?_, fun response response' _ h => ?_⟩
  · refine value_of_addressed hall ?_ h
    cases statusCode <;> rfl
  · obtain ⟨content, hcontent⟩ := h response rfl
    obtain ⟨result, hresult⟩ := he content
    rw [Members.mapAt, hcontent, ok_bind, hresult, ok_bind]
    cases result <;> exact succeeds_ok _
  · obtain ⟨content, -, h⟩ := bind_eq_ok.mp h
    obtain ⟨result, -, h⟩ := bind_eq_ok.mp h
    split at h
    · obtain rfl := Edit.changed_eq_some.mp h
      unfold putUnlessEmpty
      split
      · exact contentUsable_erase
      · exact contentUsable_put
    · exact (Edit.nothing_ne_some.mp h).elim

private theorem withinContent_applies (place : ContentPlace) {e : Edit Unit}
    (he : AlwaysSucceeds e) :
    Edit.Applies OperationUsable (withinContent place e) := by
  unfold withinContent
  cases place.target with
  | requestBody => exact withinBody_applies he
  | response => exact withinResponse_applies place.statusCode he

/-- The templates of responses have no content. -/
private theorem contentUsable_response : ContentUsable Template.response := by
  intro holder heq
  obtain rfl := (Tree.marked.inj heq).2
  exact succeeds_ok []

private theorem contentUsable_fallback : ContentUsable Template.fallbackResponse := by
  intro holder heq
  obtain rfl := (Tree.marked.inj heq).2
  exact succeeds_ok []

private theorem addResponse_applies (statusCode : String) :
    Edit.Applies OperationUsable (addResponse statusCode) := by
  refine Edit.Applies.of_result fun op hop => ?_
  obtain ⟨responses, hresponses, hall⟩ := responses_of_usable hop
  have hholds : (Value.object responses).holds statusCode =
      .ok (Members.contains statusCode responses) := rfl
  rw [addResponse, hresponses, hholds, ok_bind]
  split
  · exact ⟨none, rfl, by simp⟩
  · refine ⟨_, rfl, ?_⟩
    intro op' heq
    obtain rfl := Option.some.inj heq
    exact Each.put hop "responses"
      (isMapOf_object (all_put hall contentUsable_response))

private theorem removeResponse_applies (statusCode : String) :
    Edit.Applies OperationUsable (removeResponse statusCode) := by
  refine Edit.Applies.of_result fun op hop => ?_
  obtain ⟨responses, hresponses, hall⟩ := responses_of_usable hop
  refine ⟨_, by rw [removeResponse, hresponses]; rfl, ?_⟩
  intro op' heq
  obtain rfl := Option.some.inj heq
  refine Each.put hop "responses" (isMapOf_object ?_)
  split
  · intro e he
    rw [List.mem_singleton.mp he]
    exact fun _ => contentUsable_fallback
  · exact hall.erase _

private theorem renameResponse_applies (oldStatus newStatus : String) :
    Edit.Applies OperationUsable (.renameEntry "responses" oldStatus newStatus) where
  succeeds op hop :=
    Edit.renameEntry_succeeds ((responses_of_usable hop).imp fun _ h => h.1)
  keeps op op' hop h := by
    obtain ⟨entries, entries', hentries, hrename, rfl⟩ := Edit.renameEntry_spec h
    obtain ⟨responses, hresponses, hall⟩ := responses_of_usable hop
    rw [hresponses] at hentries
    obtain rfl := Except.ok.inj hentries
    exact Each.put hop "responses" (isMapOf_object (all_rename? hall hrename))

/-- An edit of callbacks that always has a result keeps an operation usable. -/
private theorem withinCallbacks_applies {e : Edit Unit} (he : AlwaysSucceeds e) :
    Edit.Applies OperationUsable (withinCallbacks e) := by
  refine Edit.Applies.of_result fun op hop => ?_
  obtain ⟨callbacks, hcallbacks⟩ : Succeeds (Members.mapAt "callbacks" op).toMembers :=
    hop "callbacks"
  obtain ⟨result, hresult⟩ := he callbacks
  rw [withinCallbacks, hcallbacks, ok_bind, hresult, ok_bind]
  cases result with
  | none => exact ⟨none, rfl, by simp⟩
  | some edited =>
      refine ⟨_, rfl, ?_⟩
      intro op' heq
      obtain rfl := Option.some.inj heq
      unfold putUnlessEmpty
      split
      · exact Each.erase hop "callbacks" (operationMemberUsable_null _)
      · exact Each.put hop "callbacks" (makesMembers_object edited)

private theorem renameCallback_succeeds (oldName newName : String) :
    AlwaysSucceeds (renameCallback oldName newName) := by
  intro callbacks
  unfold renameCallback
  split
  · exact succeeds_ok _
  · have hcontains : Members.contains (.str oldName) callbacks = true := by simp_all
    obtain ⟨renamed, hrenamed⟩ := Edit.renamed_succeeds newName hcontains
    exact succeeds_bind.mpr ⟨renamed, hrenamed, succeeds_ok _⟩

private theorem removeCallback_succeeds (name : String) :
    AlwaysSucceeds (removeCallback name) := by
  intro callbacks
  unfold removeCallback
  split <;> exact succeeds_ok _

private theorem duplicateCallback_succeeds (copy : Value → Value) (name : String) :
    AlwaysSucceeds (duplicateCallback copy name) := by
  intro callbacks
  unfold duplicateCallback
  split <;> exact succeeds_ok _

/-- A list among the members of an operation, with an item more or less. -/
private theorem parameters_applies {e : Edit Unit}
    (hsucceeds : ∀ op, IsList (Members.valueAt "parameters" op) → Succeeds (e op))
    (hputs : ∀ op op', e op = .ok (some op') →
      ∃ items, op' = Members.put "parameters" (.list items) op) :
    Edit.Applies OperationUsable e where
  succeeds op hop := hsucceeds op (hop "parameters")
  keeps op op' hop h := by
    obtain ⟨items, rfl⟩ := hputs op op' h
    exact Each.put hop "parameters" (isList_list items)

/-- What carries members of the user's choice into an operation. -/
def OperationEdit.bringsMembers : OperationEdit Unit → Bool
  | .update _ => true
  | .updateParameter _ _ => true
  | .updateResponse _ _ => true
  | .updateRequestBody _ => true
  | _ => false

theorem editWithinOperation_applies (copy : Value → Value) {e : OperationEdit Unit}
    (he : OperationEdit.bringsMembers e = false) :
    Edit.Applies OperationUsable (editWithinOperation copy e) := by
  cases e with
  | add => exact Edit.Applies.of_result fun op hop => ⟨none, rfl, by simp⟩
  | remove => exact Edit.Applies.of_result fun op hop => ⟨none, rfl, by simp⟩
  | update changes => simp [OperationEdit.bringsMembers] at he
  | addParameter =>
      refine parameters_applies (fun _ h => Edit.append_succeeds h) fun op op' h => ?_
      obtain ⟨items, -, rfl⟩ := Edit.append_spec h
      exact ⟨_, rfl⟩
  | updateParameter index parameter => simp [OperationEdit.bringsMembers] at he
  | removeParameter index =>
      refine parameters_applies (fun _ h => Edit.removeItem_succeeds h) fun op op' h =>
        ?_
      obtain ⟨items, -, rfl⟩ := Edit.removeItem_spec h
      exact ⟨_, rfl⟩
  | addResponse statusCode => exact addResponse_applies statusCode
  | updateResponse statusCode response => simp [OperationEdit.bringsMembers] at he
  | removeResponse statusCode => exact removeResponse_applies statusCode
  | renameResponse oldStatus newStatus =>
      exact renameResponse_applies oldStatus newStatus
  | addRequestBody =>
      refine Edit.Applies.of_result fun op hop => ⟨_, rfl, ?_⟩
      intro op' heq
      obtain rfl := Option.some.inj heq
      refine Each.put hop "requestBody" ?_
      intro body hbody
      obtain rfl := (Tree.marked.inj hbody).2
      exact makesMembers_object _
  | updateRequestBody body => simp [OperationEdit.bringsMembers] at he
  | removeRequestBody =>
      refine Edit.Applies.of_result fun op hop => ?_
      dsimp only [editWithinOperation]
      split
      · refine ⟨_, rfl, ?_⟩
        intro op' heq
        obtain rfl := Option.some.inj heq
        exact Each.erase hop "requestBody" (operationMemberUsable_null _)
      · exact ⟨none, rfl, by simp⟩
  | addMediaType place mediaType =>
      exact withinContent_applies place (addMediaType_succeeds mediaType)
  | renameMediaType place oldType newType =>
      exact withinContent_applies place (renameMediaType_succeeds oldType newType)
  | removeMediaType place mediaType =>
      exact withinContent_applies place (removeMediaType_succeeds _ mediaType)
  | addCallback => exact withinCallbacks_applies fun callbacks => succeeds_ok _
  | renameCallback oldName newName =>
      exact withinCallbacks_applies (renameCallback_succeeds oldName newName)
  | removeCallback name => exact withinCallbacks_applies (removeCallback_succeeds name)
  | duplicateCallback name =>
      exact withinCallbacks_applies (duplicateCallback_succeeds copy name)

/-! ## Path items and paths -/

private theorem respectsNames_itemMemberUsable :
    Members.RespectsNames ItemMemberUsable := by
  intro k k' v hsame h hmethod
  obtain ⟨method, rfl⟩ := isMethod_iff.mp hmethod
  obtain rfl := Scalar.str_same_iff.mp hsame
  exact h hmethod

/-- The template of an operation is usable. -/
private theorem operationUsable_template :
    ∀ op, Template.operation = Value.object op → OperationUsable op := by
  intro op heq
  obtain rfl := (Tree.marked.inj heq).2
  intro name
  unfold OperationMemberUsable
  split
  · exact isList_list []
  · refine isMapOf_object fun e he => ?_
    rw [List.mem_singleton.mp he]
    intro _ holder hholder
    obtain rfl := (Tree.marked.inj hholder).2
    exact succeeds_ok []
  · intro holder hholder
    simp [Members.valueAt, Members.get?_cons] at hholder
  · exact succeeds_ok []
  · trivial

private theorem addOperation_applies (method : Method) :
    Edit.Applies ItemUsable (addOperation method) := by
  refine Edit.Applies.of_result fun item hitem => ?_
  unfold addOperation
  split
  · exact ⟨none, rfl, by simp⟩
  · refine ⟨_, rfl, ?_⟩
    intro item' heq
    obtain rfl := Option.some.inj heq
    exact hitem.put fun _ => operationUsable_template

private theorem removeOperation_applies (method : Method) :
    Edit.Applies ItemUsable (removeOperation method) := by
  refine Edit.Applies.of_result fun item hitem => ?_
  unfold removeOperation
  split
  · refine ⟨_, rfl, ?_⟩
    intro item' heq
    obtain rfl := Option.some.inj heq
    exact hitem.erase _
  · exact ⟨none, rfl, by simp⟩

theorem renameOperation_applies (oldMethod newMethod : Method) :
    Edit.Applies ItemUsable (renameOperation oldMethod newMethod) := by
  refine Edit.Applies.of_result fun item hitem => ?_
  have hmember : ∀ {method : Method} {v : Value},
      Members.get? method.name item = some v →
      ∀ op, v = .object op → OperationUsable op := fun {method} _ hv =>
        hitem.of_get? hv (isMethod_name method)
  unfold renameOperation
  split
  · exact ⟨none, rfl, by simp⟩
  · rename_i v w hv hw
    refine ⟨_, rfl, ?_⟩
    intro item' heq
    obtain rfl := Option.some.inj heq
    exact (hitem.put fun _ => hmember hw).put fun _ => hmember hv
  · rename_i v hv hnone
    have hcontains : Members.contains (.str oldMethod.name) item = true := by
      simp [Members.contains, hv]
    obtain ⟨renamed, hrenamed⟩ := Edit.renamed_succeeds newMethod.name hcontains
    refine ⟨some renamed, by rw [hrenamed]; rfl, ?_⟩
    intro item' heq
    obtain rfl := Option.some.inj heq
    exact hitem.rename? respectsNames_itemMemberUsable (renamed_eq_ok.mp hrenamed)
        fun v hv _ =>
      hv (isMethod_name oldMethod)

/-- An edit of an operation keeps its path item usable. -/
private theorem withinOperation_applies (method : Method) {e : Edit Unit}
    (he : Edit.Applies OperationUsable e) :
    Edit.Applies ItemUsable (Edit.within method.name e) := by
  refine Edit.Applies.within (fun item op hitem hop => ?_)
    (fun item op hitem hop => ?_) he
  · exact hitem.of_get? hop (isMethod_name method) op rfl
  · refine hitem.put fun _ op' heq => ?_
    rwa [(Tree.marked.inj heq).2] at hop

/-- The paths of a usable document. -/
private theorem paths_of_usable {ms : Members} (hms : Usable ms) :
    ∃ paths, Members.mapAt "paths" ms = .object paths ∧
      Members.All (Addressed PathUsable) paths :=
  hms "paths"

private theorem putPaths_usable {ms paths : Members} (hms : Usable ms)
    (hpaths : Members.All (Addressed PathUsable) paths) :
    Usable (Members.put "paths" (.object paths) ms) :=
  Each.put hms "paths" (isMapOf_object hpaths)

/-- An edit of a path item keeps the document usable. -/
theorem withinPath_applies (path : String) {e : Edit Unit}
    (he : Edit.Applies ItemUsable e) :
    Edit.Applies Usable (withinPath path e) := by
  refine Edit.Applies.withinMap (Q := Members.All (Addressed PathUsable)) (fun ms hms =>
    paths_of_usable hms) (fun ms paths hms hpaths => putPaths_usable hms hpaths) ?_
  refine Edit.Applies.within (fun paths item hpaths hitem => value_of_addressed hpaths
    rfl hitem item rfl) (fun paths item hpaths hitem => all_put hpaths ?_) he
  intro item' heq
  rwa [(Tree.marked.inj heq).2] at hitem

/-- Adding a path that is usable keeps a document usable. -/
private theorem addPath_applies {item : Members → Option Value}
    (hitem : ∀ paths v, Members.All (Addressed PathUsable) paths → item paths = some v →
      PathUsable v) :
    Edit.Applies Usable (addPath item) := by
  refine Edit.Applies.of_result fun ms hms => ?_
  obtain ⟨paths, hpaths, hall⟩ := paths_of_usable hms
  have hholds : (Value.object paths).holds newPath =
      .ok (Members.contains newPath paths) := rfl
  rw [addPath, hpaths, hholds, ok_bind]
  split
  · exact ⟨none, rfl, by simp⟩
  · rw [Tree.members, pure_eq_ok, ok_bind]
    cases hmade : item paths with
    | none => exact ⟨none, rfl, by simp⟩
    | some v =>
        refine ⟨_, rfl, ?_⟩
        intro ms' heq
        obtain rfl := Option.some.inj heq
        exact putPaths_usable hms (all_put hall (hitem paths v hall hmade))

private theorem duplicatePath_applies (path : String) :
    Edit.Applies Usable (duplicatePath id path) := by
  have hadd : Edit.Applies Usable (addPath fun ms => (Members.get? path ms).map id) :=
    addPath_applies fun paths v hall hv => by
      rw [Option.map_id_fun, id] at hv
      exact value_of_addressed hall rfl hv
  refine Edit.Applies.of_result fun ms hms => ?_
  obtain ⟨paths, hpaths, -⟩ := paths_of_usable hms
  have hholds : ∀ name : String, (Value.object paths).holds name =
      .ok (Members.contains name paths) := fun _ => rfl
  rw [duplicatePath, hpaths, hholds, ok_bind]
  split
  · exact ⟨none, rfl, by simp⟩
  · rw [hholds, ok_bind]
    split
    · obtain ⟨result, hresult⟩ := hadd.succeeds ms hms
      exact ⟨result, hresult, fun ms' heq => hadd.keeps ms ms' hms (heq ▸ hresult)⟩
    · exact ⟨none, rfl, by simp⟩

theorem editPaths_applies {e : PathEdit Unit}
    (he : ∀ path item, e ≠ .update path item) :
    Edit.Applies Usable (editPaths id e) := by
  cases e with
  | add =>
      show Edit.Applies Usable (addPath fun _ => some .emptyObject)
      refine addPath_applies fun paths v _ hv => ?_
      obtain rfl := Option.some.inj hv
      intro item heq
      obtain rfl := (Tree.marked.inj heq).2
      exact fun e he => by simp at he
  | rename oldPath newPath =>
      refine ⟨fun ms hms => Edit.renameEntry_succeeds
        ((paths_of_usable hms).imp fun _ h => h.1), fun ms ms' hms h => ?_⟩
      obtain ⟨entries, entries', hentries, hrename, rfl⟩ := Edit.renameEntry_spec h
      obtain ⟨paths, hpaths, hall⟩ := paths_of_usable hms
      rw [hpaths] at hentries
      obtain rfl := Except.ok.inj hentries
      exact putPaths_usable hms (all_rename? hall hrename)
  | update path item => exact absurd rfl (he path item)
  | remove path =>
      refine ⟨fun ms hms => Edit.removeEntry_succeeds
        ((paths_of_usable hms).imp fun _ h => h.1), fun ms ms' hms h => ?_⟩
      obtain ⟨entries, hentries, rfl⟩ := Edit.removeEntry_spec h
      obtain ⟨paths, hpaths, hall⟩ := paths_of_usable hms
      rw [hpaths] at hentries
      obtain rfl := Except.ok.inj hentries
      exact putPaths_usable hms (hall.erase path)
  | duplicate path => exact duplicatePath_applies path
  | removeAll =>
      refine Edit.Applies.of_result fun ms hms => ⟨_, rfl, ?_⟩
      intro ms' heq
      obtain rfl := Option.some.inj heq
      exact putPaths_usable hms fun e he => by simp at he

theorem editOperation_applies (path : String) (method : Method) {e : OperationEdit Unit}
    (he : OperationEdit.bringsMembers e = false) :
    Edit.Applies Usable (editOperation id path method e) := by
  unfold editOperation
  split
  · exact withinPath_applies path (addOperation_applies method)
  · exact withinPath_applies path (removeOperation_applies method)
  · exact withinPath_applies path
      (withinOperation_applies method (editWithinOperation_applies id he))

end ApiWorkbench.Editor
