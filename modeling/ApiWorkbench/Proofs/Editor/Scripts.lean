import ApiWorkbench.Proofs.Document.Sharing
import ApiWorkbench.Proofs.Editor.Canonical
import Mathlib.Data.List.InsertIdx

/-!
# Scripts whose objects stand in one place each

A script is run on documents with anchors. Where neither the document nor the commands
have any, no object stands in two places, and the script does what its commands do to
values: each edit carries marks along (`Edit.Matches`), and a document that comes in is
completed as a value is.

## Main results

* `applyWith_unanchored_iff`, `applyFrom_unanchored_iff`: a command, and a run of
  commands, without anchors.
* `Script.run_unanchored_iff`: a whole script.
* `canonical_throughout_run`: which commands keep documents canonical.
* `canonical_lost`: why that takes commands without anchors.
-/

namespace ApiWorkbench

open AnchoredValue Document

/-! ## Commands without anchors -/

namespace Command

/-- An edit of servers without anchors. -/
def ServerEdit.unanchored : ServerEdit Unit → ServerEdit (Option Anchor)
  | .add => .add
  | .update index server => .update index (ofMembers server)
  | .remove index => .remove index
  | .addVariable server name => .addVariable server name
  | .updateVariable server oldName newName definition =>
    .updateVariable server oldName newName (ofMembers definition)
  | .removeVariable server name => .removeVariable server name

/-- An edit of tags without anchors. -/
def TagEdit.unanchored : TagEdit Unit → TagEdit (Option Anchor)
  | .add => .add
  | .update index tag => .update index (ofMembers tag)
  | .remove index => .remove index

/-- An edit of paths without anchors. -/
def PathEdit.unanchored : PathEdit Unit → PathEdit (Option Anchor)
  | .add => .add
  | .rename oldPath newPath => .rename oldPath newPath
  | .update path item => .update path (ofMembers item)
  | .remove path => .remove path
  | .duplicate path => .duplicate path
  | .removeAll => .removeAll

/-- An edit of an operation without anchors. -/
def OperationEdit.unanchored : OperationEdit Unit → OperationEdit (Option Anchor)
  | .add => .add
  | .update changes => .update (ofMembers changes)
  | .remove => .remove
  | .addParameter => .addParameter
  | .updateParameter index parameter => .updateParameter index (ofMembers parameter)
  | .removeParameter index => .removeParameter index
  | .addResponse statusCode => .addResponse statusCode
  | .updateResponse statusCode response =>
      .updateResponse statusCode (ofMembers response)
  | .removeResponse statusCode => .removeResponse statusCode
  | .renameResponse oldStatus newStatus => .renameResponse oldStatus newStatus
  | .addRequestBody => .addRequestBody
  | .updateRequestBody body => .updateRequestBody (ofMembers body)
  | .removeRequestBody => .removeRequestBody
  | .addMediaType place mediaType => .addMediaType place mediaType
  | .renameMediaType place oldType newType => .renameMediaType place oldType newType
  | .removeMediaType place mediaType => .removeMediaType place mediaType
  | .addCallback => .addCallback
  | .renameCallback oldName newName => .renameCallback oldName newName
  | .removeCallback name => .removeCallback name
  | .duplicateCallback name => .duplicateCallback name

/-- An edit of security without anchors. -/
def SecurityEdit.unanchored : SecurityEdit Unit → SecurityEdit (Option Anchor)
  | .add => .add
  | .update name scheme => .update name (ofMembers scheme)
  | .changeType name type => .changeType name type
  | .remove name => .remove name
  | .rename oldName newName => .rename oldName newName
  | .toggleFlow name flow enabled => .toggleFlow name flow enabled
  | .addScope name flow => .addScope name flow
  | .renameScope name flow oldScope newScope description =>
      .renameScope name flow oldScope newScope description
  | .removeScope name flow scope => .removeScope name flow scope
  | .toggleGlobal name enabled => .toggleGlobal name enabled

/-- An edit of schemas without anchors. -/
def SchemaEdit.unanchored : SchemaEdit Unit → SchemaEdit (Option Anchor)
  | .add => .add
  | .update name schema => .update name (ofMembers schema)
  | .remove name => .remove name
  | .rename oldName newName => .rename oldName newName
  | .duplicate name => .duplicate name

/-- A command in which no object has an anchor. -/
def unanchored : Command Unit → Command (Option Anchor)
  | .setDocument document => .setDocument (ofMembers document)
  | .saveSnapshot => .saveSnapshot
  | .undo => .undo
  | .loadSample => .loadSample
  | .reset => .reset
  | .info changes => .info (ofMembers changes)
  | .externalDocs changes => .externalDocs (ofMembers changes)
  | .servers edit => .servers edit.unanchored
  | .tags edit => .tags edit.unanchored
  | .paths edit => .paths edit.unanchored
  | .operation path method edit => .operation path method edit.unanchored
  | .renameOperation path oldMethod newMethod =>
      .renameOperation path oldMethod newMethod
  | .security edit => .security edit.unanchored
  | .schemas edit => .schemas edit.unanchored

end Command

namespace Editor

open Command

/-! ## Edits that carry marks along -/

/-- An edit does to members without anchors what another one does to values. -/
def Edit.Matches (e : Edit (Option Anchor)) (e' : Edit Unit) : Prop :=
  ∀ ms, e (ofMembers ms) = Option.map ofMembers <$> e' ms

@[simp] theorem renamed_ofMembers (oldName newName : String) (ms : Members) :
    renamed oldName newName (ofMembers ms) =
      ofMembers <$> renamed oldName newName ms := by
  rw [renamed, renamed, rename?_ofMembers]
  cases Members.rename? oldName newName ms <;> rfl

@[simp] theorem length_map_ofValue (items : List Value) :
    (items.map ofValue).length = items.length :=
  List.length_map ofValue

@[simp] theorem position?_map_ofValue (index : Int) (items : List Value) :
    position? index (items.map ofValue) = position? index items := by
  rw [position?, position?, List.length_map]

@[simp] theorem withoutItem_map_ofValue (index : Int) (items : List Value) :
    withoutItem index (items.map ofValue) = (withoutItem index items).map ofValue := by
  rw [withoutItem, withoutItem, position?_map_ofValue]
  cases position? index items with
  | none => rfl
  | some i => exact List.eraseIdx_map ofValue items i

@[simp] theorem putList_ofMembers (name : String) (items : List Value) (ms : Members) :
    putList name (items.map ofValue) (ofMembers ms) =
      ofMembers (putList name items ms) := by
  rw [putList, ofValue_list, put_ofMembers, putList]

namespace Edit.Matches

variable {e : Edit (Option Anchor)} {e' : Edit Unit} (name : String)

theorem changed (ms : Members) :
    Edit.changed (ofMembers ms) = Option.map ofMembers <$> Edit.changed ms := rfl

theorem nothing :
    (Edit.nothing : Except Fault (Option (Tree.Members (Option Anchor)))) =
    Option.map ofMembers <$> Edit.nothing := rfl

/-- What is done with the result of an edit. -/
theorem bind (h : Edit.Matches e e') {α β : Type} {out : α → β} {ms : Members}
    {f : Option (Tree.Members (Option Anchor)) → Except Fault β}
    {f' : Option Members → Except Fault α}
    (hsome : ∀ ms, f (some (ofMembers ms)) = out <$> f' (some ms))
    (hnone : f none = out <$> f' none) :
    (e (ofMembers ms) >>= f) = out <$> (e' ms >>= f') :=
  bind_eq_map_bind (h ms) fun result => by
    cases result with
    | none => exact hnone
    | some ms => exact hsome ms

theorem append (item : Value) :
    Edit.Matches (.append name (ofValue item)) (.append name item) := by
  intro ms
  refine bind_eq_map_bind (listAt_ofMembers name ms) fun items => ?_
  rw [← changed, ← putList_ofMembers, List.map_append]
  rfl

theorem replaceItem (index : Int) (item : Value) :
    Edit.Matches (.replaceItem name index (ofValue item))
      (.replaceItem name index item) := by
  intro ms
  refine bind_eq_map_bind (listAt_ofMembers name ms) fun items => ?_
  rw [position?_map_ofValue]
  cases position? index items with
  | none => rfl
  | some i =>
      dsimp only
      rw [← changed, ← putList_ofMembers, List.map_set]

theorem removeItem (index : Int) :
    Edit.Matches (.removeItem name index) (.removeItem name index) := by
  intro ms
  refine bind_eq_map_bind (listAt_ofMembers name ms) fun items => ?_
  rw [withoutItem_map_ofValue, putList_ofMembers, changed]

theorem within (name : Scalar) (h : Edit.Matches e e') :
    Edit.Matches (.within name e) (.within name e') := by
  intro ms
  rw [Edit.within, Edit.within, get?_ofMembers]
  cases Members.get? name ms with
  | none => rfl
  | some v =>
      cases v with
      | marked mark inner =>
          exact h.bind (fun inner =>
            congrArg Edit.changed (put_ofMembers name ms (.object inner))) rfl
      | _ => rfl

theorem withinMap (name : Scalar) (h : Edit.Matches e e') :
    Edit.Matches (.withinMap name e) (.withinMap name e') := by
  intro ms
  have hmap : (Members.mapAt name (ofMembers ms)).members =
      ofMembers <$> (Members.mapAt name ms).members := by
    rw [mapAt_ofMembers, members_ofValue]
  exact bind_eq_map_bind hmap fun map =>
    h.bind (fun inner => congrArg Edit.changed (put_ofMembers name ms (.object inner)))
      rfl

/-- The members of the map under a name. -/
theorem members_mapAt (name : Scalar) (ms : Members) :
    (Members.mapAt name (ofMembers ms)).members =
      ofMembers <$> (Members.mapAt name ms).members := by
  rw [mapAt_ofMembers, members_ofValue]

/-- The members of the map under a name, which may be made from a list. -/
theorem toMembers_mapAt (name : Scalar) (ms : Members) :
    (Members.mapAt name (ofMembers ms)).toMembers =
      ofMembers <$> (Members.mapAt name ms).toMembers := by
  rw [mapAt_ofMembers, toMembers_ofValue]

/-- Something is done if the map under a name has an entry. -/
theorem ifHolds (entry : String) (ms : Members)
    {f : Bool → Except Fault (Option (Tree.Members (Option Anchor)))}
    {f' : Bool → Except Fault (Option Members)}
    (hf : ∀ b, f b = Option.map ofMembers <$> f' b) :
    ((Members.mapAt name (ofMembers ms)).holds entry >>= f) =
      Option.map ofMembers <$> ((Members.mapAt name ms).holds entry >>= f') := by
  rw [mapAt_ofMembers, holds_ofValue]
  exact bind_eq_map_bind (id_map _).symm hf

/-- An object is put under a name. -/
theorem changedPut (name : Scalar) (ms inner : Members) :
    Edit.changed (Members.put name (.object (ofMembers inner)) (ofMembers ms)) =
      Option.map ofMembers <$> Edit.changed (Members.put name (.object inner) ms) :=
  congrArg Edit.changed (put_ofMembers name ms (.object inner))

theorem renameEntry (oldName newName : String) :
    Edit.Matches (.renameEntry name oldName newName)
      (.renameEntry name oldName newName) := by
  intro ms
  refine ite_eq_map_ite nothing (ifHolds name oldName ms fun b =>
    ite_eq_map_ite ?_ nothing)
  refine bind_eq_map_bind (members_mapAt name ms) fun map => ?_
  exact bind_eq_map_bind (renamed_ofMembers oldName newName map) (changedPut name ms)

theorem removeEntry (entry : String) :
    Edit.Matches (.removeEntry name entry) (.removeEntry name entry) := by
  intro ms
  refine ifHolds name entry ms fun b => ite_eq_map_ite ?_ nothing
  refine bind_eq_map_bind (members_mapAt name ms) fun map => ?_
  rw [erase_ofMembers]
  exact changedPut name ms _

theorem putEntry (entry : String) (v : Value) :
    Edit.Matches (.putEntry name entry (ofValue v)) (.putEntry name entry v) := by
  intro ms
  refine bind_eq_map_bind (members_mapAt name ms) fun map => ?_
  rw [put_ofMembers]
  exact changedPut name ms _

theorem addEntry (base : String) (v : Value) :
    Edit.Matches (.addEntry name base (ofValue v)) (.addEntry name base v) := by
  intro ms
  refine bind_eq_map_bind (members_mapAt name ms) fun map => ?_
  dsimp only
  rw [names_ofMembers, put_ofMembers]
  exact changedPut name ms _

theorem duplicateEntry {copy : AnchoredValue → AnchoredValue}
    (hcopy : ∀ v, copy (ofValue v) = ofValue v) (base entry : String) :
    Edit.Matches (.duplicateEntry copy name base entry)
      (.duplicateEntry id name base entry) := by
  intro ms
  refine ifHolds name entry ms fun b => ite_eq_map_ite ?_ nothing
  refine bind_eq_map_bind (members_mapAt name ms) fun map => ?_
  rw [names_ofMembers, valueAt_ofMembers, hcopy, put_ofMembers]
  exact changedPut name ms _

end Edit.Matches

/-! ## Servers and tags -/

@[simp] theorem putUnlessEmpty_ofMembers (name : String) (map ms : Members) :
    putUnlessEmpty name (ofMembers map) (ofMembers ms) =
      ofMembers (putUnlessEmpty name map ms) := by
  rw [putUnlessEmpty, putUnlessEmpty, isEmpty_ofMembers, erase_ofMembers]
  split
  · rfl
  · exact put_ofMembers name ms (.object map)

section

variable {edit : Tree.Members (Option Anchor) → Tree.Members (Option Anchor)}
  {edit' : Members → Members} (hedit : ∀ ms, edit (ofMembers ms) = ofMembers (edit' ms))

include hedit

theorem editVariables_ofValue (server : Value) :
    editVariables edit (ofValue server) = ofValue <$> editVariables edit' server := by
  refine bind_eq_map_bind (toMembers_ofValue server) fun ms => ?_
  refine bind_eq_map_bind (Edit.Matches.toMembers_mapAt "variables" ms)
    fun definitions => ?_
  rw [hedit, putUnlessEmpty_ofMembers]
  rfl

theorem editServerVariables_matches (index : Int) :
    Edit.Matches (editServerVariables index edit)
      (editServerVariables index edit') := by
  intro ms
  refine bind_eq_map_bind (listAt_ofMembers "servers" ms) fun servers => ?_
  rw [position?_map_ofValue]
  cases position? index servers with
  | none => rfl
  | some i =>
      have hserver : (servers.map ofValue).getD i .null =
          ofValue (servers.getD i .null) := by
        rw [List.getD_eq_getElem?_getD, List.getD_eq_getElem?_getD, List.getElem?_map]
        cases servers[i]? <;> rfl
      dsimp only
      rw [hserver]
      refine bind_eq_map_bind (editVariables_ofValue hedit _) fun server => ?_
      rw [← List.map_set, putList_ofMembers]
      rfl

end

theorem editServers_matches (e : ServerEdit Unit) :
    Edit.Matches (editServers e.unanchored) (editServers e) := by
  cases e with
  | add => exact .append "servers" Template.server
  | update index server => exact .replaceItem "servers" index (.object server)
  | remove index => exact .removeItem "servers" index
  | addVariable index name =>
      exact editServerVariables_matches
        (fun ms => put_ofMembers name ms Template.serverVariable) index
  | updateVariable index oldName newName definition =>
      refine editServerVariables_matches (fun ms => ?_) index
      dsimp only
      rw [erase_ofMembers]
      split
      · exact put_ofMembers newName ms (.object definition)
      · exact put_ofMembers newName _ (.object definition)
  | removeVariable index name =>
      exact editServerVariables_matches (erase_ofMembers name) index

theorem editTags_matches (e : TagEdit Unit) :
    Edit.Matches (editTags e.unanchored) (editTags e) := by
  cases e with
  | add => exact .append "tags" Template.tag
  | update index tag => exact .replaceItem "tags" index (.object tag)
  | remove index => exact .removeItem "tags" index

/-! ## Paths -/

/-- An edit of a path item. -/
theorem withinPath_matches {e : Edit (Option Anchor)} {e' : Edit Unit} (path : String)
    (h : Edit.Matches e e') :
    Edit.Matches (withinPath path e) (withinPath path e') :=
  .withinMap "paths" (.within path h)

theorem addPath_matches {item : Tree.Members (Option Anchor) → Option AnchoredValue}
    {item' : Members → Option Value}
    (hitem : ∀ ms, item (ofMembers ms) = (item' ms).map ofValue) :
    Edit.Matches (addPath item) (addPath item') := by
  intro ms
  refine Edit.Matches.ifHolds "paths" newPath ms fun b =>
    ite_eq_map_ite Edit.Matches.nothing ?_
  refine bind_eq_map_bind (Edit.Matches.members_mapAt "paths" ms) fun map => ?_
  rw [hitem]
  cases item' map with
  | none => rfl
  | some v =>
      dsimp only [Option.map_some]
      rw [put_ofMembers]
      exact Edit.Matches.changedPut "paths" ms _

section

variable {copy : AnchoredValue → AnchoredValue}
  (hcopy : ∀ v, copy (ofValue v) = ofValue v)

include hcopy

theorem duplicatePath_matches (path : String) :
    Edit.Matches (duplicatePath copy path) (duplicatePath id path) := by
  intro ms
  refine Edit.Matches.ifHolds "paths" newPath ms fun b =>
    ite_eq_map_ite Edit.Matches.nothing ?_
  refine Edit.Matches.ifHolds "paths" path ms fun b =>
    ite_eq_map_ite ?_ Edit.Matches.nothing
  refine addPath_matches (fun map => ?_) ms
  rw [get?_ofMembers, Option.map_map, Option.map_map]
  exact Option.map_congr fun v _ => hcopy v

theorem editPaths_matches (e : PathEdit Unit) :
    Edit.Matches (editPaths copy e.unanchored) (editPaths id e) := by
  cases e with
  | add =>
      have hadd : Edit.Matches (addPath fun _ => some (ofValue .emptyObject))
          (addPath fun _ => some .emptyObject) :=
        addPath_matches fun _ => rfl
      exact hadd
  | rename oldPath newPath => exact .renameEntry "paths" oldPath newPath
  | update path item =>
      exact withinPath_matches path fun ms =>
        congrArg Edit.changed (putAll_ofMembers ms item)
  | remove path => exact .removeEntry "paths" path
  | duplicate path => exact duplicatePath_matches hcopy path
  | removeAll => exact fun ms => Edit.Matches.changedPut "paths" ms []

end

/-! ## Operations -/

theorem addOperation_matches (method : Method) :
    Edit.Matches (addOperation method) (addOperation method) := by
  intro ms
  rw [addOperation, addOperation, contains_ofMembers]
  exact ite_eq_map_ite Edit.Matches.nothing
    (congrArg Edit.changed (put_ofMembers _ ms Template.operation))

theorem removeOperation_matches (method : Method) :
    Edit.Matches (removeOperation method) (removeOperation method) := by
  intro ms
  rw [removeOperation, removeOperation, contains_ofMembers, erase_ofMembers]
  exact ite_eq_map_ite (Edit.Matches.changed _) Edit.Matches.nothing

theorem renameOperation_matches (oldMethod newMethod : Method) :
    Edit.Matches (renameOperation oldMethod newMethod)
      (renameOperation oldMethod newMethod) := by
  intro ms
  rw [renameOperation, renameOperation, get?_ofMembers, get?_ofMembers]
  cases Members.get? oldMethod.name ms with
  | none => rfl
  | some v =>
      cases Members.get? newMethod.name ms with
      | none => exact bind_eq_map_bind (renamed_ofMembers _ _ ms) Edit.Matches.changed
      | some w =>
          dsimp only [Option.map_some]
          rw [put_ofMembers, put_ofMembers]
          rfl

theorem updateOperation_matches (changes : Members) :
    Edit.Matches (updateOperation (ofMembers changes)) (updateOperation changes) := by
  intro ms
  have hkept : ∀ ns : Members, (ofMembers ns).filter (fun entry => !entry.2.isNull) =
      ofMembers (ns.filter fun entry => !entry.2.isNull) := fun ns => by
    simp [ofMembers_eq_map, List.filter_map, Function.comp_def]
  rw [updateOperation, putAll_ofMembers, hkept]
  rfl

/-! ### Responses -/

theorem addResponse_matches (statusCode : String) :
    Edit.Matches (addResponse statusCode) (addResponse statusCode) := by
  intro ms
  refine Edit.Matches.ifHolds "responses" statusCode ms fun b =>
    ite_eq_map_ite Edit.Matches.nothing ?_
  refine bind_eq_map_bind (Edit.Matches.members_mapAt "responses" ms) fun map => ?_
  have hput : Members.put statusCode Template.response (ofMembers map) =
      ofMembers (Members.put statusCode Template.response map) :=
        put_ofMembers statusCode map Template.response
  dsimp only
  rw [hput]
  exact Edit.Matches.changedPut "responses" ms _

theorem removeResponse_matches (statusCode : String) :
    Edit.Matches (removeResponse statusCode) (removeResponse statusCode) := by
  intro ms
  refine bind_eq_map_bind (Edit.Matches.members_mapAt "responses" ms) fun map => ?_
  dsimp only
  rw [erase_ofMembers, isEmpty_ofMembers]
  split
  · exact Edit.Matches.changedPut "responses" ms
      [(.str "default", Template.fallbackResponse)]
  · exact Edit.Matches.changedPut "responses" ms _

/-! ### Media types -/

theorem withinContent_matches {e : Edit (Option Anchor)}
    {e' : Edit Unit} (place : ContentPlace) (h : Edit.Matches e e') :
    Edit.Matches (withinContent place e) (withinContent place e') := by
  unfold withinContent
  cases place.target with
  | requestBody =>
      refine .within "requestBody" fun body => ?_
      refine bind_eq_map_bind (Edit.Matches.toMembers_mapAt "content" body)
        fun content => ?_
      exact h.bind (Edit.Matches.changedPut "content" body) rfl
  | response =>
      refine .withinMap "responses" (.within _ fun response => ?_)
      refine bind_eq_map_bind (Edit.Matches.toMembers_mapAt "content" response)
        fun content => ?_
      exact h.bind (fun inner =>
        congrArg Edit.changed (putUnlessEmpty_ofMembers "content" inner response)) rfl

theorem addMediaType_matches (mediaType : String) :
    Edit.Matches (addMediaType mediaType) (addMediaType mediaType) := by
  intro ms
  rw [addMediaType, addMediaType, contains_ofMembers]
  exact ite_eq_map_ite Edit.Matches.nothing
    (congrArg Edit.changed (put_ofMembers _ ms Template.mediaType))

theorem renameMediaType_matches (oldType newType : String) :
    Edit.Matches (renameMediaType oldType newType)
      (renameMediaType oldType newType) := by
  intro ms
  rw [renameMediaType, renameMediaType, contains_ofMembers]
  exact ite_eq_map_ite Edit.Matches.nothing
    (bind_eq_map_bind (renamed_ofMembers _ _ ms) Edit.Matches.changed)

theorem removeMediaType_matches (target : Target) (mediaType : String) :
    Edit.Matches (removeMediaType target mediaType)
      (removeMediaType target mediaType) := by
  intro ms
  rw [removeMediaType, removeMediaType, contains_ofMembers, erase_ofMembers]
  dsimp only
  rw [isEmpty_ofMembers]
  refine ite_eq_map_ite (ite_eq_map_ite ?_ (Edit.Matches.changed _))
    Edit.Matches.nothing
  exact Edit.Matches.changed [(.str Template.jsonMediaType, Template.mediaType)]

/-! ### Callbacks -/

theorem withinCallbacks_matches {e : Edit (Option Anchor)} {e' : Edit Unit}
    (h : Edit.Matches e e') :
    Edit.Matches (withinCallbacks e) (withinCallbacks e') := by
  intro ms
  refine bind_eq_map_bind (Edit.Matches.toMembers_mapAt "callbacks" ms) fun callbacks =>
    ?_
  exact h.bind (fun inner =>
    congrArg Edit.changed (putUnlessEmpty_ofMembers "callbacks" inner ms)) rfl

theorem addCallback_matches (callback : Value) :
    Edit.Matches (addCallback (ofValue callback)) (addCallback callback) := by
  intro ms
  rw [addCallback, addCallback, names_ofMembers, put_ofMembers]
  rfl

theorem renameCallback_matches (oldName newName : String) :
    Edit.Matches (renameCallback oldName newName) (renameCallback oldName newName) := by
  intro ms
  rw [renameCallback, renameCallback, contains_ofMembers]
  exact ite_eq_map_ite Edit.Matches.nothing
    (bind_eq_map_bind (renamed_ofMembers _ _ ms) Edit.Matches.changed)

theorem removeCallback_matches (name : String) :
    Edit.Matches (removeCallback name) (removeCallback name) := by
  intro ms
  rw [removeCallback, removeCallback, contains_ofMembers, erase_ofMembers]
  exact ite_eq_map_ite (Edit.Matches.changed _) Edit.Matches.nothing

section

variable {copy : AnchoredValue → AnchoredValue}
  (hcopy : ∀ v, copy (ofValue v) = ofValue v)

include hcopy

theorem duplicateCallback_matches (name : String) :
    Edit.Matches (duplicateCallback copy name) (duplicateCallback id name) := by
  intro ms
  rw [duplicateCallback, duplicateCallback, get?_ofMembers]
  cases Members.get? name ms with
  | none => rfl
  | some callback =>
      dsimp only [Option.map_some]
      rw [hcopy]
      exact addCallback_matches callback ms

theorem editWithinOperation_matches (e : OperationEdit Unit) :
    Edit.Matches (editWithinOperation copy e.unanchored)
      (editWithinOperation id e) := by
  cases e with
  | add => exact fun _ => rfl
  | remove => exact fun _ => rfl
  | update changes => exact updateOperation_matches changes
  | addParameter => exact .append "parameters" Template.parameter
  | updateParameter index parameter =>
      exact .replaceItem "parameters" index (.object parameter)
  | removeParameter index => exact .removeItem "parameters" index
  | addResponse statusCode => exact addResponse_matches statusCode
  | updateResponse statusCode response =>
      exact .putEntry "responses" statusCode (.object response)
  | removeResponse statusCode => exact removeResponse_matches statusCode
  | renameResponse oldStatus newStatus =>
      exact .renameEntry "responses" oldStatus newStatus
  | addRequestBody =>
      exact fun ms =>
        congrArg Edit.changed (put_ofMembers "requestBody" ms Template.requestBody)
  | updateRequestBody body =>
      exact fun ms => Edit.Matches.changedPut "requestBody" ms body
  | removeRequestBody =>
      intro ms
      rw [OperationEdit.unanchored, editWithinOperation, editWithinOperation]
      dsimp only
      rw [contains_ofMembers, erase_ofMembers]
      exact ite_eq_map_ite (Edit.Matches.changed _) Edit.Matches.nothing
  | addMediaType place mediaType =>
      exact withinContent_matches place (addMediaType_matches mediaType)
  | renameMediaType place oldType newType =>
      exact withinContent_matches place (renameMediaType_matches oldType newType)
  | removeMediaType place mediaType =>
      exact withinContent_matches place (removeMediaType_matches place.target mediaType)
  | addCallback => exact withinCallbacks_matches (addCallback_matches Template.callback)
  | renameCallback oldName newName =>
      exact withinCallbacks_matches (renameCallback_matches oldName newName)
  | removeCallback name => exact withinCallbacks_matches (removeCallback_matches name)
  | duplicateCallback name =>
      exact withinCallbacks_matches (duplicateCallback_matches hcopy name)

theorem editOperation_matches (path : String) (method : Method)
    (e : OperationEdit Unit) :
    Edit.Matches (editOperation copy path method e.unanchored)
      (editOperation id path method e) := by
  have hwithin :=
    withinPath_matches path (.within method.name (editWithinOperation_matches hcopy e))
  cases e with
  | add => exact withinPath_matches path (addOperation_matches method)
  | remove => exact withinPath_matches path (removeOperation_matches method)
  | _ => exact hwithin

/-! ## Schemas -/

theorem editSchemas_matches (e : SchemaEdit Unit) :
    Edit.Matches (editSchemas copy e.unanchored) (editSchemas id e) := by
  cases e with
  | add => exact .withinMap "components" (.addEntry "schemas" newSchema Template.schema)
  | update name schema =>
      exact .withinMap "components" (.putEntry "schemas" name (.object schema))
  | remove name => exact .withinMap "components" (.removeEntry "schemas" name)
  | rename oldName newName =>
      exact .withinMap "components" (.renameEntry "schemas" oldName newName)
  | duplicate name =>
      exact .withinMap "components" (.duplicateEntry "schemas" hcopy newSchema name)

end

/-! ## Security -/

theorem withinScheme_matches {e : Edit (Option Anchor)} {e' : Edit Unit} (name : String)
    (h : Edit.Matches e e') :
    Edit.Matches (withinScheme name e) (withinScheme name e') :=
  .withinMap "components" (.withinMap "securitySchemes" (.within name h))

theorem withinFlow_matches {e : Edit (Option Anchor)}
    {e' : Edit Unit} (name : String) (flow : Flow) (h : Edit.Matches e e') :
    Edit.Matches (withinFlow name flow e) (withinFlow name flow e') :=
  withinScheme_matches name (.withinMap "flows" (.within flow.name h))

theorem changeSchemeType_matches (type : SchemeType) :
    Edit.Matches (changeSchemeType type) (changeSchemeType type) := by
  have hscheme : ∀ description : Value,
      (Template.securitySchemeOfType type.name (ofValue description)).members =
      ofMembers <$> (Template.securitySchemeOfType type.name
      description).members := fun description => by
    rw [← members_ofValue, Template.securitySchemeOfType, Template.securitySchemeOfType,
      isBlank_ofValue]
    split <;> cases type <;> rfl
  intro ms
  rw [changeSchemeType, changeSchemeType, valueAt_ofMembers, isText_ofValue,
    valueAt_ofMembers]
  exact ite_eq_map_ite Edit.Matches.nothing
    (bind_eq_map_bind (hscheme _) Edit.Matches.changed)

theorem toggleFlow_matches (flow : Flow) (enabled : Bool) :
    Edit.Matches (toggleFlow flow enabled) (toggleFlow flow enabled) := by
  intro ms
  refine bind_eq_map_bind (Edit.Matches.toMembers_mapAt "flows" ms) fun flows => ?_
  have hput : Members.put flow.name Template.oauthFlow (ofMembers flows) =
      ofMembers (Members.put flow.name Template.oauthFlow flows) :=
        put_ofMembers flow.name flows Template.oauthFlow
  rw [contains_ofMembers, erase_ofMembers, hput]
  refine ite_eq_map_ite Edit.Matches.nothing ?_
  cases enabled with
  | true => exact Edit.Matches.changedPut "flows" ms _
  | false => exact Edit.Matches.changedPut "flows" ms _

theorem renameScope_matches (oldScope newScope : String) (description : Option String) :
    Edit.Matches (renameScope oldScope newScope description)
      (renameScope oldScope newScope description) := by
  intro ms
  refine Edit.Matches.ifHolds "scopes" oldScope ms fun b =>
    ite_eq_map_ite ?_ Edit.Matches.nothing
  refine bind_eq_map_bind (Edit.Matches.members_mapAt "scopes" ms) fun scopes => ?_
  refine bind_eq_map_bind (renamed_ofMembers oldScope newScope scopes) fun scopes => ?_
  cases description with
  | none => exact Edit.Matches.changedPut "scopes" ms scopes
  | some text =>
      have hput := put_ofMembers newScope scopes (.str text)
      exact (congrArg (fun scopes =>
        Edit.changed (Members.put "scopes" (.object scopes) (ofMembers ms))) hput).trans
        (Edit.Matches.changedPut "scopes" ms _)

theorem putSchemes_ofMembers (schemes document : Members) :
    putSchemes (ofMembers schemes) (ofMembers document) =
      ofMembers <$> putSchemes schemes document := by
  refine bind_eq_map_bind (Edit.Matches.members_mapAt "components" document)
    fun components => ?_
  have hput := put_ofMembers "securitySchemes" components (.object schemes)
  exact congrArg Except.ok ((congrArg (fun parts =>
    Members.put "components" (.object parts) (ofMembers document)) hput).trans
    (put_ofMembers "components" document (.object _)))

theorem schemesOf_ofMembers (document : Members) :
    schemesOf (ofMembers document) = ofValue <$> schemesOf document :=
  bind_eq_map_bind (Edit.Matches.members_mapAt "components" document) fun components =>
    congrArg Except.ok (mapAt_ofMembers "securitySchemes" components)

/-- The requirements that do not name a scheme. -/
private theorem otherRequirements_map (name : String) (requirements : List Value) :
    ((requirements.map ofValue).filterM
      fun requirement => do pure !(← requirement.holds name)) = List.map ofValue <$>
      (requirements.filterM fun requirement => do pure !(← requirement.holds name)) :=
  filterM_map_eq (fun requirement => by rw [holds_ofValue]) requirements

theorem removeScheme_matches (name : String) :
    Edit.Matches (removeScheme name) (removeScheme name) := by
  intro ms
  refine bind_eq_map_bind (schemesOf_ofMembers ms) fun schemes => ?_
  refine bind_eq_map_bind (members_ofValue schemes) fun schemes => ?_
  refine bind_eq_map_bind (listAt_ofMembers "security" ms) fun security => ?_
  refine bind_eq_map_bind (otherRequirements_map name security) fun security => ?_
  rw [erase_ofMembers, putList_ofMembers]
  exact bind_eq_map_bind (putSchemes_ofMembers _ _) Edit.Matches.changed

theorem renameInRequirement_ofValue (oldName newName : String) (requirement : Value) :
    renameInRequirement oldName newName (ofValue requirement) =
      ofValue <$> renameInRequirement oldName newName requirement := by
  rw [renameInRequirement, renameInRequirement, holds_ofValue]
  refine bind_eq_map_bind (id_map _).symm fun b => ite_eq_map_ite ?_ rfl
  refine bind_eq_map_bind (members_ofValue requirement) fun ms => ?_
  exact bind_eq_map_bind (renamed_ofMembers oldName newName ms) fun _ => rfl

theorem renameScheme_matches (oldName newName : String) :
    Edit.Matches (renameScheme oldName newName) (renameScheme oldName newName) := by
  intro ms
  refine bind_eq_map_bind (schemesOf_ofMembers ms) fun schemes =>
    ite_eq_map_ite Edit.Matches.nothing ?_
  rw [holds_ofValue]
  refine bind_eq_map_bind (id_map _).symm fun b =>
    ite_eq_map_ite ?_ Edit.Matches.nothing
  refine bind_eq_map_bind (listAt_ofMembers "security" ms) fun security => ?_
  refine bind_eq_map_bind (mapM_map_map (renameInRequirement_ofValue oldName newName)
    security) fun security => ?_
  refine bind_eq_map_bind (members_ofValue schemes) fun schemes => ?_
  refine bind_eq_map_bind (renamed_ofMembers oldName newName schemes) fun schemes => ?_
  rw [putList_ofMembers]
  exact bind_eq_map_bind (putSchemes_ofMembers _ _) Edit.Matches.changed

theorem addDistinct_ofValue (present others : List Value) :
    addDistinct (present.map ofValue) (others.map ofValue) =
      (addDistinct present others).map ofValue := by
  induction others generalizing present with
  | nil => rfl
  | cons v rest ih =>
      have hpresent : (present.map ofValue).any (ofValue v).same =
          present.any v.same := by
        simp [List.any_map, Function.comp_def]
      rw [List.map_cons, addDistinct, addDistinct, hpresent, ← ih]
      split <;> simp

theorem scopesOfFlows_ofValue (scopes flows : List Value) :
    scopesOfFlows (scopes.map ofValue) (flows.map ofValue) = List.map ofValue <$>
      scopesOfFlows scopes flows := by
  induction flows generalizing scopes with
  | nil => rfl
  | cons flow rest ih =>
      refine bind_eq_map_bind (membersOrNone_ofValue flow) fun ms => ?_
      rw [mapAt_ofMembers]
      refine bind_eq_map_bind (items_ofValue _) fun found => ?_
      rw [addDistinct_ofValue]
      exact ih _

theorem requiredScopes_ofValue (scheme : Value) :
    requiredScopes (ofValue scheme) = List.map ofValue <$> requiredScopes scheme := by
  refine bind_eq_map_bind (membersOrNone_ofValue scheme) fun ms => ?_
  rw [valueAt_ofMembers, isText_ofValue]
  refine ite_eq_map_ite
    (bind_eq_map_bind (Edit.Matches.members_mapAt "flows" ms) fun flows => ?_) rfl
  have hvalues : (ofMembers flows).map (·.2) = (flows.map (·.2)).map ofValue := by
    simp [ofMembers_eq_map]
  rw [hvalues]
  exact scopesOfFlows_ofValue [] _

theorem requireScheme_matches (name : String) :
    Edit.Matches (requireScheme name) (requireScheme name) := by
  intro ms
  refine bind_eq_map_bind (listAt_ofMembers "security" ms) fun security => ?_
  rw [anyM_map_eq fun requirement => holds_ofValue requirement name]
  refine bind_eq_map_bind (id_map _).symm fun b =>
    ite_eq_map_ite Edit.Matches.nothing ?_
  refine bind_eq_map_bind (schemesOf_ofMembers ms) fun schemes => ?_
  refine bind_eq_map_bind (member_ofValue schemes name) fun scheme => ?_
  refine bind_eq_map_bind (requiredScopes_ofValue scheme) fun scopes => ?_
  have hrequirement : (.record [(name, .list (scopes.map ofValue))] : AnchoredValue) =
      ofValue (.record [(name, .list scopes)]) := by
    rw [ofValue_list]
    rfl
  dsimp only
  rw [hrequirement, ← Edit.Matches.changed, ← putList_ofMembers, List.map_append]
  rfl

theorem releaseScheme_matches (name : String) :
    Edit.Matches (releaseScheme name) (releaseScheme name) := by
  intro ms
  refine bind_eq_map_bind (listAt_ofMembers "security" ms) fun security => ?_
  refine bind_eq_map_bind (otherRequirements_map name security) fun security => ?_
  rw [putList_ofMembers]
  exact Edit.Matches.changed _

theorem editSecurity_matches (e : SecurityEdit Unit) :
    Edit.Matches (editSecurity e.unanchored) (editSecurity e) := by
  cases e with
  | add =>
      exact .withinMap "components"
        (.addEntry "securitySchemes" newSecurityScheme Template.securityScheme)
  | update name scheme =>
      exact .withinMap "components" (.putEntry "securitySchemes" name (.object scheme))
  | changeType name type =>
      exact withinScheme_matches name (changeSchemeType_matches type)
  | remove name => exact removeScheme_matches name
  | rename oldName newName => exact renameScheme_matches oldName newName
  | toggleFlow name flow enabled =>
      exact withinScheme_matches name (toggleFlow_matches flow enabled)
  | addScope name flow =>
      exact withinFlow_matches name flow
        (.addEntry "scopes" newScope (.str newScopeDescription))
  | renameScope name flow oldScope newScope description =>
      exact withinFlow_matches name flow
        (renameScope_matches oldScope newScope description)
  | removeScope name flow scope =>
      exact withinFlow_matches name flow (.removeEntry "scopes" scope)
  | toggleGlobal name enabled =>
      cases enabled with
      | true => exact requireScheme_matches name
      | false => exact releaseScheme_matches name

/-! ## States and runs -/

/-- A state whose documents have no anchors. -/
def State.unanchored (state : State Unit) : State (Option Anchor) :=
  ⟨ofValue state.document, state.snapshot.map ofValue⟩

variable {state : State Unit}

/-- A copy of a value without anchors is that value. -/
theorem copy_ofValue (number : Nat) (v : Value) :
    AnchoredValue.copy number (ofValue v) = ofValue v := by
  induction v using Tree.parts_induction with
  | list xs ih =>
      rw [← ofValue_list, AnchoredValue.copy, Tree.mapMarks, Tree.mapItemMarks_eq_map,
        List.map_map]
      exact congrArg Tree.list (List.map_congr_left ih)
  | pair a b iha ihb => exact congrArg₂ Tree.pair iha ihb
  | marked mark ms ih =>
      rw [← ofValue_object, AnchoredValue.copy, Tree.mapMarks,
        Tree.mapMemberMarks_eq_map, ofMembers_eq_map, List.map_map]
      exact congrArg (Tree.marked none) (List.map_congr_left fun e he =>
        congrArg (Prod.mk e.1) (ih e he))
  | _ => rfl

theorem edit_unanchored {e : Edit (Option Anchor)} {e' : Edit Unit}
    (h : Edit.Matches e e') :
    state.unanchored.edit e = State.unanchored <$> state.edit e' := by
  refine bind_eq_map_bind (members_ofValue state.document) fun ms => ?_
  exact h.bind (fun ms => rfl) rfl

theorem changeMap_matches (name : String) (changes : Members) :
    Edit.Matches (changeMap name (ofMembers changes)) (changeMap name changes) := by
  intro ms
  refine bind_eq_map_bind (Edit.Matches.members_mapAt name ms) fun map => ?_
  rw [putAll_ofMembers]
  exact Edit.Matches.changedPut name ms _

theorem accept_unanchored_iff {position : Nat} (document : Value)
    {next : State (Option Anchor)} :
    state.unanchored.accept (Script.handling position) (ofValue document) = .ok next ↔
      ∃ next', state.accept .plain document = .ok next' ∧ next = next'.unanchored := by
  have hcopy : (Script.handling position).copy (ofValue document) = ofValue document :=
    copy_ofValue position document
  rw [State.accept, hcopy, bind_eq_ok]
  constructor
  · rintro ⟨completed, hcompleted, hnext⟩
    obtain ⟨v, hv, rfl⟩ := Document.Sharing.complete_ofValue_iff.mp hcompleted
    obtain rfl := Except.ok.inj hnext
    exact ⟨state.withDocument v, bind_eq_ok.mpr ⟨v, hv, rfl⟩, rfl⟩
  · rintro ⟨next', hnext', rfl⟩
    obtain ⟨v, hv, hnext'⟩ := bind_eq_ok.mp hnext'
    obtain rfl := Except.ok.inj hnext'
    exact ⟨ofValue v, Document.Sharing.complete_ofValue_iff.mpr ⟨v, hv, rfl⟩, rfl⟩

/-- Steps whose results correspond. -/
private theorem ok_iff_of_eq_map {x : Except Fault (State (Option Anchor))}
    {x' : Except Fault (State Unit)} (h : x = State.unanchored <$> x')
    {next : State (Option Anchor)} :
    x = .ok next ↔ ∃ next', x' = .ok next' ∧ next = next'.unanchored := by
  rw [h, map_eq_ok]
  exact exists_congr fun _ => and_congr_right fun _ => eq_comm

/-- A step that has its result already. -/
private theorem pure_iff_of_unanchored (result : State Unit)
    {next : State (Option Anchor)} :
    (pure result.unanchored : Except Fault (State (Option Anchor))) = .ok next ↔
      ∃ next', (pure result : Except Fault (State Unit)) = .ok next' ∧
        next = next'.unanchored :=
  ok_iff_of_eq_map (map_pure State.unanchored result).symm

/-- A command without anchors does to documents without anchors what it does to
values. -/
theorem applyWith_unanchored_iff {position : Nat} {command : Command Unit}
    {next : State (Option Anchor)} :
    state.unanchored.applyWith (Script.handling position) command.unanchored =
      .ok next ↔
      ∃ next', state.apply command = .ok next' ∧ next = next'.unanchored := by
  have hcopy := copy_ofValue position
  have hitself : renamesToItself command.unanchored = renamesToItself command := by
    cases command with
    | operation path method e => cases e <;> rfl
    | _ => rfl
  rw [State.apply, State.applyWith.eq_def, State.applyWith.eq_def, hitself]
  split
  · exact pure_iff_of_unanchored state
  · cases command with
    | setDocument document => exact accept_unanchored_iff (.object document)
    | undo =>
        obtain ⟨document, snapshot⟩ := state
        cases snapshot with
        | none => exact pure_iff_of_unanchored _
        | some snapshot => exact accept_unanchored_iff snapshot
    | saveSnapshot => exact pure_iff_of_unanchored state.remember
    | loadSample => exact pure_iff_of_unanchored (state.withDocument sample)
    | reset => exact pure_iff_of_unanchored (state.withDocument Template.document)
    | info changes =>
        exact ok_iff_of_eq_map (edit_unanchored (changeMap_matches "info" changes))
    | externalDocs changes =>
        exact ok_iff_of_eq_map
          (edit_unanchored (changeMap_matches "externalDocs" changes))
    | servers e => exact ok_iff_of_eq_map (edit_unanchored (editServers_matches e))
    | tags e => exact ok_iff_of_eq_map (edit_unanchored (editTags_matches e))
    | paths e => exact ok_iff_of_eq_map (edit_unanchored (editPaths_matches hcopy e))
    | operation path method e =>
        exact ok_iff_of_eq_map
          (edit_unanchored (editOperation_matches hcopy path method e))
    | renameOperation path oldMethod newMethod =>
        exact ok_iff_of_eq_map
          (edit_unanchored
            (withinPath_matches path (renameOperation_matches oldMethod newMethod)))
    | security e => exact ok_iff_of_eq_map (edit_unanchored (editSecurity_matches e))
    | schemas e =>
        exact ok_iff_of_eq_map (edit_unanchored (editSchemas_matches hcopy e))

/-- A run of commands without anchors does to documents without anchors what it
does to values. -/
theorem Script.applyFrom_unanchored_iff {position : Nat}
    {commands : List (Command Unit)} {last : State (Option Anchor)} :
    Script.applyFrom position state.unanchored (commands.map Command.unanchored) =
      .ok last ↔
      ∃ last', state.applyAll commands = .ok last' ∧ last = last'.unanchored := by
  induction commands generalizing state position with
  | nil => exact pure_iff_of_unanchored state
  | cons command rest ih =>
      rw [List.map_cons, Script.applyFrom, State.applyAll, List.foldlM_cons, bind_eq_ok]
      constructor
      · rintro ⟨next, hnext, hlast⟩
        obtain ⟨next', hnext', rfl⟩ := applyWith_unanchored_iff.mp hnext
        obtain ⟨last', hlast', rfl⟩ := ih.mp hlast
        exact ⟨last', bind_eq_ok.mpr ⟨next', hnext', hlast'⟩, rfl⟩
      · rintro ⟨last', hlast', rfl⟩
        obtain ⟨next', hnext', hlast'⟩ := bind_eq_ok.mp hlast'
        exact ⟨next'.unanchored, applyWith_unanchored_iff.mpr ⟨next', hnext', rfl⟩,
          ih.mpr ⟨last', hlast', rfl⟩⟩

/-- A script without anchors applies its commands one after the other and prunes
what comes of it. -/
theorem Script.run_unanchored_iff {commands : List (Command Unit)}
    {document pruned : Value} :
    Script.run (commands.map Command.unanchored) document = .ok pruned ↔
      ∃ last, (State.ofDocument document).applyAll commands = .ok last ∧
        Document.prune last.document = .ok pruned := by
  have hstart : State.ofDocument (ofValue document) =
      (State.ofDocument document).unanchored := rfl
  rw [Script.run, hstart, bind_eq_ok]
  constructor
  · rintro ⟨last, hlast, hpruned⟩
    obtain ⟨last', hlast', rfl⟩ := Script.applyFrom_unanchored_iff.mp hlast
    obtain ⟨result, hresult, hpruned⟩ := bind_eq_ok.mp hpruned
    obtain ⟨v, hv, rfl⟩ := Document.Sharing.prune_ofValue_iff.mp hresult
    obtain rfl := Except.ok.inj hpruned
    exact ⟨last', hlast', hv.trans (congrArg Except.ok (plain_ofValue v).symm)⟩
  · rintro ⟨last', hlast', hpruned⟩
    refine ⟨last'.unanchored, Script.applyFrom_unanchored_iff.mpr ⟨last', hlast', rfl⟩,
      bind_eq_ok.mpr ?_⟩
    exact ⟨ofValue pruned, Document.Sharing.prune_ofValue_iff.mpr
      ⟨pruned, hpruned, rfl⟩, congrArg Except.ok (plain_ofValue pruned)⟩

/-! ## Canonical documents -/

/-- Every state that a run passes through has a document that completion leaves alone,
if the first one has, and if no command brings in members over those that completion
looks at, or objects that stand in two places. -/
theorem canonical_throughout_run {position : Nat} {commands : List (Command Unit)}
    {last : State (Option Anchor)} (hstate : Document.Sharing.complete
      state.unanchored.document = .ok state.unanchored.document)
    (hcommands : ∀ command ∈ commands, overwritesParts command = false)
    (hrun : Script.applyFrom position state.unanchored
      (commands.map Command.unanchored) = .ok last) :
    ∀ n, ∃ reached,
      Script.applyFrom position state.unanchored
        ((commands.take n).map Command.unanchored) = .ok reached ∧
        Document.Sharing.complete reached.document = .ok reached.document := by
  obtain ⟨v, hv, heq⟩ := Document.Sharing.complete_ofValue_iff.mp hstate
  obtain rfl := ofValue_injective heq
  obtain ⟨last', hlast', -⟩ := Script.applyFrom_unanchored_iff.mp hrun
  intro n
  obtain ⟨reached, hreached, hcanonical⟩ := canonical_of_run hv hcommands hlast' n
  exact ⟨reached.unanchored, Script.applyFrom_unanchored_iff.mpr ⟨reached, hreached,
    rfl⟩, Document.Sharing.complete_ofValue_iff.mpr ⟨_, hcanonical, rfl⟩⟩

/-- The sample is canonical, and so it is after an operation with a callback was added
and before the operation is taken away again. -/
theorem canonical_throughout_run_of_sample :
    ∃ reached, Script.applyFrom 0 State.initial.unanchored ([.paths .add, .operation
      newPath .get .add, .operation newPath .get .addCallback].map Command.unanchored) =
      .ok reached ∧
      Document.Sharing.complete reached.document = .ok reached.document := by
  obtain ⟨last, hrun⟩ : ∃ last, State.initial.applyAll
      [.paths .add, .operation newPath .get .add, .operation newPath .get .addCallback,
      .tags .add, .operation newPath .get .remove] = .ok last := ⟨_, rfl⟩
  have hstart : Document.Sharing.complete (State.unanchored .initial).document =
      .ok (State.unanchored .initial).document :=
    Document.Sharing.complete_ofValue_iff.mpr ⟨_, canonical_sample, rfl⟩
  exact canonical_throughout_run hstart (by decide)
    (Script.applyFrom_unanchored_iff.mpr ⟨last, hrun, rfl⟩) 3

/-- A document comes in that is not canonical afterwards, since one object is a path
item and an operation in it. -/
theorem canonical_lost :
    Document.Sharing.complete (State.unanchored .initial).document =
      .ok (State.unanchored .initial).document ∧
      overwritesParts (.setDocument Document.Sharing.itemAndOperation) = false ∧
      ∃ reached again,
        Script.applyFrom 0 (State.unanchored .initial)
          [.setDocument Document.Sharing.itemAndOperation] = .ok reached ∧
          Document.Sharing.complete reached.document = .ok again ∧
          again ≠ reached.document := by
  refine ⟨Document.Sharing.complete_ofValue_iff.mpr ⟨_, canonical_sample, rfl⟩, rfl, ?_⟩
  have hruns : (do
      let reached ← Script.applyFrom 0 (State.unanchored .initial)
        [.setDocument Document.Sharing.itemAndOperation]
      let again ← Document.Sharing.complete reached.document
      pure (reached.document.same reached.document &&
        !again.same reached.document)).toOption = some true := by
    decide +kernel
  obtain ⟨reached, hreached, hruns⟩ := bind_eq_ok.mp (toOption_eq_some.mp hruns)
  obtain ⟨again, hagain, hruns⟩ := bind_eq_ok.mp hruns
  refine ⟨reached, again, hreached, hagain, ?_⟩
  rintro rfl
  simp at hruns

end Editor

end ApiWorkbench
