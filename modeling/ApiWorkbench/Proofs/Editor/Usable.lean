import ApiWorkbench.Proofs.Editor.Canonical

/-!
# Documents on which edits come to an end

An edit reads the part of the document that it changes: a list where it expects items, a
map where it expects entries. `Usable` says of the members of a document that all of
these parts are what the edits take them for, and an edit `Applies` to usable documents
if it comes to an end on each of them and leaves it usable.

What is asked of a member is said by its name, on the level of a document
(`PartUsable`), of the components (`ComponentUsable`) and of an operation
(`OperationMemberUsable`); nothing is asked of a member that is null, so a member may
always be taken away. An edit inside a part comes to an end if it does on that part,
which `Edit.Applies.within` and `Edit.Applies.withinMap` carry to the whole.

## Main results

* `Usable`: all parts of a document are what the edits take them for.
* `Edit.Applies`: an edit comes to an end on members with a property, and keeps it.
* `Edit.Applies.within`, `Edit.Applies.withinMap`: from an edit of a part to an
  edit of the whole.
-/

namespace ApiWorkbench.Editor

open Document Command

/-! ## What is asked of members -/

/-- Each member, or null in place of a missing one, is what is asked of its name. -/
def Each (ask : String → Value → Prop) (ms : Members) : Prop :=
  ∀ name : String, ask name (Members.valueAt name ms)

namespace Each

variable {ask : String → Value → Prop} {ms : Members}

theorem put (h : Each ask ms) (name : String) {v : Value} (hv : ask name v) :
    Each ask (Members.put (.str name) v ms) := by
  intro a
  rw [Members.valueAt, Members.get?_put]
  split
  · subst a
    exact hv
  · exact h a

theorem erase (h : Each ask ms) (name : String) (hnull : ask name .null) :
    Each ask (Members.erase (.str name) ms) := by
  intro a
  rw [Members.valueAt, Members.get?_erase]
  split
  · subst a
    exact hnull
  · exact h a

end Each

/-- A blank value or an object: there are members to be read, or none. -/
def IsMap (v : Value) : Prop :=
  ∃ ms, v.orElse .emptyObject = .object ms

/-- What is asked of a value under a name that a command can have. No command
has a torn text. -/
def Addressed (P : Value → Prop) (name : Scalar) (v : Value) : Prop :=
  name.isTorn = false → P v

/-- A map whose values have a property where commands can name them. -/
def IsMapOf (P : Value → Prop) (v : Value) : Prop :=
  ∃ ms, v.orElse .emptyObject = .object ms ∧ Members.All (Addressed P) ms

/-- A blank value or one with items. -/
def IsList (v : Value) : Prop :=
  Succeeds v.itemsOrNone

/-- A list whose items have a property. -/
def IsListOf (P : Value → Prop) (v : Value) : Prop :=
  ∃ xs, v.itemsOrNone = .ok xs ∧ ∀ x ∈ xs, P x

/-- Something that can be taken for members. -/
def MakesMembers (v : Value) : Prop :=
  Succeeds (v.orElse .emptyObject).toMembers

section

variable {P : Value → Prop} {ms : Members}

theorem orElse_object (ms : Members) :
    (Value.object ms).orElse .emptyObject = .object ms := by
  unfold Tree.orElse
  split
  · exact (object_of_isBlank ‹_›).symm
  · rfl

theorem isMap_object (ms : Members) : IsMap (.object ms) := ⟨ms, orElse_object ms⟩

theorem isMapOf_object (h : Members.All (Addressed P) ms) : IsMapOf P (.object ms) :=
  ⟨ms, orElse_object ms, h⟩

theorem isMapOf_null : IsMapOf P .null := ⟨[], rfl, fun e he => by simp at he⟩

theorem IsMapOf.isMap {v : Value} (h : IsMapOf P v) : IsMap v := h.imp fun _ h => h.1

theorem makesMembers_object (ms : Members) : MakesMembers (.object ms) := by
  rw [MakesMembers, orElse_object]
  exact succeeds_ok ms

theorem IsMap.makesMembers {v : Value} (h : IsMap v) : MakesMembers v := by
  obtain ⟨ms, hms⟩ := h
  rw [MakesMembers, hms]
  exact succeeds_ok ms

theorem isListOf_list {xs : List Value} (h : ∀ x ∈ xs, P x) : IsListOf P (.list xs) :=
  ⟨xs, itemsOrNone_list xs, h⟩

theorem isList_list (xs : List Value) : IsList (.list xs) := ⟨xs, itemsOrNone_list xs⟩

/-- Putting a value with a property keeps it a property of all values. -/
theorem all_put {name : Scalar} {v : Value} (h : Members.All (Addressed P) ms)
    (hv : P v) :
    Members.All (Addressed P) (Members.put name v ms) :=
  h.put_of_forall name fun _ _ => hv

/-- What is found under a name that a command can have. -/
theorem value_of_addressed {name : Scalar}
    {v : Value} (h : Members.All (Addressed P) ms) (hname : name.isTorn = false)
    (hget : Members.get? name ms = some v) : P v := by
  obtain ⟨k, hsame, hmem⟩ := Members.mem_of_get? hget
  exact h _ hmem ((Scalar.isTorn_eq_of_same hsame).trans hname)

theorem respectsNames_addressed : Members.RespectsNames (Addressed P) := by
  intro k name v hsame hv hwhole
  exact hv ((Scalar.isTorn_eq_of_same hsame).symm.trans hwhole)

theorem all_rename? {old new : String} {ns : Members} (h : Members.All (Addressed P) ms)
    (hns : Members.rename? (.str old) (.str new) ms = some ns) :
    Members.All (Addressed P) ns :=
  h.rename? respectsNames_addressed hns fun _ hv _ => hv rfl

end

/-- A server, whose variables can be taken for members. -/
def ServerUsable (v : Value) : Prop :=
  ∃ server, v = .object server ∧ MakesMembers (Members.valueAt "variables" server)

/-- What has a content has one that can be taken for members. -/
def ContentUsable (v : Value) : Prop :=
  ∀ holder, v = .object holder → MakesMembers (Members.valueAt "content" holder)

/-- What is asked of a member of an operation. -/
def OperationMemberUsable (name : String) (v : Value) : Prop :=
  match name with
  | "parameters" => IsList v
  | "responses" => IsMapOf ContentUsable v
  | "requestBody" => ContentUsable v
  | "callbacks" => MakesMembers v
  | _ => True

/-- A usable operation. -/
abbrev OperationUsable (op : Members) : Prop :=
  Each OperationMemberUsable op

/-- What is asked of a member of a path item: that it is a usable operation, if it is
one. -/
def ItemMemberUsable (name : Scalar) (v : Value) : Prop :=
  isMethod name = true → ∀ op, v = .object op → OperationUsable op

/-- A path item whose operations are usable. -/
abbrev ItemUsable (item : Members) : Prop :=
  Members.All ItemMemberUsable item

/-- A path item, if it is one, has usable operations. -/
def PathUsable (v : Value) : Prop :=
  ∀ item, v = .object item → ItemUsable item

/-- A flow whose scopes can be listed. -/
def ListsScopes (flow : Value) : Prop :=
  ∃ ms, flow.membersOrNone = .ok ms ∧ Succeeds (Members.mapAt "scopes" ms).items

/-- The flows of a scheme are a map, those that can be edited have maps of scopes, and
if the scheme is one of OAuth all of them can be listed. -/
structure FlowsUsable (scheme flows : Members) : Prop where
  scopes : ∀ (flow : Flow) ms, Members.get? flow.name flows = some (.object ms) →
    IsMap (Members.valueAt "scopes" ms)
  listed : (Members.valueAt "type" scheme).isText "oauth2" = true → ∀ e ∈ flows,
    ListsScopes e.2

/-- A security scheme with flows that can be edited. -/
def SchemeUsable (scheme : Members) : Prop :=
  ∃ flows, Members.mapAt "flows" scheme = .object flows ∧ FlowsUsable scheme flows

/-- What is asked of a member of the components. -/
def ComponentUsable (name : String) (v : Value) : Prop :=
  match name with
  | "schemas" => IsMap v
  | "securitySchemes" =>
      IsMapOf (fun v => ∃ scheme, v = .object scheme ∧ SchemeUsable scheme) v
  | _ => True

/-- What is asked of a member of a document. -/
def PartUsable (name : String) (v : Value) : Prop :=
  match name with
  | "servers" => IsListOf ServerUsable v
  | "tags" => IsList v
  | "security" => IsListOf (fun v => v.isObject = true) v
  | "paths" => IsMapOf PathUsable v
  | "components" =>
      ∃ components, v.orElse .emptyObject = .object components ∧
        Each ComponentUsable components
  | _ => True

/-- A document all of whose parts are what the edits take them for. -/
abbrev Usable (ms : Members) : Prop :=
  Each PartUsable ms

theorem operationMemberUsable_null (name : String) :
    OperationMemberUsable name .null := by
  unfold OperationMemberUsable
  split
  · exact succeeds_ok []
  · exact isMapOf_null
  · intro holder h
    simp at h
  · exact succeeds_ok []
  · trivial

/-! ## Edits that come to an end -/

namespace Edit

/-- An edit comes to an end on members with a property, and keeps it. -/
structure Applies (P : Members → Prop) (e : Edit Unit) : Prop where
  succeeds : ∀ ms, P ms → Succeeds (e ms)
  keeps : Keeps P e

section

variable {P Q : Members → Prop} {name : Scalar} {e : Edit Unit}

/-- An edit of a part comes to an end if it does on what is there. -/
theorem Applies.within
    (hread : ∀ ms inner, P ms → Members.get? name ms = some (.object inner) → Q inner)
    (hput : ∀ ms inner, P ms → Q inner → P (Members.put name (.object inner) ms))
    (he : Applies Q e) :
    Applies P (Edit.within name e) where
  succeeds ms hms := by
    unfold Edit.within
    split
    · rename_i mark inner hget
      obtain ⟨result, hresult⟩ := he.succeeds inner (hread ms inner hms hget)
      rw [succeeds_bind]
      refine ⟨result, hresult, ?_⟩
      cases result <;> exact succeeds_ok _
    · exact succeeds_ok none
  keeps := he.keeps.within hread hput

/-- An edit of a map comes to an end if there is one and it does on its members. -/
theorem Applies.withinMap
    (hread : ∀ ms, P ms → ∃ inner, Members.mapAt name ms = .object inner ∧ Q inner)
    (hput : ∀ ms inner, P ms → Q inner → P (Members.put name (.object inner) ms))
    (he : Applies Q e) :
    Applies P (Edit.withinMap name e) where
  succeeds ms hms := by
    obtain ⟨inner, hinner, hQ⟩ := hread ms hms
    obtain ⟨result, hresult⟩ := he.succeeds inner hQ
    rw [Edit.withinMap, hinner]
    refine succeeds_bind.mpr ⟨inner, rfl, succeeds_bind.mpr ⟨result, hresult, ?_⟩⟩
    cases result <;> exact succeeds_ok _
  keeps := by
    refine he.keeps.withinMap (fun ms inner hms hinner => ?_) hput
    obtain ⟨inner', hinner', hQ⟩ := hread ms hms
    rw [hinner'] at hinner
    obtain rfl := Except.ok.inj hinner
    exact hQ

/-- An edit whose result is known comes to an end, and keeps what the result has. -/
theorem Applies.of_result
    (h : ∀ ms, P ms → ∃ result, e ms = .ok result ∧ ∀ ms', result = some ms' → P ms') :
    Applies P e where
  succeeds ms hms := by
    obtain ⟨result, hresult, -⟩ := h ms hms
    exact ⟨result, hresult⟩
  keeps ms ms' hms hedit := by
    obtain ⟨result, hresult, hkept⟩ := h ms hms
    rw [hresult, Except.ok.injEq] at hedit
    exact hkept ms' hedit

end

/-! ### Lists and maps -/

section

variable {ms : Members} {name entry base : String} {v : Value}

theorem append_succeeds (h : IsList (Members.valueAt name ms)) :
    Succeeds (append name v ms) := by
  obtain ⟨xs, hxs⟩ := h
  exact succeeds_bind.mpr ⟨xs, hxs, succeeds_ok _⟩

theorem removeItem_succeeds {index : Int} (h : IsList (Members.valueAt name ms)) :
    Succeeds (removeItem name index ms) := by
  obtain ⟨xs, hxs⟩ := h
  exact succeeds_bind.mpr ⟨xs, hxs, succeeds_ok _⟩

/-- A member that is there can be renamed. -/
theorem renamed_succeeds {old : String} (new : String)
    (h : Members.contains old ms = true) :
    Succeeds (renamed old new ms) := by
  obtain ⟨w, hw⟩ := Option.isSome_iff_exists.mp h
  rw [renamed, Members.rename?, hw]
  exact succeeds_ok _

variable (h : IsMap (Members.valueAt name ms))
include h

theorem addEntry_succeeds : Succeeds (addEntry name base v ms) := by
  obtain ⟨inner, hinner⟩ := h
  rw [addEntry, Members.mapAt, hinner]
  exact succeeds_ok _

theorem renameEntry_succeeds {old new : String} :
    Succeeds (renameEntry name old new ms) := by
  obtain ⟨inner, hinner⟩ := h
  rw [renameEntry, Members.mapAt, hinner]
  split
  · exact succeeds_ok _
  · refine succeeds_bind.mpr ⟨Members.contains old inner, rfl, ?_⟩
    split
    · obtain ⟨inner', hinner'⟩ := renamed_succeeds new ‹_›
      exact succeeds_bind.mpr ⟨inner, rfl,
        succeeds_bind.mpr ⟨inner', hinner', succeeds_ok _⟩⟩
    · exact succeeds_ok _

theorem removeEntry_succeeds : Succeeds (removeEntry name entry ms) := by
  obtain ⟨inner, hinner⟩ := h
  rw [removeEntry, Members.mapAt, hinner]
  refine succeeds_bind.mpr ⟨Members.contains entry inner, rfl, ?_⟩
  split <;> exact succeeds_ok _

theorem duplicateEntry_succeeds {copy : Value → Value} :
    Succeeds (duplicateEntry copy name base entry ms) := by
  obtain ⟨inner, hinner⟩ := h
  rw [duplicateEntry, Members.mapAt, hinner]
  refine succeeds_bind.mpr ⟨Members.contains entry inner, rfl, ?_⟩
  split <;> exact succeeds_ok _

end

end Edit

end ApiWorkbench.Editor
