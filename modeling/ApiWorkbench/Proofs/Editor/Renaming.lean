import ApiWorkbench.Proofs.Editor.Replacing

/-!
# Renaming an entry of a map

Paths, responses, media types, callbacks, schemas and scopes are entries of maps, and
each of these maps has a command that renames its entries. The maps are at different
depths of a document, and the commands ask in different ways whether there is an entry,
but what they do is the same: the new name stands in the place of the old one, nothing
else moves, and an entry that had the new name before is gone. As long as no entry is
lost in this way, renaming back restores the document.

## Main results

* `Members.rename?_of_distinct`: what becomes of the entries.
* `RenamableMap.exists_edit`: each of the commands replaces its map by the renamed one.
* `rename_inPlace`: what becomes of the document, and the way back.
-/

namespace ApiWorkbench

namespace Members

variable {α : Type} {ms : List (Scalar × α)} {old new : String}

/-- An entry that is renamed stands where it stood, under the new name; an entry that
had this name is gone. -/
theorem rename?_of_distinct (h : Distinct ms) (hold : contains (.str old) ms = true)
    (hne : old ≠ new) :
    rename? (.str old) (.str new) ms =
      some (relabel old new (erase (.str new) ms)) := by
  have hget : get? (.str old) (erase (.str new) ms) = get? (.str old) ms := by
    rw [get?_erase, if_neg hne]
  -- Entries under the new name are skipped, whether they are taken away before or not.
  have hskip : rename? (.str old) (.str new) ms =
      rename? (.str old) (.str new) (erase (.str new) ms) := by
    rw [rename?, rename?, hget]
    refine congrArg (Option.map · _) (funext fun value => congrArg ofEntries ?_)
    rw [erase, List.filterMap_filter]
    refine List.filterMap_congr fun e _ => ?_
    obtain ⟨k, v⟩ := e
    by_cases hnew : k.same (.str new) = true
    · obtain rfl := Scalar.same_str_iff.mp hnew
      simp [Ne.symm hne]
    · simp [hnew]
  have hthere : contains (.str old) (erase (.str new) ms) = true := by
    rwa [contains, hget]
  have hfree : get? (.str new) (erase (.str new) ms) = none := by
    rw [get?_erase, if_pos rfl]
  have hdistinct : Distinct (erase (.str new) ms) := h.filter _
  rw [hskip, rename?_of_free hdistinct hthere hfree]

end Members

namespace Editor

open Address Command Document Members

/-! ## The maps -/

/-- A map of which entries can be renamed. -/
inductive RenamableMap where
  | paths
  | responses (path : String) (method : Method)
  /-- the media types of a request body or of a response -/
  | content (path : String) (method : Method) (place : ContentPlace)
  | callbacks (path : String) (method : Method)
  | schemas
  | scopes (scheme : String) (flow : Flow)

namespace RenamableMap

/-- Where a map is in a document. -/
def address : RenamableMap → Address
  | paths => [.part "paths"]
  | responses path method => operationAddress path method ++ [.part "responses"]
  | content path method place => operationAddress path method ++ contentAddress place
  | callbacks path method => operationAddress path method ++ [.part "callbacks"]
  | schemas => [.part "components", .part "schemas"]
  | scopes scheme flow =>
    [.part "components", .entry "securitySchemes", .entry scheme, .part "flows",
      .entry flow.name, .part "scopes"]

/-- The command that renames an entry of a map; a scope keeps its description. -/
def rename (old new : String) : RenamableMap → Command Unit
  | paths => .paths (.rename old new)
  | responses path method => .operation path method (.renameResponse old new)
  | content path method place => .operation path method (.renameMediaType place old new)
  | callbacks path method => .operation path method (.renameCallback old new)
  | schemas => .schemas (.rename old new)
  | scopes scheme flow => .security (.renameScope scheme flow old new none)

end RenamableMap

section

variable {entries entries' : Members} {old new : String}

/-! ## The edits -/

/-- Where an entry can be renamed there is one. -/
private theorem contains_of_rename?
    (h : rename? (.str old) (.str new) entries = some entries') :
    contains (.str old) entries = true := by
  obtain ⟨value, hvalue, -⟩ := Option.map_eq_some_iff.mp h
  rw [contains, hvalue]
  rfl

theorem replacesAt_renameEntry {step : Step}
    {name : String} (hstep : step.name? = some (.str name)) (hne : old ≠ new)
    (h : rename? (.str old) (.str new) entries = some entries') :
    (Edit.renameEntry name old new).ReplacesAt [step] entries entries' := by
  refine Edit.replacesAt_cons hstep fun v ms hget hfind => ?_
  obtain rfl : v = .object entries := Option.some.inj hfind
  rw [Edit.renameEntry, mapAt_of_object hget, if_neg (by simpa using hne), Tree.holds,
    contains_of_rename? h, pure_eq_ok, ok_bind, if_pos rfl, Tree.members, pure_eq_ok,
    ok_bind, renamed_eq_ok.mpr h]
  rfl

theorem replacesAt_renameScope
    (h : rename? (.str old) (.str new) entries = some entries') :
    (renameScope old new none).ReplacesAt [.part "scopes"] entries entries' := by
  refine Edit.replacesAt_cons rfl fun v ms hget hfind => ?_
  obtain rfl : v = .object entries := Option.some.inj hfind
  rw [renameScope, mapAt_of_object hget, Tree.holds, contains_of_rename? h, pure_eq_ok,
    ok_bind, if_pos rfl, Tree.members, pure_eq_ok, ok_bind, renamed_eq_ok.mpr h]
  rfl

/-- Entries that have become others by renaming are put where they were, though empty
ones would not be. -/
private theorem putUnlessEmpty_of_rename?
    (h : rename? (.str old) (.str new) entries = some entries')
    (name : String) (ms : Members) :
    putUnlessEmpty name entries' ms = put name (.object entries') ms := by
  rw [putUnlessEmpty, List.isEmpty_eq_false_iff.mpr (rename?_ne_nil h),
    if_neg Bool.false_ne_true]

/-- Media types and callbacks are renamed if there are any of that name. -/
private theorem renameCallback_eq (hne : old ≠ new)
    (h : rename? (.str old) (.str new) entries = some entries') :
    renameCallback old new entries = .ok (some entries') := by
  rw [renameCallback, contains_of_rename? h, if_neg (by simpa using hne),
    renamed_eq_ok.mpr h]
  rfl

theorem replacesAt_renameCallback (hne : old ≠ new)
    (h : rename? (.str old) (.str new) entries = some entries') :
    (withinCallbacks (renameCallback old new)).ReplacesAt [.part "callbacks"]
      entries entries' :=
  Edit.replacesAt_withinMembers rfl (renameCallback_eq hne h) fun op =>
    congrArg Edit.changed (putUnlessEmpty_of_rename? h _ op)

theorem replacesAt_renameMediaType (place : ContentPlace) (hne : old ≠ new)
    (h : rename? (.str old) (.str new) entries = some entries') :
    (withinContent place (renameMediaType old new)).ReplacesAt (contentAddress place)
      entries entries' := by
  have hrenamed : renameMediaType old new entries = .ok (some entries') :=
    renameCallback_eq hne h
  unfold withinContent contentAddress
  cases place.target with
  | requestBody =>
      exact .within rfl (Edit.replacesAt_withinMembers rfl hrenamed fun body => rfl)
  | response =>
      refine .withinMap rfl (.within
        rfl (Edit.replacesAt_withinMembers rfl hrenamed fun response => ?_))
      exact congrArg Edit.changed (putUnlessEmpty_of_rename? h _ response)

/-- An edit of an operation replaces what it does in the operation. -/
private theorem replacesAt_operation {address : Address} {e : Edit Unit} (path : String)
    (method : Method) (h : e.ReplacesAt address entries entries') :
    (withinPath path (.within method.name e)).ReplacesAt
      (operationAddress path method ++ address) entries entries' :=
  replacesAt_withinPath (.within rfl h)

/-- The command of each map makes an edit that replaces the map by the renamed one. -/
theorem RenamableMap.exists_edit (map : RenamableMap) (hne : old ≠ new)
    (h : rename? (.str old) (.str new) entries = some entries') :
    ∃ e, editOf (map.rename old new) = some e ∧
      e.ReplacesAt map.address entries entries' := by
  cases map with
  | paths => exact ⟨_, rfl, replacesAt_renameEntry rfl hne h⟩
  | responses path method =>
      have hedit : editOf (.operation path method (.renameResponse old new)) =
          some (editOperation id path method (.renameResponse old new)) := by
        rw [editOf, if_neg (by simpa [renamesToItself] using hne)]
      exact ⟨_, hedit,
        replacesAt_operation path method (replacesAt_renameEntry rfl hne h)⟩
  | content path method place =>
      exact ⟨_, rfl,
        replacesAt_operation path method (replacesAt_renameMediaType place hne h)⟩
  | callbacks path method =>
      exact ⟨_, rfl, replacesAt_operation path method (replacesAt_renameCallback hne h)⟩
  | schemas => exact ⟨_, rfl, .withinMap rfl (replacesAt_renameEntry rfl hne h)⟩
  | scopes scheme flow =>
      refine ⟨_, rfl,
        .withinMap rfl (.withinMap rfl (.within rfl (.withinMap rfl (.within rfl ?_))))⟩
      exact replacesAt_renameScope h

/-! ## The commands -/

/-- An entry of a map is renamed to a name that is free: the map keeps the number, the
order and the values of its entries and has the new name where the old one was, and
renaming it back restores the state. If there is an entry under the new name, this one
disappears, and the renamed entry and all others keep their places and values. -/
theorem rename_inPlace {state : State Unit} {map : RenamableMap}
    (hmap : find? map.address state.document = some (.object entries))
    (hdistinct : Distinct entries)
    (hold : contains old entries = true) (hne : old ≠ new) :
    (contains new entries = false →
      ∃ next, state.apply (map.rename old new) = .ok next ∧
        next = state.withDocument
          (replaceAt map.address (.object (relabel old new entries)) state.document) ∧
        next.apply (map.rename new old) = .ok state) ∧
      (contains new entries = true →
        state.apply (map.rename old new) = .ok (state.withDocument
          (replaceAt map.address (.object (relabel old new (erase new entries)))
            state.document))) := by
  have hrenamed := rename?_of_distinct hdistinct hold hne
  constructor
  · intro hnew
    have hfree : get? (.str new) entries = none := by simpa [contains] using hnew
    have hthere : contains (.str new) (relabel old new entries) = true := by
      rwa [contains, get?_relabel hfree, if_pos rfl]
    have hgone : get? (.str old) (relabel old new entries) = none := by
      rw [get?_relabel hfree, if_neg hne, if_pos rfl]
    have hback := rename?_of_free (hdistinct.relabel hfree) hthere hgone
    rw [erase_of_absent hfree] at hrenamed
    rw [relabel_relabel hfree] at hback
    obtain ⟨e, he, hreplaces⟩ := map.exists_edit hne hrenamed
    obtain ⟨e', he', hreplaces'⟩ := map.exists_edit hne.symm hback
    exact ⟨_, apply_of_replacesAt he hreplaces hmap, rfl,
      apply_back he' hreplaces' hmap⟩
  · intro _
    obtain ⟨e, he, hreplaces⟩ := map.exists_edit hne hrenamed
    exact apply_of_replacesAt he hreplaces hmap

end

/-- A document with one response, which has this content. -/
private def petsDocument (content : Members) : Value :=
  .record [("openapi", .str "3.0.3"),
    ("paths", .record [("/pets", .record [("summary", .str "Pets"),
    ("get", .record [("responses", .record [("200", .record [("description", .str "OK"),
    ("content", .object content), ("headers", .emptyObject)])])])])])]

/-- Pets in three media types. -/
private def petsContent : Members :=
  [("application/json", .str "as JSON"), ("text/plain", .str "as text"),
    ("application/xml", .str "as XML")]

/-- The content of the response. -/
private def petsMap : RenamableMap :=
  .content "/pets" .get ⟨.response, some "200"⟩

/-- The second media type is renamed in its place and back; the third one is renamed to
the first one, which is gone afterwards. -/
theorem rename_inPlace_of_content :
    find? petsMap.address (petsDocument petsContent) = some (.object petsContent) ∧
      Distinct petsContent ∧
      (∃ next, (State.ofDocument (petsDocument petsContent)).apply
        (petsMap.rename "text/plain" "text/csv") = .ok next ∧
        next = State.ofDocument (petsDocument [("application/json", .str "as JSON"),
          ("text/csv", .str "as text"), ("application/xml", .str "as XML")]) ∧
        next.apply (petsMap.rename "text/csv" "text/plain") =
          .ok (State.ofDocument (petsDocument petsContent))) ∧
      (State.ofDocument (petsDocument petsContent)).apply (petsMap.rename
        "application/xml" "application/json") = .ok (State.ofDocument (petsDocument
        [("text/plain", .str "as text"), ("application/json", .str "as XML")])) := by
  have hmap :
      find? petsMap.address (State.ofDocument (petsDocument petsContent)).document =
      some (.object petsContent) := rfl
  have hdistinct : Distinct petsContent := by simp [petsContent, Distinct]
  refine ⟨hmap, hdistinct, ?_, ?_⟩
  · exact (rename_inPlace hmap hdistinct (by decide) (by decide)).1 (by decide)
  · exact (rename_inPlace hmap hdistinct (by decide) (by decide)).2 (by decide)

end Editor

end ApiWorkbench
