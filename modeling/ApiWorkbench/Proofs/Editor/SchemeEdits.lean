import ApiWorkbench.Proofs.Editor.Edit
import ApiWorkbench.Proofs.Names

/-!
# Security schemes and requirements in step

The security schemes of a document are a map, and its requirements are a list of maps,
each of which may name several schemes. Renaming a scheme is one edit of all these maps.
To a name that none of them has it is done in place: every map keeps the number and the
order of its entries and what stands in them, and has the new name where the old one
was. Renaming back restores the document then.

Taking a scheme away leaves the other schemes and the requirements that do not name it.

## Main results

* `renameScheme_of_free`: what becomes of a document when a scheme is renamed
  to a free name.
* `removeScheme_of_parts`: what becomes of it when a scheme is taken away.
* `schemeEdits_inStep`: both as commands, with the way back.
-/

namespace ApiWorkbench.Editor

open Members

/-- A document has these requirements, and these schemes among its components. As in
every object that is read from a text, the names in each of them are different. -/
structure SecurityParts (ms : Members) (requirements : List Members)
    (components schemes : Members) : Prop where
  atSecurity : get? "security" ms = some (.list (requirements.map .object))
  atComponents : get? "components" ms = some (.object components)
  atSchemes : get? "securitySchemes" components = some (.object schemes)
  requirementsDistinct : ∀ requirement ∈ requirements, Distinct requirement
  schemesDistinct : Distinct schemes

/-- The document with other requirements and schemes. -/
def withSecurity (requirements : List Members) (components schemes ms : Members) :
    Members :=
  put "components" (.object (put "securitySchemes" (.object schemes) components))
    (put "security" (.list (requirements.map .object)) ms)

section

variable {ms components schemes schemes' : Members}
  {requirements requirements' : List Members} {old new : String}

namespace SecurityParts

/-- The schemes are those that the editor finds. -/
theorem exists_schemesOf (h : SecurityParts ms requirements components schemes) :
    ∃ found : Value, schemesOf ms = .ok found ∧ found.members = .ok schemes ∧
      ∀ name, found.holds name = .ok (contains (.str name) schemes) := by
  refine ⟨mapAt "securitySchemes" components, ?_, members_mapAt_of_object h.atSchemes,
    fun name => ?_⟩
  · rw [schemesOf, members_mapAt_of_object h.atComponents]
    rfl
  · rw [mapAt, valueAt, h.atSchemes]
    cases schemes <;> rfl

theorem putSchemes_eq (h : SecurityParts ms requirements components schemes) :
    putSchemes schemes' (putList "security" (requirements'.map .object) ms) =
      .ok (withSecurity requirements' components schemes' ms) := by
  have hcomponents :
      get? "components" (putList "security" (requirements'.map .object) ms) =
      some (.object components) := by
    rw [putList, get?_put, if_neg (by decide), h.atComponents]
  rw [putSchemes, members_mapAt_of_object hcomponents]
  rfl

/-- The requirements and the schemes may be replaced by others with different names. -/
theorem replaced (hrequirements : ∀ requirement ∈ requirements', Distinct requirement)
    (hschemes : Distinct schemes') :
    SecurityParts (withSecurity requirements' components schemes' ms) requirements'
      (put "securitySchemes" (.object schemes') components) schemes' where
  atSecurity := by rw [withSecurity, get?_put, if_neg (by decide), get?_put, if_pos rfl]
  atComponents := by rw [withSecurity, get?_put, if_pos rfl]
  atSchemes := by rw [get?_put, if_pos rfl]
  requirementsDistinct := hrequirements
  schemesDistinct := hschemes

/-- When the requirements and the schemes are put back, the document is as it was. -/
theorem putBack (h : SecurityParts ms requirements components schemes) :
    withSecurity requirements (put "securitySchemes" (.object schemes') components)
      schemes (withSecurity requirements' components schemes' ms) = ms := by
  have hsecurity :
      get? "security" (put "security" (.list (requirements'.map .object)) ms) =
      some (.list (requirements'.map .object)) := by
    rw [get?_put, if_pos rfl]
  rw [withSecurity, withSecurity, put_put, put_of_get? h.atSchemes, put_comm (by decide)
    hsecurity, put_put, put_put, put_of_get? h.atSecurity, put_of_get? h.atComponents]

end SecurityParts

/-! ## Taking a scheme away -/

/-- The requirements that do not name a scheme are chosen in order. -/
theorem filterM_unnamed (requirements : List Members) (name : String) :
    (requirements.map Tree.object).filterM
      (fun requirement : Value => do pure !(← requirement.holds name)) = .ok
      ((requirements.filter fun requirement => !contains (.str name) requirement).map
      .object) := by
  rw [filterM_eq_filter (p := fun requirement : Value =>
    requirement.members.toOption.any (!contains (.str name) ·))]
  · rw [List.filter_map]
    rfl
  · intro v hv
    obtain ⟨requirement, -, rfl⟩ := List.mem_map.mp hv
    rfl

/-- Taking a scheme away leaves the other schemes and the requirements that
do not name it. -/
theorem removeScheme_of_parts (h : SecurityParts ms requirements components schemes)
    (name : String) :
    removeScheme name ms =
      .ok (some (withSecurity (requirements.filter fun requirement =>
      !contains name requirement) components (erase name schemes) ms)) := by
  obtain ⟨found, hfound, hschemes, -⟩ := h.exists_schemesOf
  rw [removeScheme, hfound, ok_bind, hschemes, ok_bind, listAt_of_list h.atSecurity,
    ok_bind, filterM_unnamed, ok_bind, h.putSchemes_eq, ok_bind]
  rfl

/-! ## Renaming a scheme -/

/-- In a requirement that does not name the new scheme the old one is renamed in place,
if it is named. -/
theorem renameInRequirement_of_free {requirement : Members} (h : Distinct requirement)
    (hnew : get? (.str new) requirement = none) :
    renameInRequirement old new (.object requirement) =
      .ok (.object (relabel old new requirement)) := by
  have hholds : (Tree.object requirement : Value).holds old =
      .ok (contains (.str old) requirement) := rfl
  rw [renameInRequirement, hholds, ok_bind]
  split
  · rename_i hold
    have hrenamed : renamed old new requirement = .ok (relabel old new requirement) :=
      renamed_eq_ok.mpr (rename?_of_free h hold hnew)
    have hmembers : (Tree.object requirement : Value).members = .ok requirement := rfl
    rw [hmembers, ok_bind, hrenamed]
    rfl
  · rename_i hold
    rw [relabel_of_absent (by simpa [contains] using hold)]
    rfl

/-- A scheme is renamed to a name that no scheme and no requirement has: in place, in
the map of schemes and in all requirements. -/
theorem renameScheme_of_free (h : SecurityParts ms requirements components schemes)
    (hold : contains (.str old) schemes = true) (hne : old ≠ new)
    (hnew : get? (.str new) schemes = none)
    (hfree : ∀ requirement ∈ requirements, get? (.str new) requirement = none) :
    renameScheme old new ms = .ok (some (withSecurity (requirements.map
      (relabel old new)) components (relabel old new schemes) ms)) := by
  obtain ⟨found, hfound, hschemes, hholds⟩ := h.exists_schemesOf
  have hrequirements :
      (requirements.map Tree.object).mapM (renameInRequirement old new) =
      .ok ((requirements.map (relabel old new)).map .object) := by
    rw [mapM_eq_ok_iff, List.forall₂_map_left_iff, List.forall₂_map_right_iff,
      List.forall₂_map_right_iff, List.forall₂_same]
    exact fun requirement hmem =>
      renameInRequirement_of_free (h.requirementsDistinct _ hmem) (hfree _ hmem)
  have hrenamed : renamed old new schemes = .ok (relabel old new schemes) :=
    renamed_eq_ok.mpr (rename?_of_free h.schemesDistinct hold hnew)
  rw [renameScheme, hfound, ok_bind, if_neg (by simpa using hne), hholds, ok_bind,
    if_pos hold, listAt_of_list h.atSecurity, ok_bind, hrequirements, ok_bind, hschemes,
    ok_bind, hrenamed, ok_bind, h.putSchemes_eq, ok_bind]
  rfl

/-- Renaming back restores the document. -/
theorem renameScheme_back (h : SecurityParts ms requirements components schemes)
    (hold : contains (.str old) schemes = true) (hne : old ≠ new)
    (hnew : get? (.str new) schemes = none)
    (hfree : ∀ requirement ∈ requirements, get? (.str new) requirement = none) :
    renameScheme new old (withSecurity (requirements.map (relabel old new)) components
      (relabel old new schemes) ms) = .ok (some ms) := by
  have hdistinct : ∀ requirement ∈ requirements.map (relabel old new),
      Distinct requirement :=
    List.forall_mem_map.mpr fun requirement hmem =>
      (h.requirementsDistinct _ hmem).relabel (hfree _ hmem)
  have hthere : contains (.str new) (relabel old new schemes) = true := by
    rwa [contains, get?_relabel hnew, if_pos rfl]
  have hgone : ∀ ns : Members, get? (.str new) ns = none →
      get? (.str old) (relabel old new ns) = none := by
    intro ns hns
    rw [get?_relabel hns, if_neg hne, if_pos rfl]
  have hgones : ∀ requirement ∈ requirements.map (relabel old new),
      get? (.str old) requirement = none :=
    List.forall_mem_map.mpr fun requirement hmem => hgone _ (hfree _ hmem)
  have hback : (requirements.map (relabel old new)).map (relabel new old) =
      requirements := by
    rw [List.map_map]
    exact (List.map_congr_left fun requirement hmem =>
      relabel_relabel (hfree _ hmem)).trans (List.map_id _)
  have hschemes : Distinct (relabel old new schemes) := h.schemesDistinct.relabel hnew
  rw [renameScheme_of_free (SecurityParts.replaced hdistinct hschemes) hthere hne.symm
    (hgone _ hnew) hgones, hback, relabel_relabel hnew, h.putBack]

end

/-! ## The commands -/

/-- Renaming a security scheme to a name that is free in the schemes and in the
requirements of the document keeps the number and the order of both, and renames it in
place wherever it is named; renaming it back restores the state. Taking a scheme away
leaves the other schemes and the requirements that do not name it, in order. -/
theorem schemeEdits_inStep {state : State Unit} {ms components schemes : Members}
    {requirements : List Members} (hdocument : state.document = .object ms)
    (h : SecurityParts ms requirements components schemes) :
    (∀ old new : String, contains old schemes = true → old ≠ new →
      contains new schemes = false →
      (∀ requirement ∈ requirements, contains new requirement = false) →
        ∃ next, state.apply (.security (.rename old new)) = .ok next ∧
          next = state.withDocument (.object (withSecurity (requirements.map
            (relabel old new)) components (relabel old new schemes) ms)) ∧
          next.apply (.security (.rename new old)) = .ok state) ∧
      ∀ name : String, state.apply (.security (.remove name)) = .ok (state.withDocument
        (.object (withSecurity (requirements.filter fun requirement => !contains name
        requirement) components (schemes.filter fun e => !e.1.same name) ms))) := by
  have happly :
      ∀ (e : Command.SecurityEdit Unit) (state : State Unit) (ms ns : Members),
      state.document = .object ms → editSecurity e ms = .ok (some ns) →
        state.apply (.security e) = .ok (state.withDocument (.object ns)) := by
    intro e state ms ns hdocument hedit
    show state.edit (editSecurity e) = _
    rw [State.edit, hdocument]
    show editSecurity e ms >>= _ = _
    rw [hedit]
    rfl
  constructor
  · intro old new hold hne hnew hfree
    have habsent : ∀ ns : Members, contains new ns = false →
        get? (.str new) ns = none := fun ns hns => by
      simpa [contains] using hns
    have hfree' : ∀ requirement ∈ requirements, get? (.str new) requirement = none :=
      fun requirement hmem => habsent _ (hfree _ hmem)
    refine ⟨_, happly _ _ _ _ hdocument
      (renameScheme_of_free h hold hne (habsent _ hnew) hfree'), rfl, ?_⟩
    have hback := happly (.rename new old) (state.withDocument (.object (withSecurity
      (requirements.map (relabel old new)) components (relabel old new schemes) ms)))
        _ _ rfl (renameScheme_back h hold hne (habsent _ hnew) hfree')
    rw [hback]
    obtain ⟨document, snapshot⟩ := state
    obtain rfl : document = .object ms := hdocument
    rfl
  · exact fun name => happly _ _ _ _ hdocument (removeScheme_of_parts h name)

/-- A key, and a login together with the key. -/
private def keyRequirements : List Members :=
  [[("key", .list [])], [("login", .list [.str "read"]), ("key", .list [])],
    [("login", .list [])]]

/-- The schemes for a key and for a login. -/
private def keySchemes : Members :=
  [("key", .record [("type", .str "apiKey")]),
    ("login", .record [("type", .str "oauth2")])]

private def keyDocument : Members :=
  [("openapi", .str "3.0.3"), ("security", .list (keyRequirements.map .object)),
    ("components",
      .object [("schemas", .emptyObject), ("securitySchemes", .object keySchemes)])]

/-- The key is renamed among the schemes and in two requirements, of which one names the
login, too; without the key one requirement is left. -/
theorem schemeEdits_inStep_of_key :
    SecurityParts keyDocument keyRequirements
      [("schemas", .emptyObject), ("securitySchemes", .object keySchemes)] keySchemes ∧
      (∃ next, (State.ofDocument (.object keyDocument)).apply
        (.security (.rename "key" "token")) = .ok next ∧
        next = State.ofDocument (.record [("openapi", .str "3.0.3"),
          ("security", .list [.record [("token", .list [])],
            .record [("login", .list [.str "read"]), ("token", .list [])],
              .record [("login", .list [])]]),
          ("components", .record [("schemas", .emptyObject), ("securitySchemes", .record
            [("token", .record [("type", .str "apiKey")]),
              ("login", .record [("type", .str "oauth2")])])])]) ∧
        next.apply (.security (.rename "token" "key")) =
          .ok (State.ofDocument (.object keyDocument))) ∧
      (State.ofDocument (.object keyDocument)).apply (.security (.remove "key")) =
        .ok (State.ofDocument (.record [("openapi", .str "3.0.3"),
          ("security", .list [.record [("login", .list [])]]),
          ("components", .record [("schemas", .emptyObject), ("securitySchemes", .record
            [("login", .record [("type", .str "oauth2")])])])])) := by
  have hparts : SecurityParts keyDocument keyRequirements
      [("schemas", .emptyObject), ("securitySchemes", .object keySchemes)] keySchemes :=
    ⟨rfl, rfl, rfl, by simp [keyRequirements, Distinct], by simp [keySchemes, Distinct]⟩
  have hdocument : (State.ofDocument (.object keyDocument)).document =
      .object keyDocument := rfl
  obtain ⟨hrename, hremove⟩ := schemeEdits_inStep hdocument hparts
  obtain ⟨next, hnext, hrenamed, hback⟩ :=
    hrename "key" "token" rfl (by decide) rfl (by decide)
  exact ⟨hparts, ⟨next, hnext, hrenamed, hback⟩, hremove "key"⟩

end ApiWorkbench.Editor
