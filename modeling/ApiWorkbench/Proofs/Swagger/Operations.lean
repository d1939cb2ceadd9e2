import ApiWorkbench.Proofs.Swagger.Conversion

/-!
# Operations after conversion

Some members of an operation mean the same in both formats. Conversion builds an
operation anew from those that it names, and completion fills in what is missing
afterwards. The external documents of an operation are not among the members that are
named, unlike those of the document, so an empty object takes their place.

## Main results

* `convertDocument_operations`: what a converted document keeps of an operation.
* `externalDocs_lost`: an operation that loses its external documents.
-/

namespace ApiWorkbench.Swagger

open Document Members

/-- The members of an operation that mean the same in both formats. -/
def commonMembers : List String :=
  ["summary", "description", "externalDocs", "operationId", "tags",
    "deprecated", "security"]

/-- An operation has under a name what another one has, unless that is blank. -/
def KeepsMember (op op' : Members) (name : String) : Prop :=
  ∀ v, get? name op = some v → v.isBlank = false → get? name op' = some v

theorem fieldOf_of_get? {ms : Members} {name : String} {v : Value}
    (h : get? name ms = some v) :
    fieldOf ms name = v := by
  rw [fieldOf, h, Option.getD_some]

section

variable {document : Value} {inside : Members → Members → Prop}
  {item op converted operations op' : Members} {parameters : List Members}
  {name : String} {v : Value}

/-- A member that is taken over, and that completion does not look at, is there if
it is not null. -/
theorem get?_carried (hmade : ConvertedFrom document item op parameters converted)
    (hcompleted : OperationCompleted inside operations converted op')
    (hname : name ∈ carriedMembers)
    (htags : name ≠ "tags") (hv : get? name op = some v) (hnull : v ≠ .null) :
    get? name op' = some v := by
  have hothers : name ∉ ["tags", "parameters", "externalDocs", "callbacks"] := by
    simp only [carriedMembers, List.mem_cons, List.not_mem_nil, or_false] at hname
    rcases hname with rfl | rfl | rfl | rfl | rfl | rfl <;> simp at htags ⊢
  rw [hcompleted.get?_eq hothers]
  exact get?_of_fieldOf ((hmade.carried name hname).trans (fieldOf_of_get? hv)) hnull

/-- Tags are taken over, and completion leaves them unless they are blank. -/
theorem keepsMember_tags (hmade : ConvertedFrom document item op parameters converted)
    (hcompleted : OperationCompleted inside operations converted op') :
    KeepsMember op op' "tags" := by
  intro v hv hblank
  have hcarried : valueAt "tags" converted = v :=
    (hmade.carried "tags" (by simp [carriedMembers])).trans (fieldOf_of_get? hv)
  rw [hcompleted.tags, hcarried, Tree.orElse, hblank]
  rfl

/-- No external documents are taken over, so completion makes empty ones. -/
theorem externalDocs_of_converted
    (hmade : ConvertedFrom document item op parameters converted)
    (hcompleted : OperationCompleted inside operations converted op') :
    get? "externalDocs" op' = some .emptyObject := by
  rw [hcompleted.externalDocs, valueAt, hmade.noExternalDocs]
  rfl

end

private theorem carried_of_common : ∀ name ∈ commonMembers,
    name = "externalDocs" ∨ name = "tags" ∨
      (name ∈ carriedMembers ∧ name ≠ "tags") := by
  decide

/-- Every operation of a legacy document is there after conversion, under its path and
its method. It has the same summary, description, identifier, security and mark of being
deprecated, if they are not null, and the same tags, if there are any. Its external
documents are empty: so all that means the same in both formats is kept exactly if the
operation had none. -/
theorem convertDocument_operations {ms ns item op : Members} {path : Scalar}
    {method : Method} (h : convertDocument (.object ms) = .ok (.object ns))
    (hop : OperationAt ms path method item op) :
    ∃ item' op', OperationAt ns path method item' op' ∧
      (∀ name ∈ carriedMembers, name ≠ "tags" →
        ∀ v, get? name op = some v → v ≠ .null → get? name op' = some v) ∧
      KeepsMember op op' "tags" ∧ get? "externalDocs" op' = some .emptyObject ∧
      ((∀ name ∈ commonMembers, KeepsMember op op' name) ↔
        (fieldOf op "externalDocs").isBlank = true) := by
  obtain ⟨parameters, operations, converted, item', op', hmade, hcompleted, -, hop'⟩ :=
    operationAt_convertDocument h hop
  have hothers : ∀ name ∈ carriedMembers, name ≠ "tags" →
      ∀ v, get? name op = some v → v ≠ .null → get? name op' = some v :=
    fun name hname htags v => get?_carried hmade hcompleted hname htags
  have htags := keepsMember_tags hmade hcompleted
  have hdocs := externalDocs_of_converted hmade hcompleted
  refine ⟨item', op', hop', hothers, htags, hdocs, fun hkeeps =>
    ?_, fun hblank name hname v hv hnonblank => ?_⟩
  · by_contra hnonblank
    have hfound : get? "externalDocs" op = some (fieldOf op "externalDocs") := by
      refine get?_of_fieldOf rfl fun hnull => hnonblank ?_
      rw [hnull]
      rfl
    have hkept := hkeeps "externalDocs" (by simp [commonMembers]) _ hfound
      (by simpa using hnonblank)
    rw [hdocs] at hkept
    rw [← Option.some.inj hkept] at hnonblank
    exact hnonblank rfl
  · have hnull : v ≠ .null := by
      rintro rfl
      cases hnonblank
    rcases carried_of_common name hname with rfl | rfl | ⟨hcarried, hne⟩
    · rw [fieldOf_of_get? hv, hnonblank] at hblank
      cases hblank
    · exact htags v hv hnonblank
    · exact hothers name hcarried hne v hv hnull

/-- An operation with members of all these kinds. -/
private def describedGet : Members :=
  [("tags", .list ["pets"]), ("summary", "List pets"),
    ("description", "All of them"), ("operationId", "listPets"), ("externalDocs",
    .record [("url", "https://docs.example/pets")]), ("deprecated", .bool true),
    ("security", .list [.record [("key", .list [])]]), ("responses", .emptyObject)]

/-- A legacy document with that operation. -/
private def describedPets : Members :=
  [("swagger", "2.0"),
    ("paths", .record [("/pets", .record [("get", .object describedGet)])])]

private theorem describedPets_get :
    OperationAt describedPets "/pets" .get [("get", .object describedGet)]
      describedGet :=
  ⟨_, rfl, rfl, rfl⟩

/-- The operation keeps everything else, and its external documents are empty
afterwards. -/
theorem convertDocument_operations_of_described :
    ∃ ns item' op', convertDocument (.object describedPets) = .ok (.object ns) ∧
      OperationAt ns "/pets" .get item' op' ∧ get? "summary" op' = some "List pets" ∧
      get? "description" op' = some "All of them" ∧
      get? "operationId" op' = some "listPets" ∧
      get? "deprecated" op' = some (.bool true) ∧
      get? "security" op' = some (.list [.record [("key", .list [])]]) ∧
        get? "tags" op' = some (.list ["pets"]) ∧
      get? "externalDocs" op' = some .emptyObject ∧ ¬ ∀ name ∈ commonMembers,
        KeepsMember describedGet op' name := by
  obtain ⟨ns, hconverted⟩ : ∃ ns,
      convertDocument (.object describedPets) = .ok (.object ns) := ⟨_, rfl⟩
  obtain ⟨item', op', hop', hothers, htags, hdocs, hiff⟩ :=
    convertDocument_operations hconverted describedPets_get
  refine ⟨ns, item', op', hconverted, hop', hothers "summary" (by decide)
    (by decide) _ rfl nofun, hothers "description" (by decide) (by decide) _ rfl nofun,
    hothers "operationId" (by decide) (by decide) _ rfl nofun,
    hothers "deprecated" (by decide) (by decide) _ rfl nofun, hothers "security"
    (by decide) (by decide) _ rfl nofun, htags _ rfl rfl, hdocs, fun hkeeps => ?_⟩
  have hblank := hiff.mp hkeeps
  cases hblank

/-- External documents of an operation are lost: the operation that is converted has
them, and the one that it becomes does not. -/
theorem externalDocs_lost :
    ∃ ns item' op', convertDocument (.object describedPets) = .ok (.object ns) ∧
      OperationAt describedPets "/pets" .get [("get", .object describedGet)]
        describedGet ∧
      OperationAt ns "/pets" .get item' op' ∧
        ¬ KeepsMember describedGet op' "externalDocs" := by
  refine ⟨_, _, _, rfl, describedPets_get, ⟨_, rfl, rfl, rfl⟩, fun hkeeps => ?_⟩
  have hkept := hkeeps _ rfl rfl
  cases hkept

end ApiWorkbench.Swagger
