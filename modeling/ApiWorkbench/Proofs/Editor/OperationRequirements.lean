import ApiWorkbench.Proofs.Document.OperationPlaces
import ApiWorkbench.Proofs.Editor.Replacing
import ApiWorkbench.Proofs.Editor.Requirements

/-!
# Requirements of operations

An operation may have security requirements of its own, which stand in for those of the
document. They name schemes as well, but taking a scheme away or renaming it rewrites
the requirements of the document only: no edit of schemes looks at an operation. So the
requirements of the document go on naming schemes that are there, and those of
operations are left as they are. They all go on naming schemes that are there exactly if
none of them names the one that is gone.

## Main results

* `removeScheme_gone`, `renameScheme_gone`: which names are schemes after such an edit.
* `allRequirementsMet_iff_of_gone`: when the requirements of operations survive the loss
  of one scheme.
* `schemeEdit_met_iff`: what becomes of all requirements when a scheme is taken
  away or renamed.
* `schemeEdit_not_met`: a requirement of an operation may be left without its scheme.
-/

namespace ApiWorkbench.Editor

open Command Document Members

/-- An operation is under the paths of a document, or in a callback of one that
is, at any depth. -/
def OperationOf (ms op : Members) : Prop :=
  ∃ paths item, get? "paths" ms = some (.object paths) ∧ ItemWithin paths item ∧
    HoldsOperation item op

/-- All schemes that requirements name are there, be it requirements of the document or
of an operation. -/
structure AllRequirementsMet (ms : Members) : Prop where
  document : RequirementsMet ms
  operation : ∀ op, OperationOf ms op → ∀ name, Requires op name → Defines ms name

/-- From one document to another one a name is lost to the schemes, and no other
name. -/
structure SchemeGone (ms ns : Members) (gone : Scalar) : Prop where
  notDefined : ¬ Defines ns gone
  others : ∀ name, Defines ms name → name ≠ gone → Defines ns name

section

variable {ms ns op schemes document : Members} {name : Scalar} {gone old new : String}

theorem operationOf_congr (h : get? "paths" ns = get? "paths" ms) :
    OperationOf ns op ↔ OperationOf ms op := by
  rw [OperationOf, OperationOf, h]

/-- When a scheme is gone, all requirements are met if those of the document are and no
operation names the scheme. -/
theorem allRequirementsMet_iff_of_gone (hms : AllRequirementsMet ms)
    (hpaths : get? "paths" ns = get? "paths" ms) (hdocument : RequirementsMet ns)
    (hgone : SchemeGone ms ns name) :
    AllRequirementsMet ns ↔ ∀ op, OperationOf ms op → ¬ Requires op name := by
  constructor
  · intro hns op hop hrequired
    exact hgone.notDefined
      (hns.operation op ((operationOf_congr hpaths).mpr hop) name hrequired)
  · refine fun h => ⟨hdocument, fun op hop required hrequired => ?_⟩
    have hop' := (operationOf_congr hpaths).mp hop
    refine hgone.others required (hms.operation op hop' required hrequired) ?_
    rintro rfl
    exact h op hop' hrequired

/-! ## Which schemes there are -/

/-- The document defines exactly the schemes that are read from it. -/
theorem defines_iff_contains (h : (schemesOf ms >>= Tree.members) = .ok schemes) :
    Defines ms name ↔ contains name schemes = true := by
  refine ⟨contains_of_defines h, fun hname => ?_⟩
  obtain ⟨found, hfound, hmembers⟩ := bind_eq_ok.mp h
  obtain ⟨components, hcomponents, hfound⟩ := bind_eq_ok.mp hfound
  obtain rfl := Except.ok.inj hfound
  rcases eq_nil_or_get?_of_members hmembers with rfl | hschemes
  · simp [contains] at hname
  · rcases eq_nil_or_get?_of_members hcomponents with rfl | hcomponents
    · simp at hschemes
    · exact ⟨components, schemes, hcomponents, hschemes, hname⟩

/-- Schemes that were put are those that the document defines. -/
theorem defines_of_putSchemes (h : putSchemes schemes document = .ok ns) :
    Defines ns name ↔ contains name schemes = true := by
  obtain ⟨components, -, h⟩ := bind_eq_ok.mp h
  obtain rfl := Except.ok.inj h
  have hcomponents : get? "components" (put "components"
      (.object (put "securitySchemes" (.object schemes) components)) document) =
        some (.object (put "securitySchemes" (.object schemes) components)) := by
    rw [get?_put, if_pos rfl]
  have hschemes :
      get? "securitySchemes" (put "securitySchemes" (.object schemes) components) =
      some (.object schemes) := by
    rw [get?_put, if_pos rfl]
  refine defines_iff_contains ?_
  rw [schemesOf, members_mapAt_of_object hcomponents, ok_bind, pure_eq_ok, ok_bind,
    members_mapAt_of_object hschemes]

/-- A scheme that was taken away is gone. -/
theorem removeScheme_gone (h : removeScheme gone ms = .ok (some ns)) :
    SchemeGone ms ns (.str gone) := by
  obtain ⟨schemes, security, kept, hschemes, -, -, hput⟩ := removeScheme_spec h
  constructor
  · rw [defines_of_putSchemes hput, contains_erase]
    exact fun hname => hname.2 rfl
  · intro name hname hne
    rw [defines_of_putSchemes hput, contains_erase]
    exact ⟨(defines_iff_contains hschemes).mp hname, hne⟩

/-- A scheme that was renamed is gone. -/
theorem renameScheme_gone (h : renameScheme old new ms = .ok (some ns))
    (hne : old ≠ new) :
    SchemeGone ms ns (.str old) := by
  obtain ⟨schemes, security, schemes', security', hschemes, -, -, hrename, hput⟩ :=
    renameScheme_spec h
  constructor
  · rw [defines_of_putSchemes hput, contains_rename? hrename]
    rintro (hnew | ⟨-, hold⟩)
    · exact hne (Scalar.str.inj hnew)
    · exact hold rfl
  · intro name hname hold
    rw [defines_of_putSchemes hput, contains_rename? hrename]
    exact .inr ⟨(defines_iff_contains hschemes).mp hname, hold⟩

/-- Edits that change something do not find nothing to change. -/
private theorem changed_ne_nothing : Edit.changed ns ≠ .ok none := by
  simp [Edit.changed]

/-- Taking a scheme away puts the schemes anew, even if it is not there. -/
theorem removeScheme_ne_nothing : removeScheme gone ms ≠ .ok none := by
  intro h
  obtain ⟨found, -, h⟩ := bind_eq_ok.mp h
  obtain ⟨schemes, -, h⟩ := bind_eq_ok.mp h
  obtain ⟨security, -, h⟩ := bind_eq_ok.mp h
  obtain ⟨kept, -, h⟩ := bind_eq_ok.mp h
  obtain ⟨result, -, h⟩ := bind_eq_ok.mp h
  exact changed_ne_nothing h

/-- Where there is nothing to rename, there is no scheme of that name. -/
theorem not_defines_of_renameScheme (h : renameScheme old new ms = .ok none)
    (hne : old ≠ new) :
    ¬ Defines ms (.str old) := by
  rintro ⟨components, schemes, hcomponents, hschemes, hold⟩
  obtain ⟨found, hfound, h⟩ := bind_eq_ok.mp h
  rw [schemesOf, members_mapAt_of_object hcomponents, ok_bind, mapAt_of_object hschemes]
    at hfound
  obtain rfl := Except.ok.inj hfound
  rw [if_neg (by simpa using hne), Tree.holds, hold, pure_eq_ok, ok_bind, if_pos rfl]
    at h
  obtain ⟨security, -, h⟩ := bind_eq_ok.mp h
  obtain ⟨security', -, h⟩ := bind_eq_ok.mp h
  obtain ⟨schemes', -, h⟩ := bind_eq_ok.mp h
  obtain ⟨entries, -, h⟩ := bind_eq_ok.mp h
  obtain ⟨result, -, h⟩ := bind_eq_ok.mp h
  exact changed_ne_nothing h

/-! ## The commands -/

/-- Taking a scheme away or giving it another name keeps the requirements of the
document met, leaves the paths, and loses the name of the scheme. -/
theorem schemeEdit_step {edit : SecurityEdit Unit}
    (hedit : edit = .remove gone ∨ ∃ new, gone ≠ new ∧ edit = .rename gone new)
    (hms : RequirementsMet ms)
    (hrun : (editSecurity edit).run ms = .ok ns) :
    RequirementsMet ns ∧ get? "paths" ns = get? "paths" ms ∧
      SchemeGone ms ns (.str gone) := by
  have hasks : ∀ name, edit ≠ .toggleGlobal name true := by
    rintro name rfl
    rcases hedit with hremove | ⟨new, -, hrename⟩
    · cases hremove
    · cases hrename
  obtain ⟨found, hfound, rfl⟩ := Edit.run_eq_ok.mp hrun
  cases found with
  | none =>
      refine ⟨hms, rfl, ?_, fun name hname _ => hname⟩
      rcases hedit with rfl | ⟨new, hne, rfl⟩
      · exact absurd hfound removeScheme_ne_nothing
      · exact not_defines_of_renameScheme hfound hne
  | some ns =>
      refine ⟨editSecurity_keeps_met hasks ms ns hms hfound, ?_, ?_⟩
      · exact editSecurity_leaves (by decide) (by decide) edit ms ns hfound
      · rcases hedit with rfl | ⟨new, hne, rfl⟩
        · exact removeScheme_gone hfound
        · exact renameScheme_gone hfound hne

/-- Renaming a scheme to its own name changes nothing. -/
theorem run_renameScheme_self (h : (renameScheme gone gone).run ms = .ok ns) :
    ns = ms := by
  obtain ⟨found, hfound, rfl⟩ := Edit.run_eq_ok.mp h
  obtain ⟨schemes, -, hfound⟩ := bind_eq_ok.mp hfound
  rw [if_pos (by simp)] at hfound
  obtain rfl := Except.ok.inj hfound
  rfl

end

/-- A scheme is taken away or renamed in a document in which all requirements are met,
those of the document and those of all operations. Afterwards the requirements of the
document are met, the operations are left as they were, and all requirements are met
exactly if the scheme was renamed to itself or none of the operations names it. -/
theorem schemeEdit_met_iff {state next : State Unit}
    {ms : Members} {edit : SecurityEdit Unit} {gone : String}
    (hdocument : state.document = .object ms) (hms : AllRequirementsMet ms)
    (hedit : edit = .remove gone ∨ ∃ new, edit = .rename gone new)
    (h : state.apply (.security edit) = .ok next) :
    ∃ ns, next = state.withDocument (.object ns) ∧ RequirementsMet ns ∧
      get? "paths" ns = get? "paths" ms ∧
      (AllRequirementsMet ns ↔ edit = .rename gone gone ∨ ∀ op, OperationOf ms op →
        ¬ Requires op gone) := by
  have hrun : state.apply (.security edit) =
      (fun ns => state.withDocument (.object ns)) <$> (editSecurity edit).run ms :=
        apply_of_editOf rfl hdocument
  rw [hrun] at h
  obtain ⟨ns, hns, rfl⟩ := map_eq_ok.mp h
  refine ⟨ns, rfl, ?_⟩
  by_cases hself : edit = .rename gone gone
  · subst hself
    obtain rfl := run_renameScheme_self hns
    exact ⟨hms.document, rfl, iff_of_true hms (.inl rfl)⟩
  · have hedit' : edit = .remove gone ∨ ∃ new, gone ≠ new ∧
        edit = .rename gone new := by
      refine hedit.imp_right fun ⟨new, hrename⟩ => ⟨new, ?_, hrename⟩
      rintro rfl
      exact hself hrename
    obtain ⟨hmet, hpaths, hgone⟩ := schemeEdit_step hedit' hms.document hns
    refine ⟨hmet, hpaths, ?_⟩
    rw [or_iff_right hself]
    exact allRequirementsMet_iff_of_gone hms hpaths hmet hgone

/-- A requirement of the key alone. -/
private def keyRequirement : Value := .record [("key", .list [])]

/-- An operation that needs the key. -/
private def keyOperation : Members := [("security", .list [keyRequirement])]

private def keyPaths : Members := [("/pets", .object [("get", .object keyOperation)])]

/-- The document requires the login, and its operation the key. -/
private def keyedDocument : Members :=
  [("security", .list [.record [("login", .list [])]]), ("paths", .object keyPaths),
    ("components", .record [("securitySchemes", .record
      [("key", .record [("type", .str "apiKey")]),
        ("login", .record [("type", .str "oauth2")])])])]

/-- The operation that needs the key is the only one. -/
private theorem eq_keyOperation {op : Members} (h : OperationOf keyedDocument op) :
    op = keyOperation := by
  obtain ⟨paths, item, hpaths, hitem, hop⟩ := h
  obtain rfl : keyPaths = paths := (Tree.marked.inj (Option.some.inj hpaths)).2
  have hall : Throughout (fun _ => True) (· = keyOperation) keyPaths := by
    rw [throughout_iff]
    rintro item ⟨path, hitem⟩
    obtain ⟨-, rfl⟩ : path = .str "/pets" ∧
        item = [(.str "get", .object keyOperation)] := by
      simpa [keyPaths] using hitem
    refine ⟨trivial, ?_⟩
    rintro op ⟨method, -, hop⟩
    obtain ⟨-, rfl⟩ : method = .str "get" ∧ op = keyOperation := by simpa using hop
    refine ⟨rfl, ?_⟩
    rintro inner ⟨callbacks, name, hcallbacks, -⟩
    simp [keyOperation] at hcallbacks
  exact hall.operation item op hitem hop

/-- A requirement of one scheme alone names just this scheme. -/
private theorem requires_single_iff {ms : Members} {scheme : String} {scopes : Value}
    {name : Scalar} (h : listAt "security" ms = .ok [.record [(scheme, scopes)]]) :
    Requires ms name ↔ name = .str scheme := by
  rw [requires_iff h]
  simp [Tree.record, contains_iff, Scalar.str_same_iff]

/-- The document and its operation name schemes that are there. -/
private theorem keyedDocument_met : AllRequirementsMet keyedDocument := by
  constructor
  · intro name hname
    obtain rfl := (requires_single_iff rfl).mp hname
    exact ⟨_, _, rfl, rfl, rfl⟩
  · intro op hop name hname
    obtain rfl := eq_keyOperation hop
    obtain rfl := (requires_single_iff rfl).mp hname
    exact ⟨_, _, rfl, rfl, rfl⟩

/-- The operation is one of the document, and it needs the key. -/
private theorem operationOf_keyedDocument : OperationOf keyedDocument keyOperation :=
  ⟨keyPaths, [("get", .object keyOperation)], rfl,
    .top ⟨"/pets", List.mem_singleton.mpr rfl⟩, "get", rfl, List.mem_singleton.mpr rfl⟩

private theorem requires_keyOperation : Requires keyOperation (.str "key") :=
  (requires_single_iff rfl).mpr rfl

/-- The login can be taken away, since no operation needs it, and the key cannot. -/
theorem schemeEdit_met_iff_of_keyed :
    AllRequirementsMet keyedDocument ∧
      (∃ ns, (State.ofDocument (.object keyedDocument)).apply
        (.security (.remove "login")) = .ok (State.ofDocument (.object ns)) ∧
        AllRequirementsMet ns) ∧
      (∃ ns, (State.ofDocument (.object keyedDocument)).apply
        (.security (.remove "key")) = .ok (State.ofDocument (.object ns)) ∧
        RequirementsMet ns ∧ ¬ AllRequirementsMet ns) := by
  have hdocument : (State.ofDocument (.object keyedDocument)).document =
      .object keyedDocument := rfl
  refine ⟨keyedDocument_met, ?_, ?_⟩
  · obtain ⟨ns, hnext, -, -, hmet⟩ := schemeEdit_met_iff hdocument keyedDocument_met
      (.inl rfl) (show (State.ofDocument (.object keyedDocument)).apply
      (.security (.remove "login")) = .ok _ from rfl)
    refine ⟨ns, congrArg Except.ok hnext, hmet.mpr (.inr fun op hop hrequired => ?_)⟩
    obtain rfl := eq_keyOperation hop
    simpa using (requires_single_iff rfl).mp hrequired
  · obtain ⟨ns, hnext, hdocumentMet, -, hmet⟩ :=
      schemeEdit_met_iff hdocument keyedDocument_met (.inl rfl) (show (State.ofDocument
      (.object keyedDocument)).apply (.security (.remove "key")) = .ok _ from rfl)
    refine ⟨ns, congrArg Except.ok hnext, hdocumentMet, fun hall => ?_⟩
    rcases hmet.mp hall with hrename | hnone
    · cases hrename
    · exact hnone keyOperation operationOf_keyedDocument requires_keyOperation

/-- An operation that needs a scheme still names it after the scheme was taken
away or renamed. -/
theorem schemeEdit_not_met :
    AllRequirementsMet keyedDocument ∧
      (∃ ns, (State.ofDocument (.object keyedDocument)).apply
        (.security (.remove "key")) = .ok (State.ofDocument (.object ns)) ∧
        ¬ AllRequirementsMet ns) ∧
      (∃ ns, (State.ofDocument (.object keyedDocument)).apply
        (.security (.rename "key" "token")) = .ok (State.ofDocument (.object ns)) ∧
        ¬ AllRequirementsMet ns) := by
  refine ⟨keyedDocument_met, ⟨_, rfl, fun hall => ?_⟩, ⟨_, rfl, fun hall => ?_⟩⟩ <;>
  · obtain ⟨components, schemes, hcomponents, hschemes, hkey⟩ :=
      hall.operation keyOperation operationOf_keyedDocument (.str "key")
        requires_keyOperation
    obtain rfl := (Tree.marked.inj (Option.some.inj hcomponents)).2
    obtain rfl := (Tree.marked.inj (Option.some.inj hschemes)).2
    revert hkey
    decide

end ApiWorkbench.Editor
