import ApiWorkbench.Command.Basic
import ApiWorkbench.Document.Template
import ApiWorkbench.Editor.Edit
import ApiWorkbench.Value.Members

/-!
# Editing schemas and security schemes

Both are maps among the components of the document. The security requirements of the
document name schemes, so removing or renaming a scheme changes them too. References to
schemas are left as they are.
-/

namespace ApiWorkbench.Editor

open Document Command

variable {μ : Type} [Inhabited μ]

/-- Makes an edit in the components of a document. -/
def withinComponents (edit : Edit μ) : Edit μ :=
  .withinMap "components" edit

/-! ## Schemas -/

/-- The name of a new schema. -/
def newSchema : String := "NewSchema"

/-- Changes the schemas of a document. -/
def editSchemas (copy : Tree μ → Tree μ) : SchemaEdit μ → Edit μ
  | .add => withinComponents (.addEntry "schemas" newSchema Template.schema)
  | .update name schema => withinComponents (.putEntry "schemas" name (.object schema))
  | .remove name => withinComponents (.removeEntry "schemas" name)
  | .rename oldName newName => withinComponents (.renameEntry "schemas" oldName newName)
  | .duplicate name => withinComponents (.duplicateEntry copy "schemas" newSchema name)

/-! ## Security schemes -/

/-- The name of a new scheme. -/
def newSecurityScheme : String := "newSecurityScheme"

/-- The name of a new scope. -/
def newScope : String := "newScope"

/-- The description of a new scope. -/
def newScopeDescription : String := "Scope description"

/-- Makes an edit in a security scheme. -/
def withinScheme (name : String) (edit : Edit μ) : Edit μ :=
  withinComponents (.withinMap "securitySchemes" (.within name edit))

/-- Makes an edit in a flow of a security scheme. -/
def withinFlow (name : String) (flow : Flow) (edit : Edit μ) : Edit μ :=
  withinScheme name (.withinMap "flows" (.within flow.name edit))

/-- Makes a scheme one of another type; only its description stays. -/
def changeSchemeType (type : SchemeType) : Edit μ := fun scheme => do
  if (Members.valueAt "type" scheme).isText type.name then Edit.nothing
  else Edit.changed (← (Template.securitySchemeOfType type.name
    (Members.valueAt "description" scheme)).members)

/-- Adds a flow to a scheme or takes it away. -/
def toggleFlow (flow : Flow) (enabled : Bool) : Edit μ := fun scheme => do
  let flows ← (Members.mapAt "flows" scheme).toMembers
  if Members.contains flow.name flows == enabled then Edit.nothing
  else
    let flows := if enabled then Members.put flow.name Template.oauthFlow flows
      else Members.erase flow.name flows
    Edit.changed (Members.put "flows" (.object flows) scheme)

/-- Renames a scope of a flow and gives it a description, if there is one. -/
def renameScope (oldScope newScope : String) (description : Option String) :
    Edit μ := fun flow => do
  let scopes := Members.mapAt "scopes" flow
  if ← scopes.holds oldScope then
    let scopes ← renamed oldScope newScope (← scopes.members)
    let scopes := match description with
      | some text => Members.put newScope (.str text) scopes
      | none => scopes
    Edit.changed (Members.put "scopes" (.object scopes) flow)
  else Edit.nothing

/-- The components of a document with other security schemes. -/
def putSchemes (schemes document : Tree.Members μ) : Except Fault (Tree.Members μ) := do
  let components ← (Members.mapAt "components" document).members
  pure (Members.put "components"
    (.object (Members.put "securitySchemes" (.object schemes) components)) document)

/-- The security schemes of a document. -/
def schemesOf (document : Tree.Members μ) : Except Fault (Tree μ) := do
  pure
    (Members.mapAt "securitySchemes" (← (Members.mapAt "components" document).members))

/-- Takes a scheme away, and the requirements that name it. -/
def removeScheme (name : String) : Edit μ := fun document => do
  let schemes ← (← schemesOf document).members
  let security ← (← Members.listAt "security" document).filterM fun requirement => do
    pure !(← requirement.holds name)
  Edit.changed
    (← putSchemes (Members.erase name schemes) (putList "security" security document))

/-- A requirement with a scheme renamed in it. -/
def renameInRequirement (oldName newName : String) (requirement : Tree μ) :
    Except Fault (Tree μ) := do
  if ← requirement.holds oldName then
    pure (.object (← renamed oldName newName (← requirement.members)))
  else pure requirement

/-- Renames a scheme, also in the requirements. -/
def renameScheme (oldName newName : String) : Edit μ := fun document => do
  let schemes ← schemesOf document
  if oldName == newName then Edit.nothing
  else if ← schemes.holds oldName then
    let security ← (← Members.listAt "security" document).mapM
      (renameInRequirement oldName newName)
    let schemes ← renamed oldName newName (← schemes.members)
    Edit.changed (← putSchemes schemes (putList "security" security document))
  else Edit.nothing

/-- Adds the items that are not there yet, one after the other. -/
def addDistinct (present : List (Tree μ)) : List (Tree μ) → List (Tree μ)
  | [] => present
  | v :: rest =>
      addDistinct (if present.any v.same then present else present ++ [v]) rest

/-- The scopes of the flows of a scheme, each once, added to others. -/
def scopesOfFlows (scopes : List (Tree μ)) :
    List (Tree μ) → Except Fault (List (Tree μ))
  | [] => pure scopes
  | flow :: rest => do
    let found ← (Members.mapAt "scopes" (← flow.membersOrNone)).items
    scopesOfFlows (addDistinct scopes found) rest

/-- The scopes that a requirement of a scheme asks for: all that its flows have. -/
def requiredScopes (scheme : Tree μ) : Except Fault (List (Tree μ)) := do
  let ms ← scheme.membersOrNone
  if (Members.valueAt "type" ms).isText "oauth2" then
    let flows ← (Members.mapAt "flows" ms).members
    scopesOfFlows [] (flows.map (·.2))
  else pure []

/-- Requires a scheme for the whole document. -/
def requireScheme (name : String) : Edit μ := fun document => do
  let security ← Members.listAt "security" document
  if ← security.anyM (·.holds name) then Edit.nothing
  else
    let scheme ← (← schemesOf document).member name
    let requirement : Tree μ := .record [(name, .list (← requiredScopes scheme))]
    Edit.changed (putList "security" (security ++ [requirement]) document)

/-- Requires a scheme no longer. -/
def releaseScheme (name : String) : Edit μ := fun document => do
  let security ← (← Members.listAt "security" document).filterM fun requirement => do
    pure !(← requirement.holds name)
  Edit.changed (putList "security" security document)

/-- Changes security schemes and requirements. -/
def editSecurity : SecurityEdit μ → Edit μ
  | .add =>
      withinComponents
        (.addEntry "securitySchemes" newSecurityScheme Template.securityScheme)
  | .update name scheme =>
      withinComponents (.putEntry "securitySchemes" name (.object scheme))
  | .changeType name type => withinScheme name (changeSchemeType type)
  | .remove name => removeScheme name
  | .rename oldName newName => renameScheme oldName newName
  | .toggleFlow name flow enabled => withinScheme name (toggleFlow flow enabled)
  | .addScope name flow =>
      withinFlow name flow (.addEntry "scopes" newScope (.str newScopeDescription))
  | .renameScope name flow oldScope newScope description =>
    withinFlow name flow (renameScope oldScope newScope description)
  | .removeScope name flow scope => withinFlow name flow (.removeEntry "scopes" scope)
  | .toggleGlobal name enabled =>
      if enabled then requireScheme name else releaseScheme name

end ApiWorkbench.Editor
