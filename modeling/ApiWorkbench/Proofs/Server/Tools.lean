import ApiWorkbench.Proofs.Document.EditedPlaces
import ApiWorkbench.Proofs.Server.Names
import ApiWorkbench.Server.Scaffold

/-!
# Tools and operations

Tools are made one after the other, and each is added to those that were made before. So
they stand for the operations of the document, in the order of its paths and, within a
path, of the methods. And since a name is chosen that none of the tools so far has, no
two tools have the same name, however the operations are called.

## Main results

* `toolOf_extends`, `pathTools_extends`: what one operation and what one path
  adds to the tools.
* `toolsOf_operations`: the tools of a document are those of its operations, with usable
  names, all different.
-/

namespace ApiWorkbench.Server

open Document
open Members (valueAt get?)

/-! ## Steps -/

/-- A step that reads values has a result as a step in making tools if it has one. -/
theorem lift_eq_ok {α : Type} {x : Except Fault α} {a : α} :
    (liftM x : Except ToolError α) = .ok a ↔ x = .ok a := by
  cases x with
  | ok b =>
      rw [show (liftM (.ok b : Except Fault α) : Except ToolError α) = .ok b from rfl,
        Except.ok.injEq, Except.ok.injEq]
  | error fault => exact iff_of_false (fun h => nomatch h) (fun h => nomatch h)

/-- The address that requests go to: the one that is given, or that of the document. -/
def addressOf (baseUrl : Option String) (document : Members) : Except Fault Value :=
  match baseUrl with
  | some url => if url.isEmpty then firstServerUrl document else pure (.str url)
  | none => firstServerUrl document

/-- The tools for what stands under a path, after those made so far. -/
def entryTools (document address : Value) (tools : List Tool) :
    Scalar × Value → Except ToolError (List Tool)
  | (path, .object item) => pathTools document address path item tools
  | _ => pure tools

/-- Tools are made path by path. -/
theorem toolsOf_eq (document : Value) (baseUrl : Option String) :
    toolsOf document baseUrl = (do
      let ms ← (document.members : Except Fault Members)
      let address ← (addressOf baseUrl ms : Except Fault Value)
      let paths ← ((valueAt "paths" ms).membersOrNone : Except Fault Members)
      paths.foldlM (entryTools document address) []) := by
  unfold toolsOf addressOf
  refine bind_congr fun ms => ?_
  cases baseUrl with
  | none =>
      refine bind_congr fun address => bind_congr fun paths =>
        congrArg (fun step => List.foldlM step [] paths) ?_
      funext tools entry
      obtain ⟨path, item⟩ := entry
      cases item <;> rfl
  | some url =>
      dsimp only
      split <;>
        refine bind_congr fun address => bind_congr fun paths =>
          congrArg (fun step => List.foldlM step [] paths) ?_
      all_goals
        funext tools entry
        obtain ⟨path, item⟩ := entry
        cases item <;> rfl

theorem toolsOf_eq_ok {document : Value} {baseUrl : Option String} {tools : List Tool} :
    toolsOf document baseUrl = .ok tools ↔ ∃ ms address paths, document = .object ms ∧
      addressOf baseUrl ms = .ok address ∧
      (valueAt "paths" ms).membersOrNone = .ok paths ∧
      paths.foldlM (entryTools document address) [] = .ok tools := by
  rw [toolsOf_eq]
  constructor
  · intro h
    obtain ⟨ms, hms, h⟩ := bind_eq_ok.mp h
    obtain ⟨address, haddress, h⟩ := bind_eq_ok.mp h
    obtain ⟨paths, hpaths, h⟩ := bind_eq_ok.mp h
    exact ⟨ms, address, paths, members_eq_ok.mp (lift_eq_ok.mp hms),
      lift_eq_ok.mp haddress, lift_eq_ok.mp hpaths, h⟩
  · rintro ⟨ms, address, paths, hms, haddress, hpaths, h⟩
    refine bind_eq_ok.mpr ⟨ms, lift_eq_ok.mpr (members_eq_ok.mpr hms), ?_⟩
    refine bind_eq_ok.mpr ⟨address, lift_eq_ok.mpr haddress, ?_⟩
    exact bind_eq_ok.mpr ⟨paths, lift_eq_ok.mpr hpaths, h⟩

/-! ## Places -/

/-- The methods under which a path item has an operation. -/
def operationMethods (item : Members) : List Method :=
  Method.all.filter fun method => (valueAt method.name item).isObject

/-- Where operations stand under a path, if there is a path item. -/
def placesUnder : Scalar × Value → List (String × Method)
  | (path, .object item) =>
      (operationMethods item).map fun method => (path.display, method)
  | _ => []

/-- Where operations stand among paths: the paths and methods under which
there are objects. -/
def operationPlaces (paths : Members) : List (String × Method) :=
  paths.flatMap placesUnder

/-- Where the operation of a tool stands. -/
def Tool.place (tool : Tool) : String × Method :=
  (tool.path, tool.method)

/-- The operations of a path item are those under its methods. -/
theorem map_fst_operationsIn (item : Members) :
    (operationsIn item).map (·.1) = operationMethods item := by
  rw [operationsIn, operationMethods]
  induction Method.all with
  | nil => rfl
  | cons method rest ih =>
      rw [List.filterMap_cons, List.filter_cons, valueAt]
      cases get? (.str method.name) item with
      | none => exact ih
      | some v => cases v <;> simp [Tree.isObject, ih]

/-! ## Names -/

/-- A text that can be the name of a tool. -/
def IsToolName (name : String) : Prop :=
  name ≠ "" ∧ ∀ c ∈ name.toList, isToolChar c = true

/-- Tools with usable names, all different. -/
structure WellNamed (tools : List Tool) : Prop where
  distinct : (tools.map (·.name)).Nodup
  usable : ∀ tool ∈ tools, IsToolName tool.name

theorem isToolName_method (method : Method) : IsToolName method.name := by
  cases method <;> exact ⟨by decide, List.all_eq_true.mp (by decide)⟩

/-- Whatever an operation is called, the name found for its tool is usable. -/
theorem isToolName_freeToolName (used : List String) (operationId : String)
    (method : Method) :
    IsToolName (freeToolName used (toolName operationId method.name)) :=
  ⟨freeToolName_ne_empty (toolName_ne_empty (isToolName_method method).1) used,
    isToolChar_of_mem_freeToolName
      (isToolChar_of_mem_toolName (isToolName_method method).2) used⟩

/-! ## Adding tools -/

/-- Tools were added for the operations at some places, and the names stay usable
and different. -/
structure Extends (places : List (String × Method)) (tools tools' : List Tool) :
    Prop where
  places : tools'.map Tool.place = tools.map Tool.place ++ places
  named : WellNamed tools → WellNamed tools'

theorem Extends.refl (tools : List Tool) : Extends [] tools tools :=
  ⟨(List.append_nil _).symm, id⟩

theorem Extends.trans {places places' : List (String × Method)}
    {tools tools' tools'' : List Tool} (h : Extends places tools tools')
    (h' : Extends places' tools' tools'') :
    Extends (places ++ places') tools tools'' where
  places := by rw [h'.places, h.places, List.append_assoc]
  named hnamed := h'.named (h.named hnamed)

/-- The tool for an operation has a new name, and the place of the operation. -/
theorem toolOf_extends {document baseUrl shared operation : Value} {path : String}
    {method : Method} {tools : List Tool} {tool : Tool} (h : toolOf document baseUrl
      shared path method operation (tools.map (·.name)) = .ok tool) :
    Extends [(path, method)] tools (tools ++ [tool]) := by
  obtain ⟨expanded, -, h⟩ := bind_eq_ok.mp h
  obtain ⟨members, -, h⟩ := bind_eq_ok.mp h
  obtain ⟨operationId, -, h⟩ := bind_eq_ok.mp h
  obtain ⟨own, -, h⟩ := bind_eq_ok.mp h
  obtain ⟨sharedItems, -, h⟩ := bind_eq_ok.mp h
  obtain ⟨parameters, -, h⟩ := bind_eq_ok.mp h
  obtain ⟨inputs, -, h⟩ := bind_eq_ok.mp h
  obtain ⟨description, -, h⟩ := bind_eq_ok.mp h
  obtain ⟨placements, -, h⟩ := bind_eq_ok.mp h
  obtain ⟨address, -, h⟩ := bind_eq_ok.mp h
  obtain rfl := Except.ok.inj h
  refine ⟨by simp [Tool.place], fun hnamed => ⟨?_, ?_⟩⟩
  · rw [List.map_append, List.nodup_append]
    refine ⟨hnamed.distinct, List.nodup_singleton _,
      fun name hname other hother heq => ?_⟩
    obtain rfl := List.mem_singleton.mp hother
    exact freeToolName_notMem _ _ (heq ▸ hname)
  · intro tool htool
    rcases List.mem_append.mp htool with htool | htool
    · exact hnamed.usable tool htool
    · obtain rfl := List.mem_singleton.mp htool
      exact isToolName_freeToolName _ _ _

/-- What the steps of a loop add, the loop adds. -/
theorem extends_foldlM {α : Type} {step : List Tool → α → Except ToolError (List Tool)}
    (places : α → List (String × Method))
    (hstep : ∀ x tools tools', step tools x = .ok tools' →
      Extends (places x) tools tools') {xs : List α}
    {tools tools' : List Tool} (h : xs.foldlM step tools = .ok tools') :
    Extends (xs.flatMap places) tools tools' := by
  induction xs generalizing tools with
  | nil =>
      obtain rfl := Except.ok.inj h
      exact .refl tools
  | cons x rest ih =>
      obtain ⟨next, hnext, h⟩ := bind_eq_ok.mp h
      rw [List.flatMap_cons]
      exact (hstep x tools next hnext).trans (ih h)

/-- The tools for the operations of a path item. -/
theorem pathTools_extends {document baseUrl : Value}
    {path : Scalar} {item : Members} {tools tools' : List Tool}
    (h : pathTools document baseUrl path item tools = .ok tools') :
    Extends ((operationMethods item).map fun method => (path.display, method))
      tools tools' := by
  obtain ⟨shared, -, h⟩ := bind_eq_ok.mp h
  have hloop := extends_foldlM (fun entry : Method × Value => [(path.display, entry.1)])
    (fun entry tools tools' hstep => ?_) h
  · rw [← map_fst_operationsIn, List.map_map, List.map_eq_flatMap]
    exact hloop
  · obtain ⟨tool, htool, hstep⟩ := bind_eq_ok.mp hstep
    obtain rfl := Except.ok.inj hstep
    exact toolOf_extends htool

theorem entryTools_extends {document address : Value}
    {entry : Scalar × Value} {tools tools' : List Tool}
    (h : entryTools document address tools entry = .ok tools') :
    Extends (placesUnder entry) tools tools' := by
  obtain ⟨path, v⟩ := entry
  cases v with
  | marked mark item => exact pathTools_extends h
  | _ =>
      obtain rfl := Except.ok.inj h
      exact .refl tools

/-! ## All tools -/

theorem wellNamed_toolsOf {document : Value} {baseUrl : Option String}
    {tools : List Tool} (h : toolsOf document baseUrl = .ok tools) :
    WellNamed tools := by
  obtain ⟨ms, address, paths, -, -, -, hloop⟩ := toolsOf_eq_ok.mp h
  have hextends := extends_foldlM placesUnder (fun entry tools tools' hstep =>
    entryTools_extends hstep) hloop
  exact hextends.named ⟨List.nodup_nil, by simp⟩

/-- Descriptions of tools under different names are members in the order of the
tools. -/
theorem toolConfigs_of_nodup {tools : List Tool} (h : (tools.map (·.name)).Nodup) :
    ∃ configs, toolConfigs tools = .object configs ∧
      Members.ofEntries configs = configs ∧
      configs = tools.map fun tool => (.str tool.name, tool.config) := by
  have hconfigs : toolConfigs tools =
      .object (tools.map fun tool => (.str tool.name, tool.config)) := by
    rw [toolConfigs, Tree.record, List.map_map]
    rfl
  have hnames : ((tools.map fun tool => (tool.name, tool.config)).map (·.1)).Nodup := by
    rwa [List.map_map]
  have hfields := Members.ofEntries_fields hnames
  rw [List.map_map] at hfields
  exact ⟨_, hconfigs, hfields, rfl⟩

/-- The tools of a document stand for its operations, one for each, in the order of the
paths and, within a path, of the methods. Their names are not empty, are made of ASCII
letters, digits, underscores and hyphens, and are pairwise different, so that there is
one description for each operation. -/
theorem toolsOf_operations {document : Value} {baseUrl : Option String}
    {tools : List Tool} (h : toolsOf document baseUrl = .ok tools) :
    ∃ ms paths, document = .object ms ∧ (valueAt "paths" ms).membersOrNone = .ok paths ∧
      tools.map Tool.place = operationPlaces paths ∧
      (tools.map (·.name)).Nodup ∧
      (∀ tool ∈ tools, tool.name ≠ "" ∧ ∀ c ∈ tool.name.toList,
        ('A' ≤ c ∧ c ≤ 'Z') ∨ ('a' ≤ c ∧ c ≤ 'z') ∨ ('0' ≤ c ∧ c ≤ '9') ∨
          c = '_' ∨ c = '-') ∧
      ∃ configs, toolConfigs tools = .object configs ∧
        Members.ofEntries configs = configs ∧
        (configs = tools.map fun tool => (.str tool.name, tool.config)) ∧
        configs.length = (operationPlaces paths).length := by
  obtain ⟨ms, address, paths, hms, -, hpaths, hloop⟩ := toolsOf_eq_ok.mp h
  have hextends := extends_foldlM placesUnder (fun entry tools tools' hstep =>
    entryTools_extends hstep) hloop
  have hnamed := wellNamed_toolsOf h
  have hplaces : tools.map Tool.place = operationPlaces paths := hextends.places
  obtain ⟨configs, hconfigs, hmembers, heach⟩ := toolConfigs_of_nodup hnamed.distinct
  refine ⟨ms, paths, hms, hpaths, hplaces, hnamed.distinct, fun tool htool =>
    ?_, configs, hconfigs, hmembers, heach, ?_⟩
  · obtain ⟨hne, hchars⟩ := hnamed.usable tool htool
    exact ⟨hne, fun c hc => isToolChar_iff.mp (hchars c hc)⟩
  · rw [heach, List.length_map, ← hplaces, List.length_map]

/-- Operations with one id, with ids that come to the same or to a name with a number,
and with an id of which nothing is left. -/
theorem toolsOf_operations_of_clashes :
    ∃ tools, toolsOf (.record [("paths", .record [
        ("/a", .record [
          ("post", .record [("operationId", "x y")]),
          ("get", .record [("operationId", "x_y_2")]),
          ("summary", "no operation")]),
        ("/b", .record [
          ("get", .record [("operationId", "x__y")]),
          ("put", .record [("operationId", "日本")])])])]) none = .ok tools ∧
      tools.map (·.name) = ["x_y_2", "x_y", "x_y_3", "put"] ∧
      tools.map Tool.place = [("/a", .get), ("/a", .post), ("/b", .get), ("/b", .put)] ∧
      (tools.map (·.name)).Nodup := by
  obtain ⟨tools, h, hnames⟩ : ∃ tools, toolsOf (.record [("paths", .record [
        ("/a", .record [
          ("post", .record [("operationId", "x y")]),
          ("get", .record [("operationId", "x_y_2")]),
          ("summary", "no operation")]),
        ("/b", .record [
          ("get", .record [("operationId", "x__y")]),
          ("put", .record [("operationId", "日本")])])])]) none = .ok tools ∧
      tools.map (·.name) = ["x_y_2", "x_y", "x_y_3", "put"] :=
    ⟨_, rfl, by decide⟩
  obtain ⟨ms, paths, hms, hpaths, hplaces, hdistinct, -⟩ := toolsOf_operations h
  refine ⟨tools, h, hnames, ?_, hdistinct⟩
  obtain rfl := (Tree.marked.inj hms).2
  obtain rfl := Except.ok.inj hpaths
  rw [hplaces]
  rfl

end ApiWorkbench.Server
