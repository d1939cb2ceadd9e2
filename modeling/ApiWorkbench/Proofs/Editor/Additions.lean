import ApiWorkbench.Proofs.Editor.Locality
import ApiWorkbench.Proofs.Editor.Replacing
import ApiWorkbench.Proofs.FreeNames

/-!
# Adding under a free name

Six kinds of commands add an entry to a map somewhere in the document: a new schema,
security scheme, scope or callback, or a copy of a schema or of a callback. What differs
is where the map is, what the name of the entry begins with, and what is added
(`addition?`). The name is the first free one, so the entry comes after all others and
stands in the place of none of them.

Having been added, an entry is one of those that stand in the way the next time. So the
same command can be given again and again, and each time adds one more entry: a command
that has added something once never comes to nothing.

## Main results

* `Edit.Adds.within`, `Edit.Adds.withinMap`: from an edit that adds to a map to an
  edit around it.
* `adds_of_addition?`: each of the six makes an edit that adds.
* `apply_addition`: such a command adds one entry, or leaves the state as it is.
* `additions_fresh`: what a command adds, given once or any number of times.
-/

namespace ApiWorkbench

namespace Members

/-- What is found among members is found if others come after them. -/
theorem get?_append_of_some {α : Type} {name : Scalar} {v : α}
    {ms ns : List (Scalar × α)} (h : get? name ms = some v) :
    get? name (ms ++ ns) = some v := by
  induction ms with
  | nil => simp at h
  | cons e rest ih =>
      obtain ⟨k, w⟩ := e
      rw [List.cons_append, get?_cons]
      rw [get?_cons] at h
      by_cases hk : k.same name = true
      · rwa [if_pos hk] at h ⊢
      · rw [if_neg hk] at h ⊢
        exact ih h

end Members

namespace Editor

open Command Document Members

/-! ## Edits that add -/

/-- What is added to a map: a value that is always the same, or a copy of an entry
that is there. -/
inductive Added where
  | new (v : Value)
  | copyOf (name : String)

/-- The value that is added to a map; none if there is nothing to copy. -/
def Added.value? : Added → Members → Option Value
  | new v, _ => some v
  | copyOf name, entries => get? name entries

/-- An entry that is added to a map: where the map is among members, what the name of
the entry begins with, and what is added. -/
structure Addition where
  map? : Members → Option Members
  base : String
  added : Added

namespace Addition

/-- A map with the entry added. -/
def extend (a : Addition) (v : Value) (entries : Members) : Members :=
  put (freeName (names entries) a.base) v entries

/-- The entry comes after those that are there, under the first free name. -/
theorem extend_eq (a : Addition) (v : Value) (entries : Members) :
    a.extend v entries = entries ++ [(.str (freeName (names entries) a.base), v)] := by
  refine put_of_absent v (get?_eq_none_iff.mpr fun entry hentry => ?_)
  have hfree := (freeName_first (names entries) a.base).free
  by_contra hsame
  rw [Bool.not_eq_false, Scalar.same_str_iff] at hsame
  exact hfree (hsame ▸ List.mem_map_of_mem hentry)

/-- What has been added can be added again. -/
theorem value?_extend {a : Addition} {entries : Members} {v : Value}
    (h : a.added.value? entries = some v) :
    a.added.value? (a.extend v entries) = some v := by
  rw [extend_eq]
  cases hadded : a.added with
  | new w =>
      rw [hadded] at h
      exact h
  | copyOf name =>
      rw [hadded] at h
      exact get?_append_of_some h

/-- The addition for members that hold those it was for. -/
def inside (outer : Members → Option Members) (a : Addition) : Addition :=
  { a with map? := fun ms => (outer ms).bind a.map? }

end Addition

/-- The members of the object under a name, if an object is there. -/
def objectUnder (name : String) (ms : Members) : Option Members :=
  (get? name ms).bind fun v => v.members.toOption

/-- The members of the map under a name; a blank value is an empty map. -/
def mapUnder (name : String) (ms : Members) : Option Members :=
  (mapAt name ms).members.toOption

/-- The callbacks of an operation, which may be made from a list. -/
def callbacksOf (op : Members) : Option Members :=
  (mapAt "callbacks" op).toMembers.toOption

theorem objectUnder_eq_some {name : String} {ms inner : Members} :
    objectUnder name ms = some inner ↔ get? name ms = some (.object inner) := by
  rw [objectUnder]
  cases get? (.str name) ms with
  | none => simp
  | some v =>
      rw [Option.bind_some, toOption_eq_some, Option.some.injEq]
      cases v <;> simp [Tree.members]

theorem mapUnder_eq_some {name : String} {ms inner : Members} :
    mapUnder name ms = some inner ↔ (mapAt name ms).members = .ok inner :=
  toOption_eq_some

theorem mapUnder_put {name : String} {ms inner : Members} :
    mapUnder name (put name (.object inner) ms) = some inner :=
  mapUnder_eq_some.mpr (members_mapAt_of_object (get?_put_self _ _ _))

namespace Edit

variable {a : Addition} {name : String} {e : Edit Unit}

/-- An edit makes an addition: it adds the entry to the map if there are the map and the
value, and otherwise finds nothing to change. -/
structure Adds (a : Addition) (e : Edit Unit) : Prop where
  adds : ∀ ms entries v, a.map? ms = some entries → a.added.value? entries = some v →
    ∃ ms', e ms = .ok (some ms') ∧ a.map? ms' = some (a.extend v entries)
  only : ∀ ms ms', e ms = .ok (some ms') → ∃ entries v, a.map? ms = some entries ∧
    a.added.value? entries = some v

/-! An edit that makes an addition to a part, made in the part, makes it in the
whole. -/

theorem Adds.within (h : Adds a e) :
    Adds (a.inside (objectUnder name)) (within name e) := by
  constructor
  · intro ms entries v hmap hvalue
    obtain ⟨inner, hinner, hentries⟩ := Option.bind_eq_some_iff.mp hmap
    obtain ⟨inner', hedit, hadded⟩ := h.adds inner entries v hentries hvalue
    refine ⟨put name (.object inner') ms, ?_, ?_⟩
    · rw [Edit.within, objectUnder_eq_some.mp hinner]
      dsimp only
      rw [hedit]
      rfl
    · exact Option.bind_eq_some_iff.mpr
        ⟨inner', objectUnder_eq_some.mpr (get?_put_self _ _ _), hadded⟩
  · intro ms ms' hedit
    obtain ⟨inner, inner', hinner, hedit, -⟩ := within_spec hedit
    obtain ⟨entries, v, hentries, hvalue⟩ := h.only inner inner' hedit
    exact ⟨entries, v, Option.bind_eq_some_iff.mpr
      ⟨inner, objectUnder_eq_some.mpr hinner, hentries⟩, hvalue⟩

theorem Adds.withinMap (h : Adds a e) :
    Adds (a.inside (mapUnder name)) (withinMap name e) := by
  constructor
  · intro ms entries v hmap hvalue
    obtain ⟨inner, hinner, hentries⟩ := Option.bind_eq_some_iff.mp hmap
    obtain ⟨inner', hedit, hadded⟩ := h.adds inner entries v hentries hvalue
    refine ⟨put name (.object inner') ms, ?_, ?_⟩
    · rw [Edit.withinMap, mapUnder_eq_some.mp hinner, ok_bind, hedit]
      rfl
    · exact Option.bind_eq_some_iff.mpr ⟨inner', mapUnder_put, hadded⟩
  · intro ms ms' hedit
    obtain ⟨inner, inner', hinner, hedit, -⟩ := withinMap_spec hedit
    obtain ⟨entries, v, hentries, hvalue⟩ := h.only inner inner' hedit
    exact ⟨entries, v, Option.bind_eq_some_iff.mpr ⟨inner, mapUnder_eq_some.mpr hinner,
      hentries⟩, hvalue⟩

theorem adds_addEntry (name base : String) (v : Value) :
    Adds ⟨mapUnder name, base, .new v⟩ (addEntry name base v) := by
  constructor
  · intro ms entries w hmap hvalue
    obtain rfl := Option.some.inj hvalue
    refine ⟨put name (.object (put (freeName (names entries) base) v entries)) ms,
      ?_, mapUnder_put⟩
    rw [addEntry, mapUnder_eq_some.mp hmap]
    rfl
  · intro ms ms' hedit
    obtain ⟨entries, _, hentries, -⟩ := addEntry_spec hedit
    exact ⟨entries, v, mapUnder_eq_some.mpr hentries, rfl⟩

theorem adds_duplicateEntry (name base entry : String) :
    Adds ⟨mapUnder name, base, .copyOf entry⟩ (duplicateEntry id name base entry) := by
  constructor
  · intro ms entries v hmap hvalue
    refine ⟨put name (.object (put (freeName (names entries) base) v entries)) ms,
      ?_, mapUnder_put⟩
    have hobject : mapAt name ms = .object entries :=
      members_eq_ok.mp (mapUnder_eq_some.mp hmap)
    have hentry : get? entry entries = some v := hvalue
    have hedit : duplicateEntry id name base entry ms =
        changed (put name (.object (put (freeName (names entries) base)
          (valueAt entry entries) entries)) ms) := by
      rw [duplicateEntry, hobject, Tree.holds, contains, hentry]
      rfl
    rw [hedit, valueAt, hentry]
    rfl
  · intro ms ms' hedit
    obtain ⟨present, hpresent, hedit⟩ := bind_eq_ok.mp hedit
    split at hedit
    · obtain ⟨entries, hentries, -⟩ := bind_eq_ok.mp hedit
      rw [members_eq_ok.mp hentries, Tree.holds] at hpresent
      obtain rfl := Except.ok.inj hpresent
      obtain ⟨v, hv⟩ := Option.isSome_iff_exists.mp ‹_›
      exact ⟨entries, v, mapUnder_eq_some.mpr hentries, hv⟩
    · exact (nothing_ne_some.mp hedit).elim

/-! Callbacks are added among callbacks, which are then put into the operation. -/

theorem adds_addCallback (callback : Value) :
    Adds ⟨some, newCallback, .new callback⟩ (addCallback callback) := by
  constructor
  · intro ms entries v hmap hvalue
    obtain rfl := Option.some.inj hmap
    obtain rfl := Option.some.inj hvalue
    exact ⟨_, rfl, rfl⟩
  · intro ms ms' _
    exact ⟨ms, callback, rfl, rfl⟩

theorem adds_duplicateCallback (callback : String) :
    Adds ⟨some, newCallback, .copyOf callback⟩ (duplicateCallback id callback) := by
  constructor
  · intro ms entries v hmap hvalue
    obtain rfl := Option.some.inj hmap
    have hcallback : get? callback ms = some v := hvalue
    refine ⟨put (freeName (names ms) newCallback) v ms, ?_, rfl⟩
    rw [duplicateCallback, hcallback]
    rfl
  · intro ms ms' hedit
    rw [duplicateCallback] at hedit
    split at hedit
    · exact ⟨ms, _, rfl, ‹_›⟩
    · exact (nothing_ne_some.mp hedit).elim

theorem Adds.withinCallbacks {base : String} {added : Added}
    (h : Adds ⟨some, base, added⟩ e) :
    Adds ⟨callbacksOf, base, added⟩ (withinCallbacks e) := by
  constructor
  · intro ms entries v hmap hvalue
    obtain ⟨entries', hedit, hadded⟩ := h.adds entries entries v rfl hvalue
    obtain rfl := Option.some.inj hadded
    refine ⟨put "callbacks" (.object (Addition.extend ⟨some, base, added⟩ v entries))
      ms, ?_, ?_⟩
    · rw [Editor.withinCallbacks, toOption_eq_some.mp hmap, ok_bind, hedit]
      exact congrArg Edit.changed (if_neg (by simp [Addition.extend_eq]))
    · have hcallbacks := mapAt_of_object (get?_put_self "callbacks"
        (.object (Addition.extend ⟨some, base, added⟩ v entries)) ms)
      simp only [callbacksOf, hcallbacks]
      rfl
  · intro ms ms' hedit
    obtain ⟨entries, hentries, hedit⟩ := bind_eq_ok.mp hedit
    obtain ⟨found, hfound, hedit⟩ := bind_eq_ok.mp hedit
    split at hedit
    · obtain ⟨entries', v, hmap, hvalue⟩ := h.only entries _ hfound
      obtain rfl := Option.some.inj hmap
      exact ⟨entries, v, toOption_eq_some.mpr hentries, hvalue⟩
    · exact (nothing_ne_some.mp hedit).elim

end Edit

/-! ## Commands that add -/

namespace Addition

/-- The addition to a map among the components of a document. -/
def inComponents (a : Addition) : Addition :=
  a.inside (mapUnder "components")

/-- The addition to a map in a flow of a security scheme. -/
def inFlow (scheme : String) (flow : Flow) (a : Addition) : Addition :=
  ((((a.inside (objectUnder flow.name)).inside (mapUnder "flows")).inside
    (objectUnder scheme)).inside (mapUnder "securitySchemes")).inComponents

/-- The addition to a map in an operation. -/
def inOperation (path : String) (method : Method) (a : Addition) : Addition :=
  ((a.inside (objectUnder method.name)).inside (objectUnder path)).inside
    (mapUnder "paths")

/-- The map of a document that an entry is added to. -/
def entries? (a : Addition) (document : Value) : Option Members :=
  document.members.toOption.bind a.map?

end Addition

/-- The addition that a command makes, if it makes one under a free name. -/
def addition? : Command Unit → Option Addition
  | .schemas .add =>
      some (.inComponents ⟨mapUnder "schemas", newSchema, .new Template.schema⟩)
  | .schemas (.duplicate name) =>
      some (.inComponents ⟨mapUnder "schemas", newSchema, .copyOf name⟩)
  | .security .add =>
    some (.inComponents ⟨mapUnder "securitySchemes", newSecurityScheme,
      .new Template.securityScheme⟩)
  | .security (.addScope scheme flow) =>
    some (.inFlow scheme flow ⟨mapUnder "scopes", newScope,
      .new (.str newScopeDescription)⟩)
  | .operation path method .addCallback =>
    some (.inOperation path method ⟨callbacksOf, newCallback, .new Template.callback⟩)
  | .operation path method (.duplicateCallback name) =>
    some (.inOperation path method ⟨callbacksOf, newCallback, .copyOf name⟩)
  | _ => none

variable {state next last : State Unit} {command : Command Unit} {a : Addition}
  {entries : Members} {v : Value}

theorem adds_of_addition? (ha : addition? command = some a) :
    ∃ e, editOf command = some e ∧ Edit.Adds a e := by
  unfold addition? at ha
  split at ha
  · obtain rfl := Option.some.inj ha
    exact ⟨_, rfl, (Edit.adds_addEntry _ _ _).withinMap⟩
  · obtain rfl := Option.some.inj ha
    exact ⟨_, rfl, (Edit.adds_duplicateEntry _ _ _).withinMap⟩
  · obtain rfl := Option.some.inj ha
    exact ⟨_, rfl, (Edit.adds_addEntry _ _ _).withinMap⟩
  · obtain rfl := Option.some.inj ha
    exact ⟨_, rfl,
      (Edit.adds_addEntry _ _ _).within.withinMap.within.withinMap.withinMap⟩
  · obtain rfl := Option.some.inj ha
    exact ⟨_, rfl, (Edit.adds_addCallback _).withinCallbacks.within.within.withinMap⟩
  · obtain rfl := Option.some.inj ha
    exact ⟨_, rfl,
      (Edit.adds_duplicateCallback _).withinCallbacks.within.within.withinMap⟩
  · contradiction

/-- A command adds its entry if there are the map and something to add. -/
theorem apply_addition (ha : addition? command = some a)
    (hentries : a.entries? state.document = some entries)
    (hv : a.added.value? entries = some v) :
    ∃ next, state.apply command = .ok next ∧
      a.entries? next.document = some (a.extend v entries) := by
  obtain ⟨e, he, hadds⟩ := adds_of_addition? ha
  obtain ⟨ms, hms, hmap⟩ := Option.bind_eq_some_iff.mp hentries
  obtain ⟨ms', hedit, hadded⟩ := hadds.adds ms entries v hmap hv
  have hdocument : state.document = .object ms :=
    members_eq_ok.mp (toOption_eq_some.mp hms)
  refine ⟨state.withDocument (.object ms'), ?_, hadded⟩
  rw [apply_of_editOf he hdocument, Edit.run, hedit]
  rfl

/-- Otherwise it comes to nothing. -/
theorem apply_addition_cases (ha : addition? command = some a)
    (h : state.apply command = .ok next) :
    next = state ∨ ∃ entries v, a.entries? state.document = some entries ∧
      a.added.value? entries = some v := by
  obtain ⟨e, he, hadds⟩ := adds_of_addition? ha
  rcases apply_cases_of_editOf he h with heq | ⟨ms, ns, hdocument, hedit, -⟩
  · exact .inl heq
  · obtain ⟨entries, v, hmap, hv⟩ := hadds.only ms ns hedit
    refine .inr ⟨entries, v, ?_, hv⟩
    rw [Addition.entries?, hdocument]
    exact hmap

/-- Given any number of times, a command adds as many entries, all under
different new names. -/
theorem applyAll_addition (ha : addition? command = some a)
    (hentries : a.entries? state.document = some entries)
    (hv : a.added.value? entries = some v) (n : Nat) :
    ∃ last, ∃ added : List String,
      state.applyAll (List.replicate n command) = .ok last ∧
      a.entries? last.document =
        some (entries ++ added.map fun name => (.str name, v)) ∧
      added.length = n ∧ added.Nodup ∧ ∀ name ∈ added, .str name ∉ names entries := by
  induction n generalizing state entries with
  | zero => exact ⟨state, [], rfl, by simpa using hentries, rfl, .nil, by simp⟩
  | succ n ih =>
      obtain ⟨next, hnext, hnextEntries⟩ := apply_addition ha hentries hv
      obtain ⟨last, added, hlast, hlastEntries, hlength, hnodup, hfresh⟩ :=
        ih hnextEntries (Addition.value?_extend hv)
      rw [Addition.extend_eq] at hlastEntries hfresh
      -- The names that come later differ from the first one, which is in use by then.
      have hfree := (freeName_first (names entries) a.base).free
      refine ⟨last, freeName (names entries) a.base :: added, ?_, ?_, ?_, ?_, ?_⟩
      · rw [State.applyAll, List.replicate_succ, List.foldlM_cons, hnext]
        exact hlast
      · rw [hlastEntries, List.append_assoc]
        rfl
      · rw [List.length_cons, hlength]
      · refine List.nodup_cons.mpr ⟨fun hmem => hfresh _ hmem ?_, hnodup⟩
        simp [names]
      · intro name hname
        rcases List.mem_cons.mp hname with rfl | hname
        · exact hfree
        · intro hmem
          refine hfresh name hname ?_
          rw [names, List.map_append]
          exact List.mem_append_left _ hmem

/-- A name that is in use gets the least number, from one on, that makes it a free
one, and no more numbers are looked at than there are names in use. So a command that
adds an entry under a free name, and does not come to nothing, leaves the entries of
its map as they are and puts one after them, under a name that was not in use; given
any number of times it adds as many, under names that were not in use and are
different from each other. -/
theorem additions_fresh :
    (∀ used base, FirstFreeName used base (freeName used base)) ∧
      ∀ (command : Command Unit) (a : Addition) (state next : State Unit),
        addition? command = some a →
        state.apply command = .ok next → next ≠ state →
          ∃ entries v, a.entries? state.document = some entries ∧
            a.added.value? entries = some v ∧
            a.entries? next.document =
              some (entries ++ [(.str (freeName (names entries) a.base), v)]) ∧
            ∀ n, ∃ last, ∃ added : List String,
              state.applyAll (List.replicate n command) = .ok last ∧
              a.entries? last.document =
                some (entries ++ added.map fun name => (.str name, v)) ∧
              added.length = n ∧ added.Nodup ∧
              ∀ name ∈ added, .str name ∉ names entries := by
  refine ⟨freeName_first, fun command a state next ha happly hchanged => ?_⟩
  rcases apply_addition_cases ha happly with rfl | ⟨entries, v, hentries, hv⟩
  · contradiction
  · obtain ⟨next', hnext, hadded⟩ := apply_addition ha hentries hv
    obtain rfl : next = next' := Except.ok.inj (happly.symm.trans hnext)
    rw [Addition.extend_eq] at hadded
    exact ⟨entries, v, hentries, hv, hadded, applyAll_addition ha hentries hv⟩

/-- A document with two schemas under names that new schemas would get. -/
def crowdedDocument : Members :=
  [("components", .object
    [("schemas", .object [("NewSchema", .emptyObject), ("NewSchema2", .null)])])]

/-- A copy of the second of them gets the number that was left out, and there can be any
number of copies. -/
theorem additions_fresh_of_crowded :
    ∃ next, (State.ofDocument (.object crowdedDocument)).apply
      (.schemas (.duplicate "NewSchema2")) = .ok next ∧
      next.document = .object [("components", .object [("schemas", .object
        [("NewSchema", .emptyObject), ("NewSchema2", .null),
          ("NewSchema1", .null)])])] ∧
      ∀ n, ∃ last, ∃ added : List String,
        (State.ofDocument (.object crowdedDocument)).applyAll
          (List.replicate n (.schemas (.duplicate "NewSchema2"))) = .ok last ∧
          added.length = n ∧ added.Nodup ∧ ∀ name ∈ added, name ≠ "NewSchema" ∧
          name ≠ "NewSchema2" := by
  obtain ⟨next, hnext, hdocument⟩ :
      ∃ next, (State.ofDocument (.object crowdedDocument)).apply
        (.schemas (.duplicate "NewSchema2")) = .ok next ∧
        next.document = .object [("components", .object [("schemas", .object
          [("NewSchema",
            .emptyObject), ("NewSchema2", .null), ("NewSchema1", .null)])])] :=
            ⟨_, rfl, rfl⟩
  have hchanged : next ≠ State.ofDocument (.object crowdedDocument) := by
    rintro rfl
    simp [State.ofDocument, crowdedDocument] at hdocument
  obtain ⟨entries, v, hentries, -, -, hruns⟩ :=
    additions_fresh.2 _ _ _ next rfl hnext hchanged
  obtain rfl : ([("NewSchema", .emptyObject), ("NewSchema2", .null)] : Members) =
      entries := Option.some.inj hentries
  refine ⟨next, hnext, hdocument, fun n => ?_⟩
  obtain ⟨last, added, hlast, -, hlength, hnodup, hfresh⟩ := hruns n
  exact ⟨last, added, hlast, hlength, hnodup,
    fun name hname => by simpa [names] using hfresh name hname⟩

end Editor

end ApiWorkbench
