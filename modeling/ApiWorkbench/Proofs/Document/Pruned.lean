import ApiWorkbench.Proofs.Document.Stripped

/-!
# What pruned documents are, and how pruning undoes completion

`Pruned` says of the members of a document what is left when a complete document has
been pruned: nothing stands there without content that pruning looks for, no path item
shares parameters, and every operation at any callback depth has parameters of its own
and distinct tags, if any.

Completing such a document adds empty forms, each at the end of its object, and pruning
takes exactly these away again. A step of completion and a step of pruning at different
names do not disturb one another (`ActsAt`), so each empty form meets the step that
drops it as if nothing else had happened. For operations in callbacks the same is said
once, for one operation, and carried to all depths.

## Main results

* `pruned_of_ok`: pruning a complete document gives a pruned one.
* `prune_complete_of_pruned`: pruning undoes the completion of a pruned document, the
  order of members included.
-/

namespace ApiWorkbench.Document

/-! ## Members that are dropped -/

section

variable {ms ms' : Members} {a b name : String} {needed : List String}

/-- Filling in a blank value adds it at the end, or does nothing. -/
private theorem fill_of_notBlank (h : NotBlank name ms) (v : Value) :
    (Members.get? (.str name) ms = none ∧
      fill name v ms = Members.put (.str name) v ms) ∨ fill name v ms = ms := by
  unfold fill
  split
  · rename_i w hw
    rw [h w hw]
    exact .inr rfl
  · exact .inl ⟨‹_›, rfl⟩

/-- Dropping undoes filling in a blank value. -/
theorem dropUnless_fill {v : Value} (hv : v.isBlank = true) (h : Kept name needed ms) :
    dropUnless name needed (fill name v ms) = .ok ms := by
  rcases fill_of_notBlank h.notBlank v with ⟨hnone, heq⟩ | heq
  · rw [heq, dropUnless, Members.get?_put, if_pos rfl]
    simp [hasAny_of_isBlank hv, Members.erase_put_of_absent v hnone]
  · rw [heq, dropUnless_of_kept h]

theorem dropBlank_fill {v : Value} (hv : v.isBlank = true) (h : NotBlank name ms) :
    dropBlank name (fill name v ms) = ms := by
  rcases fill_of_notBlank h v with ⟨hnone, heq⟩ | heq
  · rw [heq, dropBlank, Members.get?_put, if_pos rfl]
    simp [hv, Members.erase_put_of_absent v hnone]
  · rw [heq, dropBlank_of_notBlank h]

end

/-! ## Steps at different names -/

/-- A step that touches nothing but what is under one name, so that it does not matter
what is put under others. -/
structure ActsAt (a : String) (step : Members → Except Fault Members) : Prop where
  get : ∀ {b ms ns}, b ≠ a → step ms = .ok ns →
    Members.get? (.str b) ns = Members.get? (.str b) ms
  put : ∀ {b v ms ns}, b ≠ a → step ms = .ok ns →
    step (Members.put (.str b) v ms) = .ok (Members.put (.str b) v ns)

section

variable {a b : String} {step : Members → Except Fault Members} {ms ns : Members}

/-- Filling in other names does not disturb a step. -/
theorem ActsAt.fill (h : ActsAt a step) (hab : b ≠ a) {v : Value}
    (hstep : step ms = .ok ns) :
    step (Document.fill b v ms) = .ok (Document.fill b v ns) := by
  have hget := h.get hab hstep
  unfold Document.fill
  rw [hget]
  split
  · split
    · exact h.put hab hstep
    · exact hstep
  · exact h.put hab hstep

theorem actsAt_modifyM (a : String) (change : Value → Except Fault Value) :
    ActsAt a (Members.modifyM (.str a) change) where
  get hab hstep := Members.get?_modifyM_of_ne hab hstep
  put := by
    intro b v ms ns hab hstep
    rw [Members.modifyM_eq] at hstep ⊢
    rw [Members.get?_put, if_neg (Ne.symm hab)]
    split at hstep
    · rename_i w hw
      obtain ⟨u, hu, rfl⟩ := map_eq_ok.mp hstep
      exact map_eq_ok.mpr ⟨u, hu, Members.put_comm (Ne.symm hab) hw u v⟩
    · obtain rfl := Except.ok.inj hstep
      rfl

theorem actsAt_dropUnless (a : String) (needed : List String) :
    ActsAt a (dropUnless a needed) where
  get := by
    intro b ms ns hab hstep
    rw [dropUnless_eq_trim hstep, Members.get?_trim_of_notMem (by simpa using hab)]
  put := by
    intro b v ms ns hab hstep
    unfold dropUnless at hstep ⊢
    rw [Members.get?_put, if_neg (Ne.symm hab)]
    split at hstep
    · rw [Except.ok.inj hstep, pure_eq_ok]
    · obtain ⟨there, hthere, hstep⟩ := bind_eq_ok.mp hstep
      obtain rfl := Except.ok.inj hstep
      refine bind_eq_ok.mpr ⟨there, hthere, ?_⟩
      split
      · rfl
      · rw [Members.erase_put_of_ne (Ne.symm hab), pure_eq_ok]

theorem get?_dropBlank_of_ne (hab : b ≠ a) (ms : Members) :
    Members.get? (.str b) (dropBlank a ms) = Members.get? (.str b) ms := by
  rw [dropBlank_eq_trim, Members.get?_trim_of_notMem (by simpa using hab)]

theorem dropBlank_put_of_ne (hab : b ≠ a) (v : Value) (ms : Members) :
    dropBlank a (Members.put (.str b) v ms) =
      Members.put (.str b) v (dropBlank a ms) := by
  unfold dropBlank
  rw [Members.get?_put, if_neg (Ne.symm hab)]
  split
  · rfl
  · split
    · rw [Members.erase_put_of_ne (Ne.symm hab)]
    · rfl

theorem dropBlank_fill_of_ne (hab : b ≠ a) (v : Value) (ms : Members) :
    dropBlank a (fill b v ms) = fill b v (dropBlank a ms) := by
  unfold fill
  rw [get?_dropBlank_of_ne hab]
  split
  · split
    · rw [dropBlank_put_of_ne hab]
    · rfl
  · rw [dropBlank_put_of_ne hab]

end

/-! ## Operations -/

/-- A complete operation after pruning. -/
structure PrunedOperation (op : Members) : Prop where
  tags : ∀ v, Members.get? "tags" op = some v → v.isBlank = false ∧
    pruneOperationTags v = .ok v
  parameters : ∃ own, Members.get? "parameters" op = some (.list own) ∧ HasKeys own
  externalDocs : Kept "externalDocs" ["url"] op
  callbacks : PathItemEdit.UsableCallbacks op

/-- Pruning an operation that has parameters of its own gives a pruned operation. -/
theorem pruneOperation_pruned {op op' : Members}
    (husable : PathItemEdit.UsableCallbacks op)
    (hparameters : ∃ own, Members.get? "parameters" op = some (.list own) ∧ HasKeys own)
    (h : pruneOperation op = .ok op') : PrunedOperation op' := by
  have hstripped := pruneOperation_stripped husable h
  refine ⟨hstripped.tags, ?_, hstripped.externalDocs, hstripped.callbacks⟩
  rwa [Members.get?_modifyM_of_ne (by decide) (pruneOperation_eq_ok_trim h),
    Members.get?_trim_of_notMem (by simp)]

/-- Completing a pruned operation adds empty forms only. -/
theorem completeOperation_of_pruned {item op : Members} (hitem : SharesNothing item)
    (hop : PrunedOperation op) :
    completeOperation item op =
      .ok (fill "externalDocs" .emptyObject (fill "tags" (.list []) op)) := by
  obtain ⟨own, hown, hkeys⟩ := hop.parameters
  have hfilled : filledOperation op =
      fill "externalDocs" .emptyObject (fill "tags" (.list []) op) := by
    have hparameters : Filled "parameters" (.list []) (fill "tags" (.list []) op) :=
      ⟨.list own, by simpa using hown, list_of_isBlank⟩
    rw [filledOperation, fill_of_filled hparameters]
  have hget : Members.get? "parameters" (filledOperation op) = some (.list own) := by
    rw [hfilled]
    simpa using hown
  refine completeOperation_eq_ok.mpr
    ⟨.list own, [], own, hget, ?_, ⟨own, rfl, mergeParameters_nil hkeys⟩, ?_⟩
  · rw [show Members.get? "parameters" item = none from hitem]
    rfl
  · rw [Members.put_of_get? hget, hfilled]

/-- Pruning takes the empty forms away again. -/
theorem pruneOperation_fill {op : Members} (hop : PrunedOperation op) :
    pruneOperation (fill "externalDocs" .emptyObject (fill "tags" (.list []) op)) =
      .ok op := by
  have hkept : Kept "externalDocs" ["url"] (fill "tags" (.list []) op) :=
    (kept_congr (by simp)).mpr hop.externalDocs
  refine pruneOperation_eq_ok.mpr ⟨_, dropUnless_fill rfl hkept, ?_⟩
  rw [dropBlank_fill rfl fun v hv => (hop.tags v hv).1]
  exact Members.modifyM_fixed fun v hv => (hop.tags v hv).2

/-! ## Paths -/

/-- A map of paths without shared parameters whose operations are pruned, at any
callback depth. -/
def PrunedPaths (paths : Members) : Prop :=
  Throughout SharesNothing PrunedOperation paths

/-- Whether parameters are shared depends on the names of members only. -/
theorem sharesNothing_of_names {item changed : Members} (h : SharesNothing item)
    (hnames : Members.names changed = Members.names item) : SharesNothing changed := by
  refine Members.get?_eq_none_iff.mpr fun e he => ?_
  have hname : e.1 ∈ Members.names item := hnames ▸ List.mem_map_of_mem he
  obtain ⟨e', he', heq⟩ := List.mem_map.mp hname
  rw [← heq]
  exact Members.get?_eq_none_iff.mp h e' he'

/-- Pruning complete paths gives pruned ones. -/
theorem pathItems_pruning_pruned {paths paths' : Members} (hpaths : CompletePaths paths)
    (h : pruning.pathItems paths = .ok paths') : PrunedPaths paths' := by
  refine PathItemEdit.pathItems_throughout pruning_regular ?_ ?_ hpaths h
  · intro item changed hitem hnames
    exact sharesNothing_of_names hitem hnames
  · intro item op op₁ op' hop hagree husable hop'
    obtain ⟨own, hown, hkeys⟩ := hop.parameters
    have hown₁ : Members.get? "parameters" op₁ = some (.list own) := by
      rw [hagree.get?_eq (by decide), hown]
    exact pruneOperation_pruned husable ⟨own, hown₁, hkeys⟩ hop'

/-- Filling in a member other than the callbacks does not tell apart operations that
differ in these only. -/
private theorem agreeButCallbacks_fill {R : Value → Value → Prop} {op op₁ : Members}
    (h : PathItemEdit.AgreeButCallbacks R op op₁) {name : String}
    (hname : name ≠ "callbacks") (v : Value) :
    PathItemEdit.AgreeButCallbacks R (fill name v op) (fill name v op₁) := by
  unfold fill
  rw [h.get?_eq hname]
  split
  · split
    · exact h.put hname v
    · exact h
  · exact h.put hname v

/-- Completing an operation does not look at its callbacks. -/
private theorem completeOperation_agrees {R : Value → Value → Prop}
    {item op op₁ op' : Members} (hagree : PathItemEdit.AgreeButCallbacks R op op₁)
    (h : completeOperation item op = .ok op') :
    ∃ op₂, completeOperation item op₁ = .ok op₂ ∧
      PathItemEdit.AgreeButCallbacks R op' op₂ := by
  obtain ⟨own, shared, merged, hown, hshared, hmerged, rfl⟩ :=
    completeOperation_eq_ok.mp h
  have hfilled : PathItemEdit.AgreeButCallbacks R (filledOperation op)
      (filledOperation op₁) :=
    agreeButCallbacks_fill (agreeButCallbacks_fill
      (agreeButCallbacks_fill hagree (by decide) _) (by decide) _) (by decide) _
  have hown₁ : Members.get? "parameters" (filledOperation op₁) = some own := by
    rw [hfilled.get?_eq (by decide), hown]
  exact ⟨_, completeOperation_eq_ok.mpr ⟨own, shared, merged, hown₁, hshared, hmerged,
    rfl⟩, hfilled.put (by decide) _⟩

/-- For pruned operations, pruning undoes completion. -/
theorem completion_undone :
    PathItemEdit.Undone SharesNothing PrunedOperation completion pruning where
  firstItem _ _ hitem hnames :=
    Members.erase_of_absent (sharesNothing_of_names hitem hnames)
  secondItem _ := rfl
  operation _ _ hitem hop :=
    ⟨_, completeOperation_of_pruned hitem hop, fun _ => pruneOperation_fill hop⟩
  callbacks _ _ _ _ _ := completeOperation_agrees
  usable _ hop := hop.callbacks

/-! ## Tags, information and components -/

/-- Pruning a tag undoes its completion. -/
private theorem withinAny_completeAnyTag {tag : Value}
    (h : ∀ ms, tag = .object ms → Kept "externalDocs" ["url"] ms) :
    withinAny pruneTag (completeAnyTag tag) = .ok tag := by
  cases tag with
  | marked mark ms =>
      rw [completeAnyTag, withinAny, completeTag, pruneTag,
        dropUnless_fill rfl (h ms rfl)]
      rfl
  | _ => rfl

/-- Pruning tags undoes their completion. -/
theorem pruneTags_completeTags {v : Value} (h : PrunedTags v) :
    ∃ w, completeTags v = .ok w ∧ pruneTags w = .ok v := by
  obtain ⟨tags, htags, hkept⟩ := h
  unfold completeTags
  split
  · rename_i xs
    obtain rfl : xs = tags := Except.ok.inj htags
    refine ⟨_, rfl, ?_⟩
    have hback : (xs.map completeAnyTag).mapM (withinAny pruneTag) = .ok xs := by
      refine mapM_eq_ok_iff.mpr
        (List.forall₂_map_left_iff.mpr (List.forall₂_same.mpr fun tag htag => ?_))
      exact withinAny_completeAnyTag fun ms hms => hkept ms (hms ▸ htag)
    rw [pruneTags, hback]
    rfl
  · rename_i a b
    obtain rfl := Except.ok.inj htags
    refine ⟨_, rfl, ?_⟩
    rw [pruneTags, withinAny_completeAnyTag fun ms hms => hkept ms (by simp [hms]),
      withinAny_completeAnyTag fun ms hms => hkept ms (by simp [hms])]
    rfl
  · refine ⟨v, ?_, ?_⟩
    · rw [htags]
      split
      · rfl
      · rfl
    · unfold pruneTags
      split
      · simp_all
      · simp_all
      · rw [htags]
        split
        · rfl
        · rfl

/-- Pruning the information about a document undoes its completion. -/
theorem pruneInfo_completeInfo {info : Members} (h : PrunedInfo info) :
    pruneInfo (completeInfo info) = .ok info := by
  have hlicense : Kept "license" ["name"] (fill "contact" .emptyObject info) :=
    (kept_congr (by simp)).mpr h.license
  rw [pruneInfo, completeInfo, dropUnless_fill rfl hlicense, ok_bind]
  exact dropUnless_fill rfl h.contact

/-- Pruning components undoes their completion. -/
theorem pruneComponents_completeComponents {components : Members}
    (h : PrunedComponents components) :
    pruneComponents (completeComponents components) = components := by
  simp only [PrunedComponents, componentMaps, List.forall_mem_cons, List.not_mem_nil,
    false_imp_iff, implies_true, and_true] at h
  obtain ⟨hlinks, hcallbacks, hschemas, hschemes⟩ := h
  rw [pruneComponents_eq, completeComponents_eq]
  -- each map is dropped where it was filled in: the step goes past the maps that were
  -- filled in later
  rw [dropBlank_fill_of_ne (a := "links") (by decide),
    dropBlank_fill_of_ne (a := "links") (by decide),
    dropBlank_fill_of_ne (a := "links") (by decide), dropBlank_fill rfl hlinks]
  rw [dropBlank_fill_of_ne (a := "callbacks") (by decide),
    dropBlank_fill_of_ne (a := "callbacks") (by decide), dropBlank_fill rfl hcallbacks]
  rw [dropBlank_fill_of_ne (a := "schemas") (by decide), dropBlank_fill rfl hschemas,
    dropBlank_fill rfl hschemes]

/-! ## Documents -/

/-- The members of a complete document after pruning. -/
structure Pruned (ms : Members) : Prop where
  tags : ∀ v, Members.get? "tags" ms = some v → v.isBlank = false ∧ PrunedTags v
  info : ∃ info, Members.get? "info" ms = some (.object info) ∧ info ≠ [] ∧
    PrunedInfo info
  externalDocs : Kept "externalDocs" ["url"] ms
  security : NotBlank "security" ms
  servers : NotBlank "servers" ms
  paths : ∃ paths, Members.get? "paths" ms = some (.object paths) ∧ PrunedPaths paths
  components : ∀ v, Members.get? "components" ms = some v →
    ∃ components, v = .object components ∧ components ≠ [] ∧ PrunedComponents components
  openapi : Filled "openapi" (.str defaultVersion) ms

section

variable {ms : Members} {b : String}

/-- Complete paths are pruned to an object. -/
theorem prunePaths_pruned {paths : Members} {w : Value} (hpaths : CompletePaths paths)
    (h : prunePaths (.object paths) = .ok w) : ∃ paths', w = .object paths' ∧
      PrunedPaths paths' := by
  unfold prunePaths at h
  split at h
  · rename_i hblank
    obtain rfl : paths = [] := by simpa [Tree.isBlank] using hblank
    obtain rfl := Except.ok.inj h
    exact ⟨[], rfl, pathItems_pruning_pruned hpaths rfl⟩
  · obtain ⟨ps, hps, h⟩ := bind_eq_ok.mp h
    obtain rfl := Except.ok.inj hps
    obtain ⟨paths', hpaths', h⟩ := bind_eq_ok.mp h
    obtain rfl := Except.ok.inj h
    exact ⟨paths', rfl, pathItems_pruning_pruned hpaths hpaths'⟩

/-- What completion made of a value under a name, pruning makes into that value
again. -/
private theorem modifyM_undone {change back : Value → Except Fault Value}
    (h : ∀ v, Members.get? (.str b) ms = some v → ∃ w, change v = .ok w ∧
      back w = .ok v) :
    ∃ ns, Members.modifyM (.str b) change ms = .ok ns ∧
      Members.modifyM (.str b) back ns = .ok ms := by
  cases hget : Members.get? (.str b) ms with
  | none =>
      exact ⟨ms, by rw [Members.modifyM_eq, hget], by rw [Members.modifyM_eq, hget]⟩
  | some v =>
      obtain ⟨w, hchange, hback⟩ := h v hget
      refine ⟨Members.put (.str b) w ms, ?_, ?_⟩
      · rw [Members.modifyM_eq, hget]
        exact map_eq_ok.mpr ⟨w, hchange, rfl⟩
      · rw [Members.modifyM_eq, Members.get?_put, if_pos rfl]
        exact map_eq_ok.mpr ⟨v,
          hback, by rw [Members.put_put, Members.put_of_get? hget]⟩

/-- What is under a name after filling in depends on what was under it before. -/
private theorem get?_fill_congr {ns : Members} {v : Value}
    (h : Members.get? (.str b) ms = Members.get? (.str b) ns) :
    Members.get? (.str b) (fill b v ms) = Members.get? (.str b) (fill b v ns) := by
  unfold fill
  rw [h]
  split
  · split
    · simp
    · rw [h]
  · simp

end

/-- Pruning a complete document gives a pruned one, unless nothing is left of the
information about it. -/
theorem pruned_of_ok {ms : Members} {result : Value} (hms : Complete ms)
    (h : prune (.object ms) = .ok result) :
    ∃ ps, result = .object ps ∧
      ((∀ info, Members.get? "info" ps = some (.object info) → info ≠ []) →
        Pruned ps) := by
  obtain ⟨_, ps, heq, rfl, hps⟩ := prunesTo_of_prune h
  obtain rfl := (Tree.marked.inj heq).2
  have hstripped := hps.stripped
  refine ⟨ps, rfl, fun hne => ?_⟩
  refine
    { tags := hstripped.tags
      info := ?_
      externalDocs := hstripped.externalDocs
      security := hstripped.security
      servers := hstripped.servers
      paths := ?_
      components := ?_
      openapi := ?_ }
  · obtain ⟨info, hget, -⟩ := hms.info
    obtain ⟨w, hw, hmade⟩ := Members.exists_of_rel_left (hget ▸ hps.info)
    obtain ⟨info', hinfo', heq⟩ := bind_eq_ok.mp hmade
    obtain rfl := Except.ok.inj heq
    exact ⟨info', hw, hne info' hw, pruneInfo_pruned hinfo'⟩
  · obtain ⟨paths, hget, hcomplete⟩ := hms.paths
    obtain ⟨w, hw, hmade⟩ := Members.exists_of_rel_left (hget ▸ hps.paths)
    obtain ⟨paths', rfl, hpruned⟩ := prunePaths_pruned hcomplete hmade
    exact ⟨paths', hw, hpruned⟩
  · intro w hw
    obtain ⟨components, hget, -⟩ := hms.components
    obtain ⟨v, hv, hleft⟩ := hps.exists_before isEmptied (by simp [needlessParts]) hw
    obtain rfl := Option.some.inj (hget.symm.trans hv)
    obtain ⟨u, hu, hmade⟩ := hps.components _ hv hleft
    obtain rfl := Except.ok.inj hmade
    obtain rfl := Option.some.inj (hu.symm.trans hw)
    exact ⟨_, rfl, hstripped.components _ hw⟩
  · refine (filled_congr ?_).mpr hms.openapi
    rw [hps.others.get?_eq (by simp),
      Members.get?_trim_of_notMem (by simp [needlessParts])]

/-- Paths that completion and pruning leave as they were. -/
private theorem prunePaths_undone {paths : Members} (h : PrunedPaths paths) :
    ∃ w, completion.apply (.object paths) = .ok w ∧
      prunePaths w = .ok (.object paths) := by
  obtain ⟨paths', hcomplete, hprune⟩ :=
    PathItemEdit.pathItems_undone completion_undone h
  refine ⟨.object paths', ?_, ?_⟩
  · rw [PathItemEdit.apply, Tree.members, pure_eq_ok, ok_bind, hcomplete]
    rfl
  · unfold prunePaths
    split
    · rename_i hblank
      obtain rfl : paths' = [] := by simpa [Tree.isBlank] using hblank
      rw [Except.ok.inj hprune, pure_eq_ok]
    · rw [PathItemEdit.apply, Tree.members, pure_eq_ok, ok_bind, hprune]
      rfl

/-! ## Completing a pruned document -/

section

variable {ms ns tagged info components : Members}

/-- Members with the empty forms of the lists and of the components, and with
`components` completed. -/
def withEmptyForms (components ms : Members) : Members :=
  Members.put "components" (.object (completeComponents components)) (fill "components"
    .emptyObject (fill "servers" (.list []) (fill "security" (.list []) ms)))

/-- The members of a document before its paths are completed; its tags are
complete already. -/
def completedParts (info components tagged : Members) : Members :=
  withEmptyForms components
    (fill "externalDocs" .emptyObject
      (Members.put "info" (.object (completeInfo info)) tagged))

/-- The empty forms do not disturb a step at another name. -/
private theorem ActsAt.withEmptyForms
    {a : String} {step : Members → Except Fault Members}
    (h : ActsAt a step) (hsecurity : "security" ≠ a) (hservers : "servers" ≠ a)
    (hcomponents : "components" ≠ a) (hstep : step ms = .ok ns) :
    step (Document.withEmptyForms components ms) =
      .ok (Document.withEmptyForms components ns) :=
  h.put hcomponents (h.fill hcomponents (h.fill hservers (h.fill hsecurity hstep)))

/-- Under names that completion does not fill in, there is what was there
after the tags. -/
private theorem get?_completedParts {b : String} (hinfo : b ≠ "info")
    (hexternalDocs : b ≠ "externalDocs") (hsecurity : b ≠ "security")
    (hservers : b ≠ "servers") (hcomponents : b ≠ "components") :
    Members.get? (.str b) (completedParts info components tagged) =
      Members.get? (.str b) tagged := by
  rw [completedParts, withEmptyForms, Members.get?_put, if_neg hcomponents,
    get?_fill_of_ne hcomponents, get?_fill_of_ne hservers, get?_fill_of_ne hsecurity,
    get?_fill_of_ne hexternalDocs, Members.get?_put, if_neg hinfo]

/-- Dropping what is blank takes the empty forms away again. -/
private theorem withEmptyForms_undone (h : Pruned ms)
    (hthere : Members.get? "components" (fill "components" .emptyObject ms) =
      some (.object components))
    (hpruned : PrunedComponents components) :
    dropEmptyComponents (dropEmptyLists (withEmptyForms components ms)) = ms := by
  have hlists : dropEmptyLists (withEmptyForms components ms) =
      Members.put "components" (.object (completeComponents components))
        (fill "components" .emptyObject ms) := by
    rw [dropEmptyLists, withEmptyForms]
    rw [dropBlank_put_of_ne (by decide),
      dropBlank_fill_of_ne (a := "security") (by decide),
      dropBlank_fill_of_ne (a := "security") (by decide), dropBlank_fill rfl h.security]
    rw [dropBlank_put_of_ne (by decide),
      dropBlank_fill_of_ne (a := "servers") (by decide), dropBlank_fill rfl h.servers]
    rw [dropBlank_put_of_ne (by decide), dropBlank_fill_of_ne (a := "tags") (by decide),
      dropBlank_of_notBlank fun v hv => (h.tags v hv).1]
  have hnotBlank : NotBlank "components" ms := by
    intro v hv
    obtain ⟨components, rfl, hne, -⟩ := h.components v hv
    simpa [Tree.isBlank] using hne
  rw [hlists, dropEmptyComponents, Members.get?_put, if_pos rfl]
  dsimp only
  rw [pruneComponents_completeComponents hpruned, Members.put_put,
    Members.put_of_get? hthere, dropBlank_fill rfl hnotBlank]

/-- A pruned document is completed part by part: only its tags, its information, its
components and its paths are looked into. -/
private theorem complete_of_parts
    (h : Pruned ms) (htags : Members.modifyM "tags" completeTags ms = .ok tagged)
    (hinfo : Members.get? "info" ms = some (.object info)) (hne : info ≠ [])
    (hthere : Members.get? "components" (fill "components" .emptyObject ms) =
      some (.object components)) (hpaths : Members.modifyM "paths" completion.apply
      (completedParts info components tagged) = .ok ns) :
    complete (.object ms) = .ok (.object ns) := by
  have hget : ∀ {b : String}, b ≠ "tags" →
      Members.get? (.str b) tagged = Members.get? (.str b) ms :=
    fun hb => (actsAt_modifyM "tags" completeTags).get hb htags
  have hinfo' : Members.get? "info" tagged = some (.object info) := by
    rw [hget (by decide), hinfo]
  have hfillInfo : fill "info" untitledInfo tagged = tagged :=
    fill_of_filled (filled_of_object hinfo' hne)
  have hmodifyInfo : Members.modifyM "info" (withinObject completeInfo) tagged =
      .ok (Members.put "info" (.object (completeInfo info)) tagged) := by
    rw [Members.modifyM_eq, hinfo']
    exact map_eq_ok.mpr ⟨_, withinObject_eq_ok.mpr ⟨info, rfl, rfl⟩, rfl⟩
  -- the members when the paths and the components are filled in
  obtain ⟨listed, hlisted⟩ : ∃ listed, listed = fill
      "servers" (.list []) (fill "security" (.list []) (fill "externalDocs" .emptyObject
      (Members.put "info" (.object (completeInfo info)) tagged))) := ⟨_, rfl⟩
  have hgetListed : ∀ {b : String}, b ≠ "tags" → b ≠ "info" → b ≠ "externalDocs" →
      b ≠ "security" → b ≠ "servers" →
      Members.get? (.str b) listed =
        Members.get? (.str b) ms := fun ht hi he hs hv => by
    rw [hlisted, get?_fill_of_ne hv, get?_fill_of_ne hs, get?_fill_of_ne he,
      Members.get?_put, if_neg hi, hget ht]
  have hfillPaths : fill "paths" .emptyObject listed = listed := by
    obtain ⟨paths, hpathsThere, -⟩ := h.paths
    refine fill_of_filled ⟨.object paths, ?_, object_of_isBlank⟩
    rw [hgetListed (by decide) (by decide) (by decide) (by decide) (by decide),
      hpathsThere]
  have hmodifyComponents : Members.modifyM "components"
      (withinObject completeComponents) (fill "components" .emptyObject listed) =
      .ok (completedParts info components tagged) := by
    have hsame : Members.get? "components" listed = Members.get? "components" ms :=
      hgetListed (by decide) (by decide) (by decide) (by decide) (by decide)
    rw [Members.modifyM_eq, get?_fill_congr hsame, hthere, completedParts,
      withEmptyForms, ← hlisted]
    exact map_eq_ok.mpr ⟨_, withinObject_eq_ok.mpr ⟨components, rfl, rfl⟩, rfl⟩
  have hfillOpenapi : fill "openapi" (.str defaultVersion) ns = ns := by
    refine fill_of_filled ((filled_congr ?_).mpr h.openapi)
    rw [(actsAt_modifyM "paths" completion.apply).get (by decide) hpaths,
      get?_completedParts (by decide) (by decide) (by decide) (by decide) (by decide),
        hget (by decide)]
  rw [complete, Tree.members, pure_eq_ok, ok_bind, htags, ok_bind, hfillInfo,
    hmodifyInfo, ok_bind]
  dsimp only
  rw [← hlisted, hfillPaths, hmodifyComponents, ok_bind, hpaths, ok_bind,
    hfillOpenapi, pure_eq_ok]

/-- What was completed part by part is pruned part by part, underneath what was put and
filled in since. -/
private theorem prune_of_parts
    (h : Pruned ms) (htags : Members.modifyM "tags" pruneTags tagged = .ok ms)
    (hinfo : Members.get? "info" ms = some (.object info))
    (hinfoPruned : PrunedInfo info)
    (hthere : Members.get? "components" (fill "components" .emptyObject ms) =
      some (.object components)) (hpruned : PrunedComponents components)
    (hpaths : Members.modifyM "paths" prunePaths ns =
      .ok (completedParts info components tagged)) :
    prune (.object ns) = .ok (.object ms) := by
  obtain ⟨informed, hinformed⟩ : ∃ informed,
      informed = Members.put "info" (.object (completeInfo info)) ms :=
    ⟨_, rfl⟩
  have hstepTags :
      Members.modifyM "tags" pruneTags (completedParts info components tagged) =
      .ok (withEmptyForms components (fill "externalDocs" .emptyObject informed)) := by
    have hacts := actsAt_modifyM "tags" pruneTags
    rw [hinformed]
    exact hacts.withEmptyForms (by decide) (by decide) (by decide)
      (hacts.fill (by decide) (hacts.put (by decide) htags))
  have hstepExternalDocs : dropUnless "externalDocs" ["url"]
      (withEmptyForms components (fill "externalDocs" .emptyObject informed)) =
        .ok (withEmptyForms components informed) := by
    have hkept : Kept "externalDocs" ["url"] informed := by
      refine (kept_congr ?_).mpr h.externalDocs
      rw [hinformed, Members.get?_put, if_neg (by decide)]
    exact (actsAt_dropUnless "externalDocs" ["url"]).withEmptyForms (by decide)
      (by decide) (by decide) (dropUnless_fill rfl hkept)
  have hstepInfo : Members.modifyM "info" (withinAny pruneInfo)
      (withEmptyForms components informed) = .ok (withEmptyForms components ms) := by
    refine (actsAt_modifyM "info" (withinAny pruneInfo)).withEmptyForms (by decide)
      (by decide) (by decide) ?_
    rw [hinformed, Members.modifyM_eq, Members.get?_put, if_pos rfl]
    refine map_eq_ok.mpr ⟨.object info,
      ?_, by rw [Members.put_put, Members.put_of_get? hinfo]⟩
    rw [withinAny, pruneInfo_completeInfo hinfoPruned]
    rfl
  refine prune_eq_ok.mpr ⟨_, _, _, _, hpaths, hstepTags, hstepExternalDocs,
    hstepInfo, ?_⟩
  rw [withEmptyForms_undone h hthere hpruned]

/-- Pruning undoes the completion of a pruned document. -/
theorem prune_complete_of_pruned (h : Pruned ms) :
    ∃ completed, complete (.object ms) = .ok completed ∧
      prune completed = .ok (.object ms) := by
  obtain ⟨info, hinfo, hne, hinfoPruned⟩ := h.info
  obtain ⟨paths, hpathsThere, hpathsPruned⟩ := h.paths
  obtain ⟨components, hthere, hpruned⟩ : ∃ components,
      Members.get? "components" (fill "components" .emptyObject ms) =
        some (.object components) ∧
        PrunedComponents components := by
    cases hget : Members.get? "components" ms with
    | none =>
        exact ⟨[], by simp [fill, hget],
          fun name _ v hv => by simp [Members.get?] at hv⟩
    | some v =>
        obtain ⟨components, rfl, hcomponentsNe, hpruned⟩ := h.components v hget
        refine ⟨components, ?_, hpruned⟩
        rw [fill_of_filled (filled_of_object hget hcomponentsNe), hget]
  obtain ⟨tagged, htags, htagsBack⟩ := modifyM_undone fun v hv =>
    pruneTags_completeTags (h.tags v hv).2
  obtain ⟨ns, hpaths, hpathsBack⟩ : ∃ ns,
      Members.modifyM "paths" completion.apply (completedParts info components tagged) =
        .ok ns ∧
        Members.modifyM "paths" prunePaths ns =
          .ok (completedParts info components tagged) := by
    refine modifyM_undone fun v hv => ?_
    rw [get?_completedParts (by decide) (by decide) (by decide) (by decide) (by decide),
      (actsAt_modifyM "tags" completeTags).get (by decide) htags, hpathsThere] at hv
    obtain rfl := Option.some.inj hv
    exact prunePaths_undone hpathsPruned
  exact ⟨.object ns, complete_of_parts h htags hinfo hne hthere hpaths,
    prune_of_parts h htagsBack hinfo hinfoPruned hthere hpruned hpathsBack⟩

end

end ApiWorkbench.Document
