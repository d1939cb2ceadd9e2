import ApiWorkbench.Proofs.Editor.Missing
import ApiWorkbench.Proofs.Editor.SchemeEdits

/-!
# Switching a requirement on and off

A security scheme may be required for a whole document. Switching this on adds a
requirement of that scheme alone, unless there is one that names it, alone or together
with others; switching it off takes away all that name it. So either may be repeated
without effect, and switching off after switching on comes to the same as switching off.

What is asked of an OAuth scheme are the scopes of all its flows. They are gathered flow
by flow, and a scope that has been met is passed over, which is to say that duplicates
are erased from the scopes of the flows written one after the other.

## Main results

* `addDistinct_eq`, `scopesOfFlows_eq`: the loops that gather scopes.
* `asksFor_of_requiredScopes`: what is asked of a scheme.
* `requireScheme_of_unnamed`, `releaseScheme_of_requirements`: what switching on
  and off comes to.
* `toggleGlobal_laws`: how the two play together.
-/

namespace ApiWorkbench.Editor

open Address Command Document Members

/-! ## Gathering -/

section

variable {found : List Value}

/-- An item that was met before is passed over. -/
theorem addDistinct_eq (present found : List Value) :
    addDistinct present found =
      present ++ (found.filter fun v => !present.any v.same).eraseDupsBy Tree.same := by
  induction found generalizing present with
  | nil => simp [addDistinct, List.eraseDupsBy, List.eraseDupsBy.loop]
  | cons v rest ih =>
      rw [addDistinct, ih, List.filter_cons]
      cases hmet : present.any v.same with
      | true => simp
      | false => simp [List.eraseDupsBy_cons, List.filter_filter, Bool.and_comm]

theorem addDistinct_append (present found more : List Value) :
    addDistinct present (found ++ more) =
      addDistinct (addDistinct present found) more := by
  induction found generalizing present with
  | nil => rfl
  | cons v rest ih => exact ih _

theorem mem_addDistinct {present : List Value} {v : Value}
    (h : v ∈ addDistinct present found) :
    v ∈ present ∨ v ∈ found := by
  induction found generalizing present with
  | nil => exact .inl h
  | cons w rest ih =>
      rcases ih h with hmem | hmem
      · split at hmem
        · exact .inl hmem
        · rcases List.mem_append.mp hmem with hmem | hmem
          · exact .inl hmem
          · exact .inr (by simp [List.mem_singleton.mp hmem])
      · exact .inr (by simp [hmem])

theorem distinct_addDistinct {present : List Value}
    (h : present.Pairwise fun v w => w.same v = false) :
    (addDistinct present found).Pairwise fun v w => w.same v = false := by
  induction found generalizing present with
  | nil => exact h
  | cons w rest ih =>
      refine ih ?_
      split
      · exact h
      · rename_i hnew
        refine List.pairwise_append.mpr
          ⟨h, List.pairwise_singleton _ _, fun v hv w' hw' => ?_⟩
        rw [Bool.not_eq_true, List.any_eq_false] at hnew
        rw [List.mem_singleton.mp hw']
        simpa using hnew v hv

/-- What was there stays. -/
theorem subset_addDistinct (present found : List Value) :
    present ⊆ addDistinct present found := by
  rw [addDistinct_eq]
  exact List.subset_append_left _ _

/-- Everything that was found is there in the end, or something that is the same. -/
theorem exists_mem_addDistinct {present : List Value} {v : Value} (h : v ∈ found) :
    ∃ w ∈ addDistinct present found, v = w ∨ v.same w = true := by
  induction found generalizing present with
  | nil => cases h
  | cons u rest ih =>
      rcases List.mem_cons.mp h with rfl | h
      · cases hmet : present.any v.same with
        | true =>
            obtain ⟨w, hw, hsame⟩ := List.any_eq_true.mp hmet
            exact ⟨w, by simpa [addDistinct, hmet] using subset_addDistinct _ _ hw,
              .inr hsame⟩
        | false =>
            exact
              ⟨v, by simpa [addDistinct, hmet] using subset_addDistinct _ _ (by simp),
              .inl rfl⟩
      · exact ih h

/-- Items are gathered from those found: each of them once, in the order in which they
were found first. -/
structure GatheredFrom (found scopes : List Value) : Prop where
  eq_eraseDups : scopes = found.eraseDupsBy Tree.same
  distinct : scopes.Pairwise fun v w => w.same v = false
  sound : ∀ v ∈ scopes, v ∈ found
  complete : ∀ v ∈ found, ∃ w ∈ scopes, v = w ∨ v.same w = true

theorem gatheredFrom_addDistinct (found : List Value) :
    GatheredFrom found (addDistinct [] found) where
  eq_eraseDups := by simp [addDistinct_eq]
  distinct := distinct_addDistinct .nil
  sound v hv := by simpa using mem_addDistinct hv
  complete v hv := exists_mem_addDistinct hv

end

/-! ## What is asked of a scheme -/

/-- The scopes of a flow. -/
def scopesOfFlow (flow : Value) : Except Fault (List Value) := do
  (mapAt "scopes" (← flow.membersOrNone)).items

/-- The scopes of flows are gathered from those of each flow, one after the other. -/
theorem scopesOfFlows_eq (scopes flows : List Value) :
    scopesOfFlows scopes flows = (fun found => addDistinct scopes found.flatten) <$>
      flows.mapM scopesOfFlow := by
  induction flows generalizing scopes with
  | nil => rfl
  | cons flow rest ih =>
      rw [scopesOfFlows, List.mapM_cons, scopesOfFlow]
      cases flow.membersOrNone with
      | error fault => rfl
      | ok ms =>
          rw [ok_bind, ok_bind]
          cases (mapAt "scopes" ms).items with
          | error fault => rfl
          | ok found =>
              rw [ok_bind, ok_bind, ih]
              cases rest.mapM scopesOfFlow with
              | error fault => rfl
              | ok more =>
                  exact congrArg Except.ok
                    (addDistinct_append scopes found more.flatten).symm

/-- Where a security scheme is in a document. -/
def schemeAddress (name : String) : Address :=
  [.part "components", .entry "securitySchemes", .entry name]

/-- The scopes that a requirement of a scheme asks for: those of all its flows if it is
an OAuth scheme, and none otherwise. -/
structure AsksFor (ms : Members) (name : String) (scopes : List Value) : Prop where
  oauth : ∀ scheme, find? (schemeAddress name) (.object ms) = some (.object scheme) →
    get? "type" scheme = some (.str "oauth2") →
      ∃ flows found, (mapAt "flows" scheme).members = .ok flows ∧
        flows.mapM (fun flow => scopesOfFlow flow.2) = .ok found ∧
          GatheredFrom found.flatten scopes
  other : (∀ scheme, find? (schemeAddress name) (.object ms) = some (.object scheme) →
    get? "type" scheme ≠ some (.str "oauth2")) → scopes = []

section

variable {ms inner : Members} {name : String} {scheme schemes : Value}
  {scopes : List Value}

/-- What is in the map under a name is what a step into that map leads to. -/
theorem get?_of_mapAt {name : Scalar} (h : (mapAt name ms).members = .ok inner)
    (k : Scalar) :
    get? k inner = (get? name ms).bind (Step.entry k).into? := by
  rw [mapAt, Tree.orElse, valueAt] at h
  cases hget : get? name ms with
  | none =>
      obtain rfl : [] = inner := by
        simpa [hget, Tree.isBlank, Scalar.isBlank, Tree.members] using h
      rfl
  | some v =>
      rw [hget, Option.getD_some] at h
      split at h
      · rename_i hblank
        obtain rfl := Except.ok.inj h
        cases v with
        | marked mark members =>
            obtain rfl : members = [] := by simpa [Tree.isBlank] using hblank
            rfl
        | _ => rfl
      · obtain rfl := members_eq_ok.mp h
        rfl

/-- The scheme that the editor finds is the one at its address, or null. -/
theorem scheme_eq_find? (hschemes : schemesOf ms = .ok schemes)
    (hscheme : schemes.member name = .ok scheme) :
    scheme = (find? (schemeAddress name) (.object ms)).getD .null := by
  obtain ⟨components, hcomponents, hfound⟩ := bind_eq_ok.mp hschemes
  obtain rfl := Except.ok.inj hfound
  obtain ⟨entries, hentries, hscheme⟩ := bind_eq_ok.mp hscheme
  obtain rfl := Except.ok.inj hscheme
  have hpart : (Step.part "components").into? (.object ms) = get? "components" ms := rfl
  rw [get?_of_mapAt hentries, get?_of_mapAt hcomponents]
  simp [schemeAddress, find?, hpart, Option.bind_assoc]

/-- A value under a name is a text exactly if the text is there. -/
private theorem isText_valueAt_iff {key text : String} :
    (valueAt key ms).isText text = true ↔ get? key ms = some (.str text) := by
  rw [Tree.isText_iff, valueAt]
  cases get? key ms <;> simp

/-- What is asked of the scheme that the editor finds. -/
theorem asksFor_of_requiredScopes
    (hschemes : schemesOf ms = .ok schemes) (hscheme : schemes.member name = .ok scheme)
    (hscopes : requiredScopes scheme = .ok scopes) : AsksFor ms name scopes := by
  have hfound := scheme_eq_find? hschemes hscheme
  obtain ⟨members, hmembers, hscopes⟩ := bind_eq_ok.mp hscopes
  constructor
  · intro entries hentries htype
    rw [hentries, Option.getD_some] at hfound
    subst hfound
    obtain rfl : entries = members := by
      cases entries with
      | nil => simp at htype
      | cons e rest => exact Except.ok.inj hmembers
    rw [if_pos (isText_valueAt_iff.mpr htype)] at hscopes
    obtain ⟨flows, hflows, hscopes⟩ := bind_eq_ok.mp hscopes
    rw [scopesOfFlows_eq] at hscopes
    obtain ⟨found, hfound, rfl⟩ := map_eq_ok.mp hscopes
    rw [List.mapM_map] at hfound
    exact ⟨flows, found, hflows, hfound, gatheredFrom_addDistinct _⟩
  · intro hother
    split at hscopes
    · rename_i htype
      rw [isText_valueAt_iff] at htype
      obtain rfl : scheme = .object members := by
        rw [Tree.membersOrNone] at hmembers
        split at hmembers
        · obtain rfl := Except.ok.inj hmembers
          simp at htype
        · exact members_eq_ok.mp hmembers
      cases hthere : find? (schemeAddress name) (.object ms) with
      | none => simp [hthere] at hfound
      | some v =>
          obtain rfl : Value.object members = v := by simpa [hthere] using hfound
          exact absurd htype (hother members hthere)
    · exact (Except.ok.inj hscopes).symm

end

/-! ## Switching on and off -/

/-- The document with other requirements. -/
def withRequirements (requirements : List Members) (ms : Members) : Members :=
  put "security" (.list (requirements.map .object)) ms

theorem get?_withRequirements (requirements : List Members) (ms : Members) :
    get? "security" (withRequirements requirements ms) =
      some (.list (requirements.map .object)) := by
  rw [withRequirements, get?_put, if_pos rfl]

theorem withRequirements_twice (requirements requirements' : List Members)
    (ms : Members) :
    withRequirements requirements' (withRequirements requirements ms) =
      withRequirements requirements' ms :=
  put_put _ _ _ _

/-- Whether one of the requirements names a scheme. -/
theorem anyM_holds (requirements : List Members) (name : String) :
    (requirements.map Tree.object).anyM (fun requirement : Value =>
      requirement.holds name) = .ok (requirements.any (contains (.str name) ·)) := by
  induction requirements with
  | nil => rfl
  | cons requirement rest ih =>
      rw [List.map_cons, List.anyM_cons, Tree.holds, pure_eq_ok, ok_bind, ih,
        List.any_cons]
      cases contains (.str name) requirement <;> rfl

/-- The requirements with one more, of a scheme alone. -/
def requiring (name : String) (scopes : List Value) (requirements : List Members) :
    List Members :=
  requirements ++ [[(.str name, .list scopes)]]

/-- The requirement that was added names the scheme. -/
theorem any_requiring (name : String) (scopes : List Value)
    (requirements : List Members) :
    (requiring name scopes requirements).any (contains name ·) = true := by
  simp [requiring, contains, get?_cons]

/-- Without the requirements that name the scheme it does not matter that one was
added. -/
theorem filter_requiring (name : String) (scopes : List Value)
    (requirements : List Members) :
    (requiring name scopes requirements).filter (fun requirement =>
      !contains name requirement) = requirements.filter fun requirement =>
      !contains name requirement := by
  simp [requiring, contains, get?_cons]

section

variable {ms ns : Members} {requirements : List Members} {name : String}
  (h : get? "security" ms = some (.list (requirements.map .object)))
include h

/-- Switching off takes away the requirements that name the scheme. -/
theorem releaseScheme_of_requirements (name : String) :
    (releaseScheme name).run ms =
      .ok (withRequirements (requirements.filter fun requirement =>
        !contains name requirement) ms) := by
  rw [Edit.run, releaseScheme, listAt_of_list h, ok_bind, filterM_unnamed]
  rfl

/-- Where no requirement names the scheme, switching off changes nothing. -/
theorem releaseScheme_of_unnamed
    (hunnamed : requirements.any (contains name ·) = false) :
    (releaseScheme name).run ms = .ok ms := by
  have hall : requirements.filter (fun requirement => !contains name requirement) =
      requirements :=
    List.filter_eq_self.mpr fun requirement hmem => by
      simpa using List.any_eq_false.mp hunnamed requirement hmem
  rw [releaseScheme_of_requirements h, hall, withRequirements, put_of_get? h]

/-- Where a requirement names the scheme, switching on changes nothing. -/
theorem requireScheme_of_named (hnamed : requirements.any (contains name ·) = true) :
    (requireScheme name).run ms = .ok ms := by
  rw [Edit.run, requireScheme, listAt_of_list h, ok_bind, anyM_holds, hnamed]
  rfl

theorem eq_of_requireScheme_of_named
    (hnamed : requirements.any (contains name ·) = true)
    (hrun : (requireScheme name).run ms = .ok ns) : ns = ms := by
  rw [requireScheme_of_named h hnamed] at hrun
  exact (Except.ok.inj hrun).symm

/-- Where no requirement names the scheme, switching on adds one. -/
theorem requireScheme_of_unnamed (hunnamed : requirements.any (contains name ·) = false)
    (hrun : (requireScheme name).run ms = .ok ns) :
    ∃ scopes, AsksFor ms name scopes ∧
      ns = withRequirements (requiring name scopes requirements) ms := by
  obtain ⟨found, hedit, rfl⟩ := Edit.run_eq_ok.mp hrun
  rw [requireScheme, listAt_of_list h, ok_bind, anyM_holds, hunnamed, ok_bind,
    if_neg Bool.false_ne_true] at hedit
  obtain ⟨schemes, hschemes, hedit⟩ := bind_eq_ok.mp hedit
  obtain ⟨scheme, hscheme, hedit⟩ := bind_eq_ok.mp hedit
  obtain ⟨scopes, hscopes, hedit⟩ := bind_eq_ok.mp hedit
  obtain rfl := Except.ok.inj hedit
  refine ⟨scopes, asksFor_of_requiredScopes hschemes hscheme hscopes, ?_⟩
  rw [withRequirements, requiring, List.map_append]
  rfl

/-- Switching on changes nothing after it was switched on. -/
theorem requireScheme_again (hrun : (requireScheme name).run ms = .ok ns) :
    (requireScheme name).run ns = .ok ns := by
  cases hnamed : requirements.any (contains name ·) with
  | true =>
      obtain rfl := eq_of_requireScheme_of_named h hnamed hrun
      exact hrun
  | false =>
      obtain ⟨scopes, -, rfl⟩ := requireScheme_of_unnamed h hnamed hrun
      exact requireScheme_of_named (get?_withRequirements _ _) (any_requiring _ _ _)

/-- Switching off after switching on is switching off. -/
theorem releaseScheme_after (hrun : (requireScheme name).run ms = .ok ns) :
    (releaseScheme name).run ns = (releaseScheme name).run ms := by
  cases hnamed : requirements.any (contains name ·) with
  | true => rw [eq_of_requireScheme_of_named h hnamed hrun]
  | false =>
      obtain ⟨scopes, -, rfl⟩ := requireScheme_of_unnamed h hnamed hrun
      rw [releaseScheme_of_requirements (get?_withRequirements _ _),
        releaseScheme_of_requirements h, filter_requiring, withRequirements_twice]

end

/-! ## The command -/

section

variable {state : State Unit} {ms : Members} (hdocument : state.document = .object ms)
  (name : String)
include hdocument

private theorem apply_switchOn : state.apply (.security (.toggleGlobal name true)) =
    (fun ns => state.withDocument (.object ns)) <$> (requireScheme name).run ms :=
  apply_of_editOf rfl hdocument

private theorem apply_switchOff : state.apply (.security (.toggleGlobal name false)) =
    (fun ns => state.withDocument (.object ns)) <$> (releaseScheme name).run ms :=
  apply_of_editOf rfl hdocument

end

/-- Laws of switching a requirement on and off in a document with a list of
requirements. Switching off takes away exactly the requirements that name the scheme. If
switching on is possible, it changes nothing where the scheme is named already.
Otherwise it adds one requirement of this scheme alone, and switching off restores the
document. Switching on again changes nothing more, and switching off afterwards is the
same as switching off at once. -/
theorem toggleGlobal_laws {state : State Unit} {ms : Members}
    {requirements : List Members} (hdocument : state.document = .object ms)
    (hsecurity : get? "security" ms = some (.list (requirements.map .object)))
    (name : String) :
    state.apply (.security (.toggleGlobal name false)) =
      .ok (state.withDocument (.object (withRequirements
      (requirements.filter fun requirement => !contains name requirement) ms))) ∧
      ∀ next, state.apply (.security (.toggleGlobal name true)) = .ok next →
        (requirements.any (contains name ·) = true → next = state) ∧
        (requirements.any (contains name ·) = false →
          (∃ scopes, AsksFor ms name scopes ∧ next = state.withDocument (.object
            (withRequirements (requirements ++ [[(.str name, .list scopes)]]) ms))) ∧
          next.apply (.security (.toggleGlobal name false)) = .ok state) ∧
        next.apply (.security (.toggleGlobal name true)) = .ok next ∧
        next.apply (.security (.toggleGlobal name false)) =
          state.apply (.security (.toggleGlobal name false)) := by
  have hself := State.withDocument_self hdocument
  refine
    ⟨by rw [apply_switchOff hdocument, releaseScheme_of_requirements hsecurity, map_ok],
    fun next hnext => ?_⟩
  rw [apply_switchOn hdocument] at hnext
  obtain ⟨ns, hrun, rfl⟩ := map_eq_ok.mp hnext
  have hns : (state.withDocument (.object ns)).document = .object ns := rfl
  have hafter :
      (state.withDocument (.object ns)).apply (.security (.toggleGlobal name false)) =
      state.apply (.security (.toggleGlobal name false)) := by
    rw [apply_switchOff hns, apply_switchOff hdocument,
      releaseScheme_after hsecurity hrun]
    rfl
  refine ⟨fun hnamed => ?_, fun hunnamed => ⟨?_, ?_⟩, ?_, hafter⟩
  · rw [eq_of_requireScheme_of_named hsecurity hnamed hrun, hself]
  · obtain ⟨scopes, hscopes, rfl⟩ := requireScheme_of_unnamed hsecurity hunnamed hrun
    exact ⟨scopes, hscopes, rfl⟩
  · rw [hafter, apply_switchOff hdocument, releaseScheme_of_unnamed hsecurity hunnamed,
      map_ok, hself]
  · rw [apply_switchOn hns, requireScheme_again hsecurity hrun]
    rfl

/-- A key is required; the login is an OAuth scheme with three flows, of
which one is null. -/
private def loginDocument : Members :=
  [("security", .list [.record [("key", .list [])]]),
    ("components", .record [("securitySchemes", .record [("key", .record
      [("type", .str "apiKey")]), ("login", .record [("type", .str "oauth2"), ("flows",
      .record [ ("implicit", .record [("scopes", .record [("write", .str "Change pets"),
      ("read", .str "See pets")])]), ("password", .null), ("clientCredentials", .record
      [("scopes", .record [("read", .str "See"), ("admin", .str "All")])])])])])])]

/-- Switching the login on adds a requirement with the scopes of its flows, and
switching it off takes it away again. The key is required already, and nothing is left
when it is switched off. -/
theorem toggleGlobal_laws_of_login :
    get? "security" loginDocument =
      some (.list ([[(.str "key", .list [])]].map .object)) ∧
      (∃ next, (State.ofDocument (.object loginDocument)).apply
        (.security (.toggleGlobal "login" true)) = .ok next ∧
        next = State.ofDocument (.object (withRequirements
          [[(.str "key", .list [])],
            [(.str "login", .list [.str "write", .str "read", .str "admin"])]]
            loginDocument)) ∧
        next.apply (.security (.toggleGlobal "login" false)) =
          .ok (State.ofDocument (.object loginDocument)) ∧
        next.apply (.security (.toggleGlobal "login" true)) = .ok next) ∧
      (State.ofDocument (.object loginDocument)).apply
        (.security (.toggleGlobal "key" true)) =
        .ok (State.ofDocument (.object loginDocument)) ∧
      (State.ofDocument (.object loginDocument)).apply
        (.security (.toggleGlobal "key" false)) =
        .ok (State.ofDocument (.object (withRequirements [] loginDocument))) := by
  have hdocument : (State.ofDocument (.object loginDocument)).document =
      .object loginDocument := rfl
  have hsecurity : get? "security" loginDocument =
      some (.list ([[(.str "key", .list [])]].map .object)) := rfl
  obtain ⟨-, hlogin⟩ := toggleGlobal_laws hdocument hsecurity "login"
  obtain ⟨hkeyOff, -⟩ := toggleGlobal_laws hdocument hsecurity "key"
  have hon : (State.ofDocument (.object loginDocument)).apply
      (.security (.toggleGlobal "login" true)) = .ok (State.ofDocument
      (.object (withRequirements [[(.str "key", .list [])], [(.str "login",
      .list [.str "write", .str "read", .str "admin"])]] loginDocument))) := rfl
  obtain ⟨-, hadded, hagain, -⟩ := hlogin _ hon
  exact ⟨hsecurity, ⟨_, hon, rfl, (hadded (by decide)).2, hagain⟩, rfl, hkeyOff⟩

end ApiWorkbench.Editor
