import ApiWorkbench.Document.Completion
import ApiWorkbench.Proofs.Frame
import ApiWorkbench.Proofs.Tree

/-!
# Members that are filled in

Completion fills in members of an object: a blank one is given its empty form, a missing
one is added at the end. That changes nothing under other names. A document is completed
by filling in and changing some of its members one after the other; `CompletesTo` says
of each of them what becomes of it, without the order of the steps.

## Main results

* `fill_of_filled`: nothing is filled in where something is.
* `filledIn_fillAll`: what becomes of an object in which several members are filled in.
* `completesTo_of_complete`: what becomes of the parts of a document.
-/

namespace ApiWorkbench.Document

open Members

/-! ## One member -/

section

variable {μ : Type}

/-- Something is under a name, and if it is blank it is the given empty form. -/
def Filled (name : String) (empty : Tree μ) (ms : Tree.Members μ) : Prop :=
  ∃ v, Members.get? (.str name) ms = some v ∧ (v.isBlank = true → v = empty)

/-- Filling in either puts the empty form or does nothing. -/
theorem fill_eq_put_or_self (name : String) (v : Tree μ) (ms : Tree.Members μ) :
    fill name v ms = Members.put (.str name) v ms ∨ fill name v ms = ms := by
  unfold fill
  split
  · split
    · exact .inl rfl
    · exact .inr rfl
  · exact .inl rfl

/-- Nothing is filled in where something is. -/
theorem fill_of_filled {name : String} {v : Tree μ} {ms : Tree.Members μ}
    (h : Filled name v ms) :
    fill name v ms = ms := by
  obtain ⟨w, hw, hblank⟩ := h
  rw [fill, hw]
  dsimp only
  split
  · rw [← hblank ‹_›, Members.put_of_get? hw]
  · rfl

/-- Filling in one member leaves the others. -/
@[simp] theorem get?_fill_of_ne {a b : String} (hab : a ≠ b) (v : Tree μ)
    (ms : Tree.Members μ) :
    Members.get? (.str a) (fill b v ms) = Members.get? (.str a) ms := by
  rcases fill_eq_put_or_self b v ms with h | h <;> simp [h, hab]

theorem get?_fill_self (name : String) (v : Tree μ) (ms : Tree.Members μ) :
    Members.get? (.str name) (fill name v ms) =
      some (((Members.get? (.str name) ms).getD .null).orElse v) := by
  unfold fill Tree.orElse
  cases hget : Members.get? (.str name) ms with
  | none => simp [Tree.isBlank, Scalar.isBlank]
  | some w =>
      by_cases hblank : w.isBlank = true
      · simp [hblank]
      · simp [hblank, hget]

/-- What is blank or missing has become the empty form. -/
theorem filled_of_get?_orElse {name : String} {v empty : Tree μ} {ms : Tree.Members μ}
    (h : Members.get? (.str name) ms = some (v.orElse empty)) :
    Filled name empty ms := by
  refine ⟨_, h, fun hblank => ?_⟩
  unfold Tree.orElse at hblank ⊢
  split
  · rfl
  · rw [if_neg ‹_›] at hblank
    contradiction

theorem filled_fill (name : String) (v : Tree μ) (ms : Tree.Members μ) :
    Filled name v (fill name v ms) :=
  filled_of_get?_orElse (get?_fill_self name v ms)

theorem filled_congr {name : String} {v : Tree μ} {ms ns : Tree.Members μ}
    (h : Members.get? (.str name) ms = Members.get? (.str name) ns) : Filled name v ms ↔
      Filled name v ns := by
  rw [Filled, Filled, h]

/-- What is put under a name fills it, if it is not blank or has the empty form. -/
theorem filled_put {name : String} {v empty : Tree μ} (h : v.isBlank = true → v = empty)
    (ms : Tree.Members μ) :
    Filled name empty (Members.put (.str name) v ms) :=
  ⟨v, by simp, h⟩

theorem Filled.put_of_ne {a b : String} (hab : a ≠ b)
    {empty : Tree μ} {ms : Tree.Members μ} (h : Filled a empty ms) (v : Tree μ) :
    Filled a empty (Members.put (.str b) v ms) :=
  (filled_congr (by simp [hab])).mpr h

/-- An entry after filling in is an earlier one or the one that was filled in. -/
theorem mem_fill {name : String} {v : Tree μ} {ms : Tree.Members μ}
    {e : Scalar × Tree μ} (h : e ∈ fill name v ms) : e ∈ ms ∨ e = (.str name, v) := by
  rcases fill_eq_put_or_self name v ms with heq | heq
  · exact Members.mem_put_str (heq ▸ h)
  · exact .inl (heq ▸ h)

/-- A blank object is the empty one. -/
theorem object_of_isBlank {ms : Members} (h : (Value.object ms).isBlank = true) :
    Value.object ms = Tree.emptyObject := by
  simp only [Tree.isBlank, List.isEmpty_iff] at h
  rw [h, Tree.emptyObject]

/-- A blank list is the empty one. -/
theorem list_of_isBlank {xs : List (Tree μ)} (h : (Tree.list xs).isBlank = true) :
    (Tree.list xs : Tree μ) = .list [] := by
  simp only [Tree.isBlank, List.isEmpty_iff] at h
  rw [h]

end

/-! ## Several members -/

/-- Blank and missing members have been given certain forms, and nothing else has
changed. -/
structure FilledIn (forms : List (String × Value)) (ms ns : Members) : Prop where
  others : SameBut (forms.map (·.1)) (withNames (forms.map (·.1)) ms) ns
  filled : ∀ form ∈ forms, get? (.str form.1) ns =
    some ((valueAt (.str form.1) ms).orElse form.2)

/-- Several forms filled in, one after the other. -/
def fillAll (forms : List (String × Value)) (ms : Members) : Members :=
  forms.foldl (fun ms form => fill form.1 form.2 ms) ms

section

variable {changed : List String} {forms : List (String × Value)} {ms ns : Members}
  {name : String}

/-- Filling in changes what is under one name that is there, or given. -/
theorem sameBut_fill (name : String) (v : Value) (ms : Members) :
    SameBut [name] (withName name ms) (fill name v ms) := by
  unfold withName
  cases hget : get? (.str name) ms with
  | none =>
      have hcontains : contains (.str name) ms = false := by rw [contains, hget]; rfl
      have hfill : fill name v ms = ms ++ [(.str name, v)] := by
        rw [fill, hget, put_of_absent v hget]
      rw [hcontains, hfill]
      exact List.rel_append (SameBut.refl [name] ms)
        (.cons ⟨rfl, fun h => absurd rfl (h name (by simp))⟩ .nil)
  | some w =>
      have hcontains : contains (.str name) ms = true := by rw [contains, hget]; rfl
      rw [if_pos hcontains]
      rcases fill_eq_put_or_self name v ms with h | h
      · rw [h]
        exact sameBut_put hget v
      · rw [h]
        exact .refl _ _

/-- Filling in one more member changes what is under one more name. -/
theorem sameBut_fill_of (h : SameBut changed ms ns)
    (hname : name ∈ changed) (v : Value) :
    SameBut changed (withName name ms) (fill name v ns) :=
  (h.withName name).trans ((sameBut_fill name v ns).mono (by simpa using hname))

theorem sameBut_modifyM_of (h : SameBut changed ms ns)
    (hname : name ∈ changed) {f : Value → Except Fault Value} {os : Members}
    (hos : modifyM (.str name) f ns = .ok os) : SameBut changed ms os :=
  h.trans ((sameBut_modifyM hos).mono (by simpa using hname))

theorem sameBut_fillAll (forms : List (String × Value)) (ms : Members) :
    SameBut (forms.map (·.1)) (withNames (forms.map (·.1)) ms) (fillAll forms ms) := by
  induction forms generalizing ms with
  | nil => exact .refl _ _
  | cons form forms ih =>
      rw [List.map_cons]
      have hfirst := (sameBut_fill form.1 form.2 ms).withNames (forms.map (·.1))
      exact (hfirst.mono (by simp)).trans
        ((ih (fill form.1 form.2 ms)).mono (List.subset_cons_self _ _))

/-- Filling in more members changes what is under more names. -/
theorem sameBut_fillAll_of (h : SameBut changed ms ns) (forms : List (String × Value))
    (hforms : forms.map (·.1) ⊆ changed) :
    SameBut changed (withNames (forms.map (·.1)) ms) (fillAll forms ns) :=
  (h.withNames _).trans ((sameBut_fillAll forms ns).mono hforms)

theorem get?_fillAll_of_notMem (hname : name ∉ forms.map (·.1)) (ms : Members) :
    get? (.str name) (fillAll forms ms) = get? (.str name) ms := by
  induction forms generalizing ms with
  | nil => rfl
  | cons form forms ih =>
      rw [List.map_cons, List.mem_cons, not_or] at hname
      rw [fillAll, List.foldl_cons, ← fillAll, ih hname.2, get?_fill_of_ne hname.1]

/-- Forms under different names are filled in. -/
theorem filledIn_fillAll (hforms : (forms.map (·.1)).Nodup) (ms : Members) :
    FilledIn forms ms (fillAll forms ms) where
  others := sameBut_fillAll forms ms
  filled := by
    intro form hform
    induction forms generalizing ms with
    | nil => simp at hform
    | cons first forms ih =>
        rw [List.map_cons, List.nodup_cons] at hforms
        rw [fillAll, List.foldl_cons, ← fillAll]
        rcases List.mem_cons.mp hform with rfl | hform
        · rw [get?_fillAll_of_notMem hforms.1, get?_fill_self, valueAt]
        · have hne : form.1 ≠ first.1 := fun heq =>
            hforms.1 (heq ▸ List.mem_map_of_mem hform)
          rw [ih hforms.2 _ hform, valueAt, valueAt, get?_fill_of_ne hne]

end

/-! ## Documents -/

theorem members_eq_ok {v : Value} {ms : Members} :
    v.members = .ok ms ↔ v = .object ms := by
  cases v <;> simp [Tree.members]

theorem withinObject_eq_ok {change : Members → Members} {v w : Value} :
    withinObject change v = .ok w ↔ ∃ ms, v = .object ms ∧ w = .object (change ms) := by
  cases v <;> simp [withinObject, Tree.members, eq_comm]

/-- The members of a document that completion adds where they are missing, in the order
in which it does. -/
def addedNames : List String :=
  ["info", "externalDocs", "security", "servers", "paths", "components", "openapi"]

/-- Members of a document and what the parts of completion make of them. -/
structure CompletesTo (ms ns : Members) : Prop where
  others : SameBut ("tags" :: addedNames) (withNames addedNames ms) ns
  tags : Option.Rel (fun v w => completeTags v = .ok w) (get? "tags" ms)
    (get? "tags" ns)
  info : ∃ info, (valueAt "info" ms).orElse untitledInfo = .object info ∧
    get? "info" ns = some (.object (completeInfo info))
  filled : ∀ form ∈ [("externalDocs", .emptyObject), ("security", .list []),
    ("servers", .list []), ("openapi", .str defaultVersion)], get? (.str form.1) ns =
    some ((valueAt (.str form.1) ms).orElse form.2)
  paths : ∃ paths paths', (valueAt "paths" ms).orElse .emptyObject = .object paths ∧
    completion.pathItems paths = .ok paths' ∧ get? "paths" ns = some (.object paths')
  components : ∃ components,
    (valueAt "components" ms).orElse .emptyObject = .object components ∧
    get? "components" ns = some (.object (completeComponents components))

/-- What a change makes of what was filled in under a name. -/
private theorem exists_made_of_modifyM_fill
    {name : String} {v : Value} {f : Value → Except Fault Value} {ms ns : Members}
    (h : modifyM (.str name) f (fill name v ms) = .ok ns) :
    ∃ w, f ((valueAt (.str name) ms).orElse v) = .ok w ∧
      get? (.str name) ns = some w := by
  rw [modifyM_eq, get?_fill_self, ← valueAt] at h
  obtain ⟨w, hw, rfl⟩ := map_eq_ok.mp h
  exact ⟨w, hw, by simp⟩

/-- The parts of a document after completion, each made of what was there before. -/
theorem completesTo_of_complete {document result : Value}
    (hcomplete : complete document = .ok result) :
    ∃ ms ns, document = .object ms ∧ result = .object ns ∧ CompletesTo ms ns := by
  obtain ⟨ms, hms, h⟩ := bind_eq_ok.mp hcomplete
  obtain ⟨ms₁, htags, h⟩ := bind_eq_ok.mp h
  obtain ⟨ms₂, hinfo, h⟩ := bind_eq_ok.mp h
  obtain ⟨ms₃, hcomponents, h⟩ := bind_eq_ok.mp h
  obtain ⟨ms₄, hpaths, h⟩ := bind_eq_ok.mp h
  obtain rfl := Except.ok.inj h
  refine ⟨ms, _, members_eq_ok.mp hms, rfl, ?_⟩
  -- each step leaves what is not under its own name
  have hother₁ := fun a ha => get?_modifyM_of_ne (a := a) ha htags
  have hother₂ := fun a ha => get?_modifyM_of_ne (a := a) ha hinfo
  have hother₃ := fun a ha => get?_modifyM_of_ne (a := a) ha hcomponents
  have hother₄ := fun a ha => get?_modifyM_of_ne (a := a) ha hpaths
  refine
    { others := ?_
      tags := ?_
      info := ?_
      filled := ?_
      paths := ?_
      components := ?_ }
  · have h₁ :=
      (sameBut_modifyM htags).mono (show ["tags"] ⊆ "tags" :: addedNames by simp)
    have h₂ := sameBut_modifyM_of (sameBut_fill_of h₁ (by decide) _) (by decide) hinfo
    have hfilled := sameBut_fillAll_of
      h₂ [("externalDocs", .emptyObject), ("security", .list []), ("servers", .list []),
      ("paths", .emptyObject), ("components", .emptyObject)] (by decide)
    have h₃ := sameBut_modifyM_of hfilled (by decide) hcomponents
    have h₄ := sameBut_modifyM_of h₃ (by decide) hpaths
    have hlast := sameBut_fill_of h₄ (show "openapi" ∈ "tags" :: addedNames by decide)
      (.str defaultVersion)
    simpa only [addedNames, withNames, List.map_cons, List.map_nil, List.foldl_cons,
      List.foldl_nil] using hlast
  · have hns : get? "tags" (fill "openapi" (.str defaultVersion) ms₄) =
        get? "tags" ms₁ := by
      simp [hother₄, hother₃, hother₂]
    rw [hns]
    exact rel_get?_modifyM htags
  · obtain ⟨w, hw, hget⟩ := exists_made_of_modifyM_fill hinfo
    obtain ⟨info, hread, rfl⟩ := withinObject_eq_ok.mp hw
    rw [valueAt, hother₁ _ (by decide), ← valueAt] at hread
    exact ⟨info, hread, by simpa [hother₄, hother₃] using hget⟩
  · simp [hother₄, hother₃, hother₂, hother₁, get?_fill_self, valueAt]
  · rw [modifyM_eq, hother₃ _ (by decide), get?_fill_of_ne (by decide), get?_fill_self]
      at hpaths
    obtain ⟨w, hw, rfl⟩ := map_eq_ok.mp hpaths
    obtain ⟨paths, hread, hw⟩ := bind_eq_ok.mp hw
    obtain ⟨paths', hpaths', heq⟩ := bind_eq_ok.mp hw
    obtain rfl := Except.ok.inj heq
    refine ⟨paths, paths', ?_, hpaths', by simp⟩
    simpa [hother₂, hother₁, valueAt] using members_eq_ok.mp hread
  · obtain ⟨w, hw, hget⟩ := exists_made_of_modifyM_fill hcomponents
    obtain ⟨components, hread, rfl⟩ := withinObject_eq_ok.mp hw
    refine ⟨components, ?_, by simpa [hother₄] using hget⟩
    simpa [hother₂, hother₁, valueAt] using hread

end ApiWorkbench.Document
