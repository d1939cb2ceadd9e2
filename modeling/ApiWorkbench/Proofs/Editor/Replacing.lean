import ApiWorkbench.Proofs.Editor.Missing
import ApiWorkbench.Proofs.Names

/-!
# Replacing what is at an address

Many edits make something else of one object, however deep in the document it is, and
leave everything around it as it is: every object and list on the way keeps its other
parts, and all parts keep their places. What stands at an address is read with `find?`
and replaced with `replaceAt`, and the two obey the laws that reading and replacing
should obey. So an edit whose effect on the object itself can be undone can be undone in
the whole document.

An edit *replaces* an object at an address by another one if that is what it comes to
wherever the one object is found.

## Main results

* `Address.find?_replaceAt`, `Address.replaceAt_find?`, `Address.replaceAt_replaceAt`:
  the laws of replacing.
* `Edit.ReplacesAt.within`, `Edit.ReplacesAt.withinMap`: from an edit of a part to an
  edit of the whole.
* `apply_of_replacesAt`, `apply_back`: what a command with such an edit comes to, and a
  command that undoes it.
-/

namespace ApiWorkbench

namespace Members

variable {α : Type} {name : Scalar} {v w : α} {ms : List (Scalar × α)}

/-- What was put under a name is found there. -/
theorem get?_put_self (name : Scalar) (v : α) (ms : List (Scalar × α)) :
    get? name (put name v ms) = some v := by
  induction ms with
  | nil => simp [get?_cons]
  | cons e rest ih =>
      obtain ⟨k, u⟩ := e
      by_cases hk : k.same name = true
      · simp [put_cons, get?_cons, hk]
      · simp [put_cons, get?_cons, hk, ih]

/-- Of two values that are put under a name the later one counts. -/
theorem put_put_self (name : Scalar) (v w : α) (ms : List (Scalar × α)) :
    put name w (put name v ms) = put name w ms := by
  induction ms with
  | nil => simp [put_cons]
  | cons e rest ih =>
      obtain ⟨k, u⟩ := e
      by_cases hk : k.same name = true
      · simp [put_cons, hk]
      · simp [put_cons, hk, ih]

end Members

namespace Editor

open Command Document Members

namespace Address

variable {address : Address} {step : Step} {name : Scalar} {v w a b : Value}
  {ms : Members}

namespace Step

/-- A value with something else for what a step leads to. -/
def replace : Step → Value → Value → Value
  | .part name, new, .object ms | .entry name, new, .object ms =>
      .object (put name new ms)
  | .item index, new, .list xs =>
      .list ((position? index xs).elim xs fun i => xs.set i new)
  | _, _, v => v

theorem replace_object (hstep : step.name? = some name) (new : Value) (ms : Members) :
    step.replace new (.object ms) = .object (put name new ms) := by
  cases step with
  | part n | entry n =>
      obtain rfl := Option.some.inj hstep
      rfl
  | item index => simp [name?] at hstep

/-- A step that has a name leads from an object. -/
theorem exists_object_of_into? (hstep : step.name? = some name)
    (h : step.into? v = some w) :
    ∃ ms, v = .object ms ∧ get? name ms = some w := by
  cases step with
  | part n | entry n =>
      obtain rfl := Option.some.inj hstep
      cases v with
      | marked mark ms => exact ⟨ms, rfl, h⟩
      | _ => cases h
  | item index => simp [name?] at hstep

/-- An item leads from a list, at the position of the item. -/
private theorem exists_list_of_into? {index : Int} (h : (item index).into? v = some w) :
    ∃ xs i, v = .list xs ∧ position? index xs = some i ∧ xs[i]? = some w := by
  cases v with
  | list xs =>
      obtain ⟨i, hi, hw⟩ := Option.bind_eq_some_iff.mp h
      exact ⟨xs, i, rfl, hi, hw⟩
  | _ => cases h

private theorem position?_set (index : Int) (i : Nat) (new : Value) (xs : List Value) :
    position? index (xs.set i new) = position? index xs := by
  simp only [position?, List.length_set]

/-! A step leads to what was put at its end, putting back what was there restores the
value, and of two values that are put there the later one counts. -/

theorem into?_replace (h : step.into? v = some w) (new : Value) :
    step.into? (step.replace new v) = some new := by
  cases step with
  | part name | entry name =>
      obtain ⟨ms, rfl, -⟩ := exists_object_of_into? rfl h
      exact get?_put_self name new ms
  | item index =>
      obtain ⟨xs, i, rfl, hi, hw⟩ := exists_list_of_into? h
      obtain ⟨hlt, -⟩ := List.getElem?_eq_some_iff.mp hw
      simp [replace, into?, hi, position?_set, hlt]

theorem replace_into? (h : step.into? v = some w) : step.replace w v = v := by
  cases step with
  | part name | entry name =>
      obtain ⟨ms, rfl, hget⟩ := exists_object_of_into? rfl h
      exact congrArg Value.object (put_of_get? hget)
  | item index =>
      obtain ⟨xs, i, rfl, hi, hw⟩ := exists_list_of_into? h
      obtain ⟨hlt, rfl⟩ := List.getElem?_eq_some_iff.mp hw
      simp [replace, hi]

theorem replace_replace (h : step.into? v = some w) (a b : Value) :
    step.replace b (step.replace a v) = step.replace b v := by
  cases step with
  | part name | entry name =>
      obtain ⟨ms, rfl, -⟩ := exists_object_of_into? rfl h
      exact congrArg Value.object (put_put_self name a b ms)
  | item index =>
      obtain ⟨xs, i, rfl, hi, -⟩ := exists_list_of_into? h
      simp [replace, hi, position?_set]

end Step

/-- A value with something else for what is at an address in it; the value itself if
nothing is there. -/
def replaceAt : Address → Value → Value → Value
  | [], new, _ => new
  | step :: rest, new, v =>
      (step.into? v).elim v fun w => step.replace (replaceAt rest new w) v

theorem replaceAt_cons {rest : Address} (h : step.into? v = some w) (new : Value) :
    replaceAt (step :: rest) new v = step.replace (replaceAt rest new w) v := by
  rw [replaceAt, h]
  rfl

/-- What replaces something is found in its place. -/
theorem find?_replaceAt (h : find? address v = some w) (new : Value) :
    find? address (replaceAt address new v) = some new := by
  induction address generalizing v with
  | nil => rfl
  | cons step rest ih =>
      obtain ⟨u, hu, hrest⟩ := Option.bind_eq_some_iff.mp h
      rw [replaceAt_cons hu, find?, Step.into?_replace hu, Option.bind_some, ih hrest]

/-- Replacing something by itself changes nothing. -/
theorem replaceAt_find? (h : find? address v = some w) : replaceAt address w v = v := by
  induction address generalizing v with
  | nil => exact (Option.some.inj h).symm
  | cons step rest ih =>
      obtain ⟨u, hu, hrest⟩ := Option.bind_eq_some_iff.mp h
      rw [replaceAt_cons hu, ih hrest, Step.replace_into? hu]

/-- What was replaced and is replaced again might have been replaced at once. -/
theorem replaceAt_replaceAt (h : find? address v = some w) (a b : Value) :
    replaceAt address b (replaceAt address a v) = replaceAt address b v := by
  induction address generalizing v with
  | nil => rfl
  | cons step rest ih =>
      obtain ⟨u, hu, hrest⟩ := Option.bind_eq_some_iff.mp h
      rw [replaceAt_cons hu a, replaceAt_cons (Step.into?_replace hu _), ih hrest,
        Step.replace_replace hu, replaceAt_cons hu b]

end Address

open Address

/-- The map under a name is the object that is there. -/
theorem mapAt_of_object {name : Scalar} {ms inner : Members}
    (h : get? name ms = some (.object inner)) :
    mapAt name ms = .object inner := by
  rw [mapAt, valueAt, h]
  cases inner <;> rfl

namespace Edit

variable {address : Address} {step : Step} {part part' : Members} {e : Edit Unit}

/-! ## Edits that replace an object -/

/-- An edit replaces an object at an address by another one, wherever it is found
there. -/
def ReplacesAt (address : Address) (part part' : Members) (e : Edit Unit) : Prop :=
  ∀ v, find? address v = some (.object part) →
    ∃ ms ns, v = .object ms ∧ e ms = .ok (some ns) ∧
      replaceAt address (.object part') v = .object ns

/-- An edit replaces the members that it is made in. -/
theorem replacesAt_nil (h : e part = .ok (some part')) :
    ReplacesAt [] part part' e := by
  intro v hfind
  exact ⟨part, part', Option.some.inj hfind, h, rfl⟩

/-- What it takes to replace an object through its first step: the step leads to a
member, and the edit puts another one in its place. -/
theorem replacesAt_cons {name : Scalar} (hstep : step.name? = some name)
    (h : ∀ v ms, get? name ms = some v → find? address v = some (.object part) →
      e ms = .ok (some (put name (replaceAt address (.object part') v) ms))) :
    ReplacesAt (step :: address) part part' e := by
  intro v hfind
  obtain ⟨w, hw, hrest⟩ := Option.bind_eq_some_iff.mp hfind
  obtain ⟨ms, rfl, hget⟩ := Step.exists_object_of_into? hstep hw
  exact ⟨ms, _, rfl,
    h w ms hget hrest, by rw [replaceAt_cons hw, Step.replace_object hstep]⟩

theorem ReplacesAt.within {name : Scalar} (hstep : step.name? = some name)
    (h : ReplacesAt address part part' e) :
    ReplacesAt (step :: address) part part' (within name e) := by
  refine replacesAt_cons hstep fun v ms hget hfind => ?_
  obtain ⟨inner, inner', rfl, hedit, hreplaced⟩ := h v hfind
  rw [Edit.within, hget, hreplaced]
  dsimp only
  rw [hedit]
  rfl

theorem ReplacesAt.withinMap {name : String} (hstep : step.name? = some (.str name))
    (h : ReplacesAt address part part' e) :
    ReplacesAt (step :: address) part part' (withinMap name e) := by
  refine replacesAt_cons hstep fun v ms hget hfind => ?_
  obtain ⟨inner, inner', rfl, hedit, hreplaced⟩ := h v hfind
  rw [Edit.withinMap, members_mapAt_of_object hget, ok_bind, hedit, hreplaced]
  rfl

/-- An edit of the members that are under a name, if what it makes of them is put
there. -/
theorem replacesAt_withinMembers {name : String}
    (hstep : step.name? = some (.str name)) (h : e part = .ok (some part'))
    {next : Members → Option Members → Except Fault (Option Members)}
    (hnext : ∀ ms, next ms (some part') = changed (put name (.object part') ms)) :
    ReplacesAt [step] part part'
      (fun ms => do next ms (← e (← (mapAt name ms).toMembers))) := by
  refine replacesAt_cons hstep fun v ms hget hfind => ?_
  obtain rfl : v = .object part := Option.some.inj hfind
  rw [mapAt_of_object hget, Tree.toMembers, pure_eq_ok, ok_bind, h, ok_bind, hnext]
  rfl

end Edit

theorem replacesAt_withinPath {address : Address} {path : String} {part part' : Members}
    {e : Edit Unit} (h : e.ReplacesAt address part part') :
    (withinPath path e).ReplacesAt (.part "paths" :: .entry path :: address) part
      part' :=
  .withinMap rfl (.within rfl h)

/-! ## Commands -/

section

variable {state : State Unit} {command back : Command Unit} {address : Address}
  {part part' : Members} {e : Edit Unit}

/-- A command whose edit replaces an object does that to the document. -/
theorem apply_of_replacesAt (he : editOf command = some e)
    (h : e.ReplacesAt address part part')
    (hfind : find? address state.document = some (.object part)) :
    state.apply command =
      .ok (state.withDocument (replaceAt address (.object part') state.document)) := by
  obtain ⟨ms, ns, hdocument, hedit, hreplaced⟩ := h _ hfind
  rw [apply_of_editOf he hdocument, Edit.run, hedit, hreplaced]
  rfl

/-- After an object was replaced, a command that replaces it by what was there before
restores the state. -/
theorem apply_back (he : editOf back = some e) (h : e.ReplacesAt address part' part)
    (hfind : find? address state.document = some (.object part)) :
    (state.withDocument (replaceAt address (.object part') state.document)).apply back =
      .ok state := by
  have hrestored : replaceAt address (.object part)
      (replaceAt address (.object part') state.document) = state.document :=
    (replaceAt_replaceAt hfind _ _).trans (replaceAt_find? hfind)
  rw [apply_of_replacesAt he h (find?_replaceAt hfind _)]
  exact congrArg Except.ok (State.withDocument_self hrestored.symm)

end

end Editor

end ApiWorkbench
