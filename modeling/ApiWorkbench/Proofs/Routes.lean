import ApiWorkbench.Proofs.Members

/-!
# Routes into a document

A route is a list of names that leads from an object to one of its members, to a member
of that one, and so on. What it leads to can be replaced or taken away (`setAt`) where
it is; the objects on the way keep all their other members, in their places. A route
through something that is no object leads nowhere, and nothing can be set there.

Two routes are apart if neither goes on where the other one ends. What is set at one
of them is not seen at the other, and setting something at both may be done in
either order. The only exception are two new members of the same object: each of
them goes to its end.

## Main results

* `getAt_setAt_of_apart`: what is set at one route is not seen at another one.
* `setAt_comm`: things are set at two routes in either order, if there is something at
  one of them or if the routes do not end in the same object.
-/

namespace ApiWorkbench

/-- Names that lead from an object to a member, to a member of that one, and so on. -/
abbrev Route : Type := List String

namespace Members

variable {ms ns : Members} {a b name : String} {o o' : Option Value} {r r' : Route}

/-- What is at the end of a route. -/
def getAt : Route → Members → Option Value
  | [], _ => none
  | [name], ms => get? name ms
  | name :: next :: rest, ms =>
    match get? name ms with
    | some (.object inner) => getAt (next :: rest) inner
    | _ => none

/-- The members with an entry put under a name, or with nothing under it. -/
def setEntry (name : String) : Option Value → Members → Members
  | some v, ms => put name v ms
  | none, ms => erase name ms

/-- The members with a value, or nothing, at the end of a route. -/
def setAt : Route → Option Value → Members → Members
  | [], _, ms => ms
  | [name], o, ms => setEntry name o ms
  | name :: next :: rest, o, ms =>
    match get? name ms with
    | some (.object inner) => put name (.object (setAt (next :: rest) o inner)) ms
    | _ => ms

/-! ## Single entries -/

@[simp] theorem get?_setEntry (a b : String) (o : Option Value) (ms : Members) :
    get? (.str a) (setEntry b o ms) = if a = b then o else get? (.str a) ms := by
  cases o with
  | none => rw [setEntry, get?_erase]
  | some v => rw [setEntry, get?_put]

/-- Setting what is there already changes nothing. -/
theorem setEntry_get? (name : String) (ms : Members) :
    setEntry name (get? name ms) ms = ms := by
  cases h : get? (.str name) ms with
  | none => exact erase_of_absent h
  | some v => exact put_of_get? h

theorem erase_comm (a b : String) (ms : Members) :
    erase a (erase b ms) = erase b (erase a ms) :=
  List.filter_comm _ _ _

/-- Entries under different names are set in either order, if there is something
under one of them. -/
theorem setEntry_comm (hab : a ≠ b) (h : get? a ms ≠ none ∨ get? b ms ≠ none) :
    setEntry a o (setEntry b o' ms) = setEntry b o' (setEntry a o ms) := by
  cases o with
  | none => cases o' with
    | none => exact erase_comm a b ms
    | some w => exact erase_put_of_ne hab w ms
  | some v => cases o' with
    | none => exact (erase_put_of_ne hab.symm v ms).symm
    | some w =>
        rcases h with h | h
        · obtain ⟨u, hu⟩ := Option.ne_none_iff_exists'.mp h
          exact put_comm hab hu v w
        · obtain ⟨u, hu⟩ := Option.ne_none_iff_exists'.mp h
          exact (put_comm hab.symm hu w v).symm

/-! ## Setting along a route -/

/-- What becomes of the first member on a route when something is set at its end. -/
private def replaced : Route → Option Value → Option Value → Option Value
  | [], o, _ => o
  | next :: rest, o, some (.object inner) =>
      some (.object (setAt (next :: rest) o inner))
  | _ :: _, _, found => found

/-- Setting something at the end of a route sets the first member on it. -/
private theorem setAt_cons (name : String) (rest : Route) (o : Option Value)
    (ms : Members) :
    setAt (name :: rest) o ms = setEntry name (replaced rest o (get? name ms)) ms := by
  cases rest with
  | nil => rfl
  | cons next rest =>
      have hself := setEntry_get? name ms
      cases h : get? (.str name) ms with
      | none =>
          rw [h] at hself
          simp only [setAt, h, replaced, hself]
      | some v =>
          rw [h] at hself
          cases v with
          | marked mark inner => simp only [setAt, h, replaced, setEntry]
          | _ => simp only [setAt, h, replaced, hself]

theorem get?_setAt_of_ne (hab : a ≠ b) (rest : Route) (o : Option Value)
    (ms : Members) :
    get? (.str a) (setAt (b :: rest) o ms) = get? (.str a) ms := by
  rw [setAt_cons, get?_setEntry, if_neg hab]

/-- What is at the end of a route depends on the first member on it. -/
theorem getAt_congr (h : get? (.str name) ms = get? (.str name) ns) (rest : Route) :
    getAt (name :: rest) ms = getAt (name :: rest) ns := by
  cases rest with
  | nil => exact h
  | cons next rest => rw [getAt, getAt, h]

/-- A route of several names leads through an object to whatever it leads to. -/
theorem object_of_getAt {next : String} {rest : Route}
    (h : getAt (name :: next :: rest) ms ≠ none) :
    ∃ inner, get? name ms = some (.object inner) ∧
      getAt (next :: rest) inner ≠ none := by
  rw [getAt] at h
  split at h
  · exact ⟨_, ‹_›, h⟩
  · exact absurd rfl h

theorem getAt_cons_of_object {inner : Members} (hr : r ≠ [])
    (h : get? name ms = some (.object inner)) :
    getAt (name :: r) ms = getAt r inner := by
  obtain ⟨next, rest, rfl⟩ := List.exists_cons_of_ne_nil hr
  rw [getAt, h]

theorem setAt_cons_of_object {inner : Members} (hr : r ≠ [])
    (h : get? name ms = some (.object inner)) :
    setAt (name :: r) o ms = put name (.object (setAt r o inner)) ms := by
  obtain ⟨next, rest, rfl⟩ := List.exists_cons_of_ne_nil hr
  rw [setAt, h]

/-- Where there is no object, there is nothing to be found inside it. -/
theorem getAt_cons_of_no_object (hr : r ≠ [])
    (h : ∀ inner, get? name ms ≠ some (.object inner)) :
    getAt (name :: r) ms = none := by
  obtain ⟨next, rest, rfl⟩ := List.exists_cons_of_ne_nil hr
  rw [getAt]
  split
  · exact absurd ‹_› (h _)
  · rfl

/-- Where there is no object, there is nothing to set inside it. -/
theorem setAt_cons_of_no_object (hr : r ≠ [])
    (h : ∀ inner, get? name ms ≠ some (.object inner)) :
    setAt (name :: r) o ms = ms := by
  obtain ⟨next, rest, rfl⟩ := List.exists_cons_of_ne_nil hr
  rw [setAt]
  split
  · exact absurd ‹_› (h _)
  · rfl

/-- Setting what is at the end of a route already changes nothing. -/
theorem setAt_getAt (r : Route) (ms : Members) : setAt r (getAt r ms) ms = ms := by
  induction r generalizing ms with
  | nil => rfl
  | cons name rest ih =>
      cases rest with
      | nil => exact setEntry_get? name ms
      | cons next rest =>
          rw [setAt]
          split
          · rename_i inner hinner
            rw [getAt, hinner, ih, put_of_get? hinner]
          · rfl

theorem setAt_none (h : getAt r ms = none) : setAt r none ms = ms := by
  simpa only [h] using setAt_getAt r ms

/-! ## Routes that are apart -/

/-- Neither of two routes goes on where the other one ends. -/
def Apart (r r' : Route) : Prop :=
  ¬ r <+: r' ∧ ¬ r' <+: r

instance (r r' : Route) : Decidable (Apart r r') :=
  inferInstanceAs (Decidable (_ ∧ _))

theorem Apart.symm (h : Apart r r') : Apart r' r :=
  ⟨h.2, h.1⟩

/-- Routes that are apart part at their first names or go on apart. -/
theorem apart_cons_iff {rest rest' : Route} :
    Apart (a :: rest) (b :: rest') ↔ a ≠ b ∨ a = b ∧ Apart rest rest' := by
  simp only [Apart, List.cons_prefix_cons, not_and]
  constructor
  · rintro ⟨h, h'⟩
    by_cases hab : a = b
    · exact .inr ⟨hab, h hab, h' hab.symm⟩
    · exact .inl hab
  · rintro (hab | ⟨-, h, h'⟩)
    · exact ⟨fun heq => absurd heq hab, fun heq => absurd heq.symm hab⟩
    · exact ⟨fun _ => h, fun _ => h'⟩

theorem Apart.ne_nil (h : Apart r r') : r ≠ [] ∧ r' ≠ [] := by
  refine ⟨?_, ?_⟩
  · rintro rfl
    exact h.1 List.nil_prefix
  · rintro rfl
    exact h.2 List.nil_prefix

/-- What is set at one route is not seen at another one. -/
theorem getAt_setAt_of_apart (h : Apart r r') (o : Option Value) (ms : Members) :
    getAt r (setAt r' o ms) = getAt r ms := by
  induction r generalizing r' ms with
  | nil => exact absurd rfl h.ne_nil.1
  | cons a rest ih =>
      cases r' with
      | nil => exact absurd rfl h.ne_nil.2
      | cons b rest' =>
          rcases apart_cons_iff.mp h with hab | ⟨rfl, hrest⟩
          · exact getAt_congr (get?_setAt_of_ne hab rest' o ms) rest
          · -- both routes go on in the same member
            obtain ⟨next, rest, rfl⟩ := List.exists_cons_of_ne_nil hrest.ne_nil.1
            obtain ⟨next', rest', rfl⟩ := List.exists_cons_of_ne_nil hrest.ne_nil.2
            rw [setAt]
            split
            · rename_i inner hinner
              rw [getAt, get?_put, if_pos rfl, getAt, hinner]
              exact ih hrest inner
            · rfl

/-- Things are set in either order on routes that part at once, unless both routes end
there and lead to nothing. -/
private theorem setAt_comm_of_ne (hab : a ≠ b) {rest rest' : Route}
    (hends : get? a ms ≠ none ∨ get? b ms ≠ none ∨ rest ≠ [] ∨ rest' ≠ []) :
    setAt (a :: rest) o (setAt (b :: rest') o' ms) =
      setAt (b :: rest') o' (setAt (a :: rest) o ms) := by
  by_cases hthere : get? a ms ≠ none ∨ get? b ms ≠ none
  · rw [setAt_cons a, get?_setAt_of_ne hab, setAt_cons b, setAt_cons b, setAt_cons a,
      get?_setEntry, if_neg hab.symm, setEntry_comm hab hthere]
  · -- neither member is there, and one of the routes goes on from it: nothing is
    -- set on that one
    simp only [not_or, not_not] at hthere
    have ha : get? a (setAt (b :: rest') o' ms) = none := by
      rw [get?_setAt_of_ne hab, hthere.1]
    have hb : get? b (setAt (a :: rest) o ms) = none := by
      rw [get?_setAt_of_ne hab.symm, hthere.2]
    rcases hends with h | h | hrest | hrest'
    · exact absurd hthere.1 h
    · exact absurd hthere.2 h
    · rw [setAt_cons_of_no_object hrest (by simp [ha]),
        setAt_cons_of_no_object hrest (by simp [hthere.1])]
    · rw [setAt_cons_of_no_object hrest' (by simp [hthere.2]),
        setAt_cons_of_no_object hrest' (by simp [hb])]

/-- Things are set at two routes in either order, if there is something at one of them,
or if the routes do not end in the same object. -/
theorem setAt_comm (h : Apart r r')
    (hends : getAt r ms ≠ none ∨ getAt r' ms ≠ none ∨ r.dropLast ≠ r'.dropLast) :
    setAt r o (setAt r' o' ms) = setAt r' o' (setAt r o ms) := by
  induction r generalizing r' ms with
  | nil => exact absurd rfl h.ne_nil.1
  | cons a rest ih =>
      cases r' with
      | nil => exact absurd rfl h.ne_nil.2
      | cons b rest' =>
          rcases apart_cons_iff.mp h with hab | ⟨rfl, hrest⟩
          · refine setAt_comm_of_ne hab ?_
            cases rest <;> cases rest' <;> simp_all [getAt]
          · -- both routes go on in the same member
            obtain ⟨next, rest, rfl⟩ := List.exists_cons_of_ne_nil hrest.ne_nil.1
            obtain ⟨next', rest', rfl⟩ := List.exists_cons_of_ne_nil hrest.ne_nil.2
            by_cases hobject : ∃ inner, get? a ms = some (.object inner)
            · obtain ⟨inner, hinner⟩ := hobject
              have hinside : getAt (next :: rest) inner ≠ none ∨
                  getAt (next' :: rest') inner ≠ none ∨
                  (next :: rest).dropLast ≠ (next' :: rest').dropLast := by
                simpa only [getAt, hinner, List.dropLast_cons_cons, ne_eq,
                  List.cons.injEq, true_and] using hends
              simp only [setAt, hinner, get?_put, if_true, put_put, ih hrest hinside]
            · have hobject := not_exists.mp hobject
              rw [setAt_cons_of_no_object (by simp) hobject, setAt_cons_of_no_object
                (by simp) hobject, setAt_cons_of_no_object (by simp) hobject]

/-- Where something is, something is still there after a value was set at another route
or at this one. -/
theorem getAt_setAt_ne_none (h : r = r' ∨ Apart r r')
    (hr : getAt r ms ≠ none) (v : Value) :
    getAt r (setAt r' (some v) ms) ≠ none := by
  rcases h with rfl | h
  · induction r generalizing ms with
    | nil => exact absurd rfl hr
    | cons a rest ih =>
        cases rest with
        | nil => simp [getAt, setAt]
        | cons next rest =>
            obtain ⟨inner, hinner, hrest⟩ := object_of_getAt hr
            simp only [setAt, hinner, getAt, get?_put, if_true]
            exact ih hrest
  · rwa [getAt_setAt_of_apart h]

end Members

end ApiWorkbench
