import ApiWorkbench.Proofs.Tree
import ApiWorkbench.Value.Anchor

/-!
# Marks

Marks are carried along and never looked at by whatever reads values or changes
members: to change marks before or after comes to the same. `AnchoredValue.ofValue` is
the case that is needed most, a value in which no object has an anchor. For it there is
one equation for each function that reads values or changes members; they all move
`ofValue` outwards, so that a computation on values without anchors turns into one on
values by rewriting.

## Main results

* `Tree.mapMarks_mapMarks_unit`: marks that say nothing are all the same.
* `Tree.within_of_mapMarks`: the objects in a tree whose marks were changed.
* `AnchoredValue.ofValue_injective`: a value is told by its form without anchors.
-/

namespace ApiWorkbench

namespace Members

variable {μ ν : Type}

/-- Putting an entry and changing marks may be exchanged. -/
theorem mapMemberMarks_put (f : μ → ν) (name : Scalar) (v : Tree μ)
    (ms : Tree.Members μ) :
    Tree.mapMemberMarks f (put name v ms) =
      put name (v.mapMarks f) (Tree.mapMemberMarks f ms) := by
  induction ms with
  | nil => rfl
  | cons e ms ih =>
      obtain ⟨k, w⟩ := e
      by_cases hk : k.same name = true
      · simp [put, Tree.mapMemberMarks, hk]
      · simp [put, Tree.mapMemberMarks, hk, ih]

theorem mapMemberMarks_putAll (f : μ → ν) (ms others : Tree.Members μ) :
    Tree.mapMemberMarks f (putAll ms others) =
      putAll (Tree.mapMemberMarks f ms) (Tree.mapMemberMarks f others) := by
  induction others generalizing ms with
  | nil => rfl
  | cons e others ih =>
      obtain ⟨k, v⟩ := e
      have hput := mapMemberMarks_put f k v ms
      calc Tree.mapMemberMarks f (putAll (put k v ms) others)
          = putAll (Tree.mapMemberMarks f (put k v ms))
            (Tree.mapMemberMarks f others) := ih _
        _ = putAll (put k (v.mapMarks f) (Tree.mapMemberMarks f ms))
            (Tree.mapMemberMarks f others) := by
          rw [hput]

theorem mapMemberMarks_ofEntries (f : μ → ν) (es : Tree.Members μ) :
    Tree.mapMemberMarks f (ofEntries es) = ofEntries (Tree.mapMemberMarks f es) :=
  mapMemberMarks_putAll f [] es

/-- What is found under a name does not depend on marks. -/
theorem get?_mapMemberMarks (f : μ → ν) (name : Scalar) (ms : Tree.Members μ) :
    get? name (Tree.mapMemberMarks f ms) = (get? name ms).map (Tree.mapMarks f) := by
  induction ms with
  | nil => rfl
  | cons e ms ih =>
      obtain ⟨k, v⟩ := e
      rw [Tree.mapMemberMarks, get?_cons, get?_cons, ih]
      split <;> rfl

end Members

namespace Tree

variable {μ ν : Type}

mutual

/-- Marks that say nothing are all the same. -/
theorem mapMarks_mapMarks_unit (f : Unit → ν) : ∀ v : Value, plain (mapMarks f v) = v
  | .scalar s => rfl
  | .list xs => by rw [mapMarks, plain, mapMarks, mapItemMarks_mapItemMarks_unit f xs]
  | .pair a b => by
      have ha := mapMarks_mapMarks_unit f a
      have hb := mapMarks_mapMarks_unit f b
      rw [plain] at ha hb
      rw [mapMarks, plain, mapMarks, ha, hb]
  | .set names => rfl
  | .object ms => by
      rw [mapMarks, plain, mapMarks, mapMemberMarks_mapMemberMarks_unit f ms]

theorem mapItemMarks_mapItemMarks_unit (f : Unit → ν) :
    ∀ xs : List Value, mapItemMarks (fun _ => ()) (mapItemMarks f xs) = xs
  | [] => rfl
  | v :: rest => by
      have hv := mapMarks_mapMarks_unit f v
      rw [plain] at hv
      rw [mapItemMarks, mapItemMarks, hv, mapItemMarks_mapItemMarks_unit f rest]

theorem mapMemberMarks_mapMemberMarks_unit (f : Unit → ν) :
    ∀ ms : Tree.Members Unit, mapMemberMarks (fun _ => ()) (mapMemberMarks f ms) = ms
  | [] => rfl
  | (k, v) :: rest => by
      have hv := mapMarks_mapMarks_unit f v
      rw [plain] at hv
      rw [mapMemberMarks, mapMemberMarks, hv, mapMemberMarks_mapMemberMarks_unit f rest]

end

theorem mapItemMarks_eq_map (f : μ → ν) (xs : List (Tree μ)) :
    mapItemMarks f xs = xs.map (mapMarks f) := by
  induction xs with
  | nil => rfl
  | cons x xs ih => rw [mapItemMarks, ih, List.map_cons]

theorem mapMemberMarks_eq_map (f : μ → ν) (ms : Tree.Members μ) :
    mapMemberMarks f ms = ms.map fun e => (e.1, e.2.mapMarks f) := by
  induction ms with
  | nil => rfl
  | cons e ms ih => rw [mapMemberMarks, ih, List.map_cons]

/-- The objects in a tree whose marks were changed are those of the tree, with their
marks changed. -/
theorem within_of_mapMarks {f : μ → ν} {t : Tree μ} {mark : ν} {ms : Tree.Members ν}
    (h : Within (t.mapMarks f) (.marked mark ms)) :
    ∃ mark' ms', Within t (.marked mark' ms') ∧ mark = f mark' ∧
      ms = mapMemberMarks f ms' := by
  induction t using parts_induction with
  | scalar s => simp [mapMarks] at h
  | pair a b => simp [mapMarks] at h
  | set names => simp [mapMarks] at h
  | list xs ih =>
      rw [mapMarks, within_list_marked, mapItemMarks_eq_map] at h
      obtain ⟨y, hy, hwithin⟩ := h
      obtain ⟨x, hx, rfl⟩ := List.mem_map.mp hy
      obtain ⟨mark', ms', hwithin, hmark⟩ := ih x hx hwithin
      exact ⟨mark', ms', .item hx hwithin, hmark⟩
  | marked mark' ms' ih =>
      rw [mapMarks, within_marked_marked] at h
      rcases h with ⟨rfl, rfl⟩ | ⟨e, he, hwithin⟩
      · exact ⟨mark', ms', .here _, rfl, rfl⟩
      · rw [mapMemberMarks_eq_map] at he
        obtain ⟨⟨k, v⟩, hv, rfl⟩ := List.mem_map.mp he
        obtain ⟨mark'', ms'', hwithin, hmark⟩ := ih (k, v) hv hwithin
        exact ⟨mark'', ms'', .member hv hwithin, hmark⟩

end Tree

/-! ## Values without anchors -/

namespace AnchoredValue

/-- Members in which no object has an anchor. -/
def ofMembers (ms : Members) : Tree.Members (Option Anchor) :=
  Tree.mapMemberMarks (fun _ => none) ms

theorem ofMembers_eq_map (ms : Members) : ofMembers ms = ms.map fun e =>
  (e.1, ofValue e.2) :=
  Tree.mapMemberMarks_eq_map _ ms

theorem ofMembers_cons (k : Scalar) (v : Value) (rest : Members) :
    (k, ofValue v) :: ofMembers rest = ofMembers ((k, v) :: rest) := rfl

theorem plain_ofValue (v : Value) : (ofValue v).plain = v :=
  Tree.mapMarks_mapMarks_unit _ v

/-- A value is told by its form without anchors. -/
theorem ofValue_injective : Function.Injective ofValue :=
  Function.LeftInverse.injective plain_ofValue

/-! ### What values are made of -/

theorem ofValue_pair (a b : Value) :
    Tree.pair (ofValue a) (ofValue b) = ofValue (.pair a b) := rfl

theorem ofValue_list (xs : List Value) :
    Tree.list (xs.map ofValue) = ofValue (.list xs) :=
  congrArg Tree.list (Tree.mapItemMarks_eq_map _ xs).symm

theorem ofValue_object (ms : Members) :
    Tree.marked none (ofMembers ms) = ofValue (.object ms) := rfl

mutual

/-- Equality of values does not look at marks. -/
@[simp] theorem same_ofValue : ∀ v w : Value, (ofValue v).same (ofValue w) = v.same w
  | .scalar s, w => by cases w <;> rfl
  | .list xs, w => by
      cases w with
      | list ys => exact sameItems_ofValue xs ys
      | _ => rfl
  | .pair a b, w => by
      cases w with
      | pair c d =>
          rw [← ofValue_pair, ← ofValue_pair, Tree.same, Tree.same, same_ofValue a c,
            same_ofValue b d]
      | _ => rfl
  | .set names, w => by cases w <;> rfl
  | .object ms, w => by
      cases w with
      | marked mark ns =>
          rw [← ofValue_object, ← ofValue_object, Tree.same, Tree.same,
            sameMembers_ofMembers ms ns]
          simp [ofMembers_eq_map]
      | _ => rfl

theorem sameItems_ofValue : ∀ xs ys : List Value,
    sameItems (Tree.mapItemMarks (fun _ => none) xs : List AnchoredValue)
    (Tree.mapItemMarks (fun _ => none) ys : List AnchoredValue) = sameItems xs ys
  | [], ys => by cases ys <;> rfl
  | x :: xs, ys => by
      cases ys with
      | nil => rfl
      | cons y ys => exact congrArg₂ and (same_ofValue x y) (sameItems_ofValue xs ys)

theorem sameMembers_ofMembers :
    ∀ ms ns : Members, sameMembers (ofMembers ms) (ofMembers ns) = sameMembers ms ns
  | [], ns => rfl
  | (k, v) :: rest, ns => by
      have hget : Members.get? k (ofMembers ns) = (Members.get? k ns).map ofValue :=
        Members.get?_mapMemberMarks _ k ns
      show sameMembers ((k, ofValue v) :: ofMembers rest) (ofMembers ns) = _
      rw [sameMembers, sameMembers, hget, sameMembers_ofMembers rest ns]
      cases Members.get? k ns with
      | none => rfl
      | some w => exact congrArg (· && _) (same_ofValue v w)

end

/-! ### Reading values -/

section

variable (v w : Value)

@[simp] theorem isBlank_ofValue : (ofValue v).isBlank = v.isBlank := by
  cases v with
  | list xs => cases xs <;> rfl
  | marked mark ms => cases ms <;> rfl
  | _ => rfl

@[simp] theorem isNull_ofValue : (ofValue v).isNull = v.isNull := by
  cases v with
  | scalar s => cases s <;> rfl
  | _ => rfl

@[simp] theorem isObject_ofValue : (ofValue v).isObject = v.isObject := by
  cases v <;> rfl

@[simp] theorem isText_ofValue (text : String) :
    (ofValue v).isText text = v.isText text := by
  cases v with
  | scalar s => cases s <;> rfl
  | _ => rfl

@[simp] theorem isNamed_ofValue (name : String) :
    (ofValue v).isNamed name = v.isNamed name := by
  cases v <;> rfl

@[simp] theorem orElse_ofValue :
    (ofValue v).orElse (ofValue w) = ofValue (v.orElse w) := by
  rw [Tree.orElse, Tree.orElse, isBlank_ofValue]
  split <;> rfl

@[simp] theorem members_ofValue : (ofValue v).members = ofMembers <$> v.members := by
  cases v <;> rfl

@[simp] theorem membersOrNone_ofValue :
    (ofValue v).membersOrNone = ofMembers <$> v.membersOrNone := by
  rw [Tree.membersOrNone, Tree.membersOrNone, isBlank_ofValue, members_ofValue]
  split <;> rfl

@[simp] theorem items_ofValue : (ofValue v).items = List.map ofValue <$> v.items := by
  cases v with
  | scalar s => cases s <;> simp [ofValue, Tree.mapMarks, Tree.items, Function.comp_def]
  | list xs => exact congrArg Except.ok (Tree.mapItemMarks_eq_map _ xs)
  | pair a b => rfl
  | set names => simp [ofValue, Tree.mapMarks, Tree.items, Function.comp_def]
  | marked mark ms =>
      simp [ofValue, Tree.mapMarks, Tree.items, Tree.mapMemberMarks_eq_map,
        Function.comp_def]

@[simp] theorem itemsOrNone_ofValue :
    (ofValue v).itemsOrNone = List.map ofValue <$> v.itemsOrNone := by
  rw [Tree.itemsOrNone, Tree.itemsOrNone, isBlank_ofValue, items_ofValue]
  split <;> rfl

@[simp] theorem name_ofValue : (ofValue v).name = v.name := by
  induction v using Tree.parts_induction with
  | pair a b iha ihb =>
      simp only [ofValue, Tree.mapMarks, Tree.name] at iha ihb ⊢; rw [iha, ihb]
  | _ => rfl

end

/-! ### Members -/

section

variable (name : Scalar) (ms : Members)

@[simp] theorem get?_ofMembers :
    Members.get? name (ofMembers ms) = (Members.get? name ms).map ofValue :=
  Members.get?_mapMemberMarks _ name ms

@[simp] theorem contains_ofMembers :
    Members.contains name (ofMembers ms) = Members.contains name ms := by
  simp [Members.contains]

@[simp] theorem names_ofMembers : Members.names (ofMembers ms) = Members.names ms := by
  simp [Members.names, ofMembers_eq_map, Function.comp_def]

@[simp] theorem isEmpty_ofMembers : (ofMembers ms).isEmpty = ms.isEmpty := by
  cases ms <;> rfl

@[simp] theorem put_ofMembers (v : Value) :
    Members.put name (ofValue v) (ofMembers ms) = ofMembers (Members.put name v ms) :=
  (Members.mapMemberMarks_put _ name v ms).symm

@[simp] theorem putAll_ofMembers (others : Members) :
    Members.putAll (ofMembers ms) (ofMembers others) =
      ofMembers (Members.putAll ms others) :=
  (Members.mapMemberMarks_putAll _ ms others).symm

@[simp] theorem erase_ofMembers :
    Members.erase name (ofMembers ms) = ofMembers (Members.erase name ms) := by
  simp [Members.erase, ofMembers_eq_map, List.filter_map, Function.comp_def]

@[simp] theorem ofEntries_ofMembers :
    Members.ofEntries (ofMembers ms) = ofMembers (Members.ofEntries ms) :=
  putAll_ofMembers [] ms

@[simp] theorem rename?_ofMembers (other : Scalar) :
    Members.rename? name other (ofMembers ms) =
      (Members.rename? name other ms).map ofMembers := by
  simp only [Members.rename?, get?_ofMembers, Option.map_map]
  refine Option.map_congr fun v _ => ?_
  rw [Function.comp_apply, Function.comp_apply, ← ofEntries_ofMembers, ofMembers_eq_map,
    ofMembers_eq_map, List.filterMap_map, List.map_filterMap]
  congr 2
  funext e
  simp only [Function.comp_apply]
  split
  · rfl
  · split <;> rfl

@[simp] theorem valueAt_ofMembers :
    Members.valueAt name (ofMembers ms) = ofValue (Members.valueAt name ms) := by
  rw [Members.valueAt, Members.valueAt, get?_ofMembers]
  cases Members.get? name ms <;> rfl

@[simp] theorem mapAt_ofMembers :
    Members.mapAt name (ofMembers ms) = ofValue (Members.mapAt name ms) := by
  rw [Members.mapAt, Members.mapAt, valueAt_ofMembers]
  exact orElse_ofValue _ (.object [])

@[simp] theorem listAt_ofMembers :
    Members.listAt name (ofMembers ms) = List.map ofValue <$>
      Members.listAt name ms := by
  rw [Members.listAt, Members.listAt, valueAt_ofMembers, itemsOrNone_ofValue]

end

section

variable (v : Value)

@[simp] theorem holds_ofValue (name : String) :
    (ofValue v).holds name = v.holds name := by
  cases v with
  | scalar s => cases s <;> rfl
  | list xs =>
      rw [← ofValue_list, Tree.holds, Tree.holds, List.any_map]
      exact congrArg (fun p => Except.ok (xs.any p))
        (funext fun x => isNamed_ofValue x name)
  | pair a b =>
      rw [← ofValue_pair, Tree.holds, Tree.holds, isNamed_ofValue, isNamed_ofValue]
  | set names => rfl
  | marked mark ms => exact congrArg Except.ok (contains_ofMembers name ms)

@[simp] theorem member_ofValue (name : Scalar) :
    (ofValue v).member name = ofValue <$> v.member name := by
  rw [Tree.member, Tree.member, members_ofValue]
  cases v.members with
  | error fault => rfl
  | ok ms => exact congrArg Except.ok (valueAt_ofMembers name ms)

@[simp] theorem entry_ofValue :
    (ofValue v).entry = Prod.map id ofValue <$> v.entry := by
  rw [Tree.entry, Tree.entry, items_ofValue]
  cases v.items with
  | error fault => rfl
  | ok xs =>
      match xs with
      | [k, w] =>
          simp only [map_ok, ok_bind, List.map_cons, List.map_nil, name_ofValue]
          cases k.name <;> rfl
      | [] => rfl
      | [_] => rfl
      | _ :: _ :: _ :: _ => rfl

@[simp] theorem toMembers_ofValue :
    (ofValue v).toMembers = ofMembers <$> v.toMembers := by
  have hentries : (do
      let entries ← (← (ofValue v).items).mapM Tree.entry
      pure (Members.ofEntries entries)) =
      ofMembers <$> (do
        let entries ← (← v.items).mapM Tree.entry
        pure (Members.ofEntries entries) : Except Fault Members) := by
    rw [items_ofValue]
    cases v.items with
    | error fault => rfl
    | ok xs =>
        simp only [map_ok, ok_bind, mapM_map_map (fun x => (entry_ofValue x)) xs]
        cases xs.mapM Tree.entry with
        | error fault => rfl
        | ok entries =>
            exact congrArg Except.ok
              (ofMembers_eq_map entries ▸ ofEntries_ofMembers entries)
  cases v with
  | marked mark ms => rfl
  | _ => exact hentries

end

end AnchoredValue

end ApiWorkbench
