import ApiWorkbench.Proofs.Document.CompletionFrame
import ApiWorkbench.Proofs.Document.Completable

/-!
# Joining shared parameters

The parameters that a path shares are joined to those of an operation. Of every key that
the operation does not have itself the first shared entry with that key is taken over,
and nothing else is. The search goes through the shared entries once and remembers the
keys it has met; `Chosen` is what one entry after the other adds to the result, and
everything that is said about the joined list is an induction along it.

Which keys have been met matters only for the question whether a key is among them. So
it makes no difference whether two lists are joined one after the other or both at once.

## Main results

* `newParameters_eq_ok_iff`: the search, entry by entry.
* `Chosen.filter_hasKey`: of every key that is new the first entry is taken over, of
  the others none.
* `mergeParameters_append`: two lists may be joined one after the other.
* `mergeParameters_laws`: what joining does.
-/

namespace ApiWorkbench.Document

/-! ## Keys -/

namespace ParameterKey

theorem same_comm (k l : ParameterKey) : k.same l = l.same k := by
  rw [same, same, Scalar.same_comm k.1, Scalar.same_comm k.2]

theorem same_trans {k l m : ParameterKey} (hkl : k.same l = true)
    (hlm : l.same m = true) : k.same m = true := by
  simp only [same, Bool.and_eq_true] at hkl hlm ⊢
  exact ⟨Scalar.same_trans hkl.1 hlm.1, Scalar.same_trans hkl.2 hlm.2⟩

/-- Keys that are the same are the same as the same keys. -/
theorem any_same_congr {k l : ParameterKey} (h : k.same l = true)
    (keys : List ParameterKey) :
    keys.any k.same = keys.any l.same := by
  refine Bool.eq_iff_iff.mpr ?_
  simp only [List.any_eq_true]
  constructor
  · rintro ⟨m, hm, hkm⟩
    exact ⟨m, hm, same_trans (same_comm k l ▸ h) hkm⟩
  · rintro ⟨m, hm, hlm⟩
    exact ⟨m, hm, same_trans h hlm⟩

end ParameterKey

/-- Whether an entry is an object with a key. -/
def hasKey (key : ParameterKey) : Value → Bool
  | .object ms =>
    match parameterKey ms with
    | .ok own => key.same own
    | .error _ => false
  | _ => false

theorem hasKey_object {ms : Members} {own : ParameterKey}
    (h : parameterKey ms = .ok own) (key : ParameterKey) :
    hasKey key (.object ms) = key.same own := by
  simp only [hasKey, h]

theorem hasKey_of_not_isObject {v : Value} (h : v.isObject = false)
    (key : ParameterKey) : hasKey key v = false := by
  cases v with
  | marked mark ms => contradiction
  | _ => rfl

/-- The keys of a list tell which keys its entries have. -/
theorem any_hasKey {parameters : List Value} {keys : List ParameterKey}
    (h : parameterKeys parameters = .ok keys) (key : ParameterKey) :
    parameters.any (hasKey key) = keys.any key.same := by
  induction parameters generalizing keys with
  | nil =>
      obtain rfl := Except.ok.inj h
      rfl
  | cons v rest ih =>
      cases v with
      | marked mark ms =>
          obtain ⟨first, hfirst, h⟩ := bind_eq_ok.mp h
          obtain ⟨others, hothers, heq⟩ := bind_eq_ok.mp h
          obtain rfl := Except.ok.inj heq
          rw [List.any_cons, List.any_cons, ih hothers, hasKey_object hfirst]
      | _ => exact (Bool.false_or _).trans (ih h)

theorem parameterKeys_append {first second : List Value}
    {keys others : List ParameterKey} (h : parameterKeys first = .ok keys)
    (hsecond : parameterKeys second = .ok others) :
    parameterKeys (first ++ second) = .ok (keys ++ others) := by
  induction first generalizing keys with
  | nil =>
      obtain rfl := Except.ok.inj h
      exact hsecond
  | cons v rest ih =>
      cases v with
      | marked mark ms =>
          obtain ⟨key, hkey, h⟩ := bind_eq_ok.mp h
          obtain ⟨more, hmore, heq⟩ := bind_eq_ok.mp h
          obtain rfl := Except.ok.inj heq
          simp [parameterKeys, hkey, ih hmore]
      | _ => exact ih h

/-! ## The search -/

/-- What is taken over from shared entries, given the keys that have been met before. -/
inductive Chosen : (seen : List ParameterKey) → (shared added : List Value) → Prop
  | nil {seen : List ParameterKey} : Chosen seen [] []
  | new {seen : List ParameterKey} {ms : Members}
      {key : ParameterKey} {rest added : List Value} (hkey : parameterKey ms = .ok key)
      (hnew : seen.any key.same = false) (h : Chosen (key :: seen) rest added) :
    Chosen seen (.object ms :: rest) (.object ms :: added)
  | met {seen : List ParameterKey} {ms : Members}
      {key : ParameterKey} {rest added : List Value} (hkey : parameterKey ms = .ok key)
      (hmet : seen.any key.same = true) (h : Chosen seen rest added) :
    Chosen seen (.object ms :: rest) added
  | other {seen : List ParameterKey} {v : Value} {rest added : List Value}
    (hv : v.isObject = false) (h : Chosen seen rest added) :
    Chosen seen (v :: rest) added

/-- An object that is looked at: it is left out if its key has been met. -/
theorem newParameters_object {seen : List ParameterKey} {ms : Members}
    {key : ParameterKey} (hkey : parameterKey ms = .ok key) (rest : List Value) :
    newParameters seen (.object ms :: rest) =
      if seen.any key.same then newParameters seen rest
      else (Value.object ms :: ·) <$> newParameters (key :: seen) rest := by
  rw [newParameters, hkey]
  rfl

theorem newParameters_of_not_isObject {v : Value}
    (h : v.isObject = false) (seen : List ParameterKey) (rest : List Value) :
    newParameters seen (v :: rest) = newParameters seen rest := by
  cases v with
  | marked mark ms => contradiction
  | _ => rfl

/-- The search comes to what is chosen entry by entry. -/
theorem newParameters_eq_ok_iff {seen : List ParameterKey} {shared added : List Value} :
    newParameters seen shared = .ok added ↔ Chosen seen shared added := by
  constructor
  · intro h
    induction shared generalizing seen added with
    | nil =>
        obtain rfl := Except.ok.inj h
        exact .nil
    | cons v rest ih =>
        cases v with
        | marked mark ms =>
            obtain ⟨key, hkey, -⟩ := bind_eq_ok.mp h
            rw [newParameters_object hkey] at h
            split at h
            · next hmet => exact .met hkey hmet (ih h)
            · next hnew =>
              obtain ⟨others, hothers, rfl⟩ := map_eq_ok.mp h
              exact .new hkey (eq_false_of_ne_true hnew) (ih hothers)
        | _ => exact .other rfl (ih h)
  · intro h
    induction h with
    | nil => rfl
    | new hkey hnew _ ih => rw [newParameters_object hkey, hnew, ih]; rfl
    | met hkey hmet _ ih => rw [newParameters_object hkey, if_pos hmet, ih]
    | other hv _ ih => rw [newParameters_of_not_isObject hv, ih]

namespace Chosen

variable {seen : List ParameterKey} {shared added : List Value}

/-- What is taken over are some of the objects, in their order. -/
theorem sublist (h : Chosen seen shared added) :
    added.Sublist (shared.filter Tree.isObject) := by
  induction h with
  | nil => exact .slnil
  | new _ _ _ ih => exact ih.cons_cons _
  | met _ _ _ ih => exact ih.cons _
  | other hv _ ih => rwa [List.filter_cons_of_neg (by simp [hv])]

/-- Of a key that has been met nothing is taken over, and of another one its first
entry. -/
theorem filter_hasKey (h : Chosen seen shared added) (key : ParameterKey) :
    added.filter (hasKey key) =
      if seen.any key.same then [] else (shared.filter (hasKey key)).take 1 := by
  induction h with
  | nil => simp
  | @new seen ms own rest added hkey hnew h ih =>
      by_cases hsame : key.same own = true
      · -- the entry is the first one with this key, and later ones find the key among
        -- those that have been met
        have hunmet : seen.any key.same = false :=
          (ParameterKey.any_same_congr hsame seen).trans hnew
        rw [List.any_cons, hsame, Bool.true_or, if_pos rfl] at ih
        rw [List.filter_cons_of_pos (by rw [hasKey_object hkey, hsame]),
          List.filter_cons_of_pos (by rw [hasKey_object hkey, hsame]), ih, hunmet]
        rfl
      · rw [List.any_cons, eq_false_of_ne_true hsame, Bool.false_or] at ih
        rw [List.filter_cons_of_neg (by rwa [hasKey_object hkey]),
          List.filter_cons_of_neg (by rwa [hasKey_object hkey]), ih]
  | @met seen ms own rest added hkey hmet h ih =>
      by_cases hsame : key.same own = true
      · have hkeyMet : seen.any key.same = true :=
          (ParameterKey.any_same_congr hsame seen).trans hmet
        rw [ih, if_pos hkeyMet, if_pos hkeyMet]
      · rw [ih, List.filter_cons_of_neg (by rwa [hasKey_object hkey])]
  | other hv _ ih =>
      rw [ih, List.filter_cons_of_neg (by simp [hasKey_of_not_isObject hv])]

/-- The keys of what is taken over differ from each other and from those that
have been met. -/
theorem exists_keys (h : Chosen seen shared added) :
    ∃ keys, parameterKeys added = .ok keys ∧
      keys.Pairwise (fun k l => k.same l = false) ∧
      ∀ k ∈ keys, seen.any k.same = false := by
  induction h with
  | nil => exact ⟨[], rfl, .nil, by simp⟩
  | @new seen ms own rest added hkey hnew h ih =>
      obtain ⟨keys, hkeys, hdistinct, hunmet⟩ := ih
      simp only [List.any_cons, Bool.or_eq_false_iff] at hunmet
      refine ⟨own :: keys, by simp [parameterKeys, hkey, hkeys],
        .cons (fun k hk => ?_) hdistinct, ?_⟩
      · rw [ParameterKey.same_comm]
        exact (hunmet k hk).1
      · exact List.forall_mem_cons.mpr ⟨hnew, fun k hk => (hunmet k hk).2⟩
  | met _ _ _ ih => exact ih
  | other _ _ ih => exact ih

/-- The search goes on with what has been met so far. -/
theorem newParameters_append (h : Chosen seen shared added) {keys : List ParameterKey}
    (hkeys : parameterKeys added = .ok keys) (more : List Value) :
    newParameters seen (shared ++ more) =
      (added ++ ·) <$> newParameters (keys.reverse ++ seen) more := by
  induction h generalizing keys with
  | nil =>
      obtain rfl := Except.ok.inj hkeys
      exact (id_map _).symm
  | @new seen ms own rest added hkey hnew h ih =>
      obtain ⟨first, hfirst, hkeys⟩ := bind_eq_ok.mp hkeys
      obtain ⟨others, hothers, heq⟩ := bind_eq_ok.mp hkeys
      obtain rfl := Except.ok.inj heq
      obtain rfl := Except.ok.inj (hkey.symm.trans hfirst)
      rw [List.cons_append, newParameters_object hkey, hnew, ih hothers,
        List.reverse_cons, List.append_assoc]
      exact (comp_map _ _ _).symm
  | met hkey hmet _ ih =>
      rw [List.cons_append, newParameters_object hkey, if_pos hmet, ih hkeys]
  | other hv _ ih => rw [List.cons_append, newParameters_of_not_isObject hv, ih hkeys]

end Chosen

/-- It matters only which keys have been met, not in which order. -/
theorem newParameters_congr {seen seen' : List ParameterKey}
    (h : ∀ key : ParameterKey, seen.any key.same = seen'.any key.same)
    (shared : List Value) :
    newParameters seen shared = newParameters seen' shared := by
  induction shared generalizing seen seen' with
  | nil => rfl
  | cons v rest ih =>
      cases v with
      | marked mark ms =>
          cases hkey : parameterKey ms with
          | error e => simp [newParameters, hkey]
          | ok key =>
              have hcons : ∀ k, (key :: seen).any (ParameterKey.same k) =
                  (key :: seen').any (ParameterKey.same k) :=
                fun k => by rw [List.any_cons, List.any_cons, h k]
              rw [newParameters_object hkey, newParameters_object hkey, h key,
                ih h, ih hcons]
      | _ => exact ih h

/-! ## Joining -/

/-- The entries of a list have keys, and these differ from each other. -/
def DistinctKeys (parameters : List Value) : Prop :=
  ∃ keys, parameterKeys parameters = .ok keys ∧ keys.Pairwise fun k l =>
    k.same l = false

/-- What joining shared entries to own ones adds: some of the objects among them in
their order, of each key that the own entries do not have the first entry, and of
the others none. -/
structure FirstOfNewKeys (own shared added : List Value) : Prop where
  sublist : added.Sublist (shared.filter Tree.isObject)
  filter_hasKey : ∀ key, added.filter (hasKey key) =
    if own.any (hasKey key) then [] else (shared.filter (hasKey key)).take 1

theorem mergeParameters_eq_ok_iff {shared own merged : List Value} :
    mergeParameters shared own = .ok merged ↔
      ∃ seen added, parameterKeys own = .ok seen ∧ Chosen seen shared added ∧
        merged = own ++ added := by
  simp only [mergeParameters, bind_eq_ok, newParameters_eq_ok_iff, pure_eq_ok,
    Except.ok.injEq]
  constructor
  · rintro ⟨seen, hseen, added, hadded, rfl⟩
    exact ⟨seen, added, hseen, hadded, rfl⟩
  · rintro ⟨seen, added, hseen, hadded, rfl⟩
    exact ⟨seen, hseen, added, hadded, rfl⟩

theorem firstOfNewKeys_of_chosen {own shared added : List Value}
    {seen : List ParameterKey} (hseen : parameterKeys own = .ok seen)
    (h : Chosen seen shared added) : FirstOfNewKeys own shared added :=
  ⟨h.sublist, fun key => by rw [h.filter_hasKey, any_hasKey hseen]⟩

/-- Where the entries all have keys, two lists that are joined one after the other are
joined as if they were one. -/
theorem mergeParameters_append {shared own merged : List Value}
    (h : mergeParameters shared own = .ok merged) (more : List Value) :
    mergeParameters more merged = mergeParameters (shared ++ more) own := by
  obtain ⟨seen, added, hseen, hadded, rfl⟩ := mergeParameters_eq_ok_iff.mp h
  obtain ⟨keys, hkeys, -⟩ := hadded.exists_keys
  have horder : ∀ key : ParameterKey,
      (seen ++ keys).any key.same = (keys.reverse ++ seen).any key.same := by
    intro key
    rw [List.any_append, List.any_append, List.any_reverse, Bool.or_comm]
  rw [mergeParameters, mergeParameters, parameterKeys_append hseen hkeys, hseen,
    ok_bind, ok_bind, newParameters_congr horder, hadded.newParameters_append hkeys]
  cases newParameters (keys.reverse ++ seen) more with
  | error e => rfl
  | ok others => simp

/-- Of what has been joined already nothing is taken over again. -/
theorem eq_nil_of_joined {own shared added again : List Value} (hkeys : HasKeys shared)
    (hadded : FirstOfNewKeys own shared added)
    (h : FirstOfNewKeys (own ++ added) shared again) : again = [] := by
  have hnone : ∀ key, again.filter (hasKey key) = [] := by
    intro key
    rw [h.filter_hasKey, List.any_append]
    split
    · rfl
    · next hmissing =>
      obtain ⟨hown, habsent⟩ : own.any (hasKey key) = false ∧
          added.any (hasKey key) = false := by
        simpa only [Bool.or_eq_true, not_or, Bool.not_eq_true] using hmissing
      have hfirst := hadded.filter_hasKey key
      rwa [hown, List.filter_eq_nil_iff.mpr (List.any_eq_false.mp habsent), eq_comm]
        at hfirst
  refine List.eq_nil_iff_forall_not_mem.mpr fun p hp => ?_
  obtain ⟨hshared, hobject⟩ := List.mem_filter.mp (h.sublist.subset hp)
  cases p with
  | marked mark ms =>
      obtain ⟨key, hkey⟩ := hasKeys_iff.mp hkeys ms hshared
      have hhas : hasKey key (.object ms) = true := by
        rw [hasKey_object hkey, ParameterKey.same_refl]
      exact List.filter_eq_nil_iff.mp (hnone key) _ hp hhas
  | _ => contradiction

/-- What joins the same entries once more is as it was. -/
theorem mergeParameters_again {shared own merged : List Value}
    (h : mergeParameters shared own = .ok merged) :
    mergeParameters shared merged = .ok merged := by
  obtain ⟨-, hshared⟩ := mergeParameters_succeeds_iff.mp ⟨merged, h⟩
  obtain ⟨seen, added, hseen, hadded, rfl⟩ := mergeParameters_eq_ok_iff.mp h
  obtain ⟨again, hagain⟩ :=
    mergeParameters_succeeds_iff.mpr ⟨(mergeParameters_spec h).1, hshared⟩
  obtain ⟨seen', more, hseen', hmore, rfl⟩ := mergeParameters_eq_ok_iff.mp hagain
  have hnil := eq_nil_of_joined hshared (firstOfNewKeys_of_chosen hseen hadded)
    (firstOfNewKeys_of_chosen hseen' hmore)
  rw [hagain, hnil, List.append_nil]

theorem distinctKeys_of_chosen {own shared added : List Value}
    {seen : List ParameterKey} (hseen : parameterKeys own = .ok seen)
    (h : Chosen seen shared added) (hown : DistinctKeys own) :
    DistinctKeys (own ++ added) := by
  obtain ⟨seen', hseen', hdistinct⟩ := hown
  obtain rfl := Except.ok.inj (hseen.symm.trans hseen')
  obtain ⟨keys, hkeys, hnew, hunmet⟩ := h.exists_keys
  refine ⟨seen ++ keys, parameterKeys_append hseen hkeys,
    List.pairwise_append.mpr ⟨hdistinct, hnew, ?_⟩⟩
  intro k hk l hl
  rw [ParameterKey.same_comm]
  exact eq_false_of_ne_true (List.any_eq_false.mp (hunmet l hl) k hk)

/-- Joined parameters are the own ones and after them, in their order, the first shared
entries of the keys that the own ones do not have. So distinct keys stay distinct,
joining the same entries again changes nothing, and joining more entries afterwards is
the same as joining them all at once. -/
theorem mergeParameters_laws {shared own merged : List Value}
    (h : mergeParameters shared own = .ok merged) :
    (∃ added, merged = own ++ added ∧ FirstOfNewKeys own shared added) ∧
      (DistinctKeys own → DistinctKeys merged) ∧
      mergeParameters shared merged = .ok merged ∧
      ∀ more, mergeParameters more merged = mergeParameters (shared ++ more) own := by
  obtain ⟨seen, added, hseen, hadded, rfl⟩ := mergeParameters_eq_ok_iff.mp h
  refine ⟨⟨added, rfl, firstOfNewKeys_of_chosen hseen hadded⟩, ?_,
    mergeParameters_again h, mergeParameters_append h⟩
  exact distinctKeys_of_chosen hseen hadded

/-- Own entries one of which is no object. -/
def petParameters : List Value :=
  ["none", .record [("name", "id"), ("in", "path")]]

/-- Shared entries of which some have a key in common, with each other or
with an own one. -/
def sharedPetParameters : List Value :=
  [.record [("$ref", "#/limit")],
    .record [("name", "id"), ("in", "path"), ("required", .bool true)], .null, .record
    [("name", "id"), ("in", "query")], .record [("$ref", "#/limit"), ("name", "limit")],
    .record [("name", .int 1)], .record [("name", .bool true), ("description", "one")]]

/-- What the operation has in the end. -/
def joinedPetParameters : List Value :=
  petParameters ++ [.record [("$ref", "#/limit")],
    .record [("name", "id"), ("in", "query")], .record [("name", .int 1)]]

theorem mergeParameters_laws_of_pets :
    mergeParameters sharedPetParameters petParameters = .ok joinedPetParameters ∧
      ((∃ added, joinedPetParameters = petParameters ++ added ∧
          FirstOfNewKeys petParameters sharedPetParameters added) ∧
        (DistinctKeys petParameters → DistinctKeys joinedPetParameters) ∧
        mergeParameters sharedPetParameters joinedPetParameters =
          .ok joinedPetParameters ∧
        ∀ more, mergeParameters more joinedPetParameters =
          mergeParameters (sharedPetParameters ++ more) petParameters) :=
  ⟨rfl, mergeParameters_laws rfl⟩

end ApiWorkbench.Document
