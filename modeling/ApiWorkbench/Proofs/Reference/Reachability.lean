import Mathlib.Logic.Relation
import ApiWorkbench.Proofs.Result
import ApiWorkbench.Proofs.Tree
import ApiWorkbench.Reference.Expansion

/-!
# Where pointers lead

A pointer leads to another one if what it stands for has an object with that pointer in
it. The pointers that can be reached from a value are those in it and whatever they lead
to; all of them are written in the value or in the document, so there are finitely many.

## Main results

* `mem_pointers_iff`: the pointers of a value, by the objects in it.
* `within_of_resolve`: a pointer leads nowhere or to a part of the document.
* `mem_pointers_of_reached`: the pointers that can be reached are among those of the
  value and the document.
-/

namespace ApiWorkbench.Reference

open Relation

/-! ## Pointers -/

/-- A value has an object in it with a pointer. -/
def Mentions (v : Value) (pointer : String) : Prop :=
  ∃ ms, v.Within (.object ms) ∧ Members.get? "$ref" ms = some (.str pointer)

/-- What a pointer leads to mentions another one. -/
def LeadsTo (root : Value) (p q : String) : Prop :=
  ∃ v, resolve (.str p) root = .ok v ∧ Mentions v q

/-- A pointer that the expansion of a value may come to: one in the value, or one to
which such a pointer leads. -/
def Reached (root node : Value) (p : String) : Prop :=
  ∃ q, Mentions node q ∧ ReflTransGen (LeadsTo root) q p

/-- In every object of a value, what stands under `$ref` is a text. -/
def RefsAreText (v : Value) : Prop :=
  ∀ ms w, v.Within (.object ms) → Members.get? "$ref" ms = some w → ∃ p, w = .str p

theorem Reached.next {root node : Value} {p q : String} (hp : Reached root node p)
    (hpq : LeadsTo root p q) :
    Reached root node q := by
  obtain ⟨first, hfirst, hpath⟩ := hp
  exact ⟨first, hfirst, hpath.tail hpq⟩

private theorem mem_itemPointers {xs : List Value} {p : String} :
    p ∈ itemPointers xs ↔ ∃ x ∈ xs, p ∈ pointers x := by
  induction xs with
  | nil => simp [itemPointers]
  | cons x xs ih => simp [itemPointers, ih]

private theorem mem_memberPointers {ms : Members} {p : String} :
    p ∈ memberPointers ms ↔ ∃ e ∈ ms, p ∈ pointers e.2 := by
  induction ms with
  | nil => simp [memberPointers]
  | cons e ms ih => simp [memberPointers, ih]

/-- A value mentions what its items mention. -/
theorem mentions_list {xs : List Value} {p : String} :
    Mentions (.list xs) p ↔ ∃ x ∈ xs, Mentions x p := by
  simp only [Mentions, Tree.within_list_marked]
  constructor
  · rintro ⟨ms, ⟨x, hx, hwithin⟩, hget⟩
    exact ⟨x, hx, ms, hwithin, hget⟩
  · rintro ⟨x, hx, ms, hwithin, hget⟩
    exact ⟨ms, ⟨x, hx, hwithin⟩, hget⟩

/-- An object mentions its pointer and what its members mention. -/
theorem mentions_object {ms : Members} {p : String} :
    Mentions (.object ms) p ↔ Members.get? "$ref" ms = some (.str p) ∨ ∃ e ∈ ms,
      Mentions e.2 p := by
  simp only [Mentions, Tree.within_marked_marked]
  constructor
  · rintro ⟨ns, ⟨-, rfl⟩ | ⟨e, he, hwithin⟩, hget⟩
    · exact .inl hget
    · exact .inr ⟨e, he, ns, hwithin, hget⟩
  · rintro (hget | ⟨e, he, ns, hwithin, hget⟩)
    · exact ⟨ms, .inl (by simp), hget⟩
    · exact ⟨ns, .inr ⟨e, he, hwithin⟩, hget⟩

/-- The list of pointers of a value has the pointers that it mentions. -/
theorem mem_pointers_iff {v : Value} {p : String} : p ∈ pointers v ↔ Mentions v p := by
  induction v using Tree.parts_induction with
  | scalar s => simp [pointers, Mentions]
  | pair a b => simp [pointers, Mentions]
  | set names => simp [pointers, Mentions]
  | list xs ih =>
      rw [pointers, mem_itemPointers, mentions_list]
      constructor
      · rintro ⟨x, hx, hp⟩
        exact ⟨x, hx, (ih x hx).mp hp⟩
      · rintro ⟨x, hx, hp⟩
        exact ⟨x, hx, (ih x hx).mpr hp⟩
  | marked mark ms ih =>
      rw [pointers, List.mem_append, mem_memberPointers, mentions_object]
      have hmembers : (∃ e ∈ ms, p ∈ pointers e.2) ↔ ∃ e ∈ ms, Mentions e.2 p := by
        constructor
        · rintro ⟨e, he, hp⟩
          exact ⟨e, he, (ih e he).mp hp⟩
        · rintro ⟨e, he, hp⟩
          exact ⟨e, he, (ih e he).mpr hp⟩
      rw [hmembers]
      refine or_congr_left ?_
      split
      · rename_i pointer hget
        rw [hget, List.mem_singleton, Option.some.injEq]
        constructor
        · rintro rfl
          rfl
        · intro heq
          injection heq with heq
          exact (Scalar.str.inj heq).symm
      · rename_i hnone
        constructor
        · intro hp
          simp at hp
        · intro hget
          exact absurd hget (hnone p)

theorem RefsAreText.item {xs : List Value} (h : RefsAreText (.list xs)) :
    ∀ x ∈ xs, RefsAreText x :=
  fun _ hx ms w hwithin hget => h ms w (.item hx hwithin) hget

theorem RefsAreText.member {ms : Members} (h : RefsAreText (.object ms)) :
    ∀ e ∈ ms, RefsAreText e.2 :=
  fun _ he ns w hwithin hget => h ns w (.member he hwithin) hget

/-! ## What pointers lead to -/

private theorem within_of_step {current next : Value} {part : String}
    (h : step current part = .ok (some next)) :
    current.Within next := by
  unfold step at h
  split at h
  · rename_i mark ms
    exact .member (Members.mem_of_get?_str (Except.ok.inj h)) (.here next)
  · rename_i xs
    split at h
    · obtain ⟨i, -, h⟩ := bind_eq_ok.mp h
      exact .item (List.mem_of_getElem? (Except.ok.inj h)) (.here next)
    · simp at h
  · simp at h

private theorem within_of_walk {current found : Value} {parts : List String}
    (h : walk current parts = .ok found) :
    found = .null ∨ current.Within found := by
  induction parts generalizing current with
  | nil =>
      obtain rfl := Except.ok.inj h
      exact .inr (.here current)
  | cons part rest ih =>
      obtain ⟨next, hnext, h⟩ := bind_eq_ok.mp h
      cases next with
      | none => exact .inl (Except.ok.inj h).symm
      | some next =>
          rcases ih h with hnull | hwithin
          · exact .inl hnull
          · exact .inr ((within_of_step hnext).trans hwithin)

/-- A pointer leads nowhere, or to a part of the document. -/
theorem within_of_resolve {root found : Value} {p : String}
    (h : resolve (.str p) root = .ok found) :
    found = .null ∨ root.Within found :=
  within_of_walk h

/-- A pointer that another one leads to is mentioned in the document. -/
theorem mentions_of_leadsTo {root : Value} {p q : String} (h : LeadsTo root p q) :
    Mentions root q := by
  obtain ⟨v, hv, ms, hwithin, hget⟩ := h
  rcases within_of_resolve hv with rfl | hroot
  · simp at hwithin
  · exact ⟨ms, hroot.trans hwithin, hget⟩

/-- The pointers that can be reached are among those of the value and the document. -/
theorem mem_pointers_of_reached {root node : Value} {p : String}
    (h : Reached root node p) :
    p ∈ pointers node ++ pointers root := by
  obtain ⟨first, hfirst, hpath⟩ := h
  rw [List.mem_append, mem_pointers_iff, mem_pointers_iff]
  cases hpath with
  | refl => exact .inl hfirst
  | tail _ hlast => exact .inr (mentions_of_leadsTo hlast)

/-- What a pointer leads to has texts under `$ref` if the document has. -/
theorem refsAreText_of_resolve {root found : Value}
    {p : String} (hroot : RefsAreText root) (h : resolve (.str p) root = .ok found) :
    RefsAreText found := by
  intro ms w hwithin hget
  rcases within_of_resolve h with rfl | hfound
  · simp at hwithin
  · exact hroot ms w (hfound.trans hwithin) hget

/-- Following a pointer once finds what it leads to. -/
theorem followOnce_cases {root : Value} {p : String} {t : Target}
    (h : followOnce root p = .ok t) :
    (t = .missing ∧ resolve (.str p) root = .ok .null) ∨
      ∃ v, t = .found v ∧ resolve (.str p) root = .ok v := by
  obtain ⟨found, hfound, h⟩ := bind_eq_ok.mp h
  obtain rfl := Except.ok.inj h
  split
  · rename_i hnull
    unfold Tree.isNull at hnull
    split at hnull
    · exact .inl ⟨rfl, hfound⟩
    · contradiction
  · exact .inr ⟨found, rfl, hfound⟩

end ApiWorkbench.Reference
