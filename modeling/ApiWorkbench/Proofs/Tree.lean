import ApiWorkbench.Proofs.Members
import ApiWorkbench.Value.Reading

/-!
# Parts of documents

Objects and lists hold parts, and these hold parts again. `Tree.parts_induction` is the
induction over them: what holds of a list or an object if it holds of its parts, holds
of every tree. `Tree.Within` says that a tree is a part of another one at some depth.
What a pair holds does not count as a part; `Tree.Holds` counts it, and also names and
the elements of sets.
-/

namespace ApiWorkbench.Tree

variable {μ : Type}

/-- What holds of every tree whose parts have it, holds of every tree. -/
theorem parts_induction {motive : Tree μ → Prop} (scalar : ∀ s, motive (.scalar s))
    (list : ∀ xs, (∀ x ∈ xs, motive x) → motive (.list xs))
    (pair : ∀ a b, motive a → motive b → motive (.pair a b))
    (set : ∀ names, motive (.set names))
    (marked : ∀ mark ms, (∀ e ∈ ms, motive e.2) → motive (.marked mark ms)) :
    ∀ t, motive t
  | .scalar s => scalar s
  | .list xs => list xs fun x _ => parts_induction scalar list pair set marked x
  | .pair a b =>
    pair a b (parts_induction scalar list pair set marked a)
      (parts_induction scalar list pair set marked b)
  | .set names => set names
  | .marked mark ms =>
      marked mark ms fun e _ => parts_induction scalar list pair set marked e.2
termination_by t => sizeOf t
decreasing_by
  · have hsize := List.sizeOf_lt_of_mem ‹x ∈ xs›
    simp only [Tree.list.sizeOf_spec]
    omega
  · simp only [Tree.pair.sizeOf_spec]
    omega
  · simp only [Tree.pair.sizeOf_spec]
    omega
  · obtain ⟨k, v⟩ := e
    have hsize := List.sizeOf_lt_of_mem ‹(k, v) ∈ ms›
    simp only [Prod.mk.sizeOf_spec] at hsize
    simp only [Tree.marked.sizeOf_spec]
    omega

/-- A tree is a part of another one, or that tree itself. -/
inductive Within : Tree μ → Tree μ → Prop
  | here (t : Tree μ) : Within t t
  | item {xs : List (Tree μ)} {x t : Tree μ} : x ∈ xs → Within x t → Within (.list xs) t
  | member {mark : μ} {ms : Tree.Members μ} {k : Scalar} {x t : Tree μ} :
      (k, x) ∈ ms → Within x t → Within (.marked mark ms) t

theorem Within.trans {a b c : Tree μ} (hab : Within a b) (hbc : Within b c) :
    Within a c := by
  induction hab with
  | here t => exact hbc
  | item hx _ ih => exact .item hx (ih hbc)
  | member hx _ ih => exact .member hx (ih hbc)

/-- The objects in a list are those in its items. -/
theorem within_list_marked {xs : List (Tree μ)} {mark : μ} {ms : Tree.Members μ} :
    Within (.list xs) (.marked mark ms) ↔ ∃ x ∈ xs, Within x (.marked mark ms) := by
  constructor
  · intro h
    cases h with
    | item hx hwithin => exact ⟨_, hx, hwithin⟩
  · rintro ⟨x, hx, hwithin⟩
    exact .item hx hwithin

/-- The objects in an object are the object itself and those in its members. -/
theorem within_marked_marked {mark mark' : μ} {ms ms' : Tree.Members μ} :
    Within (.marked mark' ms') (.marked mark ms) ↔
      (mark = mark' ∧ ms = ms') ∨ ∃ e ∈ ms', Within e.2 (.marked mark ms) := by
  constructor
  · intro h
    cases h with
    | here => exact .inl ⟨rfl, rfl⟩
    | member hx hwithin => exact .inr ⟨_, hx, hwithin⟩
  · rintro (⟨rfl, rfl⟩ | ⟨⟨k, x⟩, hx, hwithin⟩)
    · exact .here _
    · exact .member hx hwithin

@[simp] theorem not_within_scalar_marked {s : Scalar} {mark : μ} {ms : Tree.Members μ} :
    ¬ Within (.scalar s) (.marked mark ms) := by
  rintro ⟨⟩

@[simp] theorem not_within_pair_marked {a b : Tree μ} {mark : μ} {ms : Tree.Members μ} :
    ¬ Within (.pair a b) (.marked mark ms) := by
  rintro ⟨⟩

@[simp] theorem not_within_set_marked {names : List Scalar} {mark : μ}
    {ms : Tree.Members μ} :
    ¬ Within (.set names) (.marked mark ms) := by
  rintro ⟨⟩

theorem isText_iff {text : String} {v : Tree μ} :
    v.isText text = true ↔ v = .str text := by
  cases v with
  | scalar s => cases s <;> simp [Tree.isText]
  | _ => simp [Tree.isText]

/-- The items of what is no list and no pair are scalars. -/
theorem scalar_of_mem_items {v x : Tree μ} {xs : List (Tree μ)} (h : v.items = .ok xs)
    (hlist : ∀ ys, v ≠ .list ys) (hpair : ∀ a b, v ≠ .pair a b) (hx : x ∈ xs) :
    ∃ s, x = .scalar s := by
  cases v with
  | list ys => exact absurd rfl (hlist ys)
  | pair a b => exact absurd rfl (hpair a b)
  | set names =>
      obtain rfl := Except.ok.inj h
      obtain ⟨name, -, rfl⟩ := List.mem_map.mp hx
      exact ⟨name, rfl⟩
  | marked mark ms =>
      obtain rfl := Except.ok.inj h
      obtain ⟨e, -, rfl⟩ := List.mem_map.mp hx
      exact ⟨e.1, rfl⟩
  | scalar s =>
      cases s with
      | str text =>
          obtain rfl := Except.ok.inj h
          obtain ⟨c, -, rfl⟩ := List.mem_map.mp hx
          exact ⟨_, rfl⟩
      | torn text =>
          obtain rfl := Except.ok.inj h
          obtain ⟨letter, -, rfl⟩ := List.mem_map.mp hx
          exact ⟨_, rfl⟩
      | bytes b =>
          obtain rfl := Except.ok.inj h
          obtain ⟨byte, -, rfl⟩ := List.mem_map.mp hx
          exact ⟨_, rfl⟩
      | _ => contradiction

/-! ## Whole trees -/

theorem isTorn_of_isWhole {s : Scalar} (h : s.isWhole = true) : s.isTorn = false := by
  cases s with
  | torn text => exact absurd h Bool.false_ne_true
  | _ => rfl

theorem areWhole_iff {xs : List (Tree μ)} :
    areWhole xs = true ↔ ∀ x ∈ xs, x.isWhole = true := by
  induction xs with
  | nil => simp [areWhole]
  | cons x rest ih => rw [areWhole, Bool.and_eq_true, ih, List.forall_mem_cons]

theorem membersAreWhole_iff {ms : Tree.Members μ} :
    membersAreWhole ms = true ↔ ∀ e ∈ ms, e.1.isWhole = true ∧ e.2.isWhole = true := by
  induction ms with
  | nil => simp [membersAreWhole]
  | cons e rest ih =>
      rw [membersAreWhole, Bool.and_eq_true, Bool.and_eq_true, ih, List.forall_mem_cons]

/-! ## Everything in a tree -/

/-- A tree is in another one, or is that one: as an item, as a member or its name, in a
set, or in a pair. -/
inductive Holds : Tree μ → Tree μ → Prop
  | here (t : Tree μ) : Holds t t
  | item {xs : List (Tree μ)} {x t : Tree μ} : x ∈ xs → Holds x t → Holds (.list xs) t
  | first {a b t : Tree μ} : Holds a t → Holds (.pair a b) t
  | second {a b t : Tree μ} : Holds b t → Holds (.pair a b) t
  | firstName {a b : Scalar} {t : Tree μ} : Holds (.scalar a) t →
      Holds (.scalar (.pair a b)) t
  | secondName {a b : Scalar} {t : Tree μ} : Holds (.scalar b) t →
      Holds (.scalar (.pair a b)) t
  | element {names : List Scalar} {k : Scalar} {t : Tree μ} :
      k ∈ names → Holds (.scalar k) t → Holds (.set names) t
  | name {mark : μ} {ms : Tree.Members μ} {k : Scalar} {x t : Tree μ} :
      (k, x) ∈ ms → Holds (.scalar k) t → Holds (.marked mark ms) t
  | member {mark : μ} {ms : Tree.Members μ} {k : Scalar} {x t : Tree μ} :
      (k, x) ∈ ms → Holds x t → Holds (.marked mark ms) t

theorem Holds.trans {a b c : Tree μ} (hab : Holds a b) (hbc : Holds b c) :
    Holds a c := by
  induction hab with
  | here => exact hbc
  | item hx _ ih => exact .item hx (ih hbc)
  | first _ ih => exact .first (ih hbc)
  | second _ ih => exact .second (ih hbc)
  | firstName _ ih => exact .firstName (ih hbc)
  | secondName _ ih => exact .secondName (ih hbc)
  | element hk _ ih => exact .element hk (ih hbc)
  | name hk _ ih => exact .name hk (ih hbc)
  | member hk _ ih => exact .member hk (ih hbc)

/-- Everything in a tree has a property. -/
def Everywhere (P : Tree μ → Prop) (t : Tree μ) : Prop :=
  ∀ part, Holds t part → P part

variable {P : Tree μ → Prop}

theorem everywhere_list {xs : List (Tree μ)} :
    Everywhere P (.list xs) ↔ P (.list xs) ∧ ∀ x ∈ xs, Everywhere P x := by
  refine ⟨fun h => ⟨h _ (.here _), fun x hx part hpart => h part (.item hx hpart)⟩,
    fun h part hpart => ?_⟩
  cases hpart with
  | here => exact h.1
  | item hx hpart => exact h.2 _ hx part hpart

theorem everywhere_pair {a b : Tree μ} :
    Everywhere P (.pair a b) ↔ P (.pair a b) ∧ Everywhere P a ∧ Everywhere P b := by
  refine ⟨fun h => ⟨h _ (.here _), fun part hpart => h part (.first hpart),
    fun part hpart => h part (.second hpart)⟩, fun h part hpart => ?_⟩
  cases hpart with
  | here => exact h.1
  | first hpart => exact h.2.1 part hpart
  | second hpart => exact h.2.2 part hpart

theorem everywhere_set {names : List Scalar} :
    Everywhere P (.set names) ↔ P (.set names) ∧ ∀ k ∈ names,
      Everywhere P (.scalar k) := by
  refine ⟨fun h => ⟨h _ (.here _), fun k hk part hpart => h part (.element hk hpart)⟩,
    fun h part hpart => ?_⟩
  cases hpart with
  | here => exact h.1
  | element hk hpart => exact h.2 _ hk part hpart

theorem everywhere_marked {mark : μ} {ms : Tree.Members μ} :
    Everywhere P (.marked mark ms) ↔
      P (.marked mark ms) ∧ ∀ e ∈ ms, Everywhere P (.scalar e.1) ∧
        Everywhere P e.2 := by
  refine ⟨fun h => ⟨h _ (.here _), fun e he => ⟨fun part hpart => h part (.name he
    hpart), fun part hpart => h part (.member he hpart)⟩⟩, fun h part hpart => ?_⟩
  cases hpart with
  | here => exact h.1
  | name he hpart => exact (h.2 _ he).1 part hpart
  | member he hpart => exact (h.2 _ he).2 part hpart

/-- Nothing is in a scalar besides it, unless it is a pair. -/
theorem everywhere_scalar {s : Scalar}
    (hpair : ∀ a b, P (.scalar (.pair a b)) → False) :
    Everywhere P (.scalar s) ↔ P (.scalar s) := by
  refine ⟨fun h => h _ (.here _), fun h part hpart => ?_⟩
  cases hpart with
  | here => exact h
  | firstName => exact (hpair _ _ h).elim
  | secondName => exact (hpair _ _ h).elim

end ApiWorkbench.Tree
