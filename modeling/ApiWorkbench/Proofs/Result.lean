import Mathlib.Data.List.Forall2

/-!
# Steps that may fail

A step ends with a result or with an error, and a sequence of steps ends with the first
error. What a sequence came to is read off from its end: every step before it must have
had a result. For a list of steps this means that results stand in the places of what
they were made from.
-/

namespace ApiWorkbench

variable {ε α β : Type}

/-- A sequence of two steps has a result exactly when both have. -/
theorem bind_eq_ok {x : Except ε α} {f : α → Except ε β} {b : β} :
    (x >>= f) = .ok b ↔ ∃ a, x = .ok a ∧ f a = .ok b := by
  cases x with
  | error e => simp [bind, Except.bind]
  | ok a => simp [bind, Except.bind]

/-- A result that is changed by a function that cannot fail. -/
theorem map_eq_ok {x : Except ε α} {f : α → β} {b : β} :
    (f <$> x) = .ok b ↔ ∃ a, x = .ok a ∧ f a = b := by
  cases x with
  | error e => simp [Functor.map, Except.map]
  | ok a => simp [Functor.map, Except.map]

theorem map_eq_error {x : Except ε α} {f : α → β} {e : ε} :
    (f <$> x) = .error e ↔ x = .error e := by
  cases x with
  | error e => simp [Functor.map, Except.map]
  | ok a => simp [Functor.map, Except.map]

/-- Steps whose results correspond have a result that corresponds, or end with
the same error. -/
theorem bind_eq_map_bind {γ δ : Type} {x : Except ε α} {x' : Except ε β} {into : α → β}
    (hx : x' = into <$> x) {f : α → Except ε γ} {f' : β → Except ε δ} {out : γ → δ}
    (hf : ∀ a, f' (into a) = out <$> f a) :
    (x' >>= f') = out <$> (x >>= f) := by
  subst hx
  cases x with
  | error e => rfl
  | ok a => exact hf a

/-- A choice between steps whose results correspond. -/
theorem ite_eq_map_ite {p : Prop} [Decidable p] {x y : Except ε α}
    {x' y' : Except ε β} {into : α → β} (hx : x' = into <$> x) (hy : y' = into <$> y) :
    (if p then x' else y') = into <$> (if p then x else y) := by
  split
  · exact hx
  · exact hy

theorem toOption_eq_some {x : Except ε α} {a : α} :
    x.toOption = some a ↔ x = .ok a := by
  cases x <;> simp [Except.toOption]

@[simp] theorem pure_eq_ok (a : α) : (pure a : Except ε α) = .ok a := rfl

@[simp] theorem throw_eq_error (e : ε) : (throw e : Except ε α) = .error e := rfl

@[simp] theorem ok_bind (a : α) (f : α → Except ε β) :
    ((Except.ok a : Except ε α) >>= f) = f a := rfl

@[simp] theorem error_bind (e : ε) (f : α → Except ε β) :
    ((Except.error e : Except ε α) >>= f) = .error e := rfl

/-- A sequence of steps of which none ends with an error does not end with it. -/
theorem bind_ne_error {x : Except ε α} {f : α → Except ε β} {e : ε} (hx : x ≠ .error e)
    (hf : ∀ a, f a ≠ .error e) : (x >>= f) ≠ .error e := by
  cases x with
  | error e' => exact fun h => hx (congrArg _ (Except.error.inj h))
  | ok a => exact hf a

theorem map_ok (f : α → β) (a : α) : f <$> (.ok a : Except ε α) = .ok (f a) := rfl

/-- The results of a list of steps stand in the places of what they were made from. -/
theorem mapM_eq_ok_iff {f : α → Except ε β} {xs : List α} {ys : List β} :
    xs.mapM f = .ok ys ↔ List.Forall₂ (fun x y => f x = .ok y) xs ys := by
  induction xs generalizing ys with
  | nil => simp [eq_comm]
  | cons x xs ih =>
      rw [List.mapM_cons, bind_eq_ok]
      constructor
      · rintro ⟨y, hy, hrest⟩
        obtain ⟨zs, hzs, hcons⟩ := bind_eq_ok.mp hrest
        obtain rfl := Except.ok.inj hcons
        exact .cons hy (ih.mp hzs)
      · intro h
        cases h with
        | cons hy hzs => exact ⟨_, hy, bind_eq_ok.mpr ⟨_, ih.mpr hzs, rfl⟩⟩

/-- A list of steps after a change of each item, if each step then gives the
changed result. -/
theorem mapM_map_map {γ δ : Type} {f : α → Except ε β} {g : γ → Except ε δ}
    {into : γ → α} {out : δ → β} (h : ∀ x, f (into x) = out <$> g x) (xs : List γ) :
    (xs.map into).mapM f = List.map out <$> xs.mapM g := by
  induction xs with
  | nil => rfl
  | cons x xs ih =>
      rw [List.map_cons, List.mapM_cons, List.mapM_cons, h, ih]
      cases g x with
      | error e => rfl
      | ok y => cases xs.mapM g <;> rfl

/-- Two lists of steps, one after the other, have the results that the steps
have item by item. -/
theorem mapM_mapM_eq_ok {γ : Type} {f : α → Except ε β} {g : β → Except ε γ}
    {xs : List α} {zs : List γ} :
    (do (← xs.mapM f).mapM g) = .ok zs ↔ xs.mapM (fun x => f x >>= g) = .ok zs := by
  rw [bind_eq_ok, mapM_eq_ok_iff]
  constructor
  · rintro ⟨ys, hys, hzs⟩
    replace hys := mapM_eq_ok_iff.mp hys
    induction hys generalizing zs with
    | nil =>
        obtain rfl := Except.ok.inj hzs
        exact .nil
    | cons hxy _ ih =>
        cases mapM_eq_ok_iff.mp hzs with
        | cons hyz hrest =>
            exact .cons (bind_eq_ok.mpr ⟨_, hxy, hyz⟩) (ih (mapM_eq_ok_iff.mpr hrest))
  · intro h
    induction h with
    | nil => exact ⟨[], rfl, rfl⟩
    | cons hxz _ ih =>
        obtain ⟨y, hxy, hyz⟩ := bind_eq_ok.mp hxz
        obtain ⟨ys, hys, hzs⟩ := ih
        exact ⟨y :: ys, mapM_eq_ok_iff.mpr (.cons hxy (mapM_eq_ok_iff.mp hys)),
          mapM_eq_ok_iff.mpr (.cons hyz (mapM_eq_ok_iff.mp hzs))⟩

/-- Each result of a list of steps was made from one of the list. -/
theorem exists_of_mem_mapM {f : α → Except ε β} {xs : List α} {ys : List β}
    (h : xs.mapM f = .ok ys) {y : β} (hy : y ∈ ys) : ∃ x ∈ xs, f x = .ok y := by
  induction mapM_eq_ok_iff.mp h with
  | nil => simp at hy
  | @cons x z xs ys hz hrest ih =>
      rcases List.mem_cons.mp hy with rfl | hy
      · exact ⟨x, by simp, hz⟩
      · obtain ⟨x', hx', hfx'⟩ := ih (mapM_eq_ok_iff.mpr hrest) hy
        exact ⟨x', by simp [hx'], hfx'⟩

/-- From each item of a list of steps a result was made. -/
theorem exists_of_mem_of_mapM {f : α → Except ε β} {xs : List α} {ys : List β}
    (h : xs.mapM f = .ok ys) {x : α} (hx : x ∈ xs) : ∃ y ∈ ys, f x = .ok y := by
  induction mapM_eq_ok_iff.mp h with
  | nil => simp at hx
  | @cons x' y xs ys hy hrest ih =>
      rcases List.mem_cons.mp hx with rfl | hx
      · exact ⟨y, by simp, hy⟩
      · obtain ⟨y', hy', hfx⟩ := ih (mapM_eq_ok_iff.mpr hrest) hx
        exact ⟨y', by simp [hy'], hfx⟩

/-- A loop has a result related to that of another one, if each of its steps does on
related values. -/
theorem foldlM_related {σ τ : Type} {S : σ → τ → Prop} {R : α → β → Prop}
    {step : σ → α → Except ε σ} {step' : τ → β → Except ε τ} {xs : List α} {ys : List β}
    (hxs : List.Forall₂ R xs ys) (hstep : ∀ x y s s' t, R x y → S s s' → step s x =
      .ok t → ∃ t', step' s' y = .ok t' ∧ S t t') {s t : σ} {s' : τ} (hs : S s s')
    (h : xs.foldlM step s = .ok t) : ∃ t', ys.foldlM step' s' = .ok t' ∧ S t t' := by
  induction hxs generalizing s s' with
  | nil =>
      obtain rfl := Except.ok.inj h
      exact ⟨s', rfl, hs⟩
  | @cons x y xs ys hxy _ ih =>
      obtain ⟨next, hnext, hrest⟩ := bind_eq_ok.mp h
      obtain ⟨next', hnext', hS⟩ := hstep x y s s' next hxy hs hnext
      obtain ⟨t', ht', hSt⟩ := ih hS hrest
      exact ⟨t', bind_eq_ok.mpr ⟨next', hnext', ht'⟩, hSt⟩

/-- The results of a list of steps are none only if the list is empty. -/
theorem ne_nil_of_mapM {f : α → Except ε β} {xs : List α} {ys : List β}
    (h : xs.mapM f = .ok ys) (hxs : xs ≠ []) : ys ≠ [] := by
  have hlength := (mapM_eq_ok_iff.mp h).length_eq
  rwa [← List.length_pos_iff, ← hlength, List.length_pos_iff]

/-- What every step of a loop keeps, the loop keeps. -/
theorem foldlM_preserves {σ : Type} {step : σ → α → Except ε σ} {xs : List α} {s t : σ}
    (h : xs.foldlM step s = .ok t) {P : σ → Prop} (hs : P s)
    (hstep : ∀ s x t, P s → step s x = .ok t → P t) : P t := by
  induction xs generalizing s with
  | nil =>
      obtain rfl := Except.ok.inj h
      exact hs
  | cons x rest ih =>
      obtain ⟨next, hnext, h⟩ := bind_eq_ok.mp h
      exact ih h (hstep s x next hs hnext)

/-- Related values in the places of a list are among its items. -/
theorem forall₂_and_mem {R : α → β → Prop} {xs : List α} {ys : List β}
    (h : List.Forall₂ R xs ys) :
    List.Forall₂ (fun x y => x ∈ xs ∧ y ∈ ys ∧ R x y) xs ys := by
  induction h with
  | nil => exact .nil
  | @cons x y xs ys hxy _ ih =>
      refine .cons ⟨List.mem_cons_self, List.mem_cons_self, hxy⟩
        (ih.imp fun a b hab => ?_)
      exact ⟨List.mem_cons_of_mem _ hab.1, List.mem_cons_of_mem _ hab.2.1, hab.2.2⟩

/-- A step has a result. -/
def Succeeds (x : Except ε α) : Prop :=
  ∃ a, x = .ok a

theorem succeeds_ok (a : α) : Succeeds (.ok a : Except ε α) :=
  ⟨a, rfl⟩

theorem isOk_iff {x : Except ε α} : x.isOk = true ↔ Succeeds x := by
  cases x with
  | error e => simp [Succeeds, Except.isOk, Except.toBool]
  | ok a => simp [Succeeds, Except.isOk, Except.toBool]

theorem not_succeeds_iff {x : Except ε α} : ¬ Succeeds x ↔ ∃ e, x = .error e := by
  cases x with
  | error e => simp [Succeeds]
  | ok a => simp [Succeeds]

theorem succeeds_bind {x : Except ε α} {f : α → Except ε β} :
    Succeeds (x >>= f) ↔ ∃ a, x = .ok a ∧ Succeeds (f a) := by
  constructor
  · rintro ⟨b, hb⟩
    obtain ⟨a, ha, hfa⟩ := bind_eq_ok.mp hb
    exact ⟨a, ha, b, hfa⟩
  · rintro ⟨a, ha, b, hb⟩
    exact ⟨b, bind_eq_ok.mpr ⟨a, ha, hb⟩⟩

/-- A sequence of two steps has a result if the first has one, and the second
has one after it. -/
theorem succeeds_bind_forall {x : Except ε α} {f : α → Except ε β} :
    Succeeds (x >>= f) ↔ Succeeds x ∧ ∀ a, x = .ok a → Succeeds (f a) := by
  cases x with
  | error e => simp [Succeeds]
  | ok a => simp [succeeds_ok]

theorem succeeds_map {x : Except ε α} {f : α → β} :
    Succeeds (f <$> x) ↔ Succeeds x := by
  cases x with
  | error e => simp [Succeeds, Functor.map, Except.map]
  | ok a => simp [Succeeds, Functor.map, Except.map]

/-- A sequence of two steps has a result if the first has one, and whether the second
has does not depend on it. -/
theorem succeeds_bind_iff {Q : Prop} {x : Except ε α} {f : α → Except ε β}
    (hf : ∀ a, Succeeds (f a) ↔ Q) :
    Succeeds (x >>= f) ↔ Succeeds x ∧ Q := by
  cases x with
  | error e => simp [Succeeds]
  | ok a => simp [hf, succeeds_ok]

/-- The same where the second step is only known after the first one. -/
theorem succeeds_bind_iff_of {Q : Prop} {x : Except ε α} {f : α → Except ε β}
    (hf : ∀ a, x = .ok a → (Succeeds (f a) ↔ Q)) : Succeeds (x >>= f) ↔
      Succeeds x ∧ Q := by
  cases x with
  | error e => simp [Succeeds]
  | ok a => simp [hf a rfl, succeeds_ok]

theorem succeeds_bind_pure {x : Except ε α} {f : α → β} :
    Succeeds (do let a ← x; pure (f a)) ↔ Succeeds x := by
  cases x with
  | error e => simp [Succeeds]
  | ok a => simp [Succeeds]

/-- A list of steps has results if each of them has one. -/
theorem mapM_succeeds_iff {f : α → Except ε β} {xs : List α} :
    Succeeds (xs.mapM f) ↔ ∀ x ∈ xs, Succeeds (f x) := by
  induction xs with
  | nil => simp [Succeeds]
  | cons x xs ih =>
      rw [List.mapM_cons, succeeds_bind_iff fun _ => succeeds_bind_pure, ih,
        List.forall_mem_cons]

/-- A loop has a result if each of its steps has one, wherever the loop is. -/
theorem foldlM_succeeds_iff {σ : Type} {step : σ → α → Except ε σ} {Q : α → Prop}
    {xs : List α} (hstep : ∀ x ∈ xs, ∀ s, Succeeds (step s x) ↔ Q x) (s : σ) :
    Succeeds (xs.foldlM step s) ↔ ∀ x ∈ xs, Q x := by
  induction xs generalizing s with
  | nil => simp [Succeeds]
  | cons x xs ih =>
      obtain ⟨hfirst, hrest⟩ := List.forall_mem_cons.mp hstep
      rw [List.foldlM_cons, succeeds_bind_iff (ih hrest), hfirst, List.forall_mem_cons]

/-- A test by which items are taken from a list has a result if that of each item has
one. -/
theorem filterM_succeeds {test : α → Except ε Bool} {xs : List α}
    (h : ∀ x ∈ xs, Succeeds (test x)) :
    Succeeds (xs.filterM test) := by
  have hwalk : ∀ kept, Succeeds (xs.filterAuxM test kept) := by
    induction xs with
    | nil => exact fun kept => succeeds_ok kept
    | cons x xs ih =>
        intro kept
        obtain ⟨b, hb⟩ := h x (by simp)
        rw [List.filterAuxM, hb, ok_bind]
        exact ih (fun x hx => h x (by simp [hx])) _
  obtain ⟨ys, hys⟩ := hwalk []
  exact ⟨ys.reverse, by rw [List.filterM, hys, ok_bind, pure_eq_ok]⟩

/-- Items that are taken from a list by a test were in the list and have
passed the test. -/
theorem mem_filterM {test : α → Except ε Bool} {xs ys : List α}
    (h : xs.filterM test = .ok ys) {y : α} (hy : y ∈ ys) :
    y ∈ xs ∧ test y = .ok true := by
  have hwalk : ∀ kept ys, xs.filterAuxM test kept = .ok ys → y ∈ ys → y ∈ kept ∨
      (y ∈ xs ∧ test y = .ok true) := by
    clear h hy
    induction xs with
    | nil =>
        intro kept ys h hy
        exact .inl (Except.ok.inj h ▸ hy)
    | cons x xs ih =>
        intro kept ys h hy
        obtain ⟨b, hb, h⟩ := bind_eq_ok.mp h
        rcases ih _ _ h hy with hkept | ⟨hxs, htest⟩
        · cases b with
          | true =>
              rcases List.mem_cons.mp hkept with rfl | hkept
              · exact .inr ⟨by simp, hb⟩
              · exact .inl hkept
          | false => exact .inl hkept
        · exact .inr ⟨by simp [hxs], htest⟩
  obtain ⟨taken, htaken, h⟩ := bind_eq_ok.mp h
  obtain rfl := Except.ok.inj h
  simpa using hwalk [] taken htaken (List.mem_reverse.mp hy)

/-- A test of items that were changed, if it does not see the change. -/
theorem filterM_map_eq {into : α → β} {test : α → Except ε Bool}
    {test' : β → Except ε Bool} (h : ∀ x, test' (into x) = test x) (xs : List α) :
    (xs.map into).filterM test' = List.map into <$> xs.filterM test := by
  have hwalk : ∀ kept : List α,
      (xs.map into).filterAuxM test' (kept.map into) =
        List.map into <$> xs.filterAuxM test kept := by
    induction xs with
    | nil => exact fun kept => rfl
    | cons x xs ih =>
        intro kept
        rw [List.map_cons, List.filterAuxM, List.filterAuxM, h]
        refine bind_eq_map_bind (id_map _).symm fun b => ?_
        cases b with
        | true => exact ih (x :: kept)
        | false => exact ih kept
  exact bind_eq_map_bind (hwalk []) fun taken =>
    congrArg Except.ok List.map_reverse.symm

/-- The first item that passes a test is looked for among changed items, if the test
does not see the change. -/
theorem anyM_map_eq {into : α → β} {test : α → Except ε Bool}
    {test' : β → Except ε Bool} (h : ∀ x, test' (into x) = test x) (xs : List α) :
    (xs.map into).anyM test' = xs.anyM test := by
  induction xs with
  | nil => rfl
  | cons x xs ih => rw [List.map_cons, List.anyM, List.anyM, h, ih]

/-- A test that has a result for every item takes those items for which the result is
that they pass. -/
theorem filterM_eq_filter {test : α → Except ε Bool} {p : α → Bool} {xs : List α}
    (h : ∀ x ∈ xs, test x = .ok (p x)) : xs.filterM test = .ok (xs.filter p) := by
  have hwalk : ∀ kept, xs.filterAuxM test kept =
      .ok ((xs.filter p).reverse ++ kept) := by
    induction xs with
    | nil => exact fun kept => rfl
    | cons x xs ih =>
        intro kept
        rw [List.filterAuxM, h x (by simp), ok_bind,
          ih (fun x hx => h x (by simp [hx])), List.filter_cons]
        cases p x <;> simp
  rw [List.filterM, hwalk, ok_bind]
  simp

/-- A test takes all items of a list exactly if each of them passes it. -/
theorem filterM_eq_self_iff {test : α → Except ε Bool} {xs : List α} :
    xs.filterM test = .ok xs ↔ ∀ x ∈ xs, test x = .ok true := by
  refine ⟨fun h x hx => (mem_filterM h hx).2, fun h => ?_⟩
  rw [filterM_eq_filter h, List.filter_true]

/-- A test that no item of a list passes. -/
theorem anyM_eq_false {test : α → Except ε Bool} {xs : List α}
    (h : ∀ x ∈ xs, test x = .ok false) :
    xs.anyM test = .ok false := by
  induction xs with
  | nil => rfl
  | cons x xs ih =>
      rw [List.anyM_cons, h x (by simp), ok_bind, if_neg Bool.false_ne_true]
      exact ih fun x hx => h x (by simp [hx])

/-- A test of a list has a result if that of each item has one. -/
theorem anyM_succeeds {test : α → Except ε Bool} {xs : List α}
    (h : ∀ x ∈ xs, Succeeds (test x)) :
    Succeeds (xs.anyM test) := by
  induction xs with
  | nil => exact succeeds_ok false
  | cons x xs ih =>
      obtain ⟨b, hb⟩ := h x (by simp)
      rw [List.anyM_cons, hb, ok_bind]
      split
      · exact succeeds_ok true
      · exact ih fun x hx => h x (by simp [hx])

/-- A step has a result with a property. -/
def EndsWith (P : α → Prop) (x : Except ε α) : Prop :=
  ∃ a, x = .ok a ∧ P a

@[simp] theorem endsWith_ok {P : α → Prop} {a : α} :
    EndsWith P (.ok a : Except ε α) ↔ P a := by
  simp [EndsWith]

@[simp] theorem not_endsWith_error {P : α → Prop} {e : ε} :
    ¬ EndsWith P (.error e : Except ε α) := by
  simp [EndsWith]

theorem endsWith_true {x : Except ε α} : EndsWith (fun _ => True) x ↔ Succeeds x := by
  simp [EndsWith, Succeeds]

theorem EndsWith.succeeds {P : α → Prop} {x : Except ε α} (h : EndsWith P x) :
    Succeeds x := by
  obtain ⟨a, ha, -⟩ := h
  exact ⟨a, ha⟩

theorem endsWith_congr {P Q : α → Prop} {x : Except ε α}
    (h : ∀ a, x = .ok a → (P a ↔ Q a)) :
    EndsWith P x ↔ EndsWith Q x :=
  exists_congr fun a => and_congr_right (h a)

theorem endsWith_bind {P : β → Prop} {x : Except ε α} {f : α → Except ε β} :
    EndsWith P (x >>= f) ↔ EndsWith (fun a => EndsWith P (f a)) x := by
  cases x with
  | error e => simp
  | ok a => simp

theorem endsWith_map {P : β → Prop} {x : Except ε α} {f : α → β} :
    EndsWith P (f <$> x) ↔ EndsWith (fun a => P (f a)) x := by
  cases x with
  | error e => simp [Functor.map, Except.map]
  | ok a => simp [Functor.map, Except.map]

/-- A list of steps has results with a property if each of them has one. -/
theorem endsWith_mapM {P : β → Prop} {f : α → Except ε β} {xs : List α} :
    EndsWith (fun ys => ∀ y ∈ ys, P y) (xs.mapM f) ↔ ∀ x ∈ xs, EndsWith P (f x) := by
  induction xs with
  | nil => simp
  | cons x xs ih =>
      rw [List.mapM_cons, endsWith_bind, List.forall_mem_cons, ← ih]
      cases f x with
      | error e => simp
      | ok y =>
          rw [endsWith_ok, endsWith_ok, endsWith_bind]
          cases xs.mapM f with
          | error e => simp
          | ok ys => simp

/-- Two steps agree if both have results that are related, or both end with
the same error. -/
inductive Agree (R : α → β → Prop) : Except ε α → Except ε β → Prop
  | ok {a : α} {b : β} : R a b → Agree R (.ok a) (.ok b)
  | error (e : ε) : Agree R (.error e) (.error e)

/-- Sequences agree if their first steps do, and then what follows their results. -/
theorem Agree.bind {γ δ : Type} {R : α → β → Prop} {S : γ → δ → Prop} {x : Except ε α}
    {y : Except ε β} {f : α → Except ε γ} {g : β → Except ε δ} (h : Agree R x y)
    (hfg : ∀ a b, R a b → Agree S (f a) (g b)) :
    Agree S (x >>= f) (y >>= g) := by
  cases h with
  | ok hab => exact hfg _ _ hab
  | error e => exact .error e

theorem Agree.imp {R S : α → β → Prop} {x : Except ε α} {y : Except ε β}
    (h : Agree R x y) (hRS : ∀ a b, R a b → S a b) : Agree S x y := by
  cases h with
  | ok hab => exact .ok (hRS _ _ hab)
  | error e => exact .error e

theorem Agree.ok_right {R : α → β → Prop} {x : Except ε α} {y : Except ε β}
    (h : Agree R x y) {b : β} (hy : y = .ok b) : ∃ a, x = .ok a ∧ R a b := by
  subst hy
  cases h with
  | ok hab => exact ⟨_, rfl, hab⟩

theorem Agree.ok_left {R : α → β → Prop} {x : Except ε α} {y : Except ε β}
    (h : Agree R x y) {a : α} (hx : x = .ok a) : ∃ b, y = .ok b ∧ R a b := by
  subst hx
  cases h with
  | ok hab => exact ⟨_, rfl, hab⟩

theorem Agree.error_right {R : α → β → Prop} {x : Except ε α} {y : Except ε β}
    (h : Agree R x y) {e : ε} (hy : y = .error e) : x = .error e := by
  subst hy
  cases h with
  | error => rfl

end ApiWorkbench
