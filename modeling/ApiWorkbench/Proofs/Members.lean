import ApiWorkbench.Proofs.Result
import ApiWorkbench.Value.Members

/-!
# Laws of ordered members

What is found under a name after an entry was put, taken away or renamed, and which
entries there are afterwards. Names are compared as the program compares them; only a
text is the same name as a text, so for texts the laws are those of equality.

The order of entries counts. A new name goes to the end, a name that is present keeps
its place, and so putting an entry and taking away another one may be exchanged.

## Main results

* `get?_put`, `get?_erase`: what is found afterwards.
* `put_of_absent`, `put_of_get?`, `erase_put_of_ne`, `erase_put_of_absent`: where
  entries stand.
* `Distinct.ofEntries_eq`: entries with different names are members already.
* `modifyM_eq`: changing the value under a name is reading it and putting the new one.
* `Aligned.get?_some`, `Aligned.get?_none`: members that agree name by name
  are read alike.
-/

namespace ApiWorkbench

namespace Scalar

@[simp] theorem str_same_str (s t : String) :
    (Scalar.str s).same (.str t) = (s == t) := rfl

/-- A number is not the same name as a text, whatever its value. -/
private theorem float_same_str (x : Binary64) (s : String) :
    (Scalar.float x).same (.str s) = false := by
  rw [Scalar.same]
  · cases hnumber : (Scalar.float x).number? with
    | none => rfl
    | some number => cases number <;> rfl
  all_goals simp

/-- Only a text is the same name as a text. -/
theorem same_str_iff {k : Scalar} {s : String} :
    k.same (.str s) = true ↔ k = .str s := by
  cases k with
  | str t => rw [str_same_str, beq_iff_eq, Scalar.str.injEq]
  | float x => simp [float_same_str]
  | _ => exact iff_of_false Bool.false_ne_true (fun h => nomatch h)

/-- A scalar is a text, whole or torn. -/
inductive IsText : Scalar → Prop
  | whole (s : String) : IsText (.str s)
  | torn (text : Text.Torn) : IsText (.torn text)

theorem isText_of_eq_str {k : Scalar} (h : ∃ name, k = .str name) : k.IsText := by
  obtain ⟨name, rfl⟩ := h
  exact .whole name

/-- A text that is not torn has characters. -/
theorem IsText.exists_str {k : Scalar} (h : IsText k) (hwhole : k.isTorn = false) :
    ∃ name, k = .str name := by
  cases h with
  | whole s => exact ⟨s, rfl⟩
  | torn text => exact absurd hwhole.symm Bool.false_ne_true

theorem isText_ofLetters (letters : List Text.Letter) : (ofLetters letters).IsText := by
  rw [ofLetters]
  split
  · exact .torn _
  · exact .whole _

/-- A number is not the same name as a torn text either. -/
private theorem float_same_torn (x : Binary64) (text : Text.Torn) :
    (Scalar.float x).same (.torn text) = false := by
  rw [Scalar.same]
  · cases hnumber : (Scalar.float x).number? with
    | none => rfl
    | some number => cases number <;> rfl
  all_goals simp

private theorem torn_same_float (text : Text.Torn) (x : Binary64) :
    (Scalar.torn text).same (.float x) = false := by
  rw [Scalar.same]
  · rfl
  all_goals simp

/-- Only what is equal to a text is the same name. -/
theorem IsText.same_iff {k name : Scalar} (h : IsText name) :
    k.same name = true ↔ k = name := by
  cases h with
  | whole s => exact same_str_iff
  | torn text =>
      cases k with
      | torn other => rw [Scalar.same, beq_iff_eq, Scalar.torn.injEq]
      | float x => simp [float_same_torn]
      | _ => exact iff_of_false Bool.false_ne_true (fun h => nomatch h)

/-- A text is the same name as itself only. -/
theorem IsText.same_left_iff {k name : Scalar} (h : IsText name) :
    name.same k = true ↔ k = name := by
  cases h with
  | whole s =>
      cases k with
      | str t =>
          rw [str_same_str, beq_iff_eq, Scalar.str.injEq]
          exact eq_comm
      | _ => exact iff_of_false Bool.false_ne_true (fun h => nomatch h)
  | torn text =>
      cases k with
      | torn other =>
          rw [Scalar.same, beq_iff_eq, Scalar.torn.injEq]
          exact eq_comm
      | float x => simp [torn_same_float]
      | _ => exact iff_of_false Bool.false_ne_true (fun h => nomatch h)

/-- Whether a name is torn does not depend on which of the names it is that are the
same. -/
theorem isTorn_eq_of_same {k name : Scalar} (h : k.same name = true) :
    k.isTorn = name.isTorn := by
  cases k with
  | torn text => rw [(IsText.torn text).same_left_iff.mp h]
  | _ =>
      cases name with
      | torn text => rw [(IsText.torn text).same_iff.mp h]
      | _ => rfl

theorem str_same_iff {k : Scalar} {s : String} :
    (Scalar.str s).same k = true ↔ k = .str s :=
  (IsText.whole s).same_left_iff

end Scalar

namespace Members

variable {α β : Type}

/-! ## Reading -/

@[simp] theorem get?_nil (name : Scalar) :
    get? name ([] : List (Scalar × α)) = none := rfl

theorem get?_cons (name k : Scalar) (v : α) (rest : List (Scalar × α)) :
    get? name ((k, v) :: rest) = if k.same name then some v else get? name rest := rfl

/-- What is found under a name is the value of an entry of that name. -/
theorem mem_of_get? {name : Scalar} {v : α} {ms : List (Scalar × α)}
    (h : get? name ms = some v) :
    ∃ k, k.same name = true ∧ (k, v) ∈ ms := by
  induction ms with
  | nil => simp at h
  | cons e rest ih =>
      obtain ⟨k, w⟩ := e
      rw [get?_cons] at h
      split at h
      · obtain rfl := Option.some.inj h
        exact ⟨k, ‹_›, by simp⟩
      · obtain ⟨k', hk', hmem⟩ := ih h
        exact ⟨k', hk', by simp [hmem]⟩

/-- What is found under a text is the value of an entry of exactly that name. -/
theorem mem_of_get?_str {s : String} {v : α} {ms : List (Scalar × α)}
    (h : get? (.str s) ms = some v) :
    (Scalar.str s, v) ∈ ms := by
  obtain ⟨k, hk, hmem⟩ := mem_of_get? h
  rwa [← Scalar.same_str_iff.mp hk]

/-- Nothing is found under a name exactly when no entry has it. -/
theorem get?_eq_none_iff {name : Scalar} {ms : List (Scalar × α)} :
    get? name ms = none ↔ ∀ e ∈ ms, e.1.same name = false := by
  induction ms with
  | nil => simp
  | cons e rest ih =>
      obtain ⟨k, w⟩ := e
      rw [get?_cons]
      by_cases hk : k.same name = true
      · simp [hk]
      · simp [hk, ih]

/-! ## Putting an entry -/

@[simp] theorem put_nil (name : Scalar) (v : α) : put name v [] = [(name, v)] := rfl

theorem put_cons (name k : Scalar) (v w : α) (rest : List (Scalar × α)) :
    put name v ((k, w) :: rest) = if k.same name then (k, v) :: rest else (k, w) ::
      put name v rest := rfl

/-- What is found under a text after an entry was put under a text. -/
@[simp] theorem get?_put (a b : String) (v : α) (ms : List (Scalar × α)) :
    get? (.str a) (put (.str b) v ms) = if a = b then some v else get? (.str a) ms := by
  induction ms with
  | nil =>
      by_cases hab : a = b
      · simp [get?_cons, hab]
      · simp [get?_cons, hab, Ne.symm hab]
  | cons e rest ih =>
      obtain ⟨k, w⟩ := e
      by_cases hk : k.same (.str b) = true
      · obtain rfl := Scalar.same_str_iff.mp hk
        by_cases hab : a = b
        · simp [put_cons, get?_cons, hab]
        · simp [put_cons, get?_cons, hab, Ne.symm hab]
      · simp only [put_cons, if_neg hk, get?_cons, ih]
        by_cases hka : k.same (.str a) = true
        · obtain rfl := Scalar.same_str_iff.mp hka
          have hab : a ≠ b := by rintro rfl; simp at hk
          simp [hab]
        · simp [hka]

/-- A new name goes to the end. -/
theorem put_of_absent {name : Scalar} {ms : List (Scalar × α)} (v : α)
    (h : get? name ms = none) :
    put name v ms = ms ++ [(name, v)] := by
  induction ms with
  | nil => rfl
  | cons e rest ih =>
      obtain ⟨k, w⟩ := e
      have hnone := get?_eq_none_iff.mp h
      have hk : k.same name = false := hnone (k, w) (by simp)
      have hrest : get? name rest = none := by simpa [get?_cons, hk] using h
      simp [put_cons, hk, ih hrest]

/-- Putting what is there already changes nothing. -/
theorem put_of_get? {name : Scalar} {v : α} {ms : List (Scalar × α)}
    (h : get? name ms = some v) :
    put name v ms = ms := by
  induction ms with
  | nil => simp at h
  | cons e rest ih =>
      obtain ⟨k, w⟩ := e
      rw [get?_cons] at h
      split at h
      · obtain rfl := Option.some.inj h
        simp [put_cons, *]
      · simp [put_cons, *]

/-- Putting something under a text changes nothing exactly if it is there already. -/
theorem put_eq_self_iff {name : String} {v : α} {ms : List (Scalar × α)} :
    put (.str name) v ms = ms ↔ get? (.str name) ms = some v := by
  refine ⟨fun h => ?_, put_of_get?⟩
  rw [← h, get?_put, if_pos rfl]

theorem put_put (name : String) (v w : α) (ms : List (Scalar × α)) :
    put (.str name) w (put (.str name) v ms) = put (.str name) w ms := by
  induction ms with
  | nil => simp [put_cons]
  | cons e rest ih =>
      obtain ⟨k, u⟩ := e
      by_cases hk : k.same (.str name) = true
      · simp [put_cons, hk]
      · simp [put_cons, hk, ih]

/-- Entries under different texts may be put in either order, if one of the names is
there already. -/
theorem put_comm {a b : String} (hab : a ≠ b) {ms : List (Scalar × α)} {u : α}
    (h : get? (.str a) ms = some u) (v w : α) :
    put (.str a) v (put (.str b) w ms) = put (.str b) w (put (.str a) v ms) := by
  induction ms with
  | nil => simp at h
  | cons e rest ih =>
      obtain ⟨k, x⟩ := e
      by_cases ha : k.same (.str a) = true
      · obtain rfl := Scalar.same_str_iff.mp ha
        simp [put_cons, hab]
      · by_cases hb : k.same (.str b) = true
        · obtain rfl := Scalar.same_str_iff.mp hb
          simp [put_cons, Ne.symm hab]
        · have hrest : get? (.str a) rest = some u := by simpa [get?_cons, ha] using h
          simp [put_cons, ha, hb, ih hrest]

/-- An entry after putting is an earlier one or the one that was put. -/
theorem mem_put {name : Scalar} {v : α} {ms : List (Scalar × α)} {e : Scalar × α}
    (h : e ∈ put name v ms) :
    e ∈ ms ∨ (e.2 = v ∧ (e.1 = name ∨ e.1.same name = true)) := by
  induction ms with
  | nil =>
      obtain rfl : e = (name, v) := by simpa using h
      simp
  | cons e' rest ih =>
      obtain ⟨k, w⟩ := e'
      by_cases hk : k.same name = true
      · simp only [put_cons, if_pos hk, List.mem_cons] at h
        rcases h with rfl | h
        · exact .inr ⟨rfl, .inr hk⟩
        · exact .inl (by simp [h])
      · simp only [put_cons, if_neg hk, List.mem_cons] at h
        rcases h with rfl | h
        · exact .inl (by simp)
        · rcases ih h with h | h
          · exact .inl (by simp [h])
          · exact .inr h

/-- An entry after putting one under a text is an earlier one or exactly the
one that was put. -/
theorem mem_put_str {s : String} {v : α} {ms : List (Scalar × α)} {e : Scalar × α}
    (h : e ∈ put (.str s) v ms) : e ∈ ms ∨ e = (.str s, v) := by
  rcases mem_put h with h | ⟨hv, hname⟩
  · exact .inl h
  · have hk : e.1 = .str s := hname.elim id Scalar.same_str_iff.mp
    exact .inr (Prod.ext hk hv)

/-- Putting an entry keeps those under other names. -/
theorem mem_put_of_ne {name : Scalar} {v : α} {ms : List (Scalar × α)} {e : Scalar × α}
    (hname : e.1.same name = false) (h : e ∈ ms) : e ∈ put name v ms := by
  induction ms with
  | nil => contradiction
  | cons e' rest ih =>
      obtain ⟨k, w⟩ := e'
      rw [put_cons]
      split
      · rcases List.mem_cons.mp h with rfl | h
        · simp_all
        · exact List.mem_cons_of_mem _ h
      · rcases List.mem_cons.mp h with rfl | h
        · exact List.mem_cons_self
        · exact List.mem_cons_of_mem _ (ih h)

/-- An entry after putting several is an earlier one or has the value of one of them,
under the same name. -/
theorem mem_putAll {ms others : List (Scalar × α)} {e : Scalar × α}
    (h : e ∈ putAll ms others) :
    e ∈ ms ∨ ∃ o ∈ others, e.2 = o.2 ∧ (e.1 = o.1 ∨ e.1.same o.1 = true) := by
  induction others generalizing ms with
  | nil => exact .inl h
  | cons o rest ih =>
      rcases ih (show e ∈ putAll (put o.1 o.2 ms) rest from h) with h | ⟨o', ho', hval⟩
      · rcases mem_put h with h | h
        · exact .inl h
        · exact .inr ⟨o, by simp, h⟩
      · exact .inr ⟨o', by simp [ho'], hval⟩

/-- What is put under a text is found there. -/
theorem get?_put_same {text : Scalar} (htext : text.IsText) (v : α)
    (ms : List (Scalar × α)) :
    get? text (put text v ms) = some v := by
  induction ms with
  | nil => simp [get?_cons, htext.same_iff.mpr]
  | cons e rest ih =>
      obtain ⟨k, w⟩ := e
      by_cases hk : k.same text = true
      · simp [put_cons, hk, get?_cons]
      · simp [put_cons, hk, get?_cons, ih]

/-- Putting an entry under another name leaves what is under a text. -/
theorem get?_put_of_not_same {text name : Scalar}
    (htext : text.IsText) (hname : name ≠ text) (v : α) (ms : List (Scalar × α)) :
    get? text (put name v ms) = get? text ms := by
  induction ms with
  | nil =>
      have hsame : name.same text = false := by
        rw [Bool.eq_false_iff]
        exact fun h => hname (htext.same_iff.mp h)
      simp [get?_cons, hsame]
  | cons e rest ih =>
      obtain ⟨k, w⟩ := e
      by_cases hk : k.same name = true
      · have hks : k.same text = false := by
          rw [Bool.eq_false_iff]
          intro h
          obtain rfl := htext.same_iff.mp h
          exact hname (htext.same_left_iff.mp hk)
        simp [put_cons, hk, get?_cons, hks]
      · simp [put_cons, hk, get?_cons, ih]

/-- Putting several entries leaves what is under a text that none of them has. -/
theorem get?_putAll_of_absent {text : Scalar} (htext : text.IsText)
    {ms others : List (Scalar × α)} (h : get? text others = none) :
    get? text (putAll ms others) = get? text ms := by
  induction others generalizing ms with
  | nil => rfl
  | cons o rest ih =>
      obtain ⟨k, v⟩ := o
      have hk : k ≠ text := by
        rintro rfl
        simp [get?_cons, htext.same_iff.mpr] at h
      have hrest : get? text rest = none :=
        get?_eq_none_iff.mpr fun e he => get?_eq_none_iff.mp h e (by simp [he])
      have hput : get? text (putAll (put k v ms) rest) = get? text (put k v ms) :=
        ih hrest
      exact hput.trans (get?_put_of_not_same htext hk v ms)

/-- Putting several entries under different names puts each of them. -/
theorem get?_putAll_of_get? {s : String} {v : α} {ms others : List (Scalar × α)}
    (hdistinct : (names others).Nodup) (h : get? (.str s) others = some v) :
    get? (.str s) (putAll ms others) = some v := by
  induction others generalizing ms with
  | nil => simp at h
  | cons o rest ih =>
      obtain ⟨k, w⟩ := o
      rw [names, List.map_cons, List.nodup_cons] at hdistinct
      rw [get?_cons] at h
      by_cases hk : k.same (.str s) = true
      · obtain rfl := Scalar.same_str_iff.mp hk
        rw [if_pos hk] at h
        obtain rfl := Option.some.inj h
        have habsent : get? (.str s) rest = none := by
          refine get?_eq_none_iff.mpr fun e he => ?_
          rw [Bool.eq_false_iff, Ne, Scalar.same_str_iff]
          exact fun heq => hdistinct.1 (List.mem_map.mpr ⟨e, he, heq⟩)
        have hput : get? (.str s) (putAll (put (.str s) w ms) rest) =
            get? (.str s) (put (.str s) w ms) :=
          get?_putAll_of_absent (.whole s) habsent
        exact hput.trans (by rw [get?_put, if_pos rfl])
      · rw [if_neg hk] at h
        exact ih hdistinct.2 h

/-- The members that entries make have the values of these entries, under the same
names. -/
theorem mem_ofEntries {entries : List (Scalar × α)} {e : Scalar × α}
    (h : e ∈ ofEntries entries) :
    ∃ o ∈ entries, e.2 = o.2 ∧ (e.1 = o.1 ∨ e.1.same o.1 = true) := by
  rcases mem_putAll h with h | h
  · simp at h
  · exact h

theorem put_ne_nil (name : Scalar) (v : α) (ms : List (Scalar × α)) :
    put name v ms ≠ [] := by
  cases ms with
  | nil => simp
  | cons e rest =>
      rw [put_cons]
      split <;> simp

theorem putAll_ne_nil {ms : List (Scalar × α)} (h : ms ≠ [])
    (others : List (Scalar × α)) : putAll ms others ≠ [] := by
  induction others generalizing ms with
  | nil => exact h
  | cons e rest ih => exact ih (put_ne_nil e.1 e.2 ms)

/-- Entries make members, if there are any. -/
theorem ofEntries_ne_nil {entries : List (Scalar × α)} (h : entries ≠ []) :
    ofEntries entries ≠ [] := by
  obtain ⟨e, rest, rfl⟩ := List.exists_cons_of_ne_nil h
  exact putAll_ne_nil (put_ne_nil e.1 e.2 []) rest

/-- Members have different names. -/
def Distinct (ms : List (Scalar × α)) : Prop :=
  ms.Pairwise fun e e' => e.1.same e'.1 = false

/-- Entries with different names are members in that order. -/
theorem Distinct.ofEntries_eq {entries : List (Scalar × α)} (h : Distinct entries) :
    ofEntries entries = entries := by
  have hputAll : ∀ ms : List (Scalar × α), Distinct (ms ++ entries) →
      putAll ms entries = ms ++ entries := by
    clear h
    induction entries with
    | nil =>
        intro ms _
        rw [List.append_nil]
        rfl
    | cons e entries ih =>
        intro ms hms
        have habsent : get? e.1 ms = none :=
          get?_eq_none_iff.mpr fun e' he' =>
            (List.pairwise_append.mp hms).2.2 e' he' e List.mem_cons_self
        rw [List.append_cons] at hms ⊢
        rw [← put_of_absent e.2 habsent] at hms ⊢
        exact ih _ hms
  exact hputAll [] h

/-- Entries whose names are texts, all different, are members in that order. -/
theorem ofEntries_of_distinct {entries : List (Scalar × α)}
    (htext : ∀ e ∈ entries, e.1.IsText) (hdistinct : (names entries).Nodup) :
    ofEntries entries = entries := by
  refine Distinct.ofEntries_eq
    ((List.pairwise_map.mp hdistinct).imp_of_mem fun {e e'} _ he' hne => ?_)
  rw [Bool.eq_false_iff, Ne, (htext e' he').same_iff]
  exact hne

/-- So are fields under different names. -/
theorem ofEntries_fields {fields : List (String × α)} (h : (fields.map (·.1)).Nodup) :
    ofEntries (fields.map fun field => (Scalar.str field.1, field.2)) =
      fields.map fun field => (Scalar.str field.1, field.2) := by
  refine ofEntries_of_distinct (fun entry hentry => ?_) ?_
  · obtain ⟨field, -, rfl⟩ := List.mem_map.mp hentry
    exact .whole field.1
  · have hnames : names (fields.map fun field => (Scalar.str field.1, field.2)) =
        (fields.map (·.1)).map Scalar.str := by simp [names]
    rw [hnames]
    exact List.pairwise_map.mpr (h.imp fun hne heq => hne (Scalar.str.inj heq))

/-- Putting an entry under a text keeps names different. -/
theorem nodup_names_put {name : Scalar} {v : α} {ms : List (Scalar × α)}
    (hname : name.IsText) (h : (names ms).Nodup) : (names (put name v ms)).Nodup := by
  cases hs : get? name ms with
  | none =>
      rw [put_of_absent v hs, names, List.map_append, List.nodup_append]
      refine ⟨h, by simp, fun k hk other hother heq => ?_⟩
      obtain ⟨e, he, rfl⟩ := List.mem_map.mp hk
      obtain rfl : other = name := by simpa using hother
      have hne := get?_eq_none_iff.mp hs e he
      rw [hname.same_iff.mpr heq] at hne
      contradiction
  | some w =>
      have hnames : names (put name v ms) = names ms := by
        clear h
        induction ms with
        | nil => simp at hs
        | cons e rest ih =>
            obtain ⟨k, u⟩ := e
            by_cases hk : k.same name = true
            · simp [put_cons, names, hk]
            · rw [get?_cons, if_neg hk] at hs
              have hrest := ih hs
              rw [names, names] at hrest
              simp [put_cons, names, hk, hrest]
      rw [hnames]
      exact h

/-- The members that entries under texts make have different names. -/
theorem nodup_names_ofEntries {entries : List (Scalar × α)}
    (htext : ∀ e ∈ entries, e.1.IsText) :
    (names (ofEntries entries)).Nodup := by
  have hputAll : ∀ (ms : List (Scalar × α)), (names ms).Nodup →
      (names (putAll ms entries)).Nodup := by
    induction entries with
    | nil => exact fun ms hms => hms
    | cons e entries ih =>
        intro ms hms
        have hrest : ∀ e ∈ entries, e.1.IsText := fun e he => htext e (.tail _ he)
        exact ih hrest _ (nodup_names_put (htext e (.head _)) hms)
  exact hputAll [] List.nodup_nil

/-- Where names are different, what is an entry under a text is found under it. -/
theorem get?_of_mem {s : String} {v : α} {ms : List (Scalar × α)}
    (hdistinct : (names ms).Nodup) (h : (Scalar.str s, v) ∈ ms) :
    get? (.str s) ms = some v := by
  induction ms with
  | nil => simp at h
  | cons e rest ih =>
      obtain ⟨k, w⟩ := e
      rw [names, List.map_cons, List.nodup_cons] at hdistinct
      rw [get?_cons]
      rcases List.mem_cons.mp h with heq | hrest
      · obtain ⟨rfl, rfl⟩ := Prod.mk.inj heq
        simp
      · have hk : k ≠ .str s := by
          rintro rfl
          exact hdistinct.1 (List.mem_map.mpr ⟨_, hrest, rfl⟩)
        rw [if_neg fun hsame => hk (Scalar.same_str_iff.mp hsame)]
        exact ih hdistinct.2 hrest

/-! ## Taking an entry away -/

@[simp] theorem erase_nil (name : Scalar) :
    erase name ([] : List (Scalar × α)) = [] := rfl

theorem erase_cons (name k : Scalar) (v : α) (rest : List (Scalar × α)) :
    erase name ((k, v) :: rest) = if k.same name then erase name rest else (k, v) ::
      erase name rest := by
  rw [erase, List.filter_cons]
  cases k.same name <;> rfl

/-- What is found under a text after the entries under a text were taken away. -/
@[simp] theorem get?_erase (a b : String) (ms : List (Scalar × α)) :
    get? (.str a) (erase (.str b) ms) = if a = b then none else get? (.str a) ms := by
  induction ms with
  | nil => simp
  | cons e rest ih =>
      obtain ⟨k, w⟩ := e
      by_cases hk : k.same (.str b) = true
      · obtain rfl := Scalar.same_str_iff.mp hk
        by_cases hab : a = b
        · simp_all [erase_cons]
        · simp_all [erase_cons, get?_cons, Ne.symm hab]
      · by_cases hka : k.same (.str a) = true
        · obtain rfl := Scalar.same_str_iff.mp hka
          have hab : a ≠ b := by rintro rfl; simp at hk
          simp [erase_cons, get?_cons, hab]
        · simp [erase_cons, hk, get?_cons, hka, ih]

/-- What is found under a text among entries that were chosen by their names. -/
theorem get?_filter (p : Scalar → Bool) (s : String) (ms : List (Scalar × α)) :
    get? (.str s) (ms.filter fun e => p e.1) =
      if p (.str s) then get? (.str s) ms else none := by
  induction ms with
  | nil => simp
  | cons e rest ih =>
      obtain ⟨k, w⟩ := e
      rw [List.filter_cons]
      by_cases hk : k.same (.str s) = true
      · obtain rfl := Scalar.same_str_iff.mp hk
        by_cases hp : p (.str s) = true
        · simp [hp, get?_cons]
        · simpa [hp] using ih
      · by_cases hp : p k = true
        · simp only [hp, if_true, get?_cons, if_neg hk, ih]
        · simp only [if_neg hp, get?_cons, if_neg hk, ih]

/-- What is found under a name is found among chosen entries, if they are chosen by
their values and it is one of them. -/
theorem get?_filter_of_get? {p : Scalar × α → Bool} {name : Scalar} {v : α}
    {ms : List (Scalar × α)} (h : get? name ms = some v) (hp : ∀ k, p (k, v) = true) :
    get? name (ms.filter p) = some v := by
  induction ms with
  | nil => simp at h
  | cons e rest ih =>
      obtain ⟨k, w⟩ := e
      rw [get?_cons] at h
      by_cases hk : k.same name = true
      · rw [if_pos hk] at h
        obtain rfl := Option.some.inj h
        simp [hp, get?_cons, hk]
      · rw [if_neg hk] at h
        cases hchosen : p (k, w) <;> simp [hchosen, get?_cons, hk, ih h]

/-- Where no entry has a name, taking it away changes nothing. -/
theorem erase_of_absent {name : Scalar} {ms : List (Scalar × α)}
    (h : get? name ms = none) :
    erase name ms = ms := by
  rw [erase, List.filter_eq_self]
  intro e he
  simp [get?_eq_none_iff.mp h e he]

theorem mem_erase {name : Scalar} {ms : List (Scalar × α)} {e : Scalar × α}
    (h : e ∈ erase name ms) : e ∈ ms :=
  (List.mem_filter.mp h).1

/-- Putting an entry and taking away another one may be exchanged. -/
theorem erase_put_of_ne {a b : String} (hab : a ≠ b) (v : α) (ms : List (Scalar × α)) :
    erase (.str a) (put (.str b) v ms) = put (.str b) v (erase (.str a) ms) := by
  induction ms with
  | nil => simp [erase_cons, Ne.symm hab]
  | cons e rest ih =>
      obtain ⟨k, w⟩ := e
      by_cases hb : k.same (.str b) = true
      · obtain rfl := Scalar.same_str_iff.mp hb
        simp [erase_cons, put_cons, Ne.symm hab]
      · by_cases ha : k.same (.str a) = true
        · simp [erase_cons, put_cons, hb, ha, ih]
        · simp [erase_cons, put_cons, hb, ha, ih]

/-- Taking away what was only just added restores the members. -/
theorem erase_put_of_absent {name : String} {ms : List (Scalar × α)} (v : α)
    (h : get? (.str name) ms = none) :
    erase (.str name) (put (.str name) v ms) = ms := by
  have herase := erase_of_absent h
  rw [put_of_absent v h, erase, List.filter_append]
  rw [erase] at herase
  simp [herase]

/-! ## Renaming -/

/-- The members after renaming are earlier entries, but for the value that was
renamed. -/
theorem mem_rename? {old new : Scalar} {ms ns : List (Scalar × α)}
    (h : rename? old new ms = some ns) {e : Scalar × α} (he : e ∈ ns) :
    (∃ o ∈ ms, e.2 = o.2 ∧ (e.1 = o.1 ∨ e.1.same o.1 = true)) ∨
      (get? old ms = some e.2 ∧ (e.1 = new ∨ e.1.same new = true)) := by
  obtain ⟨value, hvalue, rfl⟩ := Option.map_eq_some_iff.mp h
  obtain ⟨o, ho, hval, hname⟩ := mem_ofEntries he
  obtain ⟨⟨k, v⟩, hkv, hmade⟩ := List.mem_filterMap.mp ho
  dsimp only at hmade
  split at hmade
  · obtain rfl := Option.some.inj hmade
    exact .inr ⟨hval ▸ hvalue, hname⟩
  · split at hmade
    · simp at hmade
    · obtain rfl := Option.some.inj hmade
      exact .inl ⟨(k, v), hkv, hval, hname⟩

/-- Where an entry was renamed, it still is under its new name. -/
theorem rename?_ne_nil {old new : Scalar} {ms ns : List (Scalar × α)}
    (h : rename? old new ms = some ns) : ns ≠ [] := by
  obtain ⟨value, hvalue, rfl⟩ := Option.map_eq_some_iff.mp h
  obtain ⟨k, hk, hmem⟩ := mem_of_get? hvalue
  refine ofEntries_ne_nil fun hempty => ?_
  have hlost := List.filterMap_eq_nil_iff.mp hempty (k, value) hmem
  simp [hk] at hlost

/-! ## A property of every entry -/

/-- Every entry has a property. -/
def All (P : Scalar → α → Prop) (ms : List (Scalar × α)) : Prop :=
  ∀ e ∈ ms, P e.1 e.2

section

variable {P : Scalar → α → Prop} {ms : List (Scalar × α)}

theorem All.of_get? (h : All P ms) {s : String} {v : α}
    (hv : get? (.str s) ms = some v) : P (.str s) v :=
  h _ (mem_of_get?_str hv)

theorem All.put (h : All P ms) {s : String} {v : α} (hv : P (.str s) v) :
    All P (Members.put (.str s) v ms) := by
  intro e he
  rcases mem_put_str he with he | rfl
  · exact h e he
  · exact hv

/-- Putting a value that has the property under any name. -/
theorem All.put_of_forall (h : All P ms) (name : Scalar) {v : α} (hv : ∀ k, P k v) :
    All P (Members.put name v ms) := by
  intro e he
  rcases mem_put he with he | ⟨heq, -⟩
  · exact h e he
  · exact heq ▸ hv e.1

theorem All.erase (h : All P ms) (name : Scalar) : All P (Members.erase name ms) :=
  fun e he => h e (mem_erase he)

/-- A property that does not tell a name from another name that is the same. -/
def RespectsNames (P : Scalar → α → Prop) : Prop :=
  ∀ k k' v, k.same k' = true → P k' v → P k v

theorem RespectsNames.of_eq_or_same (hP : RespectsNames P) {k k' : Scalar} {v : α}
    (hk : k = k' ∨ k.same k' = true) (h : P k' v) : P k v := by
  rcases hk with rfl | hk
  · exact h
  · exact hP _ _ _ hk h

/-- Renaming keeps what holds of all entries, if the renamed value has it
under its new name. -/
theorem All.rename? (hP : RespectsNames P) (h : All P ms) {old new : String}
    {ns : List (Scalar × α)} (hns : Members.rename? (.str old) (.str new) ms = some ns)
    (hnew : ∀ v, P (.str old) v → P (.str new) v) : All P ns := by
  intro e he
  rcases mem_rename? hns he with ⟨o, ho, hval, hname⟩ | ⟨hget, hname⟩
  · exact hP.of_eq_or_same hname (hval ▸ h o ho)
  · exact hP.of_eq_or_same hname (hnew _ (h.of_get? hget))

end

/-! ## Changing values -/

/-- Changing the value under a name is reading it and putting what became of it. -/
theorem modifyM_eq (name : Scalar) (f : α → Except Fault α) (ms : List (Scalar × α)) :
    modifyM name f ms =
      match get? name ms with
      | some v => (fun w => put name w ms) <$> f v
      | none => .ok ms := by
  induction ms with
  | nil => rfl
  | cons e rest ih =>
      obtain ⟨k, v⟩ := e
      by_cases hk : k.same name = true
      · simp only [modifyM, get?_cons, put_cons, if_pos hk]
        cases f v <;> rfl
      · simp only [modifyM, get?_cons, put_cons, if_neg hk, ih]
        cases get? name rest with
        | none => rfl
        | some w =>
            dsimp only
            cases f w <;> rfl

/-- Changing the value under a name comes to an end if there is nothing or the change of
it comes to an end. -/
theorem modifyM_succeeds_iff {name : Scalar} {f : α → Except Fault α}
    {ms : List (Scalar × α)} :
    Succeeds (modifyM name f ms) ↔ ∀ v, get? name ms = some v → Succeeds (f v) := by
  rw [modifyM_eq]
  cases hget : get? name ms with
  | none => simp [succeeds_ok]
  | some v => simp [succeeds_map]

/-- Changing the value under a text leaves what is under other texts. -/
theorem get?_modifyM_of_ne {a b : String} (hab : a ≠ b) {f : α → Except Fault α}
    {ms ns : List (Scalar × α)} (h : modifyM (.str b) f ms = .ok ns) :
    get? (.str a) ns = get? (.str a) ms := by
  rw [modifyM_eq] at h
  split at h
  · obtain ⟨w, _, rfl⟩ := map_eq_ok.mp h
    simp [hab]
  · rw [Except.ok.inj h]

theorem exists_of_rel_left {β : Type} {R : α → β → Prop} {v : α} {after : Option β}
    (h : Option.Rel R (some v) after) :
    ∃ w, after = some w ∧ R v w := by
  cases h with
  | some hvw => exact ⟨_, rfl, hvw⟩

theorem exists_of_rel_right {β : Type} {R : α → β → Prop} {w : β} {before : Option α}
    (h : Option.Rel R before (some w)) : ∃ v, before = some v ∧ R v w := by
  cases h with
  | some hvw => exact ⟨_, rfl, hvw⟩

/-- What is under the name is changed where there is something. -/
theorem rel_get?_modifyM {a : String} {f : α → Except Fault α}
    {ms ns : List (Scalar × α)} (h : modifyM (.str a) f ms = .ok ns) :
    Option.Rel (fun v w => f v = .ok w) (get? (.str a) ms) (get? (.str a) ns) := by
  rw [modifyM_eq] at h
  split at h
  · obtain ⟨w, hw, rfl⟩ := map_eq_ok.mp h
    rw [‹get? _ ms = _›, get?_put, if_pos rfl]
    exact .some hw
  · obtain rfl := Except.ok.inj h
    rw [‹get? _ ms = _›]
    exact .none

/-- What is found under a text after the value there was changed was made from
what was there. -/
theorem get?_modifyM_self {a : String} {f : α → Except Fault α}
    {ms ns : List (Scalar × α)} {w : α} (h : modifyM (.str a) f ms = .ok ns)
    (hw : get? (.str a) ns = some w) :
    ∃ v, get? (.str a) ms = some v ∧ f v = .ok w := by
  have hrel := rel_get?_modifyM h
  rw [hw] at hrel
  obtain ⟨v, hv, hvw⟩ := exists_of_rel_right hrel
  exact ⟨v, hv, hvw⟩

/-- A value that a change leaves alone is left in its members. -/
theorem modifyM_fixed {name : Scalar} {f : α → Except Fault α} {ms : List (Scalar × α)}
    (h : ∀ v, get? name ms = some v → f v = .ok v) : modifyM name f ms = .ok ms := by
  rw [modifyM_eq]
  split
  · rw [h _ ‹_›]
    simp [Functor.map, Except.map, put_of_get? ‹_›]
  · rfl

/-! ## Members that agree name by name -/

/-- Members with the same names in the same order, whose values stand in a relation. -/
def Aligned (R : Scalar → α → β → Prop) :
    List (Scalar × α) → List (Scalar × β) → Prop :=
  List.Forall₂ fun e e' => e.1 = e'.1 ∧ R e.1 e.2 e'.2

namespace Aligned

variable {R : Scalar → α → β → Prop} {ms : List (Scalar × α)} {ns : List (Scalar × β)}

/-- What is found on the left is found on the right, in the relation. -/
theorem get?_some (h : Aligned R ms ns) {name : Scalar} {v : α}
    (hv : get? name ms = some v) :
    ∃ k w, k.same name = true ∧ get? name ns = some w ∧ R k v w := by
  induction h with
  | nil => simp at hv
  | @cons e e' ms ns he _ ih =>
      obtain ⟨k, x⟩ := e
      obtain ⟨k', y⟩ := e'
      obtain ⟨rfl, hR⟩ := he
      rw [get?_cons] at hv
      by_cases hk : k.same name = true
      · rw [if_pos hk] at hv
        obtain rfl := Option.some.inj hv
        exact ⟨k, y, hk, by simp [get?_cons, hk], hR⟩
      · rw [if_neg hk] at hv
        obtain ⟨k', w, hk', hw, hRw⟩ := ih hv
        exact ⟨k', w, hk', by simp [get?_cons, hk, hw], hRw⟩

/-- What is missing on the left is missing on the right. -/
theorem get?_none (h : Aligned R ms ns) {name : Scalar} (hv : get? name ms = none) :
    get? name ns = none := by
  induction h with
  | nil => rfl
  | @cons e e' ms ns he _ ih =>
      obtain ⟨k, x⟩ := e
      obtain ⟨k', y⟩ := e'
      obtain ⟨rfl, -⟩ := he
      rw [get?_cons] at hv
      by_cases hk : k.same name = true
      · simp [hk] at hv
      · rw [if_neg hk] at hv
        simp [get?_cons, hk, ih hv]

/-- Every entry on the right stands for one on the left. -/
theorem mem_right (h : Aligned R ms ns) {e : Scalar × β} (he : e ∈ ns) :
    ∃ v, (e.1, v) ∈ ms ∧ R e.1 v e.2 := by
  induction h with
  | nil => simp at he
  | @cons d d' ms ns hd _ ih =>
      rcases List.mem_cons.mp he with rfl | he
      · obtain ⟨hname, hR⟩ := hd
        exact ⟨d.2, by simp [← hname], hname ▸ hR⟩
      · obtain ⟨v, hv, hR⟩ := ih he
        exact ⟨v, by simp [hv], hR⟩

/-- Members are aligned with themselves if every value is related to itself. -/
theorem refl {R : Scalar → α → α → Prop} (h : ∀ e ∈ ms, R e.1 e.2 e.2) :
    Aligned R ms ms := by
  induction ms with
  | nil => exact .nil
  | cons e rest ih =>
      exact .cons ⟨rfl, h e (by simp)⟩ (ih fun e he => h e (by simp [he]))

/-- Alignment is kept by a weaker relation. -/
theorem imp {S : Scalar → α → β → Prop} (h : Aligned R ms ns)
    (hRS : ∀ k v w, R k v w → S k v w) :
    Aligned S ms ns :=
  List.Forall₂.imp (fun _ _ he => ⟨he.1, hRS _ _ _ he.2⟩) h

/-- Alignment is kept by a relation that follows for the values that there are. -/
theorem imp_of_mem {S : Scalar → α → β → Prop} (h : Aligned R ms ns)
    (hRS : ∀ k v w, (k, v) ∈ ms → R k v w → S k v w) : Aligned S ms ns := by
  induction h with
  | nil => exact .nil
  | @cons e e' ms ns he _ ih =>
      exact .cons ⟨he.1, hRS _ _ _ List.mem_cons_self he.2⟩
        (ih fun k v w hmem => hRS k v w (List.mem_cons_of_mem _ hmem))

/-- Members that are aligned with the same ones are aligned. -/
theorem trans {γ : Type} {S : Scalar → β → γ → Prop} {T : Scalar → α → γ → Prop}
    {os : List (Scalar × γ)} (h : Aligned R ms ns) (h' : Aligned S ns os)
    (hT : ∀ k u v w, R k u v → S k v w → T k u w) : Aligned T ms os := by
  induction h generalizing os with
  | nil =>
      cases h'
      exact .nil
  | cons he _ ih =>
      cases h' with
      | cons he' hrest' =>
          exact .cons ⟨he.1.trans he'.1, hT _ _ _ _ he.2 (he.1 ▸ he'.2)⟩ (ih hrest')

/-- Alignment may be read from the other side. -/
theorem flip (h : Aligned R ms ns) : Aligned (fun k w v => R k v w) ns ms := by
  refine (List.Forall₂.flip h).imp fun e e' he => ?_
  exact ⟨he.1.symm, he.1 ▸ he.2⟩

theorem names_eq (h : Aligned R ms ns) : names ns = names ms := by
  induction h with
  | nil => rfl
  | cons he _ ih => simp only [names, List.map_cons, he.1] at ih ⊢; rw [ih]

/-- Putting related values under the same name keeps members aligned. -/
theorem put (h : Aligned R ms ns) {name : Scalar} {v : α} {w : β}
    (hvw : ∀ k, k = name ∨ k.same name = true → R k v w) :
    Aligned R (Members.put name v ms) (Members.put name w ns) := by
  induction h with
  | nil => exact .cons ⟨rfl, hvw name (.inl rfl)⟩ .nil
  | @cons e e' ms ns he hrest ih =>
      obtain ⟨k, x⟩ := e
      obtain ⟨k', y⟩ := e'
      obtain ⟨rfl, hR⟩ := he
      by_cases hk : k.same name = true
      · simp only [put_cons, if_pos hk]
        exact .cons ⟨rfl, hvw k (.inr hk)⟩ hrest
      · simp only [put_cons, if_neg hk]
        exact .cons ⟨rfl, hR⟩ ih

/-- Entries that are chosen by their names are aligned. -/
theorem filter (h : Aligned R ms ns) (p : Scalar → Bool) :
    Aligned R (ms.filter fun e => p e.1) (ns.filter fun e => p e.1) := by
  induction h with
  | nil => exact .nil
  | @cons e e' ms ns he hrest ih =>
      rw [List.filter_cons, List.filter_cons, ← he.1]
      split
      · exact .cons he ih
      · exact ih

/-- Members with values for which there are related ones have members aligned with
them. -/
theorem exists_of_forall (R : Scalar → α → β → Prop) (h : ∀ e ∈ ms, ∃ w, R e.1 e.2 w) :
    ∃ ns, Aligned R ms ns := by
  induction ms with
  | nil => exact ⟨[], .nil⟩
  | cons e rest ih =>
      obtain ⟨w, hw⟩ := h e (by simp)
      obtain ⟨ns, hns⟩ := ih fun e he => h e (by simp [he])
      exact ⟨(e.1, w) :: ns, .cons ⟨rfl, hw⟩ hns⟩

end Aligned

end Members

end ApiWorkbench
