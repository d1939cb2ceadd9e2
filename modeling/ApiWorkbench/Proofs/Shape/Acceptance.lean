import ApiWorkbench.Proofs.Members
import ApiWorkbench.Shape.Basic

/-!
# What a shape accepts

A shape accepts a value that has no problems. What this comes to is said here for each
form of shape, in terms of the parts of the value and without the places that problems
are reported under: a list is accepted item by item, a map entry by entry, and an object
of a kind field by field.

For kinds without second names for their fields and without further rules
(`Kinds.IsPlain`) acceptance of an object is `HasShape`, and that is kept by whatever
puts a value the fields accept, or takes away what is not required.

## Main results

* `accepts_nullable`, `accepts_list`, `accepts_map`, `accepts_kind`: what the forms of
  shapes accept.
* `accepts_object`, `accepted_read`: what is accepted as an object of any kind, and what
  its fields read.
* `accepted_member`: what an object of any kind has under the name of a field.
* `HasShape.put`, `HasShape.erase`, `HasShape.of_aligned`: changes that keep an
  object in shape.
-/

namespace ApiWorkbench.Shape

variable {K : Type} {kinds : Kinds K}

/-- Nothing is wrong with a value that should have a shape. -/
def Accepts (kinds : Kinds K) (shape : Shape K) (v : Value) : Prop :=
  check kinds v shape = []

instance (kinds : Kinds K) (shape : Shape K) (v : Value) :
    Decidable (Accepts kinds shape v) :=
  inferInstanceAs (Decidable (check kinds v shape = []))

/-! ## Checks of parts -/

theorem itemChecks_eq_map (xs : List Value) :
    itemChecks kinds xs = xs.map (check kinds) := by
  induction xs with
  | nil => rfl
  | cons x xs ih => rw [itemChecks, ih, List.map_cons]

theorem memberChecks_eq_map (ms : Members) :
    memberChecks kinds ms = ms.map fun e => (e.1, check kinds e.2) := by
  induction ms with
  | nil => rfl
  | cons e ms ih => rw [memberChecks, ih, List.map_cons]

/-- The check of a member is found where the member is. -/
theorem get?_memberChecks (name : Scalar) (ms : Members) :
    Members.get? name (memberChecks kinds ms) =
      (Members.get? name ms).map (check kinds) := by
  induction ms with
  | nil => rfl
  | cons e ms ih =>
      obtain ⟨k, v⟩ := e
      rw [memberChecks, Members.get?_cons, Members.get?_cons]
      split
      · rfl
      · exact ih

theorem itemProblems_eq_nil {item : Shape K} {position : Nat}
    {checks : List (Check K)} :
    itemProblems item position checks = [] ↔ ∀ c ∈ checks, c item = [] := by
  induction checks generalizing position with
  | nil => simp [itemProblems]
  | cons c checks ih =>
      rw [itemProblems, List.append_eq_nil_iff, List.map_eq_nil_iff, ih]
      simp

/-- A nullable shape accepts null, and what the shape under it accepts. -/
theorem accepts_nullable {shape : Shape K} {v : Value} :
    Accepts kinds (.nullable shape) v ↔ v.isNull = true ∨ Accepts kinds shape v := by
  by_cases hnull : v.isNull = true
  · cases v with
    | _ => simp [Accepts, check, problemsOf, hnull]
  · cases v with
    | _ => simp [Accepts, check, problemsOf, hnull]

/-! ## Plain kinds -/

/-- A kind whose fields have one name each and that has no further rules. -/
structure Kinds.IsPlain (kinds : Kinds K) (k : K) : Prop where
  alternative : ∀ f ∈ kinds.fields k, f.alternative = none
  further : ∀ ms, kinds.further k ms = []

/-- A field that is there is accepted, and one that is not there is not required. -/
structure FieldAccepted (kinds : Kinds K) (f : Field K) (ms : Members) : Prop where
  value : ∀ v, Members.get? f.name ms = some v → Accepts kinds f.shape v
  required : Members.get? f.name ms = none → f.required = false

/-- Every name is a text. -/
def TextNames (ms : Members) : Prop :=
  Members.All (fun name _ => ∃ s, name = .str s) ms

/-- The names and the fields of an object are as a kind asks. -/
structure HasShape (kinds : Kinds K) (k : K) (ms : Members) : Prop where
  names : TextNames ms
  fields : ∀ f ∈ kinds.fields k, FieldAccepted kinds f ms

/-! ## Forms of shapes -/

/-- A list is accepted item by item. -/
theorem accepts_list {item : Shape K} {xs : List Value} :
    Accepts kinds (.list item) (.list xs) ↔ ∀ x ∈ xs, Accepts kinds item x := by
  rw [Accepts, check, problemsOf]
  simp only [itemProblems_eq_nil, itemChecks_eq_map, List.mem_map, forall_exists_index,
    and_imp, forall_apply_eq_imp_iff₂]
  rfl

/-- A pair is accepted as the list of its parts. -/
theorem accepts_pair {item : Shape K} {a b : Value} :
    Accepts kinds (.list item) (.pair a b) ↔ Accepts kinds item a ∧
      Accepts kinds item b := by
  rw [Accepts, check, problemsOf]
  simp only [itemProblems_eq_nil, List.mem_cons, List.not_mem_nil, or_false,
    forall_eq_or_imp, forall_eq]
  rfl

/-- Whatever is accepted as a list has acceptable items. -/
theorem accepts_items {item : Shape K} {v : Value}
    {xs : List Value} (h : Accepts kinds (.list item) v) (hxs : v.items = .ok xs) :
    ∀ x ∈ xs, Accepts kinds item x := by
  cases v with
  | list ys =>
      obtain rfl := Except.ok.inj hxs
      exact accepts_list.mp h
  | pair a b =>
      obtain rfl := Except.ok.inj hxs
      simpa using accepts_pair.mp h
  | set names =>
      obtain rfl := Except.ok.inj hxs
      rw [Accepts, check, problemsOf] at h
      intro x hx
      obtain ⟨name, hname, rfl⟩ := List.mem_map.mp hx
      have hcheck := itemProblems_eq_nil.mp h _ (List.mem_map_of_mem hname)
      rwa [Accepts, check]
  | _ => simp [Accepts, check, problemsOf] at h

/-- A name of a map that counts as a text. -/
def NameAccepted (name : Scalar) : Prop :=
  (toTextOrNumber (.scalar name : Value)).problems = []

/-- Only a scalar is accepted as a text. -/
theorem scalar_of_accepts_text {v : Value} (h : Accepts kinds .text v) :
    ∃ s, v = .scalar s := by
  cases v with
  | scalar s => exact ⟨s, rfl⟩
  | _ =>
      simp [Accepts, check, problemsOf, toTextOrNumber, toText, Validated.fail,
        Validated.problems] at h

/-- What is accepted as a text can be read as one. -/
theorem exists_of_accepts_text {v : Value} (h : Accepts kinds .text v) :
    ∃ text, toTextOrNumber v = .valid text := by
  obtain ⟨s, rfl⟩ := scalar_of_accepts_text h
  have hproblems : (toTextOrNumber (.scalar s : Value)).problems = [] := h
  cases s with
  | str text => exact ⟨text, rfl⟩
  | torn text => exact ⟨text.shown, rfl⟩
  | float x => exact ⟨x.literal, rfl⟩
  | int n =>
      unfold toTextOrNumber at hproblems ⊢
      by_cases hn : isWritable n = true
      · exact ⟨toString n, if_pos hn⟩
      · simp [hn, Validated.fail, Validated.problems] at hproblems
  | bytes b =>
      unfold toTextOrNumber toText at hproblems ⊢
      cases hb : Text.utf8? b with
      | some text => exact ⟨text, by simp [hb]⟩
      | none => simp [hb, Validated.fail, Validated.problems] at hproblems
  | _ => simp [toTextOrNumber, toText, Validated.fail, Validated.problems] at hproblems

/-- A name that counts as a text can be written. -/
theorem NameAccepted.isWritable {name : Scalar} (h : NameAccepted name) :
    name.isWritable = true := by
  cases name with
  | int n =>
      by_contra hn
      simp [Scalar.isWritable] at hn
      simp [NameAccepted, toTextOrNumber, hn, Validated.fail, Validated.problems] at h
  | pair a b =>
      simp [NameAccepted, toTextOrNumber, toText, Validated.fail, Validated.problems]
        at h
  | _ => rfl

/-- A map is accepted entry by entry. -/
theorem accepts_map {value : Shape K} {ms : Members} :
    Accepts kinds (.map value) (.object ms) ↔ ∀ e ∈ ms, NameAccepted e.1 ∧
      Accepts kinds value e.2 := by
  rw [Accepts, check, problemsOf]
  simp only [entryProblems, memberChecks_eq_map, List.flatMap_eq_nil_iff, List.mem_map,
    forall_exists_index, and_imp, forall_apply_eq_imp_iff₂, List.append_eq_nil_iff,
    List.map_eq_nil_iff]
  rfl

/-- Only an object is accepted as a map. -/
theorem object_of_accepts_map {value : Shape K} {v : Value}
    (h : Accepts kinds (.map value) v) :
    ∃ ms, v = .object ms := by
  cases v with
  | marked mark ms => exact ⟨ms, rfl⟩
  | _ => simp [Accepts, check, problemsOf] at h

/-- Only an object is accepted as one of a kind. -/
theorem object_of_accepts_kind {k : K} {v : Value} (h : Accepts kinds (.kind k) v) :
    ∃ ms, v = .object ms := by
  cases v with
  | marked mark ms => exact ⟨ms, rfl⟩
  | _ => simp [Accepts, check, problemsOf, kindProblems] at h

private theorem choiceProblems_eq_map (v : Value) (items : List (Check K))
    (members : List (Scalar × Check K)) (choices : List (String × Shape K)) :
    choiceProblems kinds v items members choices =
      choices.map fun choice =>
        (problemsOf kinds v items members choice.2).map (·.under choice.1) := by
  induction choices with
  | nil => rfl
  | cons choice rest ih => rw [choiceProblems, ih, List.map_cons]

/-- A value that is accepted as one of several is accepted as one of them. -/
theorem exists_of_accepts_either {choices : List (String × Shape K)}
    (hne : choices ≠ []) {v : Value} (h : Accepts kinds (.either choices) v) :
    ∃ choice ∈ choices, Accepts kinds choice.2 v := by
  obtain ⟨items, members, hcheck⟩ : ∃ items members, ∀ shape,
      check kinds v shape = problemsOf kinds v items members shape := by
    cases v <;> exact ⟨_, _, fun _ => rfl⟩
  simp only [Accepts, hcheck] at h ⊢
  rw [problemsOf, choiceProblems_eq_map] at h
  by_contra hnone
  simp only [not_exists, not_and] at hnone
  have hany : ¬ (choices.map fun choice =>
      (problemsOf kinds v items members choice.2).map (·.under choice.1)).any
        List.isEmpty = true := by
    simpa using hnone
  rw [if_neg hany, List.flatten_eq_nil_iff] at h
  obtain ⟨choice, hchoice⟩ := List.exists_mem_of_ne_nil choices hne
  exact hnone choice hchoice
    (List.map_eq_nil_iff.mp (h _ (List.mem_map_of_mem hchoice)))

/-- Only one of the words is accepted as one. -/
theorem exists_of_accepts_word {words : List String} {v : Value}
    (h : Accepts kinds (.word words) v) :
    ∃ word ∈ words, v = .str word := by
  obtain ⟨items, members, hcheck⟩ : ∃ items members,
      check kinds v (.word words) = problemsOf kinds v items members (.word words) := by
    cases v <;> exact ⟨_, _, rfl⟩
  rw [Accepts, hcheck, problemsOf] at h
  unfold toWord at h
  split at h
  · split at h
    · rename_i s _ word hword
      obtain ⟨named, hnamed, rfl⟩ := List.mem_map.mp (List.mem_of_find?_eq_some hword)
      have hsame := List.find?_some hword
      exact ⟨named, hnamed, congrArg Tree.str (eq_of_beq hsame).symm⟩
    · simp [Validated.fail, Validated.problems] at h
  · simp [Validated.fail, Validated.problems] at h
  · simp [Validated.fail, Validated.problems] at h

/-! ## Objects of any kind -/

/-- An object of a kind has no problems if its fields and its names have none; a torn
name is no whole text. -/
theorem memberProblems_eq_nil {fields : List (Field K)}
    {members : List (Scalar × Check K)} :
    memberProblems fields members = [] ↔ fieldProblems fields members = [] ∧
      strictNameProblems members = [] := by
  rw [memberProblems]
  split
  · rename_i htorn
    obtain ⟨⟨name, check⟩, hmem, htorn⟩ := List.any_eq_true.mp htorn
    refine iff_of_false (List.cons_ne_nil _ _) fun ⟨_, hnames⟩ => ?_
    have hname := List.filterMap_eq_nil_iff.mp hnames _ hmem
    cases name with
    | torn text => simp at hname
    | _ => exact absurd htorn Bool.false_ne_true
  · exact List.append_eq_nil_iff

/-- An object of a kind is accepted if its fields and its names are, and no further
rule is broken. -/
theorem accepts_object {k : K} {ms : Members} : Accepts kinds (.kind k) (.object ms) ↔
    fieldProblems (kinds.fields k) (memberChecks kinds ms) = [] ∧
      strictNameProblems (memberChecks kinds ms) = [] ∧
      kinds.further k ms = [] := by
  rw [Accepts, check, problemsOf, kindProblems]
  constructor
  · intro h
    split at h
    · rename_i hnil
      obtain ⟨hfields, hnames⟩ := memberProblems_eq_nil.mp hnil
      exact ⟨hfields, hnames, List.map_eq_nil_iff.mp h⟩
    · contradiction
  · rintro ⟨hfields, hnames, hfurther⟩
    rw [memberProblems_eq_nil.mpr ⟨hfields, hnames⟩, hfurther]
    rfl

/-- What a field reads from an object: what is under its name, or else under
its second name. -/
def Field.member? (f : Field K) (ms : Members) : Option Value :=
  match Members.get? f.name ms with
  | some v => some v
  | none => f.alternative.bind fun other => Members.get? other ms

theorem Field.member?_of_name {f : Field K} {ms : Members} (h : f.alternative = none) :
    f.member? ms = Members.get? f.name ms := by
  rw [Field.member?, h]
  cases Members.get? f.name ms <;> rfl

theorem fieldCheck_memberChecks (f : Field K) (ms : Members) :
    (fieldCheck f (memberChecks kinds ms)).map (·.2) =
      (f.member? ms).map (check kinds) := by
  rw [fieldCheck, Field.member?, get?_memberChecks]
  cases Members.get? f.name ms with
  | some v => rfl
  | none =>
      cases f.alternative with
      | none => rfl
      | some other =>
          dsimp only [Option.map_none]
          rw [get?_memberChecks, Option.bind_some]
          cases Members.get? other ms with
          | none => rfl
          | some v => rfl

/-- What a field reads from an object is accepted, and if it reads nothing,
nothing is required. -/
theorem accepted_read {k : K} {ms : Members}
    (h : Accepts kinds (.kind k) (.object ms)) {f : Field K} (hf : f ∈ kinds.fields k) :
    (∀ v, f.member? ms = some v → Accepts kinds f.shape v) ∧
      (f.member? ms = none → f.required = false) := by
  have hproblems := List.flatMap_eq_nil_iff.mp (accepts_object.mp h).1 f hf
  have hread := @fieldCheck_memberChecks K kinds f ms
  cases hfield : fieldCheck f (memberChecks kinds ms) with
  | none =>
      rw [hfield] at hproblems hread
      have hnone : f.member? ms = none := by simpa using hread.symm
      refine ⟨fun v hv => ?_, fun _ => ?_⟩
      · rw [hnone] at hv
        contradiction
      · simpa using hproblems
  | some found =>
      obtain ⟨name, found⟩ := found
      rw [hfield] at hproblems hread
      obtain ⟨v, hv, hfound⟩ : ∃ v, f.member? ms = some v ∧ check kinds v = found := by
        simpa using hread.symm
      refine ⟨fun w hw => ?_, fun hnone => ?_⟩
      · obtain rfl := Option.some.inj (hv.symm.trans hw)
        rw [Accepts, hfound]
        exact List.map_eq_nil_iff.mp hproblems
      · rw [hv] at hnone
        contradiction

/-- A required field reads something that is accepted. -/
theorem exists_of_required {k : K} {ms : Members}
    (h : Accepts kinds (.kind k) (.object ms)) {f : Field K} (hf : f ∈ kinds.fields k)
    (hrequired : f.required = true) :
    ∃ v, f.member? ms = some v ∧ Accepts kinds f.shape v := by
  obtain ⟨hread, hmissing⟩ := accepted_read h hf
  cases hmember : f.member? ms with
  | none =>
      rw [hmissing hmember] at hrequired
      contradiction
  | some v => exact ⟨v, rfl, hread v hmember⟩

/-- What stands under the name of a field is accepted there. -/
theorem accepted_member {k : K} {ms : Members}
    (h : Accepts kinds (.kind k) (.object ms)) {f : Field K} (hf : f ∈ kinds.fields k)
    {v : Value} (hv : Members.get? f.name ms = some v) : Accepts kinds f.shape v := by
  refine (accepted_read h hf).1 v ?_
  rw [Field.member?, hv]

/-! ## Objects of plain kinds -/

private theorem fieldProblems_eq_nil {fields : List (Field K)}
    (hplain : ∀ f ∈ fields, f.alternative = none) {ms : Members} :
    fieldProblems fields (memberChecks kinds ms) = [] ↔
      ∀ f ∈ fields, FieldAccepted kinds f ms := by
  rw [fieldProblems, List.flatMap_eq_nil_iff]
  refine forall₂_congr fun f hf => ?_
  rw [fieldCheck, get?_memberChecks, hplain f hf]
  cases hget : Members.get? f.name ms with
  | none =>
      simp only [Option.map_none]
      constructor
      · intro h
        refine ⟨by simp [hget], fun _ => ?_⟩
        simpa using h
      · intro h
        simp [h.required hget]
  | some v =>
      simp only [Option.map_some, List.map_eq_nil_iff]
      constructor
      · intro h
        refine ⟨fun w hw => ?_, by simp [hget]⟩
        rw [hget] at hw
        obtain rfl := Option.some.inj hw
        exact h
      · intro h
        exact h.value v hget

private theorem strictNameProblems_eq_nil {ms : Members} :
    strictNameProblems (memberChecks kinds ms) = [] ↔ TextNames ms := by
  simp only [strictNameProblems, memberChecks_eq_map, List.filterMap_eq_nil_iff,
    List.mem_map, forall_exists_index, and_imp, forall_apply_eq_imp_iff₂,
    TextNames, Members.All]
  refine forall₂_congr fun e _ => ?_
  cases e.1 with
  | _ => simp

/-- An object of a plain kind is accepted by its names and fields. -/
theorem accepts_kind {k : K} (hplain : kinds.IsPlain k) {ms : Members} :
    Accepts kinds (.kind k) (.object ms) ↔ HasShape kinds k ms := by
  rw [accepts_object, fieldProblems_eq_nil hplain.alternative,
    strictNameProblems_eq_nil]
  constructor
  · rintro ⟨hfields, hnames, -⟩
    exact ⟨hnames, hfields⟩
  · intro h
    exact ⟨h.fields, h.names, hplain.further ms⟩

/-- Putting what the fields of its name accept keeps an object in shape. -/
theorem HasShape.put {k : K} {ms : Members} (h : HasShape kinds k ms) {name : String}
    {v : Value} (hv : ∀ f ∈ kinds.fields k, f.name = name → Accepts kinds f.shape v) :
    HasShape kinds k (Members.put (.str name) v ms) := by
  refine ⟨h.names.put ⟨name, rfl⟩, fun f hf => ?_⟩
  by_cases hname : f.name = name
  · refine ⟨fun w hw => ?_, by simp [hname]⟩
    rw [hname, Members.get?_put, if_pos rfl] at hw
    obtain rfl := Option.some.inj hw
    exact hv f hf hname
  · have hget : Members.get? f.name (Members.put (.str name) v ms) =
        Members.get? f.name ms := by
      rw [Members.get?_put, if_neg hname]
    exact ⟨fun w hw => (h.fields f hf).value w (hget ▸ hw), fun hw =>
      (h.fields f hf).required (hget ▸ hw)⟩

/-- Taking away what is not required keeps an object in shape. -/
theorem HasShape.erase {k : K} {ms : Members} (h : HasShape kinds k ms) {name : String}
    (hname : ∀ f ∈ kinds.fields k, f.name = name → f.required = false) :
    HasShape kinds k (Members.erase (.str name) ms) := by
  refine ⟨h.names.erase _, fun f hf => ?_⟩
  by_cases heq : f.name = name
  · exact ⟨fun w hw => by simp [heq] at hw, fun _ => hname f hf heq⟩
  · have hget : Members.get? f.name (Members.erase (.str name) ms) =
        Members.get? f.name ms := by
      rw [Members.get?_erase, if_neg heq]
    exact ⟨fun w hw => (h.fields f hf).value w (hget ▸ hw), fun hw =>
      (h.fields f hf).required (hget ▸ hw)⟩

/-- Changing values in their places keeps an object in shape, if each field accepts what
comes to stand there. -/
theorem HasShape.of_aligned {k : K}
    {ms ns : Members} {R : Scalar → Value → Value → Prop} (h : HasShape kinds k ms)
    (haligned : Members.Aligned R ms ns) (hR : ∀ f ∈ kinds.fields k, ∀ v w,
      Members.get? f.name ms = some v → R (.str f.name) v w →
      Accepts kinds f.shape w) : HasShape kinds k ns := by
  refine ⟨fun e he => ?_, fun f hf => ⟨fun w hw => ?_, fun hnone => ?_⟩⟩
  · obtain ⟨v, hv, -⟩ := haligned.mem_right he
    exact h.names (e.1, v) hv
  · obtain ⟨k', v, hk', hv, hvw⟩ := haligned.flip.get?_some hw
    obtain rfl := Scalar.same_str_iff.mp hk'
    exact hR f hf v w hv hvw
  · exact (h.fields f hf).required (haligned.flip.get?_none hnone)

end ApiWorkbench.Shape
