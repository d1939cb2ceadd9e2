import ApiWorkbench.Command.Reader
import ApiWorkbench.Command.Writer
import ApiWorkbench.Proofs.Members

/-!
# Reading what was written

A command may be read from values of many forms: a position may be a text, a truth value
may be a word, a schema may stand under either of its names, and there may be members
that mean nothing. What is written for a command is one of these forms, and reading it
gives the command back.

Texts, integers, truth values and the names of methods, flows, types and targets are
read from what is written for them whatever they are. This is not so of the object that
a command brings along: names that are not texts are rejected, and of two entries of one
name only one is read. But an object that was read has only names that are texts, all
different (`TextNamed`), and then it is read as it is.

## Main results

* `items_eq_invalid_iff`: what is reported of the items of a list.
* `payload_of_read`: the object of a command that was read has different
  texts for names.
* `isRead_of_payload`: a command with such an object, or with none, is read
  from its entries.
* `command_round_trip`: what is read from what is written for a command, and what is
  read from lists.
-/

namespace ApiWorkbench

namespace Shape

section

variable {α β γ : Type}

/-! ## Results -/

theorem under_eq_valid {part : String} {x : Validated α} {a : α} :
    x.under part = .valid a ↔ x = .valid a := by
  cases x <;> simp [Validated.under]

theorem map2_eq_valid {f : α → β → γ} {x : Validated α} {y : Validated β} {c : γ} :
    Validated.map2 f x y = .valid c ↔ ∃ a b, x = .valid a ∧ y = .valid b ∧
      f a b = c := by
  cases x <;> cases y <;> simp [Validated.map2]

theorem map_eq_valid {f : α → β} {x : Validated α} {b : β} :
    f <$> x = .valid b ↔ ∃ a, x = .valid a ∧ f a = b := by
  refine map2_eq_valid.trans ?_
  simp

theorem seq_eq_valid {f : Validated (α → β)} {x : Validated α} {b : β} :
    f <*> x = .valid b ↔ ∃ g a, f = .valid g ∧ x = .valid a ∧ g a = b :=
  map2_eq_valid

@[simp] theorem pure_eq_valid (a : α) : (pure a : Validated α) = .valid a := rfl

@[simp] theorem under_valid (part : String) (a : α) :
    (Validated.valid a).under part = .valid a := rfl

@[simp] theorem map_valid (f : α → β) (a : α) :
    f <$> Validated.valid a = .valid (f a) := rfl

@[simp] theorem valid_seq_valid (f : α → β) (a : α) :
    Validated.valid f <*> Validated.valid a = .valid (f a) := rfl

namespace Validated

variable {P : α → Prop} {Q : β → Prop}

/-- What is read has a property, if anything can be read. -/
def Has (P : α → Prop) (x : Validated α) : Prop :=
  ∀ a, x = .valid a → P a

theorem has_of_forall {x : Validated α} (h : ∀ a, P a) : x.Has P :=
  fun a _ => h a

theorem has_pure {a : α} : (pure a : Validated α).Has P ↔ P a := by
  constructor
  · intro h
    exact h a rfl
  · intro h b hb
    exact Validated.valid.inj hb ▸ h

theorem has_map {f : α → β} {x : Validated α} :
    (f <$> x).Has Q ↔ x.Has fun a => Q (f a) := by
  constructor
  · intro h a ha
    exact h (f a) (map_eq_valid.mpr ⟨a, ha, rfl⟩)
  · intro h b hb
    obtain ⟨a, ha, rfl⟩ := map_eq_valid.mp hb
    exact h a ha

theorem has_seq {f : Validated (α → β)} {x : Validated α} :
    (f <*> x).Has Q ↔ f.Has fun g => x.Has fun a => Q (g a) := by
  constructor
  · intro h g hg a ha
    exact h (g a) (seq_eq_valid.mpr ⟨g, a, hg, ha, rfl⟩)
  · intro h b hb
    obtain ⟨g, a, hg, ha, rfl⟩ := seq_eq_valid.mp hb
    exact h g hg a ha

end Validated

/-! ## Lists -/

variable {f : α → Validated β} {xs : List α} {position : Nat}

/-- Items have results if each of them has one. -/
theorem items_eq_valid_iff {ys : List β} :
    Validated.items f position xs = .valid ys ↔
      List.Forall₂ (fun x y => f x = .valid y) xs ys := by
  induction xs generalizing position ys with
  | nil => simp [Validated.items, eq_comm]
  | cons x xs ih =>
      rw [Validated.items, map2_eq_valid]
      constructor
      · rintro ⟨y, zs, hy, hzs, rfl⟩
        exact .cons (under_eq_valid.mp hy) (ih.mp hzs)
      · intro h
        cases h with
        | cons hy hzs => exact ⟨_, _, under_eq_valid.mpr hy, ih.mpr hzs, rfl⟩

theorem problems_map2 {f : α → β → γ} {x : Validated α} {y : Validated β} :
    (Validated.map2 f x y).problems = x.problems ++ y.problems := by
  cases x <;> cases y <;> simp [Validated.map2, Validated.problems]

theorem problems_under {part : String} {x : Validated α} :
    (x.under part).problems = x.problems.map (·.under part) := by
  cases x <;> rfl

/-- The problems of items are those of each item in turn, under its position. -/
theorem problems_items : (Validated.items f position xs).problems =
    (xs.zipIdx position).flatMap fun (x, i) =>
      (f x).problems.map (·.under (toString i)) := by
  induction xs generalizing position with
  | nil => rfl
  | cons x xs ih =>
      rw [Validated.items, problems_map2, problems_under, ih, List.zipIdx_cons,
        List.flatMap_cons]

theorem exists_items_eq_valid_iff :
    (∃ ys, Validated.items f position xs = .valid ys) ↔
      ∀ x ∈ xs, ∃ y, f x = .valid y := by
  simp only [items_eq_valid_iff]
  induction xs with
  | nil => simp
  | cons x xs ih =>
      rw [List.forall_mem_cons, ← ih]
      constructor
      · rintro ⟨_, h⟩
        cases h with
        | cons hy hzs => exact ⟨⟨_, hy⟩, _, hzs⟩
      · rintro ⟨⟨y, hy⟩, zs, hzs⟩
        exact ⟨y :: zs, .cons hy hzs⟩

/-- Items have no results exactly if one of them has none, and then all
problems are reported. -/
theorem items_eq_invalid_iff {problems : List Problem} :
    Validated.items f position xs = .invalid problems ↔
    (∃ x ∈ xs, ∀ y, f x ≠ .valid y) ∧
      problems = (xs.zipIdx position).flatMap fun (x, i) =>
        (f x).problems.map (·.under (toString i)) := by
  have hnone : (∃ x ∈ xs, ∀ y, f x ≠ .valid y) ↔
      ¬ ∃ ys, Validated.items f position xs = .valid ys := by
    rw [exists_items_eq_valid_iff]
    push Not
    rfl
  rw [← problems_items, hnone]
  cases Validated.items f position xs with
  | valid ys => simp
  | invalid found => simp [Validated.problems, eq_comm]

/-! ## Fields

A field is read from the first entry that has its name. -/

variable {μ : Type} {name other : String} {ms : Tree.Members μ} {v : Tree μ}
  {read : Tree μ → Validated α} {default : α}

@[simp] theorem required_self :
    required name read ((.str name, v) :: ms) = (read v).under name := by
  simp [required, Members.get?_cons]

@[simp] theorem required_of_ne (h : other ≠ name) :
    required name read ((.str other, v) :: ms) = required name read ms := by
  simp [required, Members.get?_cons, h]

@[simp] theorem optional_self :
    optional name default read ((.str name, v) :: ms) = (read v).under name := by
  simp [Shape.optional, Members.get?_cons]

@[simp] theorem optional_of_ne (h : other ≠ name) :
    optional name default read ((.str other, v) :: ms) =
      optional name default read ms := by
  simp [Shape.optional, Members.get?_cons, h]

end

end Shape

namespace Command

open Shape

variable {μ : Type}

/-! ## Objects that were read -/

/-- Members whose names are texts, all different. -/
structure TextNamed (ms : Tree.Members μ) : Prop where
  texts : ∀ e ∈ ms, e.1.IsText
  distinct : (Members.names ms).Nodup

private theorem isText_of_toTextName {k name : Scalar}
    (h : toTextName k = .valid name) : name.IsText := by
  cases k with
  | torn text => exact Validated.valid.inj h ▸ .torn text
  | _ =>
      obtain ⟨text, -, rfl⟩ := map_eq_valid.mp h
      exact .whole text

theorem texts_of_toTextNames {ms ns : Tree.Members μ} (h : toTextNames ms = .valid ns) :
    ∀ e ∈ ns, e.1.IsText := by
  induction ms generalizing ns with
  | nil =>
      obtain rfl := Validated.valid.inj h
      simp
  | cons entry rest ih =>
      obtain ⟨name, others, hname, hothers, rfl⟩ := map2_eq_valid.mp h
      have htext := isText_of_toTextName (under_eq_valid.mp (under_eq_valid.mp hname))
      exact List.forall_mem_cons.mpr ⟨htext, ih hothers⟩

theorem toTextNames_of_texts {ms : Tree.Members μ} (h : ∀ e ∈ ms, e.1.IsText) :
    toTextNames ms = .valid ms := by
  induction ms with
  | nil => rfl
  | cons entry rest ih =>
      obtain ⟨k, v⟩ := entry
      obtain ⟨hname, hrest⟩ := List.forall_mem_cons.mp h
      rw [toTextNames, ih hrest]
      cases hname <;> rfl

theorem has_toObject (v : Tree μ) : (toObject v).Has TextNamed := by
  intro ms h
  cases v with
  | marked mark entries =>
      obtain ⟨named, hnamed, rfl⟩ := map_eq_valid.mp h
      have htexts := texts_of_toTextNames hnamed
      refine ⟨fun e he => ?_, Members.nodup_names_ofEntries htexts⟩
      obtain ⟨o, ho, -, hname⟩ := Members.mem_ofEntries he
      rw [(htexts o ho).same_iff, or_self] at hname
      exact hname ▸ htexts o ho
  | _ => simp [toObject, Validated.fail] at h

/-- An object with different texts for names is read as it is. -/
theorem toObject_of_textNamed [Inhabited μ] {ms : Tree.Members μ} (h : TextNamed ms) :
    toObject (.object ms) = .valid ms := by
  refine map_eq_valid.mpr ⟨ms, toTextNames_of_texts h.texts, ?_⟩
  exact Members.ofEntries_of_distinct h.texts h.distinct

theorem has_objectField (name : String) (ms : Tree.Members μ) :
    (objectField name ms).Has TextNamed := by
  intro payload h
  rw [objectField, required] at h
  split at h
  · exact has_toObject _ payload (under_eq_valid.mp h)
  · contradiction

theorem has_schemaField (ms : Tree.Members μ) : (schemaField ms).Has TextNamed := by
  rw [schemaField]
  split
  · exact has_objectField _ ms
  · split
    · exact has_objectField _ ms
    · exact has_objectField _ ms

/-! The object that a command brings along. -/

def ServerEdit.payload? : ServerEdit μ → Option (Tree.Members μ)
  | .update _ payload | .updateVariable _ _ _ payload => some payload
  | .add | .remove _ | .addVariable _ _ | .removeVariable _ _ => none

def TagEdit.payload? : TagEdit μ → Option (Tree.Members μ)
  | .update _ payload => some payload
  | .add | .remove _ => none

def PathEdit.payload? : PathEdit μ → Option (Tree.Members μ)
  | .update _ payload => some payload
  | .add | .rename _ _ | .remove _ | .duplicate _ | .removeAll => none

def OperationEdit.payload? : OperationEdit μ → Option (Tree.Members μ)
  | .update payload | .updateParameter _ payload | .updateResponse _ payload
  | .updateRequestBody payload =>
    some payload
  | .add | .remove | .addParameter | .removeParameter _ | .addResponse
      _ | .removeResponse _ | .renameResponse _ _
  | .addRequestBody | .removeRequestBody | .addMediaType _ _ | .renameMediaType
      _ _ _ | .removeMediaType _ _
  | .addCallback | .renameCallback _ _ | .removeCallback _ | .duplicateCallback _ =>
      none

def SecurityEdit.payload? : SecurityEdit μ → Option (Tree.Members μ)
  | .update _ payload => some payload
  | .add | .changeType _ _ | .remove _ | .rename _ _ | .toggleFlow _ _ _ | .addScope
      _ _ | .renameScope _ _ _ _ _
  | .removeScope _ _ _ | .toggleGlobal _ _ => none

def SchemaEdit.payload? : SchemaEdit μ → Option (Tree.Members μ)
  | .update _ payload => some payload
  | .add | .remove _ | .rename _ _ | .duplicate _ => none

def payload? : Command μ → Option (Tree.Members μ)
  | .setDocument payload | .info payload | .externalDocs payload => some payload
  | .saveSnapshot | .undo | .loadSample | .reset | .renameOperation _ _ _ => none
  | .servers edit => edit.payload?
  | .tags edit => edit.payload?
  | .paths edit => edit.payload?
  | .operation _ _ edit => edit.payload?
  | .security edit => edit.payload?
  | .schemas edit => edit.payload?

theorem has_kind_read (kind : Kind) (ms : Tree.Members μ) :
    (kind.read ms).Has fun command => ∀ payload, command.payload? = some payload →
      TextNamed payload := by
  cases kind <;> simp only [↓Kind.read, ↓onOperation, ↓Validated.has_map,
    ↓Validated.has_seq, ↓Validated.has_pure, payload?, ServerEdit.payload?,
    TagEdit.payload?, PathEdit.payload?, OperationEdit.payload?, SecurityEdit.payload?,
    SchemaEdit.payload?, Option.some.injEq, forall_eq', reduceCtorEq, false_implies,
    implies_true, has_objectField, has_schemaField, Validated.has_of_forall]

/-- What is read has an object with different texts for names, if it has one. -/
theorem payload_of_read {v : Tree μ} {command : Command μ}
    (h : read v = .valid command) :
    ∀ payload, command.payload? = some payload → TextNamed payload := by
  unfold read at h
  split at h
  · split at h
    · contradiction
    · dsimp only at h
      split at h
      · split at h
        · exact has_kind_read _ _ command (under_eq_valid.mp h)
        · contradiction
      · contradiction
  · contradiction

/-! ## Fields that were written

Of each kind of field what was written is read. -/

section

variable {name other : String} {ms payload : Tree.Members μ} {v : Tree μ}

@[simp] theorem textField_self (s : String) :
    textField name ((.str name, (.str s : Tree μ)) :: ms) = .valid s :=
  required_self

@[simp] theorem textField_of_ne (h : other ≠ name) :
    textField name ((.str other, v) :: ms) = textField name ms :=
  required_of_ne h

@[simp] theorem integerField_self (n : Int) :
    integerField name ((.str name, (.int n : Tree μ)) :: ms) = .valid n :=
  required_self

@[simp] theorem integerField_of_ne (h : other ≠ name) :
    integerField name ((.str other, v) :: ms) = integerField name ms :=
  required_of_ne h

theorem objectField_self [Inhabited μ] (h : TextNamed payload) :
    objectField name ((.str name, .object payload) :: ms) = .valid payload := by
  rw [objectField, required_self, toObject_of_textNamed h]
  rfl

@[simp] theorem objectField_of_ne (h : other ≠ name) :
    objectField name ((.str other, v) :: ms) = objectField name ms :=
  required_of_ne h

@[simp] theorem toFlag_bool (b : Bool) : toFlag (.bool b : Tree μ) = .valid b := rfl

@[simp] theorem toText_str (s : String) : toText (.str s : Tree μ) = .valid s := rfl

@[simp] theorem toMethod_name (method : Document.Method) :
    toMethod (.str method.name : Tree μ) = .valid method := by
  cases method <;> rfl

@[simp] theorem toFlow_name (flow : Flow) :
    toFlow (.str flow.name : Tree μ) = .valid flow := by
  cases flow <;> rfl

@[simp] theorem toTarget_name (target : Target) :
    toTarget (.str target.name : Tree μ) = .valid target := by
  cases target <;> rfl

@[simp] theorem toSchemeType_name (type : SchemeType) :
    toSchemeType (.str type.name : Tree μ) = .valid type := by
  cases type <;> rfl

@[simp] theorem toNullable_optionalValue (s : Option String) :
    toNullable toText (optionalValue s : Tree μ) = .valid s := by
  cases s <;> rfl

end

theorem ofTag?_tag (kind : Kind) : Kind.ofTag? kind.tag = some kind := by
  cases kind <;> rfl

/-! ## Commands that were written -/

section

variable [Inhabited μ]

/-- The entries of a command that is written. -/
def entries (command : Command μ) : Tree.Members μ :=
  let fields : List (String × Tree μ) :=
    command.leadingFields ++ [("type", .str command.kind.tag)] ++ command.fields
  fields.map fun field => (.str field.1, field.2)

theorem get?_type_entries (command : Command μ) :
    Members.get? "type" command.entries = some (.str command.kind.tag) := by
  cases command <;> simp [entries, leadingFields, Members.get?_cons]

/-- A command is read from its entries. -/
def IsRead (command : Command μ) : Prop :=
  command.kind.read command.entries = .valid command

theorem isRead_servers {edit : ServerEdit μ}
    (h : ∀ payload, edit.payload? = some payload → TextNamed payload) :
    IsRead (.servers edit) := by
  cases edit with
  | update _ payload | updateVariable _ _ _ payload =>
      have hpayload := h payload rfl
      simp [IsRead, kind, Kind.read, entries, leadingFields, fields, ServerEdit.fields,
        objectField_self hpayload]
  | _ =>
      simp [IsRead, kind, Kind.read, entries, leadingFields, fields, ServerEdit.fields]

theorem isRead_tags {edit : TagEdit μ}
    (h : ∀ payload, edit.payload? = some payload → TextNamed payload) :
    IsRead (.tags edit) := by
  cases edit with
  | update index tag =>
      have htag := h tag rfl
      simp [IsRead, kind, Kind.read, entries, leadingFields, fields, TagEdit.fields,
        objectField_self htag]
  | _ => simp [IsRead, kind, Kind.read, entries, leadingFields, fields, TagEdit.fields]

theorem isRead_paths {edit : PathEdit μ}
    (h : ∀ payload, edit.payload? = some payload → TextNamed payload) :
    IsRead (.paths edit) := by
  cases edit with
  | update path item =>
      have hitem := h item rfl
      simp [IsRead, kind, Kind.read, entries, leadingFields, fields, PathEdit.fields,
        objectField_self hitem]
  | _ => simp [IsRead, kind, Kind.read, entries, leadingFields, fields, PathEdit.fields]

theorem isRead_operation {path : String}
    {method : Document.Method} {edit : OperationEdit μ}
    (h : ∀ payload, edit.payload? = some payload → TextNamed payload) :
    IsRead (.operation path method edit) := by
  cases edit with
  | update payload | updateParameter _ payload | updateResponse _ payload
  | updateRequestBody payload =>
      have hpayload := h payload rfl
      simp [IsRead, kind, Kind.read, onOperation, entries, leadingFields, fields,
        OperationEdit.fields, objectField_self hpayload]
  | _ =>
      simp [IsRead, kind, Kind.read, onOperation, entries, leadingFields, fields,
        OperationEdit.fields, ContentPlace.fields, placeField]

theorem isRead_security {edit : SecurityEdit μ}
    (h : ∀ payload, edit.payload? = some payload → TextNamed payload) :
    IsRead (.security edit) := by
  cases edit with
  | update name scheme =>
      have hscheme := h scheme rfl
      simp [IsRead, kind, Kind.read, entries, leadingFields, fields,
        SecurityEdit.fields, objectField_self hscheme]
  | _ =>
      simp [IsRead, kind, Kind.read, entries, leadingFields, fields,
        SecurityEdit.fields]

theorem isRead_schemas {edit : SchemaEdit μ}
    (h : ∀ payload, edit.payload? = some payload → TextNamed payload) :
    IsRead (.schemas edit) := by
  cases edit with
  | update name schema =>
      have hschema := h schema rfl
      simp [IsRead, kind, Kind.read, entries, leadingFields, fields, SchemaEdit.fields,
        schemaField, Members.get?_cons, objectField_self hschema]
  | _ =>
      simp [IsRead, kind, Kind.read, entries, leadingFields, fields, SchemaEdit.fields]

theorem isRead_of_payload {command : Command μ}
    (h : ∀ payload, command.payload? = some payload → TextNamed payload) :
    command.IsRead := by
  cases command with
  | setDocument payload | info payload | externalDocs payload =>
      have hpayload := h payload rfl
      simp [IsRead, kind, Kind.read, entries, leadingFields, fields,
        objectField_self hpayload]
  | saveSnapshot | undo | loadSample | reset => rfl
  | renameOperation path oldMethod newMethod =>
      simp [IsRead, kind, Kind.read, entries, leadingFields, fields]
  | servers edit => exact isRead_servers h
  | tags edit => exact isRead_tags h
  | paths edit => exact isRead_paths h
  | operation path method edit => exact isRead_operation h
  | security edit => exact isRead_security h
  | schemas edit => exact isRead_schemas h

/-- A command that is read from its entries is read from what is written for it. -/
theorem IsRead.read_write {command : Command μ} (h : command.IsRead) :
    read command.write = .valid command := by
  have hwrite : command.write = .object command.entries := rfl
  rw [hwrite, Tree.object, read, get?_type_entries]
  dsimp only
  rw [ofTag?_tag]
  dsimp only
  rw [h]
  rfl

/-- What is written for a command that was read is read as the same command. A list is
read as commands exactly if each of its items is read as one, and as the same ones in
order; otherwise the problems of all items are reported in order, each under the
position of its item. -/
theorem command_round_trip :
    (∀ (v : Tree μ) (command : Command μ), read v = .valid command →
      read command.write = .valid command) ∧
      (∀ (xs : List (Tree μ)) (commands : List (Command μ)),
        readAll (.list xs) = .valid commands ↔
          List.Forall₂ (fun x command => read x = .valid command) xs commands) ∧
      ∀ (xs : List (Tree μ)) (problems : List Problem),
        readAll (.list xs) = .invalid problems ↔
        (∃ x ∈ xs, ∀ command, read x ≠ .valid command) ∧
          problems = xs.zipIdx.flatMap fun (x, i) =>
            (read x).problems.map (·.under (toString i)) := by
  refine ⟨fun v command h => ?_, fun xs commands => items_eq_valid_iff,
    fun xs problems => items_eq_invalid_iff⟩
  exact (isRead_of_payload (payload_of_read h)).read_write

end

/-- A script with a schema under its second name, a word for a truth value, a text for a
position and a member that means nothing. -/
def laxScript : List Value :=
  [.object [("type", .str "UPDATE_SCHEMA"), ("name", .str "Pet"),
      ("schema_", .object [("type", .str "object")])],
    .object [("enabled", .str "Yes"), ("flow", .str "implicit"), ("name", .str "auth"),
      ("type", .str "TOGGLE_OAUTH_FLOW")],
    .object [("type", .str "REMOVE_TAG"), ("index", .str " +02.0 "),
      ("note", .bool true)]]

/-- The commands of the script. -/
def laxCommands : List (Command Unit) :=
  [.schemas (.update "Pet" [("type", .str "object")]),
    .security (.toggleFlow "auth" .implicit true),
    .tags (.remove 2)]

/-- The commands of the script are read from what is written for them. If two items are
put before it that cannot be read, their problems are reported. -/
theorem command_round_trip_of_lax :
    readAll (.list laxScript) = .valid laxCommands ∧
      (∀ command ∈ laxCommands, read command.write = .valid command) ∧
      readAll (.list (.object [("type", .str "REMOVE_TAG")] :: .null :: laxScript)) =
        .invalid [⟨["0", "REMOVE_TAG", "index"], .missing⟩, ⟨["1"], .noFields⟩] := by
  obtain ⟨hwrite, hvalid, hinvalid⟩ := @command_round_trip Unit _
  have hread : readAll (.list laxScript) = .valid laxCommands := rfl
  obtain ⟨hschema, hflow, htag, -⟩ : _ ∧ _ ∧ _ ∧ _ := by
    simpa only [laxScript, laxCommands, List.forall₂_cons] using (hvalid _ _).mp hread
  refine ⟨hread, ?_, (hinvalid _ _).mpr ⟨⟨.null, by simp, fun _ => ?_⟩, rfl⟩⟩
  · simp only [laxCommands, List.forall_mem_cons]
    exact ⟨hwrite _ _ hschema, hwrite _ _ hflow, hwrite _ _ htag, by simp⟩
  · simp [read, Validated.fail]

end Command

end ApiWorkbench
