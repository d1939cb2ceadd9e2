import ApiWorkbench.Document.Import
import ApiWorkbench.Proofs.Tree

/-!
# The names in a document that was read

A text format may allow names that are no texts, and the same name twice. When a
document has been read its names are made texts, and of entries that have come to have
the same name one is left. So in every object of the document the names are texts and
different (`NamesApart`), what is an entry under a text is found under it, and the walk
leaves a document alone that is like that already.

## Main results

* `parse_namesApart`: the names in a document that was read.
* `withTextNames_fixed`: a document whose names are different texts is left alone.
-/

namespace ApiWorkbench.Document

/-- The names of the members of an object are texts, all different. -/
structure NamedApart (ms : Members) : Prop where
  texts : ∀ e ∈ ms, e.1.IsText
  nodup : (Members.names ms).Nodup

/-- What is an entry under a text is found under it. -/
theorem NamedApart.get?_eq {ms : Members} (h : NamedApart ms)
    {name : String} {v : Value} (hv : (Scalar.str name, v) ∈ ms) :
    Members.get? (.str name) ms = some v :=
  Members.get?_of_mem h.nodup hv

theorem NamedApart.put {ms : Members} (h : NamedApart ms) (name : String) (v : Value) :
    NamedApart (Members.put (.str name) v ms) where
  texts e he := by
    rcases Members.mem_put_str he with he | rfl
    · exact h.texts e he
    · exact .whole name
  nodup := Members.nodup_names_put (.whole name) h.nodup

theorem namedApart_ofEntries {es : Members} (h : ∀ e ∈ es, e.1.IsText) :
    NamedApart (Members.ofEntries es) where
  texts e he := by
    obtain ⟨o, ho, -, hname⟩ := Members.mem_ofEntries he
    rw [(h o ho).same_iff, or_self] at hname
    exact hname ▸ h o ho
  nodup := Members.nodup_names_ofEntries h

/-- Fewer names are different texts as well. -/
theorem NamedApart.sublist {ms ns : Members} (h : NamedApart ms)
    (hnames : (Members.names ns).Sublist (Members.names ms)) : NamedApart ns where
  texts e he := by
    obtain ⟨o, ho, hname⟩ := List.mem_map.mp (hnames.subset (List.mem_map_of_mem he))
    exact hname ▸ h.texts o ho
  nodup := h.nodup.sublist hnames

/-- In every object of a document, at any depth outside pairs, the names are texts,
all different. -/
def NamesApart (document : Value) : Prop :=
  ∀ ms, Tree.Within document (.object ms) → NamedApart ms

theorem NamesApart.member {ms : Members} (h : NamesApart (.object ms))
    {e : Scalar × Value} (he : e ∈ ms) :
    NamesApart e.2 :=
  fun ns hns => h ns (.member he hns)

theorem NamesApart.top {ms : Members} (h : NamesApart (.object ms)) : NamedApart ms :=
  h ms (.here _)

/-! ## Names that have been made texts -/

theorem itemsWithTextNames_eq_mapM (xs : List Value) :
    itemsWithTextNames xs = xs.mapM withTextNames := by
  induction xs with
  | nil => rfl
  | cons x xs ih => rw [itemsWithTextNames, List.mapM_cons, ih]

/-- An entry under the text of its name. -/
def entryWithTextName (e : Scalar × Value) : Except Fault (Scalar × Value) := do
  let name ← e.1.textName
  let w ← withTextNames e.2
  pure (name, w)

theorem membersWithTextNames_eq_mapM (ms : Members) :
    membersWithTextNames ms = ms.mapM entryWithTextName := by
  induction ms with
  | nil => rfl
  | cons e ms ih =>
      obtain ⟨k, v⟩ := e
      rw [membersWithTextNames, List.mapM_cons, ih, entryWithTextName]
      cases k.textName with
      | error fault => rfl
      | ok name =>
          simp only [ok_bind]
          cases withTextNames v <;> rfl

/-- A name that has been made a text is one. -/
theorem isText_of_textName {k name : Scalar} (h : k.textName = .ok name) :
    name.IsText := by
  cases k with
  | torn text => exact Except.ok.inj h ▸ .torn text
  | _ =>
      obtain ⟨text, -, heq⟩ := bind_eq_ok.mp h
      exact Except.ok.inj heq ▸ .whole text

/-- A name that is a text stays as it is. -/
theorem textName_of_isText {name : Scalar} (h : name.IsText) :
    name.textName = .ok name := by
  cases h <;> rfl

@[simp] theorem textName_str (text : String) :
    (Scalar.str text).textName = .ok (.str text) := rfl

/-- A name can be made a text if it can be written. -/
theorem textName_succeeds_iff {k : Scalar} :
    Succeeds k.textName ↔ k.isWritable = true := by
  have htext : Succeeds (do pure (.str (← k.text)) : Except Fault Scalar) ↔
      k.isWritable = true := by
    rw [succeeds_bind_pure, Scalar.text]
    split <;> simp_all [Succeeds]
  cases k with
  | torn text => exact iff_of_true ⟨_, rfl⟩ rfl
  | _ => exact htext

/-- The names in a value can be made texts if all of them can be written, those
in pairs apart. -/
theorem withTextNames_succeeds_iff {v : Value} :
    Succeeds (withTextNames v) ↔ ∀ ms, Tree.Within v (.object ms) →
      ∀ e ∈ ms, e.1.isWritable = true := by
  induction v using Tree.parts_induction with
  | scalar s =>
      exact iff_of_true ⟨_, rfl⟩ fun ms hms => absurd hms Tree.not_within_scalar_marked
  | pair a b =>
      exact iff_of_true ⟨_, rfl⟩ fun ms hms => absurd hms Tree.not_within_pair_marked
  | set names =>
      exact iff_of_true ⟨_, rfl⟩ fun ms hms => absurd hms Tree.not_within_set_marked
  | list xs ih =>
      rw [withTextNames, succeeds_bind_pure, itemsWithTextNames_eq_mapM,
        mapM_succeeds_iff]
      simp only [Tree.within_list_marked, forall_exists_index, and_imp]
      exact ⟨fun h ms x hx => (ih x hx).mp (h x hx) ms, fun h x hx =>
        (ih x hx).mpr fun ms => h ms x hx⟩
  | marked mark ms ih =>
      have hentry : ∀ e ∈ ms, Succeeds (entryWithTextName e) ↔ e.1.isWritable = true ∧
          ∀ ns, Tree.Within e.2 (.object ns) → ∀ e' ∈ ns, e'.1.isWritable = true := by
        intro e he
        rw [entryWithTextName, succeeds_bind_iff fun _ => succeeds_bind_pure,
          textName_succeeds_iff, ih e he]
      rw [withTextNames, succeeds_bind_pure, membersWithTextNames_eq_mapM,
        mapM_succeeds_iff]
      constructor
      · intro h ns hns
        rcases Tree.within_marked_marked.mp hns with ⟨-, rfl⟩ | ⟨e, he, hwithin⟩
        · exact fun e he => ((hentry e he).mp (h e he)).1
        · exact ((hentry e he).mp (h e he)).2 ns hwithin
      · exact fun h e he =>
          (hentry e he).mpr ⟨h ms (.here _) e he, fun ns hns => h ns (.member he hns)⟩

/-- Names that have been made texts are texts, all different within an object. -/
theorem withTextNames_namesApart {v w : Value} (h : withTextNames v = .ok w) :
    NamesApart w := by
  induction v using Tree.parts_induction generalizing w with
  | scalar s =>
      obtain rfl := Except.ok.inj h
      exact fun ms hms => absurd hms Tree.not_within_scalar_marked
  | list xs ih =>
      obtain ⟨ys, hys, heq⟩ := bind_eq_ok.mp h
      obtain rfl := Except.ok.inj heq
      intro ms hms
      obtain ⟨y, hy, hwithin⟩ := Tree.within_list_marked.mp hms
      rw [itemsWithTextNames_eq_mapM] at hys
      obtain ⟨x, hx, hxy⟩ := exists_of_mem_mapM hys hy
      exact ih x hx hxy ms hwithin
  | pair a b =>
      obtain rfl := Except.ok.inj h
      exact fun ms hms => absurd hms Tree.not_within_pair_marked
  | set names =>
      obtain rfl := Except.ok.inj h
      exact fun ms hms => absurd hms Tree.not_within_set_marked
  | marked mark ms ih =>
      obtain ⟨es, hes, heq⟩ := bind_eq_ok.mp h
      obtain rfl := Except.ok.inj heq
      rw [membersWithTextNames_eq_mapM] at hes
      have hentry : ∀ e ∈ es, e.1.IsText ∧ NamesApart e.2 := by
        intro e he
        obtain ⟨⟨k, v⟩, hv, hmade⟩ := exists_of_mem_mapM hes he
        obtain ⟨name, hname, hmade⟩ := bind_eq_ok.mp hmade
        obtain ⟨w, hw, hmade⟩ := bind_eq_ok.mp hmade
        obtain rfl := Except.ok.inj hmade
        exact ⟨isText_of_textName hname, ih (k, v) hv hw⟩
      have htext : ∀ e ∈ es, e.1.IsText := fun e he => (hentry e he).1
      intro ns hns
      rcases Tree.within_marked_marked.mp hns with ⟨-, rfl⟩ | ⟨e, he, hwithin⟩
      · exact namedApart_ofEntries htext
      · obtain ⟨o, ho, hvalue, -⟩ := Members.mem_ofEntries he
        exact (hentry o ho).2 ns (hvalue ▸ hwithin)

/-- The names in a document stay different texts when its version becomes a text. -/
theorem withTextVersion_namesApart {document : Value} (h : NamesApart document) :
    NamesApart (withTextVersion document) := by
  unfold withTextVersion
  split
  · rename_i ms
    split
    · intro ns hns
      rcases Tree.within_marked_marked.mp hns with ⟨-, rfl⟩ | ⟨e, he, hwithin⟩
      · exact h.top.put _ _
      · rcases Members.mem_put_str he with he | rfl
        · exact h.member he ns hwithin
        · unfold versionText at hwithin
          split at hwithin
          · simp at hwithin
          · simp at hwithin
    · exact h
  · exact h

/-- The names in a document that was read are texts, all different within an object. -/
theorem parse_namesApart {text : String} {document : Value}
    (h : parse text = .ok document) :
    NamesApart document := by
  obtain ⟨v, -, h⟩ := bind_eq_ok.mp h
  split at h
  · cases hnames : withTextNames v with
    | error fault => simp [importing, hnames, Except.mapError] at h
    | ok w =>
        obtain rfl : w = document := by
          simpa [importing, hnames, Except.mapError] using h
        exact withTextNames_namesApart hnames
  · simp at h

/-- A document whose names are different texts is left alone. -/
theorem withTextNames_fixed {v : Value} (h : NamesApart v) :
    withTextNames v = .ok v := by
  induction v using Tree.parts_induction with
  | scalar s => rfl
  | list xs ih =>
      have hxs : xs.mapM withTextNames = .ok xs :=
        mapM_eq_ok_iff.mpr (List.forall₂_same.mpr fun x hx => ih x hx fun ms hms =>
          h ms (.item hx hms))
      rw [withTextNames, itemsWithTextNames_eq_mapM, hxs]
      rfl
  | pair a b => rfl
  | set names => rfl
  | marked mark ms ih =>
      obtain ⟨htext, hnodup⟩ := h ms (.here _)
      have hms : ms.mapM entryWithTextName = .ok ms := by
        refine mapM_eq_ok_iff.mpr (List.forall₂_same.mpr fun e he => ?_)
        rw [entryWithTextName, textName_of_isText (htext e he), ih e he (h.member he)]
        rfl
      rw [withTextNames, membersWithTextNames_eq_mapM, hms, ok_bind,
        Members.ofEntries_of_distinct htext hnodup]
      rfl

end ApiWorkbench.Document
