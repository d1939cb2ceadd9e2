import ApiWorkbench.Proofs.Marks
import ApiWorkbench.Proofs.Yaml.Composed
import ApiWorkbench.Yaml.Reader

/-!
# What is read back

A document is read if the survey of its nodes finds no problem. The nodes of a written
value have none: their names are neither merge keys nor keys `=`, so the survey never
replaces anything, and whatever it still has to look at stands for some value
(`Survey.Sound`). The value that is read is the one that was written but for the
characters that a text loses between single quotes (`reread`).

## Main results

* `survey_of_denotes`: the nodes of a value have a meaning.
* `read_of_denotes`: a text whose node stands for a value is read as that value,
  its texts reread.
* `read_write`: the text that is written for an object is read as the object with
  its texts reread.
-/

namespace ApiWorkbench.Yaml

/-! ## The survey -/

namespace Survey

/-- What a survey knows about the nodes of written values. -/
structure Sound (s : Survey) : Prop where
  waiting : ∀ node ∈ s.waiting, node.tag.isCollection = true ∧ ∃ v, Denotes v node
  resolved : ∀ e ∈ s.resolved, ∃ ms, DenoteMembers ms e.2

section

variable {s : Survey} {k : Scalar} {v : Value} {node : Node} {xs : List Value}
  {items : List Node} {ms : List (Scalar × Value)} {entries : List (Node × Node)}

/-- Steps that keep a survey sound over a list do so to its end. -/
private theorem foldlM_sound {α : Type} {step : Survey → α → Except Failure Survey}
    (as : List α) (h : ∀ a ∈ as, ∀ s, Sound s → ∃ t, step s a = .ok t ∧ Sound t)
    (hs : Sound s) :
    ∃ t, as.foldlM step s = .ok t ∧ Sound t := by
  induction as generalizing s with
  | nil => exact ⟨s, rfl, hs⟩
  | cons a as ih =>
      rw [List.forall_mem_cons] at h
      obtain ⟨t, ht, hsound⟩ := h.1 s hs
      obtain ⟨u, hu, hsound⟩ := ih h.2 hsound
      exact ⟨u, by rw [List.foldlM_cons, ht, ok_bind, hu], hsound⟩

theorem scalarOf_leaf (h : DenotesLeaf k node) (s : Survey) :
    s.scalarOf node = .ok (rereadScalar k) := by
  cases h with
  | scalar hcollection hmerge hvalue hread =>
      rename_i number tag text
      have htag : s.tagOf (.scalar number tag text) = tag := by
        simp [tagOf, Node.tag, hvalue]
      simp [scalarOf, scalarText, htag, hread]

private theorem isCollection_leaf (h : DenotesLeaf k node) :
    node.tag.isCollection = false := by
  cases h with
  | scalar hcollection => exact hcollection

private theorem meet_leaf (h : DenotesLeaf k node) (s : Survey) :
    s.meet node = .ok s := by
  rw [meet, isCollection_leaf h, if_neg Bool.false_ne_true, scalarOf_leaf h]
  rfl

/-- A node that is met is read, or has to wait. -/
private theorem meet_sound (h : Denotes v node) (hs : Sound s) :
    ∃ t, s.meet node = .ok t ∧ Sound t := by
  have hwaits : node.tag.isCollection = true → ∃ t, s.meet node = .ok t ∧
      Sound t := fun hcollection => by
    rw [meet, if_pos hcollection]
    split
    · exact ⟨s, rfl, hs⟩
    · exact ⟨_, rfl, List.forall_mem_cons.mpr ⟨⟨hcollection, v, h⟩, hs.waiting⟩,
        hs.resolved⟩
  cases h with
  | scalar hleaf => exact ⟨s, meet_leaf hleaf s, hs⟩
  | list _ => exact hwaits rfl
  | object _ => exact hwaits rfl

private theorem denotes_of_mem_items (h : DenoteItems xs items) :
    ∀ item ∈ items, ∃ v, Denotes v item := by
  induction xs generalizing items with
  | nil =>
      cases h
      simp
  | cons x xs ih =>
      cases h with
      | cons hitem hitems => exact List.forall_mem_cons.mpr ⟨⟨x, hitem⟩, ih hitems⟩

private theorem denotes_of_mem_entries (h : DenoteMembers ms entries) :
    ∀ entry ∈ entries, ∃ k v, DenotesLeaf k entry.1 ∧ Denotes v entry.2 := by
  induction ms generalizing entries with
  | nil =>
      cases h
      simp
  | cons e ms ih =>
      cases h with
      | cons hkey hvalue hentries =>
          exact List.forall_mem_cons.mpr ⟨⟨_, _, hkey, hvalue⟩, ih hentries⟩

private theorem meetEntry_sound {entry : Node × Node}
    (hkey : DenotesLeaf k entry.1) (hvalue : Denotes v entry.2) (hs : Sound s) :
    ∃ t, s.meetEntry entry = .ok t ∧ Sound t := by
  rw [meetEntry, isCollection_leaf hkey, if_neg Bool.false_ne_true,
    meet_leaf hkey, ok_bind]
  exact meet_sound hvalue hs

/-- No entry of a written object is replaced. -/
private theorem separate_members (h : DenoteMembers ms entries) :
    separate s entries = .ok (s, [], entries) := by
  induction ms generalizing entries with
  | nil =>
      cases h
      rw [separate]
      rfl
  | cons e ms ih =>
      cases h with
      | cons hkey _ hentries =>
          cases hkey with
          | scalar _ hmerge hvalue _ =>
              simp [separate, Node.tag, hmerge, hvalue, ih hentries]

private theorem entriesOf_sound (number : Nat) (h : DenoteMembers ms entries)
    (hs : Sound s) :
    ∃ t others, s.entriesOf (.mapping number .mapping entries) =
      .ok (t, others) ∧ Sound t ∧
      ∃ ms, DenoteMembers ms others := by
  rw [entriesOf]
  cases hlookup : s.resolved.lookup number with
  | some others =>
      obtain ⟨before, after, hsplit, -⟩ := List.lookup_eq_some_iff.mp hlookup
      exact ⟨s, others, rfl, hs, hs.resolved (number, others) (by simp [hsplit])⟩
  | none =>
      simp only [separate_members h, ok_bind]
      exact ⟨_, entries, rfl,
        ⟨hs.waiting, List.forall_mem_cons.mpr ⟨⟨ms, h⟩, hs.resolved⟩⟩, ms, h⟩

/-- What a list or an object holds can be looked at. -/
private theorem lookInto_sound (h : Denotes v node) (hs : Sound s)
    (hcollection : node.tag.isCollection = true) :
    ∃ t, s.lookInto node = .ok t ∧ Sound t := by
  cases h with
  | scalar hleaf => simp [isCollection_leaf hleaf] at hcollection
  | list hitems =>
      refine foldlM_sound _ (fun item hitem s hs => ?_) hs
      obtain ⟨v, hv⟩ := denotes_of_mem_items hitems item hitem
      exact meet_sound hv hs
  | @object ms number entries hmembers =>
      obtain ⟨t, others, hentries, ht, ms, hothers⟩ :=
        entriesOf_sound number hmembers hs
      have hlook : s.lookInto (.mapping number .mapping entries) =
          others.foldlM meetEntry t := by
        rw [lookInto, hentries, ok_bind]
        rfl
      rw [hlook]
      refine foldlM_sound _ (fun entry hentry s hs => ?_) ht
      obtain ⟨k, v, hkey, hvalue⟩ := denotes_of_mem_entries hothers entry hentry
      exact meetEntry_sound hkey hvalue hs

private theorem generations_sound (fuel : Nat) (hs : Sound s) :
    ∃ t, generations fuel s = .ok t := by
  induction fuel generalizing s with
  | zero => exact ⟨s, rfl⟩
  | succ fuel ih =>
      rw [generations]
      split
      · exact ⟨s, rfl⟩
      · have hrest : Sound { s with waiting := [] } := ⟨by simp, hs.resolved⟩
        obtain ⟨t, ht, hsound⟩ :=
          foldlM_sound s.waiting.reverse (fun node hnode s' hs' => by
          obtain ⟨hcollection, v, hv⟩ := hs.waiting node (List.mem_reverse.mp hnode)
          exact lookInto_sound hv hs' hcollection) hrest
        rw [ht, ok_bind]
        exact ih hsound

end

end Survey

/-- The nodes of a value have a meaning. -/
theorem survey_of_denotes {v : Value} {root : Node} (h : Denotes v root) :
    survey root = .ok () := by
  have hstart : Survey.Sound .start := ⟨by simp [Survey.start], by simp [Survey.start]⟩
  obtain ⟨s, hs, hsound⟩ := Survey.meet_sound h hstart
  obtain ⟨t, ht⟩ := Survey.generations_sound (root.number + 1) hsound
  rw [survey, hs, ok_bind, ht]
  rfl

/-! ## The value that is read -/

mutual

/-- A value as it is read after it was written. -/
def reread : Value → Value
  | .scalar s => .scalar (rereadScalar s)
  | .list xs => .list (rereadItems xs)
  | .object ms => .object (Members.ofEntries (rereadMembers ms))
  | .pair a b => .pair a b
  | .set names => .set names

/-- The items of a list as they are read. -/
def rereadItems : List Value → List Value
  | [] => []
  | v :: rest => reread v :: rereadItems rest

/-- The members of an object as they are read. -/
def rereadMembers : List (Scalar × Value) → List (Scalar × Value)
  | [] => []
  | (k, v) :: rest => (rereadScalar k, reread v) :: rereadMembers rest

end

theorem rereadItems_eq_map (xs : List Value) : rereadItems xs = xs.map reread := by
  induction xs with
  | nil => rfl
  | cons x xs ih => rw [rereadItems, ih, List.map_cons]

theorem rereadMembers_eq_map (ms : List (Scalar × Value)) :
    rereadMembers ms = ms.map fun e => (rereadScalar e.1, reread e.2) := by
  induction ms with
  | nil => rfl
  | cons e ms ih => rw [rereadMembers, ih, List.map_cons]

section

variable {k : Scalar} {v : Value} {node : Node} {xs : List Value} {items : List Node}
  {ms : List (Scalar × Value)} {entries : List (Node × Node)} {μ : Type}
  {mark : Option Nat → μ} {m : μ}

private theorem keyValue_leaf (h : DenotesLeaf k node) :
    keyValue node = .ok (rereadScalar k) := by
  have hread := Survey.scalarOf_leaf h Survey.start
  cases h with
  | scalar hcollection hmerge hvalue _ =>
      simp [keyValue, Node.tag, hcollection, hvalue, hread]

private theorem itemValues_items
    (ih : ∀ x ∈ xs, ∀ node, Denotes x node →
      valueOf mark node = .ok ((reread x).mapMarks fun _ => m))
    (h : DenoteItems xs items) :
    itemValues mark items = .ok (Tree.mapItemMarks (fun _ => m) (rereadItems xs)) := by
  induction xs generalizing items with
  | nil =>
      cases h
      rw [itemValues, rereadItems]
      rfl
  | cons x xs ihItems =>
      rw [List.forall_mem_cons] at ih
      cases h with
      | cons hitem hitems =>
          rw [itemValues, ih.1 _ hitem, ok_bind, ihItems ih.2 hitems,
            ok_bind, rereadItems]
          rfl

private theorem entryValues_members
    (ih : ∀ e ∈ ms, ∀ node, Denotes e.2 node →
      valueOf mark node = .ok ((reread e.2).mapMarks fun _ => m))
    (h : DenoteMembers ms entries) :
    entryValues mark entries =
      .ok ([], Tree.mapMemberMarks (fun _ => m) (rereadMembers ms)) := by
  induction ms generalizing entries with
  | nil =>
      cases h
      rw [entryValues, rereadMembers]
      rfl
  | cons e ms ihMembers =>
      rw [List.forall_mem_cons] at ih
      cases h with
      | @cons k v _ key _ _ hkey hvalue hentries =>
          have hmerge : (key.tag == .merge) = false := by
            cases hkey with
            | scalar _ hmerge _ _ => simpa [Node.tag] using hmerge
          have hv : valueOf mark _ = .ok ((reread v).mapMarks fun _ => m) :=
            ih.1 _ hvalue
          rw [entryValues, hmerge, if_neg Bool.false_ne_true, keyValue_leaf hkey,
            ok_bind, hv, ok_bind, ihMembers ih.2 hentries, ok_bind, rereadMembers]
          rfl

/-- A node that stands for a value has that value, as it is read. Nothing in it goes
round, and so all marks are the same if all are made the same. -/
theorem valueOf_of_denotes (hmark : ∀ number, mark (some number) = m)
    (h : Denotes v node) :
    valueOf mark node = .ok ((reread v).mapMarks fun _ => m) := by
  induction v using Tree.parts_induction generalizing node with
  | scalar s =>
      cases h with
      | scalar hleaf =>
          cases hleaf with
          | scalar hcollection hmerge hvalue hread =>
              rw [valueOf, keyValue_leaf (.scalar hcollection hmerge hvalue hread),
                reread]
              rfl
  | list xs ih =>
      cases h with
      | list hitems =>
          rw [valueOf, itemValues_items ih hitems, reread]
          rfl
  | pair a b => cases h
  | set names => cases h
  | marked mark ms ih =>
      cases h with
      | object hmembers =>
          rw [valueOf, memberValues, entryValues_members ih hmembers, ok_bind, hmark,
            reread, Tree.mapMarks, Members.mapMemberMarks_ofEntries]
          rfl

/-- No place is reached in a value without marks. -/
private theorem reachesMark_unmarked (pairs : Bool) (v : Value) :
    reachesMark pairs (v.mapMarks fun _ => false) = false := by
  induction v using Tree.parts_induction with
  | scalar s => rfl
  | list xs ih =>
      rw [Tree.mapMarks, reachesMark]
      induction xs with
      | nil => rfl
      | cons x xs ihItems =>
          rw [List.forall_mem_cons] at ih
          rw [Tree.mapItemMarks, itemsReachMark, ih.1, ihItems ih.2, Bool.or_false]
  | pair a b ha hb =>
      rw [Tree.mapMarks, reachesMark, ha, hb, Bool.or_false, Bool.and_false]
  | set names => rfl
  | marked mark ms ih =>
      rw [Tree.mapMarks, reachesMark, Bool.false_or]
      induction ms with
      | nil => rfl
      | cons e ms ihMembers =>
          rw [List.forall_mem_cons] at ih
          rw [Tree.mapMemberMarks, membersReachMark, ih.1, ihMembers ih.2,
            Bool.or_false]

/-- A text whose node stands for a value is read as that value, its texts reread. -/
theorem read_of_denotes {text : String} {root : Node}
    (hroot : compose text = .ok (some root)) (h : Denotes v root) :
    read text = .ok (reread v) := by
  have hvalue : valueOf Option.isNone root = .ok ((reread v).mapMarks fun _ => false) :=
    valueOf_of_denotes (fun _ => rfl) h
  have hend : requireEnd ((reread v).mapMarks fun _ => false) = .ok () := by
    rw [requireEnd, reachesMark_unmarked, if_neg Bool.false_ne_true]
    rfl
  rw [read, readMarked, hroot, ok_bind]
  dsimp only
  rw [survey_of_denotes h, ok_bind, hvalue]
  simp only [Except.mapError, ok_bind, hend]
  exact congrArg Except.ok (Tree.mapMarks_mapMarks_unit _ _)

/-- The text that is written for an object is read as the object with its texts
reread. -/
theorem read_write (hms : Portable (.object ms)) (hsome : ms ≠ []) :
    ∃ text, write (.object ms) = .ok text ∧ read text = .ok (reread (.object ms)) := by
  obtain ⟨text, hwrite, htokens⟩ := write_tokens hms hsome
  obtain ⟨root, hroot, hdocument⟩ := Parser.document_valueTokens hms hsome
  refine ⟨text, hwrite, read_of_denotes ?_ hroot⟩
  rw [compose, htokens, hdocument]

end

/-! ## What is read unchanged -/

/-- A text that is read as it was written: it has no next-line character, or is not
written between single quotes. -/
def Steady (text : String) : Prop :=
  ¬ (allowsSingleQuotes text.toList = true ∧ ∃ c ∈ text.toList, c.toNat = 0x85)

/-- A text that is part of a value, or the name of a member in it. -/
inductive HasText (v : Value) (text : String) : Prop
  | value : Tree.Within v (.str text) → HasText v text
  | name {ms : Members} {x : Value} : Tree.Within v (.object ms) →
      (Scalar.str text, x) ∈ ms → HasText v text

private theorem hasText_scalar_iff {s : Scalar} {text : String} :
    HasText (.scalar s) text ↔ s = .str text := by
  constructor
  · rintro (hwithin | ⟨hwithin, -⟩)
    · cases hwithin
      rfl
    · cases hwithin
  · rintro rfl
    exact .value (.here _)

private theorem hasText_list_iff {xs : List Value} {text : String} :
    HasText (.list xs) text ↔ ∃ x ∈ xs, HasText x text := by
  constructor
  · rintro (hwithin | ⟨hwithin, hname⟩)
    · cases hwithin with
      | item hx hwithin => exact ⟨_, hx, .value hwithin⟩
    · cases hwithin with
      | item hx hwithin => exact ⟨_, hx, .name hwithin hname⟩
  · rintro ⟨x, hx, hwithin | ⟨hwithin, hname⟩⟩
    · exact .value (.item hx hwithin)
    · exact .name (.item hx hwithin) hname

private theorem hasText_object_iff {ms : Members} {text : String} :
    HasText (.object ms) text ↔ ∃ e ∈ ms, e.1 = .str text ∨ HasText e.2 text := by
  constructor
  · rintro (hwithin | ⟨hwithin, hname⟩)
    · cases hwithin with
      | member hx hwithin => exact ⟨_, hx, .inr (.value hwithin)⟩
    · cases hwithin with
      | here => exact ⟨_, hname, .inl rfl⟩
      | member hx hwithin => exact ⟨_, hx, .inr (.name hwithin hname)⟩
  · rintro ⟨⟨k, v⟩, he, hname | hwithin | ⟨hwithin, hname⟩⟩
    · obtain rfl : k = .str text := hname
      exact .name (.here _) he
    · exact .value (.member he hwithin)
    · exact .name (.member he hwithin) hname

theorem rereadText_steady (s : String) : Steady (rereadText s) := by
  by_cases hquotes : allowsSingleQuotes s.toList = true
  · rintro ⟨-, c, hc, hnext⟩
    rw [rereadText, if_pos hquotes, String.toList_ofList] at hc
    exact steady_of_mem_refolded hc hnext
  · rw [rereadText, if_neg hquotes]
    exact fun h => hquotes h.1

section

variable {v : Value} {xs : List Value} {ms : List (Scalar × Value)}

private theorem rereadItems_eq_self_iff :
    rereadItems xs = xs ↔ ∀ x ∈ xs, reread x = x := by
  induction xs with
  | nil => simp [rereadItems]
  | cons x xs ih => rw [rereadItems, List.cons.injEq, ih, List.forall_mem_cons]

private theorem rereadMembers_eq_self_iff :
    rereadMembers ms = ms ↔ ∀ e ∈ ms, rereadScalar e.1 = e.1 ∧ reread e.2 = e.2 := by
  induction ms with
  | nil => simp [rereadMembers]
  | cons e ms ih =>
      obtain ⟨k, v⟩ := e
      rw [rereadMembers, List.cons.injEq, ih, List.forall_mem_cons, Prod.mk.injEq]

/-- The names that are read are texts. -/
theorem text_of_mem_rereadMembers (hnames : ∀ e ∈ ms, ∃ name, e.1 = .str name)
    {e : Scalar × Value} (h : e ∈ rereadMembers ms) :
    ∃ name, e.1 = .str (rereadText name) := by
  rw [rereadMembers_eq_map] at h
  obtain ⟨o, ho, rfl⟩ := List.mem_map.mp h
  obtain ⟨name, hname⟩ := hnames o ho
  exact ⟨name, by rw [hname]; rfl⟩

/-- An object is read unchanged if its names and its values are. -/
private theorem reread_object_eq_self_iff (hnames : ∀ e ∈ ms, ∃ name, e.1 = .str name)
    (hnodup : (Members.names ms).Nodup) :
    reread (.object ms) = .object ms ↔ ∀ e ∈ ms, rereadScalar e.1 = e.1 ∧
      reread e.2 = e.2 := by
  have htexts : ∀ e ∈ rereadMembers ms, ∃ name, e.1 = .str name := fun e he => by
    obtain ⟨name, hname⟩ := text_of_mem_rereadMembers hnames he
    exact ⟨_, hname⟩
  have hwhole : reread (.object ms) = .object ms ↔
      Members.ofEntries (rereadMembers ms) = ms := by
    rw [reread, Tree.marked.injEq]
    simp
  rw [hwhole, ← rereadMembers_eq_self_iff]
  constructor
  · intro h
    -- every name is one that was read, so it is read as itself
    have hkept : ∀ e ∈ ms, rereadScalar e.1 = e.1 := by
      intro e he
      rw [← h] at he
      obtain ⟨o, ho, -, hname⟩ := Members.mem_ofEntries he
      obtain ⟨name, hoName⟩ := text_of_mem_rereadMembers hnames ho
      rw [hoName, Scalar.same_str_iff, or_self] at hname
      rw [hname, rereadScalar, rereadText_eq_self_iff.mpr (rereadText_steady name)]
    have hnamesKept : Members.names (rereadMembers ms) = Members.names ms := by
      rw [rereadMembers_eq_map, Members.names, List.map_map]
      exact List.map_congr_left hkept
    rwa [Members.ofEntries_of_distinct
      (fun e he => Scalar.isText_of_eq_str (htexts e he)) (hnamesKept ▸ hnodup)] at h
  · intro h
    rw [h, Members.ofEntries_of_distinct
      (fun e he => Scalar.isText_of_eq_str (hnames e he)) hnodup]

private theorem rereadScalar_eq_self_iff {s : Scalar} :
    rereadScalar s = s ↔ ∀ text, s = .str text → Steady text := by
  cases s with
  | str s =>
      rw [rereadScalar, Scalar.str.injEq, rereadText_eq_self_iff]
      simp [Steady]
  | _ => simp [rereadScalar]

/-- A value is read unchanged exactly when every text in it is. -/
theorem reread_eq_self_iff (hv : Portable v) :
    reread v = v ↔ ∀ text, HasText v text → Steady text := by
  induction v using Tree.parts_induction with
  | scalar s =>
      rw [reread, Tree.scalar.injEq, rereadScalar_eq_self_iff]
      simp only [hasText_scalar_iff]
  | list xs ih =>
      cases hv with
      | list hxs =>
          rw [reread, Tree.list.injEq, rereadItems_eq_self_iff]
          simp only [hasText_list_iff]
          constructor
          · rintro h text ⟨x, hx, htext⟩
            exact (ih x hx (hxs x hx)).mp (h x hx) text htext
          · exact fun h x hx => (ih x hx (hxs x hx)).mpr fun text htext =>
              h text ⟨x, hx, htext⟩
  | pair a b => cases hv
  | set names => cases hv
  | marked mark ms ih =>
      cases hv with
      | object hnames hnodup hms =>
          have htexts : ∀ e ∈ ms, ∃ name, e.1 = .str name := fun e he => by
            obtain ⟨name, hname, -⟩ := hnames e he
            exact ⟨name, hname⟩
          rw [reread_object_eq_self_iff htexts hnodup]
          simp only [hasText_object_iff]
          constructor
          · rintro h text ⟨e, he, hname | htext⟩
            · exact rereadScalar_eq_self_iff.mp (h e he).1 text hname
            · exact (ih e he (hms e he)).mp (h e he).2 text htext
          · intro h e he
            refine ⟨rereadScalar_eq_self_iff.mpr fun text hname =>
              h text ⟨e, he, .inl hname⟩, ?_⟩
            exact (ih e he (hms e he)).mpr fun text htext => h text ⟨e, he, .inr htext⟩

end

end ApiWorkbench.Yaml
