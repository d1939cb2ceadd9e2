import ApiWorkbench.CommandLine.FileTree

/-!
# Laws of file trees

What there is under names after something was put under names: under those and below
them what was put, and anywhere else what was there before. A tree extends another one
if it has all that the other one has. Putting something where nothing was extends a
tree, and so does making directories, which besides leaves all files as they are.

## Main results

* `entryAt_put?`, `find?_put?_append`: what there is after putting.
* `extends_put?`, `extends_makeDirectoriesFrom`: what extends a tree.
* `files_makeDirectories?`: making directories leaves all files, with their
  names and contents.
* `files_perform`: so do actions that do not write.
-/

namespace ApiWorkbench.CommandLine

namespace FileTree

variable {tree tree' added : FileTree} {names other rest here : List String}
  {name : String} {entries : List (String × FileTree)}

/-! ## Looking -/

/-- What there is under names. -/
def entryAt (names : List String) (tree : FileTree) : Entry :=
  match tree.find? names with
  | some (.file content) => .file content
  | some (.directory _) => .directory
  | none => .nothing

theorem find?_nil (tree : FileTree) : tree.find? [] = some tree := by
  rw [find?]

theorem find?_append (names rest : List String) (tree : FileTree) :
    tree.find? (names ++ rest) = (tree.find? names).bind (find? rest) := by
  induction names generalizing tree with
  | nil => rw [List.nil_append, find?_nil, Option.bind_some]
  | cons name names ih =>
      cases tree with
      | file content => rfl
      | directory entries =>
          rw [List.cons_append, find?, find?]
          cases entries.lookup name with
          | none => rfl
          | some inner => exact ih inner

theorem entryAt_eq_nothing_iff :
    tree.entryAt names = .nothing ↔ tree.find? names = none := by
  unfold entryAt
  split <;> simp_all

theorem entryAt_eq_directory_iff :
    tree.entryAt names = .directory ↔ tree.hasDirectory names = true := by
  unfold entryAt hasDirectory
  split <;> simp_all

/-- What has something below it is a directory. -/
theorem hasDirectory_of_append (h : tree.find? (names ++ name :: rest) ≠ none) :
    tree.hasDirectory names = true := by
  rw [find?_append] at h
  unfold hasDirectory
  split
  · rfl
  · cases hfind : tree.find? names with
    | none => simp [hfind] at h
    | some found =>
        cases found with
        | file content => simp [hfind, find?] at h
        | directory entries => simp_all

/-! ## Putting -/

theorem lookup_cons (a name : String) (entry : FileTree)
    (rest : List (String × FileTree)) :
    List.lookup a ((name, entry) :: rest) =
      if a = name then some entry else rest.lookup a := by
  rw [List.lookup_cons]
  by_cases h : a = name
  · simp [h]
  · have hne : (a == name) = false := by simpa using h
    rw [hne, if_neg h]

theorem lookup_putEntry (name : String) (added : FileTree)
    (entries : List (String × FileTree)) (a : String) :
    (putEntry name added entries).lookup a =
      if a = name then some added else entries.lookup a := by
  induction entries with
  | nil => rw [putEntry, lookup_cons]
  | cons e rest ih =>
      obtain ⟨k, t⟩ := e
      rw [putEntry]
      by_cases hk : k = name
      · subst hk
        simp only [beq_self_eq_true, if_true, lookup_cons]
        split <;> rfl
      · rw [if_neg (by simpa using hk), lookup_cons, lookup_cons, ih]
        by_cases h : a = k
        · simp [h, hk]
        · simp [h]

/-- Something is put into a directory, or further down into what is there. -/
theorem put?_cons_eq_some (h : put? (name :: rest) added tree = some tree') :
    ∃ entries inner, tree = .directory entries ∧
      tree' = .directory (putEntry name inner entries) ∧
      (rest = [] ∧ inner = added ∨ rest ≠ [] ∧ ∃ old, entries.lookup name = some old ∧
        put? rest added old = some inner) := by
  cases tree with
  | file content => simp [put?] at h
  | directory entries =>
      cases rest with
      | nil =>
          rw [put?, Option.some.injEq] at h
          exact ⟨entries, added, rfl, h.symm, .inl ⟨rfl, rfl⟩⟩
      | cons next rest =>
          simp only [put?, Option.bind_eq_bind, Option.bind_assoc,
            Option.bind_eq_some_iff, Option.pure_def, Option.some.injEq] at h
          obtain ⟨old, hold, inner, hinner, rfl⟩ := h
          exact ⟨entries, inner, rfl, rfl, .inr ⟨by simp, old, hold, hinner⟩⟩

/-- Under the names and below them there is what was put. -/
theorem find?_put?_append (h : put? names added tree = some tree')
    (rest : List String) :
    tree'.find? (names ++ rest) = added.find? rest := by
  induction names generalizing tree tree' with
  | nil => simp [put?] at h
  | cons name names ih =>
      obtain ⟨entries, inner, rfl, rfl, hcases⟩ := put?_cons_eq_some h
      rw [List.cons_append, find?, lookup_putEntry, if_pos rfl, Option.bind_some]
      rcases hcases with ⟨rfl, rfl⟩ | ⟨-, old, -, hinner⟩
      · rfl
      · exact ih hinner

/-- Anywhere else there is what was there before. -/
theorem entryAt_put? (h : put? names added tree = some tree')
    (hother : ¬ names <+: other) :
    tree'.entryAt other = tree.entryAt other := by
  induction names generalizing tree tree' other with
  | nil => simp [put?] at h
  | cons name names ih =>
      obtain ⟨entries, inner, rfl, rfl, hcases⟩ := put?_cons_eq_some h
      cases other with
      | nil => simp [entryAt, find?]
      | cons a other =>
          unfold entryAt
          rw [find?, find?, lookup_putEntry]
          by_cases ha : a = name
          · subst ha
            rw [List.cons_prefix_cons, eq_self_iff_true, true_and] at hother
            rcases hcases with ⟨rfl, rfl⟩ | ⟨-, old, hold, hinner⟩
            · exact absurd List.nil_prefix hother
            · rw [if_pos rfl, hold]
              exact ih hinner hother
          · rw [if_neg ha]

/-- Something can be put into a directory that is there. -/
theorem exists_put?_of_hasDirectory (h : tree.hasDirectory names = true) (last : String)
    (added : FileTree) :
    ∃ tree', put? (names ++ [last]) added tree = some tree' := by
  induction names generalizing tree with
  | nil =>
      cases tree with
      | file content => simp [hasDirectory, find?] at h
      | directory entries => exact ⟨_, rfl⟩
  | cons name names ih =>
      cases tree with
      | file content => simp [hasDirectory, find?] at h
      | directory entries =>
          cases hlookup : entries.lookup name with
          | none => simp [hasDirectory, find?, hlookup] at h
          | some inner =>
              have hinner : inner.hasDirectory names = true := by
                simpa [hasDirectory, find?, hlookup] using h
              obtain ⟨inner', hput⟩ := ih hinner
              obtain ⟨next, more, hmore⟩ : ∃ next more,
                  names ++ [last] = next :: more :=
                List.exists_cons_of_ne_nil (by simp)
              refine ⟨.directory (putEntry name inner' entries), ?_⟩
              rw [List.cons_append, hmore, put?, hlookup, ← hmore,
                Option.bind_some, hput]
              · rfl
              · simp

/-- What something is put into is a directory. -/
theorem hasDirectory_of_put? (h : put? names added tree = some tree') :
    ∃ place last, names = place ++ [last] ∧ tree.hasDirectory place = true := by
  induction names generalizing tree tree' with
  | nil => simp [put?] at h
  | cons name names ih =>
      obtain ⟨entries, inner, rfl, rfl, hcases⟩ := put?_cons_eq_some h
      rcases hcases with ⟨rfl, rfl⟩ | ⟨-, old, hold, hinner⟩
      · exact ⟨[], name, rfl, rfl⟩
      · obtain ⟨place, last, rfl, hplace⟩ := ih hinner
        refine ⟨name :: place, last, rfl, ?_⟩
        rw [hasDirectory, find?, hold]
        exact hplace

/-! ## Extending -/

/-- A tree that has all that another one has. -/
def Extends (tree tree' : FileTree) : Prop :=
  ∀ names, tree.entryAt names ≠ .nothing → tree'.entryAt names = tree.entryAt names

theorem Extends.refl (tree : FileTree) : tree.Extends tree :=
  fun _ _ => rfl

theorem Extends.trans {tree'' : FileTree} (h : tree.Extends tree')
    (h' : tree'.Extends tree'') :
    tree.Extends tree'' := by
  intro names hnames
  have hstep := h names hnames
  exact (h' names (by rwa [hstep])).trans hstep

theorem Extends.hasDirectory (h : tree.Extends tree')
    (hnames : tree.hasDirectory names = true) :
    tree'.hasDirectory names = true := by
  rw [← entryAt_eq_directory_iff] at hnames ⊢
  rw [h names (by simp [hnames]), hnames]

/-- Putting something where nothing was extends a tree. -/
theorem extends_put? (habsent : tree.find? names = none)
    (h : put? names added tree = some tree') :
    tree.Extends tree' := by
  intro other hother
  refine entryAt_put? h fun hleading => ?_
  obtain ⟨rest, rfl⟩ := hleading
  rw [Ne, entryAt_eq_nothing_iff, find?_append, habsent] at hother
  exact hother rfl

/-! ## Making directories -/

/-- What holds after each empty directory that is put where nothing was holds after
making directories. -/
theorem makeDirectoriesFrom_preserves {P : FileTree → Prop}
    (hput : ∀ names tree tree', P tree → tree.find? names = none →
      put? names empty tree = some tree' → P tree')
    (htree : P tree) (h : makeDirectoriesFrom here names tree = some tree') :
    P tree' := by
  induction names generalizing here tree with
  | nil =>
      obtain rfl := Option.some.inj h
      exact htree
  | cons name rest ih =>
      unfold makeDirectoriesFrom at h
      split at h
      · cases here with
        | nil => simp at h
        | cons _ up => exact ih htree h
      · dsimp only at h
        split at h
        · exact ih htree h
        · simp at h
        · obtain ⟨next, hnext, h⟩ := Option.bind_eq_some_iff.mp h
          exact ih (hput _ _ _ htree ‹_› hnext) h

theorem makeDirectoriesFrom_of_makeDirectories? {path : Path}
    (h : tree.makeDirectories? path = some tree') :
    path.root.isEmpty = true ∧ makeDirectoriesFrom [] path.names tree = some tree' := by
  rw [makeDirectories?] at h
  split at h
  · exact ⟨‹_›, h⟩
  · simp at h

theorem extends_makeDirectoriesFrom
    (h : makeDirectoriesFrom here names tree = some tree') : tree.Extends tree' :=
  makeDirectoriesFrom_preserves (fun _ _ _ hstart habsent hput =>
    hstart.trans (extends_put? habsent hput)) (.refl tree) h

/-! ## Files -/

/-- Putting an entry that has the files of the one it replaces leaves the files
of a directory. -/
theorem filesOf_putEntry (h : added.files = ((entries.lookup name).map files).getD []) :
    filesOf (putEntry name added entries) = filesOf entries := by
  induction entries with
  | nil => simp_all [putEntry, filesOf]
  | cons e rest ih =>
      obtain ⟨k, t⟩ := e
      rw [putEntry]
      by_cases hk : k = name
      · subst hk
        simp_all [filesOf]
      · rw [lookup_cons, if_neg (Ne.symm hk)] at h
        rw [if_neg (by simpa using hk), filesOf, filesOf, ih h]

/-- An empty directory that is put where nothing was has no files. -/
theorem files_put?_empty (habsent : tree.find? names = none)
    (h : put? names empty tree = some tree') :
    tree'.files = tree.files := by
  induction names generalizing tree tree' with
  | nil => simp [put?] at h
  | cons name names ih =>
      obtain ⟨entries, inner, rfl, rfl, hcases⟩ := put?_cons_eq_some h
      rw [files, files]
      refine filesOf_putEntry ?_
      rw [find?] at habsent
      rcases hcases with ⟨rfl, rfl⟩ | ⟨-, old, hold, hinner⟩
      · cases hlookup : entries.lookup name with
        | none => simp [empty, files, filesOf]
        | some old => simp [hlookup, find?_nil] at habsent
      · rw [hold, Option.bind_some] at habsent
        rw [hold, Option.map_some, Option.getD_some, ih habsent hinner]

theorem files_makeDirectories? {path : Path}
    (h : tree.makeDirectories? path = some tree') :
    tree'.files = tree.files := by
  obtain ⟨-, h⟩ := makeDirectoriesFrom_of_makeDirectories? h
  refine makeDirectoriesFrom_preserves (P := fun t => t.files = tree.files) ?_ rfl h
  exact fun _ _ _ hstart habsent hput => (files_put?_empty habsent hput).trans hstart

end FileTree

/-- Whether an action writes a file, or empties it. -/
def Action.isWrite : Action → Bool
  | .write .. | .spoil .. => true
  | .say _ | .makeDirectories .. => false

/-- Whether an action empties a file for a torn text. -/
def Action.isSpoil : Action → Bool
  | .spoil .. => true
  | .say _ | .makeDirectories .. | .write .. => false

/-- Actions are not all carried out if one of them empties a file. -/
theorem FileTree.perform_of_spoil {actions : List Action}
    (h : ∃ action ∈ actions, action.isSpoil = true) (tree : FileTree) :
    (tree.perform actions).2.2 ≠ none := by
  induction actions generalizing tree with
  | nil => simp at h
  | cons action rest ih =>
      cases action with
      | spoil path otherwise =>
          rw [perform]
          split <;> exact nofun
      | say line => exact ih (by simpa [Action.isSpoil] using h) tree
      | makeDirectories path otherwise | write path content otherwise =>
          have hrest := ih (by simpa [Action.isSpoil] using h)
          rw [perform]
          split
          · exact hrest _
          · exact nofun

/-- Actions that do not write leave all files as they are, how far ever they get. -/
theorem FileTree.files_perform {actions : List Action}
    (h : ∀ action ∈ actions, action.isWrite = false) (tree : FileTree) :
    (tree.perform actions).1.files = tree.files := by
  induction actions generalizing tree with
  | nil => rfl
  | cons action rest ih =>
      obtain ⟨hfirst, hrest⟩ := List.forall_mem_cons.mp h
      cases action with
      | say line => exact ih hrest tree
      | makeDirectories path otherwise =>
          rw [perform]
          split
          · exact (ih hrest _).trans (files_makeDirectories? ‹_›)
          · rfl
      | write | spoil => simp [Action.isWrite] at hfirst

end ApiWorkbench.CommandLine
