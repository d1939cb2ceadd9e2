import ApiWorkbench.Proofs.CommandLine.FileTrees

/-!
# Where files can be put

A file is put in a tree in two steps: the directories that it is in are made as far as
they are missing, and then it is written. This succeeds or not whatever the content is
(`CanHold`). Once it has, the content is under the path.

More in a tree can only be in the way: what can be put in a tree can be put in every
tree that it extends.

## Main results

* `look_of_extends`: what there is under a path stays there in a tree that extends
  the first one.
* `exists_hold?_iff`: putting a file succeeds whatever its content is.
* `look_of_hold?`: then its content is under the path.
* `CanHold.of_extends`: what can be put in a tree can be put in those that it extends.
* `CanHold.of_apart`: and in one that has got another file, if neither is in the
  way of the other.
-/

namespace ApiWorkbench.CommandLine.FileTree

variable {tree tree' made made' held : FileTree}
  {here up names other place rest : List String} {name last : String} {path : Path}
  {content : String}

/-! ## Resolving -/

theorem resolveFrom_name (hname : name ≠ "..") :
    tree.resolveFrom here (name :: rest) = tree.resolveFrom (name :: here) rest :=
  if_pos (by simpa using hname)

theorem resolveFrom_up (tree : FileTree) (last : String) (up rest : List String) :
    tree.resolveFrom (last :: up) (".." :: rest) =
      if tree.hasDirectory (last :: up).reverse then tree.resolveFrom up rest
      else .unknown :=
  rfl

theorem resolveFrom_above (tree : FileTree) (rest : List String) :
    tree.resolveFrom [] (".." :: rest) = placeAbove rest :=
  rfl

/-- Where names lead is the same in a tree with more directories. -/
theorem resolveFrom_mono
    (h : ∀ names, tree.hasDirectory names = true → tree'.hasDirectory names = true)
    (hplace : tree.resolveFrom here names ≠ .unknown) :
    tree'.resolveFrom here names = tree.resolveFrom here names := by
  induction names generalizing here with
  | nil => rfl
  | cons name rest ih =>
      by_cases hname : name = ".."
      · subst hname
        cases here with
        | nil => rfl
        | cons last up =>
            rw [resolveFrom_up] at hplace ⊢
            rw [resolveFrom_up]
            split at hplace
            · rw [if_pos (h _ ‹_›), if_pos ‹_›]
              exact ih hplace
            · exact absurd rfl hplace
      · rw [resolveFrom_name hname] at hplace ⊢
        rw [resolveFrom_name hname]
        exact ih hplace

theorem resolve_mono
    (h : ∀ names, tree.hasDirectory names = true → tree'.hasDirectory names = true)
    (hplace : tree.resolve path ≠ .unknown) :
    tree'.resolve path = tree.resolve path := by
  unfold resolve at hplace ⊢
  split
  · rw [if_pos ‹_›] at hplace
    exact resolveFrom_mono h hplace
  · rfl

/-- Names that lead inside a tree can be followed by others. -/
theorem resolveFrom_append (h : tree.resolveFrom here names = .inside place)
    (rest : List String) :
    tree.resolveFrom here (names ++ rest) = tree.resolveFrom place.reverse rest := by
  induction names generalizing here with
  | nil =>
      obtain rfl := Place.inside.inj h
      rw [List.nil_append, List.reverse_reverse]
  | cons name names ih =>
      rw [List.cons_append]
      by_cases hname : name = ".."
      · subst hname
        cases here with
        | nil =>
            rw [resolveFrom_above, placeAbove] at h
            split at h <;> contradiction
        | cons last up =>
            rw [resolveFrom_up] at h ⊢
            split at h
            · rw [if_pos ‹_›]
              exact ih h
            · contradiction
      · rw [resolveFrom_name hname] at h ⊢
        exact ih h

theorem look_eq (tree : FileTree) (path : Path) :
    tree.look path = match tree.resolve path with
      | .inside names => tree.entryAt names
      | .above => .directory
      | .unknown => .nothing := by
  unfold look entryAt
  rfl

theorem look_of_resolve (h : tree.resolve path = .inside names) :
    tree.look path = tree.entryAt names := by
  rw [look_eq, h]

/-- What there is under a path stays there in a tree that extends the first one. -/
theorem look_of_extends (h : tree.Extends tree') (hlook : tree.look path ≠ .nothing) :
    tree'.look path = tree.look path := by
  rw [look_eq] at hlook
  have hresolve : tree'.resolve path = tree.resolve path := by
    refine resolve_mono (fun names => h.hasDirectory) fun hunknown => ?_
    rw [hunknown] at hlook
    exact hlook rfl
  rw [look_eq, look_eq, hresolve]
  cases hplace : tree.resolve path with
  | inside names =>
      rw [hplace] at hlook
      exact h names hlook
  | above => rfl
  | unknown => rfl

/-! ## Making directories -/

theorem hasDirectory_put?_empty (h : put? names empty tree = some tree') :
    tree'.hasDirectory names = true := by
  have hfind := find?_put?_append h []
  rw [List.append_nil, find?_nil] at hfind
  rw [hasDirectory, hfind]
  rfl

/-- An empty directory that is put where nothing was changes nothing anywhere else. -/
theorem entryAt_put?_empty (habsent : tree.find? names = none)
    (h : put? names empty tree = some tree') (hother : other ≠ names) :
    tree'.entryAt other = tree.entryAt other := by
  by_cases hleading : names <+: other
  · obtain ⟨_ | ⟨next, rest⟩, rfl⟩ := hleading
    · simp at hother
    · have hbelow : tree.find? (names ++ next :: rest) = none := by
        rw [find?_append, habsent]
        rfl
      rw [entryAt_eq_nothing_iff.mpr hbelow, entryAt_eq_nothing_iff,
        find?_put?_append h]
      rfl
  · exact entryAt_put? h hleading

theorem makeDirectoriesFrom_cons (hname : name ≠ "..") :
    makeDirectoriesFrom here (name :: rest) tree =
      match tree.find? (name :: here).reverse with
      | some (.directory _) => makeDirectoriesFrom (name :: here) rest tree
      | some (.file _) => none
      | none =>
          (put? (name :: here).reverse empty tree).bind
            (makeDirectoriesFrom (name :: here) rest) :=
  if_neg (by simpa using hname)

/-- A name is that of a directory, or else of nothing, and then a directory is made. -/
theorem makeDirectoriesFrom_name (hname : name ≠ "..")
    (h : makeDirectoriesFrom here (name :: rest) tree = some made) :
    ∃ next, makeDirectoriesFrom (name :: here) rest next = some made ∧
      next.hasDirectory (name :: here).reverse = true ∧
      (tree.hasDirectory (name :: here).reverse = true ∧ next = tree ∨
        tree.find? (name :: here).reverse = none ∧
          put? (name :: here).reverse empty tree = some next) := by
  rw [makeDirectoriesFrom_cons hname] at h
  split at h
  · have hdirectory : tree.hasDirectory (name :: here).reverse = true := by
      rw [hasDirectory, ‹tree.find? _ = _›]
    exact ⟨tree, h, hdirectory, .inl ⟨hdirectory, rfl⟩⟩
  · contradiction
  · obtain ⟨next, hnext, h⟩ := Option.bind_eq_some_iff.mp h
    exact ⟨next, h, hasDirectory_put?_empty hnext, .inr ⟨‹_›, hnext⟩⟩

/-- In a directory, directories can be made under a name that is not that of a file. -/
theorem exists_next (hname : name ≠ "..")
    (hhere : tree.hasDirectory here.reverse = true)
    (hfile : ∀ content, tree.entryAt (name :: here).reverse ≠ .file content) :
    ∃ next, (∀ rest, makeDirectoriesFrom here (name :: rest) tree =
      makeDirectoriesFrom (name :: here) rest next) ∧
      next.hasDirectory (name :: here).reverse = true ∧
      ∀ other, other ≠ (name :: here).reverse →
        next.entryAt other = tree.entryAt other := by
  cases hfind : tree.find? (name :: here).reverse with
  | none =>
      obtain ⟨next, hput⟩ := exists_put?_of_hasDirectory hhere name empty
      rw [← List.reverse_cons] at hput
      refine ⟨next, fun rest => ?_, hasDirectory_put?_empty hput, fun other =>
        entryAt_put?_empty hfind hput⟩
      rw [makeDirectoriesFrom_cons hname, hfind, hput]
      rfl
  | some found =>
      cases found with
      | file content => exact absurd (by rw [entryAt, hfind]) (hfile content)
      | directory entries =>
          refine ⟨tree, fun rest => ?_, by rw [hasDirectory, hfind], fun _ _ => rfl⟩
          rw [makeDirectoriesFrom_cons hname, hfind]

theorem hasDirectory_of_cons (h : tree.hasDirectory (last :: up).reverse = true) :
    tree.hasDirectory up.reverse = true := by
  rw [List.reverse_cons] at h
  have hthere : tree.find? (up.reverse ++ [last]) ≠ none := by
    rw [Ne, ← entryAt_eq_nothing_iff, entryAt_eq_directory_iff.mpr h]
    simp
  exact hasDirectory_of_append hthere

/-- Names whose directories were made lead to a directory. -/
theorem resolveFrom_of_makeDirectoriesFrom
    (hhere : tree.hasDirectory here.reverse = true)
    (h : makeDirectoriesFrom here names tree = some made) :
    ∃ place, made.resolveFrom here names = .inside place ∧
      made.hasDirectory place = true := by
  induction names generalizing here tree with
  | nil =>
      obtain rfl := Option.some.inj h
      exact ⟨here.reverse, rfl, hhere⟩
  | cons name rest ih =>
      by_cases hname : name = ".."
      · subst hname
        cases here with
        | nil => simp [makeDirectoriesFrom] at h
        | cons last up =>
            rw [resolveFrom_up,
              if_pos ((extends_makeDirectoriesFrom h).hasDirectory hhere)]
            exact ih (hasDirectory_of_cons hhere) h
      · obtain ⟨next, hnext, hdirectory, -⟩ := makeDirectoriesFrom_name hname h
        rw [resolveFrom_name hname]
        exact ih hdirectory hnext

/-- Directories that can be made in a tree can be made in those that it extends, and it
extends what comes of them. -/
theorem makeDirectoriesFrom_of_extends
    (hextends : tree.Extends tree') (hhere : tree.hasDirectory here.reverse = true)
    (h : makeDirectoriesFrom here names tree' = some made') :
    ∃ made, makeDirectoriesFrom here names tree = some made ∧ made.Extends made' := by
  induction names generalizing here tree tree' with
  | nil =>
      obtain rfl := Option.some.inj h
      exact ⟨tree, rfl, hextends⟩
  | cons name rest ih =>
      by_cases hname : name = ".."
      · subst hname
        cases here with
        | nil => simp [makeDirectoriesFrom] at h
        | cons last up => exact ih hextends (hasDirectory_of_cons hhere) h
      -- the name is that of a directory in the greater tree, so it is that of none but
      -- a directory in the smaller one
      · obtain ⟨next', hnext', hdirectory', hcases⟩ := makeDirectoriesFrom_name hname h
        have hextends' : tree.Extends next' := by
          rcases hcases with ⟨-, rfl⟩ | ⟨habsent, hput⟩
          · exact hextends
          · exact hextends.trans (extends_put? habsent hput)
        rw [← entryAt_eq_directory_iff] at hdirectory'
        obtain ⟨next, hnext, hdirectory, hothers⟩ :=
          exists_next hname hhere fun content hfile => by
          have hfile' := hextends' _ (by rw [hfile]; simp)
          rw [hdirectory', hfile] at hfile'
          contradiction
        rw [hnext]
        refine ih (fun other hother => ?_) hdirectory hnext'
        by_cases heq : other = (name :: here).reverse
        · rw [heq, hdirectory', entryAt_eq_directory_iff.mpr hdirectory]
        · rw [hothers other heq] at hother ⊢
          exact hextends' other hother

/-! ## Putting files -/

/-- Puts a file in a tree, with the directories that it is in. -/
def hold? (tree : FileTree) (path : Path) (content : String) : Option FileTree :=
  (tree.makeDirectories? path.parent).bind (·.write? path content)

/-- A file can be put in a tree. -/
def CanHold (tree : FileTree) (path : Path) : Prop :=
  (tree.hold? path "").isSome = true

/-- The names that lead to a file that is put in a tree with its directories. -/
structure Spot (path : Path) (made : FileTree) (spot : List String) : Prop where
  leads : made.resolve path = .inside spot
  parent : ∃ place last, spot = place ++ [last] ∧ made.hasDirectory place = true
  free : made.hasDirectory spot = false

theorem write?_eq_some_iff : made.write? path content = some held ↔
    ∃ spot, Spot path made spot ∧ put? spot (.file content) made = some held := by
  unfold write?
  constructor
  · intro h
    split at h
    · rename_i spot hspot
      split at h
      · contradiction
      · rename_i hfree
        refine ⟨spot, ⟨hspot, ?_, Bool.eq_false_iff.mpr hfree⟩, h⟩
        exact hasDirectory_of_put? h
    · contradiction
  · rintro ⟨spot, hspot, hput⟩
    rw [hspot.leads]
    dsimp only
    rw [hspot.free, if_neg (by simp), hput]

theorem Spot.exists_put? {spot : List String} (h : Spot path made spot)
    (content : String) :
    ∃ held, put? spot (.file content) made = some held := by
  obtain ⟨place, last, rfl, hplace⟩ := h.parent
  exact exists_put?_of_hasDirectory hplace last _

theorem hold?_eq_some_iff : tree.hold? path content = some held ↔
    ∃ made spot, tree.makeDirectories? path.parent = some made ∧ Spot path made spot ∧
      put? spot (.file content) made = some held := by
  rw [hold?, Option.bind_eq_some_iff]
  constructor
  · rintro ⟨made, hmade, hwrite⟩
    obtain ⟨spot, hspot, hput⟩ := write?_eq_some_iff.mp hwrite
    exact ⟨made, spot, hmade, hspot, hput⟩
  · rintro ⟨made, spot, hmade, hspot, hput⟩
    exact ⟨made, hmade, write?_eq_some_iff.mpr ⟨spot, hspot, hput⟩⟩

theorem exists_hold?_iff_spot (content : String) :
    (∃ held, tree.hold? path content = some held) ↔
    ∃ made spot, tree.makeDirectories? path.parent = some made ∧
      Spot path made spot := by
  constructor
  · rintro ⟨held, hheld⟩
    obtain ⟨made, spot, hmade, hspot, -⟩ := hold?_eq_some_iff.mp hheld
    exact ⟨made, spot, hmade, hspot⟩
  · rintro ⟨made, spot, hmade, hspot⟩
    obtain ⟨held, hput⟩ := hspot.exists_put? content
    exact ⟨held, hold?_eq_some_iff.mpr ⟨made, spot, hmade, hspot, hput⟩⟩

theorem canHold_iff : tree.CanHold path ↔
    ∃ made spot, tree.makeDirectories? path.parent = some made ∧ Spot path made spot :=
  Option.isSome_iff_exists.trans (exists_hold?_iff_spot "")

/-- Putting a file succeeds whatever its content is. -/
theorem exists_hold?_iff (content : String) :
    (∃ held, tree.hold? path content = some held) ↔ tree.CanHold path :=
  (exists_hold?_iff_spot content).trans canHold_iff.symm

/-- A file that is put where no directory is takes no directory away. -/
theorem hasDirectory_put?_file (hfree : tree.hasDirectory names = false)
    (h : put? names (.file content) tree = some tree')
    (hother : tree.hasDirectory other = true) : tree'.hasDirectory other = true := by
  rw [← entryAt_eq_directory_iff] at hother ⊢
  rw [entryAt_put? h, hother]
  rintro ⟨_ | ⟨next, rest⟩, rfl⟩
  · rw [List.append_nil, entryAt_eq_directory_iff, hfree] at hother
    contradiction
  · have hthere : tree.find? (names ++ next :: rest) ≠ none := by
      rw [Ne, ← entryAt_eq_nothing_iff, hother]
      simp
    have hdirectory := hasDirectory_of_append hthere
    rw [hfree] at hdirectory
    contradiction

/-- The content of a file that was put in a tree is under its path. -/
theorem look_of_hold? (h : tree.hold? path content = some held) :
    held.look path = .file content := by
  obtain ⟨made, spot, -, hspot, hput⟩ := hold?_eq_some_iff.mp h
  have hresolve : held.resolve path = .inside spot := by
    rw [resolve_mono (fun names => hasDirectory_put?_file hspot.free hput)
      (by rw [hspot.leads]; simp), hspot.leads]
  have hfind := find?_put?_append hput []
  rw [List.append_nil, find?_nil] at hfind
  rw [look_of_resolve hresolve, entryAt, hfind]

/-! ## In trees that have more -/

/-- Where a path leads once the directories have been made that it goes through: to a
name in one of them, or to a directory. -/
theorem resolve_of_makeDirectories? (htree : tree.hasDirectory [] = true)
    (h : tree.makeDirectories? path.parent = some made) :
    (∃ place last, made.resolve path = .inside (place ++ [last]) ∧
      made.hasDirectory place = true) ∨
      (∃ spot, made.resolve path = .inside spot ∧ made.hasDirectory spot = true) ∨
        made.resolve path = .above := by
  obtain ⟨hroot, h⟩ := makeDirectoriesFrom_of_makeDirectories? h
  have hresolve : made.resolve path = made.resolveFrom [] path.names := if_pos hroot
  rw [hresolve]
  rcases List.eq_nil_or_concat path.names with hnames | ⟨through, last, hnames⟩
  · rw [hnames]
    exact .inr (.inl ⟨[], rfl, (extends_makeDirectoriesFrom h).hasDirectory htree⟩)
  · rw [List.concat_eq_append] at hnames
    rw [Path.parent, hnames, List.dropLast_concat] at h
    obtain ⟨place, hthrough, hplace⟩ :=
      resolveFrom_of_makeDirectoriesFrom (by exact htree) h
    rw [hnames, resolveFrom_append hthrough]
    by_cases hlast : last = ".."
    · subst hlast
      cases hup : place.reverse with
      | nil => exact .inr (.inr rfl)
      | cons name up =>
          obtain rfl : place = (name :: up).reverse := by
            rw [← hup, List.reverse_reverse]
          rw [resolveFrom_up, if_pos hplace]
          exact .inr (.inl ⟨up.reverse, rfl, hasDirectory_of_cons hplace⟩)
    · refine .inl ⟨place, last, ?_, hplace⟩
      rw [resolveFrom_name hlast, resolveFrom, List.reverse_cons, List.reverse_reverse]

/-- What can be put in a tree can be put in those that it extends. -/
theorem CanHold.of_extends (htree : tree.hasDirectory [] = true)
    (hextends : tree.Extends tree') (h : tree'.CanHold path) : tree.CanHold path := by
  obtain ⟨made', spot', hmade', hspot'⟩ := canHold_iff.mp h
  obtain ⟨hroot, hmade'⟩ := makeDirectoriesFrom_of_makeDirectories? hmade'
  obtain ⟨made, hmade, hextends'⟩ :=
    makeDirectoriesFrom_of_extends hextends (by exact htree) hmade'
  have hdirectories : tree.makeDirectories? path.parent = some made := by
    rw [makeDirectories?, if_pos hroot, hmade]
  -- where the path leads in the smaller tree, it leads in the greater one, and there it
  -- leads to the spot
  have hsame : made.resolve path ≠ .unknown →
      made.resolve path = .inside spot' := fun hknown => by
    rw [← hspot'.leads, resolve_mono (fun names => hextends'.hasDirectory) hknown]
  have hfree : made.hasDirectory spot' = false :=
    Bool.eq_false_iff.mpr fun hdirectory => by
    have hdirectory' := hextends'.hasDirectory hdirectory
    rw [hspot'.free] at hdirectory'
    contradiction
  refine canHold_iff.mpr ⟨made, spot', hdirectories, ?_⟩
  rcases resolve_of_makeDirectories? htree hdirectories
    with ⟨place, last, hinside, hplace⟩ | ⟨spot, hinside, hspot⟩ | habove
  · have hleads := hsame (by rw [hinside]; simp)
    rw [hinside] at hleads
    exact ⟨by rw [hinside, hleads],
      ⟨place, last, (Place.inside.inj hleads).symm, hplace⟩, hfree⟩
  · have hleads := hsame (by rw [hinside]; simp)
    rw [hinside] at hleads
    obtain rfl := Place.inside.inj hleads
    rw [hspot] at hfree
    contradiction
  · have hleads := hsame (by rw [habove]; simp)
    rw [habove] at hleads
    contradiction

/-- No directory is where a file can be put. -/
theorem CanHold.look_ne_directory (h : tree.CanHold path) :
    tree.look path ≠ .directory := by
  obtain ⟨made, spot, hmade, hspot⟩ := canHold_iff.mp h
  intro hlook
  have hmadeLook := look_of_extends (extends_makeDirectoriesFrom
    (makeDirectoriesFrom_of_makeDirectories? hmade).2) (by rw [hlook]; simp)
  rw [hlook, look_of_resolve hspot.leads, entryAt_eq_directory_iff, hspot.free]
    at hmadeLook
  contradiction

/-- Where a directory was made there is one. -/
theorem look_of_makeDirectories? (htree : tree.hasDirectory [] = true)
    (h : tree.makeDirectories? path = some made) :
    made.look path = .directory := by
  obtain ⟨hroot, h⟩ := makeDirectoriesFrom_of_makeDirectories? h
  obtain ⟨place, hinside, hplace⟩ :=
    resolveFrom_of_makeDirectoriesFrom (by exact htree) h
  have hresolve : made.resolve path = .inside place := (if_pos hroot).trans hinside
  rw [look_of_resolve hresolve, entryAt_eq_directory_iff.mpr hplace]

/-! ## Without points -/

section

variable (hplain : ".." ∉ names)

include hplain

theorem resolveFrom_plain : tree.resolveFrom here names =
    .inside (here.reverse ++ names) := by
  induction names generalizing here with
  | nil => rw [resolveFrom, List.append_nil]
  | cons name rest ih =>
      rw [List.mem_cons, not_or] at hplain
      rw [resolveFrom_name (Ne.symm hplain.1), ih hplain.2]
      simp

/-- Directories can be made where no file is in the way. -/
theorem exists_makeDirectoriesFrom (hhere : tree.hasDirectory here.reverse = true)
    (hfiles : ∀ part, part <+: names →
      ∀ content, tree.entryAt (here.reverse ++ part) ≠ .file content) :
    ∃ made, makeDirectoriesFrom here names tree = some made := by
  induction names generalizing here tree with
  | nil => exact ⟨tree, rfl⟩
  | cons name rest ih =>
      rw [List.mem_cons, not_or] at hplain
      obtain ⟨next, hnext, hdirectory, hothers⟩ :=
        exists_next (Ne.symm hplain.1) hhere fun content => by
        have hfile := hfiles [name] (by simp) content
        rwa [List.reverse_cons]
      rw [hnext]
      refine ih hplain.2 hdirectory fun part hpart content => ?_
      cases part with
      | nil =>
          rw [List.append_nil, entryAt_eq_directory_iff.mpr hdirectory]
          simp
      | cons a part =>
          rw [hothers _ (by simp), List.reverse_cons, List.append_assoc]
          exact hfiles _ (by simpa using hpart) content

/-- Making directories changes nothing but that there are directories all
along the names. -/
theorem entryAt_makeDirectoriesFrom
    (h : makeDirectoriesFrom here names tree = some made) (other : List String) :
    made.entryAt other = tree.entryAt other ∨
      made.entryAt other = .directory ∧ ∃ part, part <+: names ∧
      other = here.reverse ++ part := by
  induction names generalizing here tree with
  | nil =>
      obtain rfl := Option.some.inj h
      exact .inl rfl
  | cons name rest ih =>
      rw [List.mem_cons, not_or] at hplain
      obtain ⟨next, hnext, hdirectory, hcases⟩ :=
        makeDirectoriesFrom_name (Ne.symm hplain.1) h
      rcases ih hplain.2 hnext with hsame | ⟨hother, part, hpart, rfl⟩
      · rw [hsame]
        rcases hcases with ⟨-, rfl⟩ | ⟨habsent, hput⟩
        · exact .inl rfl
        · by_cases heq : other = (name :: here).reverse
          · rw [heq, entryAt_eq_directory_iff.mpr hdirectory]
            exact .inr ⟨rfl, [name], by simp, by simp⟩
          · exact .inl (entryAt_put?_empty habsent hput heq)
      · exact .inr ⟨hother, name :: part, by simpa using hpart, by simp⟩

theorem hasDirectory_makeDirectoriesFrom (hhere : tree.hasDirectory here.reverse = true)
    (h : makeDirectoriesFrom here names tree = some made) {part : List String}
    (hpart : part <+: names) :
    made.hasDirectory (here.reverse ++ part) = true := by
  induction names generalizing here tree part with
  | nil =>
      obtain rfl := Option.some.inj h
      rw [List.prefix_nil.mp hpart, List.append_nil]
      exact hhere
  | cons name rest ih =>
      rw [List.mem_cons, not_or] at hplain
      obtain ⟨next, hnext, hdirectory, -⟩ :=
        makeDirectoriesFrom_name (Ne.symm hplain.1) h
      cases part with
      | nil =>
          rw [List.append_nil]
          exact (extends_makeDirectoriesFrom h).hasDirectory hhere
      | cons a part =>
          obtain ⟨rfl, hrest⟩ := List.cons_prefix_cons.mp hpart
          have hbelow := ih hplain.2 hdirectory hnext hrest
          rwa [List.reverse_cons, List.append_assoc] at hbelow

end

/-- A file can be put under names if no file is in the way and no directory is there. -/
theorem canHold_plain_iff (htree : tree.hasDirectory [] = true) (hplain : ".." ∉ names)
    (hnames : names ≠ []) :
    tree.CanHold ⟨"", names⟩ ↔
      (∀ part, part <+: names.dropLast → ∀ content, tree.entryAt part ≠ .file content) ∧
        tree.entryAt names ≠ .directory := by
  have hplainParent : ".." ∉ names.dropLast := fun h =>
    hplain (List.dropLast_subset _ h)
  rw [canHold_iff]
  constructor
  · rintro ⟨made, spot, hmade, hspot⟩
    obtain ⟨-, hmade⟩ := makeDirectoriesFrom_of_makeDirectories? hmade
    have hextends := extends_makeDirectoriesFrom hmade
    constructor
    · intro part hpart content hfile
      have hdirectory :=
        hasDirectory_makeDirectoriesFrom hplainParent (by exact htree) hmade hpart
      have hentry := hextends part (by rw [hfile]; simp)
      rw [List.reverse_nil, List.nil_append, ← entryAt_eq_directory_iff, hentry, hfile]
        at hdirectory
      contradiction
    · intro hdirectory
      have hleads : made.resolve ⟨"", names⟩ = .inside names :=
        (if_pos (by simp)).trans (resolveFrom_plain hplain)
      obtain rfl : names = spot := Place.inside.inj (hleads.symm.trans hspot.leads)
      have hhas := hextends.hasDirectory (entryAt_eq_directory_iff.mp hdirectory)
      rw [hspot.free] at hhas
      contradiction
  · rintro ⟨hfiles, hfree⟩
    obtain ⟨made, hmade⟩ : ∃ made,
        makeDirectoriesFrom [] names.dropLast tree = some made :=
      exists_makeDirectoriesFrom hplainParent (by exact htree) (by simpa using hfiles)
    refine ⟨made, names, (if_pos (by simp [Path.parent])).trans hmade, ?_, ?_, ?_⟩
    · exact (if_pos (by simp)).trans (resolveFrom_plain hplain)
    · refine ⟨names.dropLast, names.getLast hnames,
        (List.dropLast_concat_getLast hnames).symm, ?_⟩
      simpa using hasDirectory_makeDirectoriesFrom hplainParent (by exact htree) hmade
        (List.prefix_refl _)
    · refine Bool.eq_false_iff.mpr fun hdirectory => ?_
      rw [← entryAt_eq_directory_iff] at hdirectory
      rcases entryAt_makeDirectoriesFrom hplainParent hmade names with hsame
        | ⟨-, part, hpart, rfl⟩
      · exact hfree (hsame ▸ hdirectory)
      · have hlength := hpart.length_le
        have hpos := List.length_pos_iff.mpr hnames
        simp at hlength hpos
        omega

/-- A file can still be put under names after another one was put, with its directories,
where neither is in the way of the other. -/
theorem CanHold.of_apart {store : List String} (htree : tree.hasDirectory [] = true)
    (hplain : ".." ∉ names) (hstore : ".." ∉ store)
    (hmade : makeDirectoriesFrom [] store tree = some made) (hheld : held = made ∨
      ∃ content, put? (store ++ [last]) (.file content) made = some held)
    (hbefore : ¬ names <+: store ++ [last]) (hbehind : ¬ store ++ [last] <+: names)
    (h : tree.CanHold ⟨"", names⟩) :
    held.CanHold ⟨"", names⟩ := by
  have hnames : names ≠ [] := fun hnil => hbefore (by rw [hnil]; exact List.nil_prefix)
  have hchanged : ∀ other, ¬ store ++ [last] <+: other →
      held.entryAt other = tree.entryAt other ∨ held.entryAt other = .directory ∧
        other <+: store := by
    intro other hother
    have hsame : held.entryAt other = made.entryAt other := by
      rcases hheld with rfl | ⟨content, hput⟩
      · rfl
      · exact entryAt_put? hput hother
    rw [hsame]
    refine (entryAt_makeDirectoriesFrom hstore hmade other).imp id
      fun ⟨hdirectory, part, hpart, heq⟩ => ⟨hdirectory, ?_⟩
    rw [heq]
    exact hpart
  obtain ⟨hfiles, hfree⟩ := (canHold_plain_iff htree hplain hnames).mp h
  have hroot : held.hasDirectory [] = true := by
    rw [← entryAt_eq_directory_iff] at htree ⊢
    rcases hchanged [] (by simp) with hsame | ⟨hdirectory, -⟩
    · rw [hsame, htree]
    · exact hdirectory
  refine (canHold_plain_iff hroot hplain hnames).mpr ⟨fun part hpart content hfile =>
    ?_, fun hdirectory => ?_⟩
  · rcases hchanged part fun hother => hbehind
      ((hother.trans hpart).trans (List.dropLast_prefix _)) with hsame | ⟨hheld, -⟩
    · exact hfiles part hpart content (hsame ▸ hfile)
    · rw [hheld] at hfile
      contradiction
  · rcases hchanged names hbehind with hsame | ⟨-, hleading⟩
    · exact hfree (hsame ▸ hdirectory)
    · exact hbefore (hleading.trans (List.prefix_append _ _))

end ApiWorkbench.CommandLine.FileTree
