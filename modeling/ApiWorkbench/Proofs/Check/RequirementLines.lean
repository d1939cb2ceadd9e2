import ApiWorkbench.Check.Files
import ApiWorkbench.Proofs.Result
import ApiWorkbench.Proofs.TextParts
import Mathlib.Data.Bool.AllAny
import Mathlib.Data.List.TakeWhile

/-!
# Requirement lines and their grammar

A requirement is a name, perhaps with extras in brackets, perhaps with versions; the
grammar says which characters these are made of and where white space may stand. A line
is checked in one go from left to right: each part takes as many characters as it can,
and nothing is ever given back. That is enough, since what may come after a part never
begins with a character that could belong to it. The one sign that begins another one is
told apart by what comes after it: no version begins with an equals sign.

A list of requirements is checked line by line, each without its comment and the white
space around it, and the first line that is no requirement is reported.

## Main results

* `isRequirement_iff`: the lines that pass are those of the grammar.
* `firstInvalid_eq_some_iff`: which line is reported.
* `requirements_reported`: what is reported of a file.
-/

namespace ApiWorkbench.Check

/-! ## The grammar -/

/-- Characters of a class, at least one. -/
def IsRun (p : Char → Bool) (cs : List Char) : Prop :=
  cs ≠ [] ∧ ∀ c ∈ cs, p c = true

/-- White space, or nothing. -/
def IsGap (cs : List Char) : Prop :=
  ∀ c ∈ cs, Text.isBlank c = true

/-- Items with separators between them, at least one. -/
inductive SeparatedBy (separator item : List Char → Prop) : List Char → Prop
  | one {cs : List Char} (h : item cs) : SeparatedBy separator item cs
  | more {cs between rest : List Char} (h : item cs) (hbetween : separator between)
    (hrest : SeparatedBy separator item rest) :
    SeparatedBy separator item (cs ++ between ++ rest)

/-- The name of a package: it begins with a letter or a digit. -/
def IsPackageName (cs : List Char) : Prop :=
  ∃ c rest, cs = c :: rest ∧ Text.isAsciiAlphanumeric c = true ∧ ∀ d ∈ rest,
    isPackageChar d = true

/-- Between extras there is a comma, perhaps with white space after it. -/
def IsExtraSeparator (cs : List Char) : Prop :=
  ∃ gap, cs = ',' :: gap ∧ IsGap gap

/-- Extras in brackets, or none. -/
inductive IsExtras : List Char → Prop
  | none : IsExtras []
  | bracketed {extras : List Char}
      (h : SeparatedBy IsExtraSeparator (IsRun isPackageChar) extras) :
    IsExtras ('[' :: extras ++ [']'])

/-- The signs that versions are compared by. -/
def comparisons : List String :=
  ["==", ">=", "<=", "~=", "!=", ">", "<"]

/-- A comparison with a version. -/
def IsClause (cs : List Char) : Prop :=
  ∃ sign ∈ comparisons, ∃ gap version, cs = sign.toList ++ (gap ++ version) ∧
    IsGap gap ∧ IsRun isVersionChar version

/-- Between comparisons there is a comma, perhaps with white space around it. -/
def IsClauseSeparator (cs : List Char) : Prop :=
  ∃ before after, cs = before ++ ',' :: after ∧ IsGap before ∧ IsGap after

/-- Comparisons, perhaps with white space before them, or none. -/
inductive IsVersions : List Char → Prop
  | none : IsVersions []
  | listed {gap clauses : List Char} (hgap : IsGap gap)
      (h : SeparatedBy IsClauseSeparator IsClause clauses) :
    IsVersions (gap ++ clauses)

/-- A requirement: a name, perhaps extras, and perhaps versions. -/
def IsRequirement (line : List Char) : Prop :=
  ∃ name extras versions, line = name ++ (extras ++ versions) ∧ IsPackageName name ∧
    IsExtras extras ∧
    IsVersions versions

/-! ## What comes after a part -/

/-- A text does not go on with a character of a class. -/
def Ends (p : Char → Bool) (rest : List Char) : Prop :=
  ∀ c ∈ rest.head?, p c = false

theorem ends_nil (p : Char → Bool) : Ends p [] := by
  simp [Ends]

theorem ends_cons {p : Char → Bool} {c : Char} (rest : List Char) (h : p c = false) :
    Ends p (c :: rest) := by
  simpa [Ends] using h

theorem ends_dropWhile (p : Char → Bool) (cs : List Char) :
    Ends p (cs.dropWhile p) := by
  intro c hc
  have h := List.head?_dropWhile_not p cs
  rw [Option.mem_def.mp hc] at h
  simpa using h

theorem dropWhile_run {p : Char → Bool} {run rest : List Char}
    (h : ∀ c ∈ run, p c = true) (hrest : Ends p rest) :
    (run ++ rest).dropWhile p = rest := by
  rw [List.dropWhile_append_of_pos h]
  cases rest with
  | nil => rfl
  | cons c rest => rw [List.dropWhile_cons_of_neg (by simp [hrest c rfl])]

/-- White space before something else. -/
theorem Ends.of_gap {p : Char → Bool}
    (hblank : ∀ c, Text.isBlank c = true → p c = false) {gap rest : List Char}
    (hgap : IsGap gap) (hrest : Ends p rest) : Ends p (gap ++ rest) := by
  cases gap with
  | nil => exact hrest
  | cons c gap => exact ends_cons (gap ++ rest) (hblank c (hgap c List.mem_cons_self))

theorem isVersionChar_of_isPackageChar {c : Char} (h : isPackageChar c = true) :
    isVersionChar c = true := by
  simp [isVersionChar, h]

/-- The characters of versions are visible ASCII characters. -/
theorem range_of_isVersionChar {c : Char} (h : isVersionChar c = true) :
    33 ≤ c.toNat ∧ c.toNat < 127 := by
  have hmarks : ∀ d ∈ ['.', '_', '-', '*', '+', '!'], 33 ≤ d.toNat ∧ d.toNat < 127 :=
    List.all_iff_forall_prop.mp (by decide)
  simp only [isVersionChar, isPackageChar, Text.isAsciiAlphanumeric, Text.isAsciiLetter,
    Text.isAsciiDigit, Bool.or_eq_true, Bool.and_eq_true, decide_eq_true_eq, beq_iff_eq,
    Char.le_def, UInt32.le_iff_toNat_le] at h
  rcases h with (((((((h | h) | h) | rfl) | rfl) | rfl) | rfl) | rfl) | rfl
  · exact ⟨Nat.le_trans (by decide) h.1, Nat.lt_of_le_of_lt h.2 (by decide)⟩
  · exact ⟨Nat.le_trans (by decide) h.1, Nat.lt_of_le_of_lt h.2 (by decide)⟩
  · exact ⟨Nat.le_trans (by decide) h.1, Nat.lt_of_le_of_lt h.2 (by decide)⟩
  all_goals exact hmarks _ (by simp)

theorem isVersionChar_of_isBlank (c : Char) (h : Text.isBlank c = true) :
    isVersionChar c = false := by
  refine eq_false_of_ne_true fun hversion => ?_
  have hrange := range_of_isVersionChar hversion
  simp only [Text.isBlank, Bool.or_eq_true, Bool.and_eq_true, decide_eq_true_eq,
    beq_iff_eq] at h
  omega

theorem isPackageChar_of_isBlank (c : Char) (h : Text.isBlank c = true) :
    isPackageChar c = false := by
  refine eq_false_of_ne_true fun hpackage => ?_
  have hversion := isVersionChar_of_isBlank c h
  rw [isVersionChar_of_isPackageChar hpackage] at hversion
  contradiction

theorem isBlank_of_isVersionChar {c : Char} (h : isVersionChar c = true) :
    Text.isBlank c = false := by
  refine eq_false_of_ne_true fun hblank => ?_
  rw [isVersionChar_of_isBlank c hblank] at h
  contradiction

/-- What begins a list begins its first item. -/
theorem SeparatedBy.exists_head {separator item : List Char → Prop} {P : Char → Prop}
    {cs : List Char} (hitem : ∀ cs, item cs → ∃ c rest, cs = c :: rest ∧ P c)
    (h : SeparatedBy separator item cs) :
    ∃ c rest, cs = c :: rest ∧ P c := by
  cases h with
  | one h => exact hitem cs h
  | more h _ _ =>
      obtain ⟨c, rest, rfl, hc⟩ := hitem _ h
      exact ⟨c, _, rfl, hc⟩

theorem IsRun.exists_head {p : Char → Bool} {cs : List Char} (h : IsRun p cs) :
    ∃ c rest, cs = c :: rest ∧ p c = true := by
  obtain ⟨c, rest, rfl⟩ := List.exists_cons_of_ne_nil h.1
  exact ⟨c, rest, rfl, h.2 c List.mem_cons_self⟩

/-! ## Parts of a line -/

theorem afterName_eq_some_iff {cs rest : List Char} :
    afterName cs = some rest ↔ ∃ name, cs = name ++ rest ∧ IsPackageName name ∧
      Ends isPackageChar rest := by
  constructor
  · intro h
    cases cs with
    | nil => contradiction
    | cons c cs =>
        obtain ⟨hc, rfl⟩ : Text.isAsciiAlphanumeric c = true ∧
            cs.dropWhile isPackageChar = rest := by
          simpa [afterName] using h
        refine ⟨c :: cs.takeWhile isPackageChar, ?_, ⟨c, _, rfl, hc, fun d hd => ?_⟩,
          ends_dropWhile _ _⟩
        · rw [List.cons_append, List.takeWhile_append_dropWhile]
        · exact List.mem_takeWhile_imp hd
  · rintro ⟨-, rfl, ⟨c, name, rfl, hc, hname⟩, hrest⟩
    rw [List.cons_append, afterName, if_pos hc, dropWhile_run hname hrest]

theorem afterRun_eq_some_iff {p : Char → Bool} {cs rest : List Char} :
    afterRun p cs = some rest ↔ ∃ run, cs = run ++ rest ∧ IsRun p run ∧
      Ends p rest := by
  constructor
  · intro h
    cases cs with
    | nil => contradiction
    | cons c cs =>
        obtain ⟨hc, rfl⟩ : p c = true ∧ cs.dropWhile p = rest := by
          simpa [afterRun] using h
        refine ⟨c :: cs.takeWhile p, ?_, ⟨List.cons_ne_nil _ _, fun d hd => ?_⟩,
          ends_dropWhile _ _⟩
        · rw [List.cons_append, List.takeWhile_append_dropWhile]
        · rcases List.mem_cons.mp hd with rfl | hd
          · exact hc
          · exact List.mem_takeWhile_imp hd
  · rintro ⟨run, rfl, hrun, hrest⟩
    obtain ⟨c, run, rfl, hc⟩ := hrun.exists_head
    rw [List.cons_append, afterRun, if_pos hc,
      dropWhile_run (fun d hd => hrun.2 d (List.mem_cons_of_mem c hd)) hrest]

/-! ## Extras -/

theorem exists_of_afterExtras {fuel : Nat} {cs rest : List Char}
    (h : afterExtras fuel cs = some rest) :
    ∃ extras, cs = extras ++ ']' :: rest ∧
      SeparatedBy IsExtraSeparator (IsRun isPackageChar) extras := by
  induction fuel generalizing cs with
  | zero => contradiction
  | succ fuel ih =>
      rw [afterExtras] at h
      split at h
      · next hrun =>
        obtain rfl := Option.some.inj h
        obtain ⟨extra, rfl, hextra, -⟩ := afterRun_eq_some_iff.mp hrun
        exact ⟨extra, rfl, .one hextra⟩
      · next following hrun =>
        obtain ⟨extra, rfl, hextra, -⟩ := afterRun_eq_some_iff.mp hrun
        obtain ⟨extras, hextras, hseparated⟩ := ih h
        refine ⟨extra ++ (',' :: following.takeWhile Text.isBlank) ++ extras, ?_, ?_⟩
        · rw [List.append_assoc, List.append_assoc, ← hextras, List.cons_append,
            List.takeWhile_append_dropWhile]
        · exact .more hextra ⟨_, rfl, fun c hc => List.mem_takeWhile_imp hc⟩ hseparated
      · contradiction

theorem afterExtras_of_separated {extras : List Char}
    (h : SeparatedBy IsExtraSeparator (IsRun isPackageChar) extras)
    (rest : List Char) {fuel : Nat}
    (hfuel : extras.length < fuel) : afterExtras fuel (extras ++ ']' :: rest) =
      some rest := by
  induction h generalizing fuel with
  | @one extra hextra =>
      obtain ⟨fuel, rfl⟩ := Nat.exists_eq_add_one_of_ne_zero (Nat.ne_zero_of_lt hfuel)
      have hrun : afterRun isPackageChar (extra ++ ']' :: rest) = some (']' :: rest) :=
        afterRun_eq_some_iff.mpr ⟨extra, rfl, hextra, ends_cons rest (by decide)⟩
      rw [afterExtras, hrun]
      rfl
  | @more extra between extras hextra hbetween hseparated ih =>
      obtain ⟨gap, rfl, hgap⟩ := hbetween
      obtain ⟨fuel, rfl⟩ := Nat.exists_eq_add_one_of_ne_zero (Nat.ne_zero_of_lt hfuel)
      have hrun : afterRun isPackageChar (extra ++ (',' :: gap) ++ extras ++ ']' ::
          rest) = some (',' :: (gap ++ (extras ++ ']' :: rest))) :=
        afterRun_eq_some_iff.mpr ⟨extra, by simp, hextra, ends_cons _ (by decide)⟩
      have hends : Ends Text.isBlank (extras ++ ']' :: rest) := by
        obtain ⟨c, extras, rfl, hc⟩ := hseparated.exists_head fun _ hrun =>
          hrun.exists_head
        exact ends_cons _ (isBlank_of_isVersionChar (isVersionChar_of_isPackageChar hc))
      rw [afterExtras, hrun]
      show afterExtras fuel ((gap ++ (extras ++ ']' :: rest)).dropWhile Text.isBlank) =
        some rest
      rw [dropWhile_run hgap hends]
      refine ih ?_
      simp only [List.length_append, List.length_cons] at hfuel
      omega

/-! ## Versions -/

theorem exists_of_afterComparison {cs rest : List Char}
    (h : afterComparison cs = some rest) :
    ∃ sign ∈ comparisons, cs = sign.toList ++ rest := by
  unfold afterComparison at h
  split at h
  case h_8 => contradiction
  all_goals obtain rfl := Option.some.inj h
  · exact ⟨"==", by decide, rfl⟩
  · exact ⟨">=", by decide, rfl⟩
  · exact ⟨"<=", by decide, rfl⟩
  · exact ⟨"~=", by decide, rfl⟩
  · exact ⟨"!=", by decide, rfl⟩
  · exact ⟨">", by decide, rfl⟩
  · exact ⟨"<", by decide, rfl⟩

/-- A sign is taken off if what comes after it could not make it a longer one. -/
theorem afterComparison_sign {sign : String} (h : sign ∈ comparisons) {rest : List Char}
    (hrest : rest.head? ≠ some '=') : afterComparison (sign.toList ++ rest) =
      some rest := by
  have hnone : ∀ more, rest ≠ '=' :: more := by
    rintro more rfl
    exact hrest rfl
  simp only [comparisons, List.mem_cons, List.not_mem_nil, or_false] at h
  rcases h with rfl | rfl | rfl | rfl | rfl | rfl | rfl
  case inr.inr.inr.inr.inr.inl => exact afterComparison.eq_6 rest (hnone ·)
  case inr.inr.inr.inr.inr.inr => exact afterComparison.eq_7 rest (hnone ·)
  all_goals rfl

theorem exists_of_afterVersion {cs rest : List Char} (h : afterVersion cs = some rest) :
    ∃ gap clause, cs = gap ++ (clause ++ rest) ∧ IsGap gap ∧ IsClause clause := by
  obtain ⟨following, hcomparison, h⟩ := Option.bind_eq_some_iff.mp h
  obtain ⟨sign, hsign, hfollowing⟩ := exists_of_afterComparison hcomparison
  obtain ⟨version, hversion, hrun, -⟩ := afterRun_eq_some_iff.mp h
  refine ⟨cs.takeWhile Text.isBlank, sign.toList ++ (following.takeWhile Text.isBlank ++
    version), ?_, fun c hc => List.mem_takeWhile_imp hc, sign, hsign, _, version, rfl,
    fun c hc => List.mem_takeWhile_imp hc, hrun⟩
  rw [List.append_assoc, List.append_assoc, ← hversion,
    List.takeWhile_append_dropWhile, ← hfollowing, List.takeWhile_append_dropWhile]

/-- A comparison begins with one of few marks, none of which is white space. -/
theorem IsClause.exists_head {clause : List Char} (h : IsClause clause) :
    ∃ c rest, clause = c :: rest ∧ c ∈ ['=', '>', '<', '~', '!'] := by
  obtain ⟨sign, hsign, gap, version, rfl, -, -⟩ := h
  have hsigns : ∀ sign ∈ comparisons,
      sign.toList.head?.any ['=', '>', '<', '~', '!'].contains = true := by
    decide
  obtain ⟨c, hhead, hc⟩ := (Option.any_eq_true _ _).mp (hsigns sign hsign)
  obtain ⟨more, hmore⟩ := List.head?_eq_some_iff.mp hhead
  exact ⟨c, _, by rw [hmore, List.cons_append], List.contains_iff_mem.mp hc⟩

theorem afterVersion_clause {gap clause rest : List Char} (hgap : IsGap gap)
    (hclause : IsClause clause) (hrest : Ends isVersionChar rest) :
    afterVersion (gap ++ (clause ++ rest)) = some rest := by
  have hmarks : ∀ c ∈ ['=', '>', '<', '~', '!'], Text.isBlank c = false :=
    List.all_iff_forall_prop.mp (by decide)
  have hends : Ends Text.isBlank (clause ++ rest) := by
    obtain ⟨c, more, rfl, hc⟩ := hclause.exists_head
    exact ends_cons _ (hmarks c hc)
  obtain ⟨sign, hsign, between, version, rfl, hbetween, hversion⟩ := hclause
  obtain ⟨c, more, hcons, hc⟩ := hversion.exists_head
  have hequals : (between ++ (version ++ rest)).head? ≠ some '=' := by
    intro hhead
    have hnot : Ends (· == '=') (between ++ (version ++ rest)) := by
      refine Ends.of_gap (fun d hd => ?_) hbetween ?_
      · refine beq_eq_false_iff_ne.mpr ?_
        rintro rfl
        exact absurd hd (by decide)
      · rw [hcons]
        refine ends_cons _ (beq_eq_false_iff_ne.mpr ?_)
        rintro rfl
        exact absurd hc (by decide)
    exact absurd (hnot '=' hhead) (by decide)
  have hblank : Ends Text.isBlank (version ++ rest) := by
    rw [hcons]
    exact ends_cons _ (isBlank_of_isVersionChar hc)
  have hrun : afterRun isVersionChar (version ++ rest) = some rest :=
    afterRun_eq_some_iff.mpr ⟨version, rfl, hversion, hrest⟩
  rw [afterVersion, dropWhile_run hgap hends, List.append_assoc, List.append_assoc,
    afterComparison_sign hsign hequals]
  show afterRun isVersionChar ((between ++ (version ++ rest)).dropWhile Text.isBlank) =
    some rest
  rw [dropWhile_run hbetween hblank, hrun]

theorem exists_of_areVersions {fuel : Nat} {cs : List Char}
    (h : areVersions fuel cs = true) :
    ∃ gap clauses, cs = gap ++ clauses ∧ IsGap gap ∧
      SeparatedBy IsClauseSeparator IsClause clauses := by
  induction fuel generalizing cs with
  | zero => contradiction
  | succ fuel ih =>
      rw [areVersions] at h
      split at h
      · contradiction
      next rest hversion =>
      obtain ⟨gap, clause, rfl, hgap, hclause⟩ := exists_of_afterVersion hversion
      split at h
      · next hempty =>
        obtain rfl := List.isEmpty_iff.mp hempty
        exact ⟨gap, clause, by simp, hgap, .one hclause⟩
      split at h
      · next following hfollowing =>
        obtain ⟨after, clauses, rfl, hafter, hseparated⟩ := ih h
        refine ⟨gap, clause ++ (rest.takeWhile Text.isBlank ++ ',' :: after) ++ clauses,
          ?_, hgap, .more hclause ⟨_, after, rfl, fun c hc => List.mem_takeWhile_imp hc,
          hafter⟩ hseparated⟩
        rw [List.append_assoc, List.append_assoc, List.cons_append, ← hfollowing,
          List.takeWhile_append_dropWhile]
      · contradiction

theorem areVersions_of_separated {clauses : List Char}
    (h : SeparatedBy IsClauseSeparator IsClause clauses) {gap : List Char}
    (hgap : IsGap gap) {fuel : Nat} (hfuel : clauses.length < fuel) :
    areVersions fuel (gap ++ clauses) = true := by
  induction h generalizing gap fuel with
  | @one clause hclause =>
      obtain ⟨fuel, rfl⟩ := Nat.exists_eq_add_one_of_ne_zero (Nat.ne_zero_of_lt hfuel)
      have hversion := afterVersion_clause hgap hclause (ends_nil _)
      rw [List.append_nil] at hversion
      rw [areVersions, hversion]
      rfl
  | @more clause between clauses hclause hbetween hseparated ih =>
      obtain ⟨before, after, rfl, hbefore, hafter⟩ := hbetween
      obtain ⟨fuel, rfl⟩ := Nat.exists_eq_add_one_of_ne_zero (Nat.ne_zero_of_lt hfuel)
      have hends : Ends isVersionChar (before ++ ',' :: (after ++ clauses)) :=
        .of_gap isVersionChar_of_isBlank hbefore (ends_cons _ (by decide))
      have hversion := afterVersion_clause hgap hclause hends
      have hcomma : (before ++ ',' :: (after ++ clauses)).dropWhile Text.isBlank =
          ',' :: (after ++ clauses) :=
        dropWhile_run hbefore (ends_cons _ (by decide))
      have hassoc : gap ++ (clause ++ (before ++ ',' :: after) ++ clauses) =
          gap ++ (clause ++ (before ++ ',' :: (after ++ clauses))) := by simp
      rw [hassoc, areVersions, hversion]
      dsimp only
      rw [if_neg (by simp), hcomma]
      refine ih hafter ?_
      simp only [List.length_append, List.length_cons] at hfuel
      omega

/-! ## Lines -/

/-- What begins versions: white space or one of few marks. -/
theorem IsVersions.ends {versions : List Char} (h : IsVersions versions)
    {p : Char → Bool} (hblank : ∀ c, Text.isBlank c = true → p c = false)
    (hmarks : ∀ c ∈ ['=', '>', '<', '~', '!'], p c = false) :
    Ends p versions := by
  cases h with
  | none => exact ends_nil p
  | listed hgap h =>
      obtain ⟨c, more, rfl, hc⟩ := h.exists_head fun _ hclause => hclause.exists_head
      exact .of_gap hblank hgap (ends_cons more (hmarks c hc))

theorem areVersions_of_isVersions {versions : List Char} (h : IsVersions versions)
    (hne : versions ≠ []) :
    areVersions (versions.length + 1) versions = true := by
  cases h with
  | none => contradiction
  | listed hgap h =>
      refine areVersions_of_separated h hgap ?_
      rw [List.length_append]
      omega

/-- What is left after extras in brackets, if there are any. -/
def afterBrackets : List Char → Option (List Char)
  | '[' :: extras => afterExtras (extras.length + 1) extras
  | rest => some rest

/-- Whether what is left after extras is nothing, or versions. -/
def endsWithVersions : List Char → Bool
  | [] => true
  | versions => areVersions (versions.length + 1) versions

/-- A line is checked part by part. -/
theorem isRequirement_eq (line : List Char) :
    isRequirement line = ((afterName line).bind afterBrackets).any
      endsWithVersions := by
  rw [isRequirement]
  cases afterName line with
  | none => rfl
  | some rest =>
      rw [Option.bind_some]
      rcases rest with _ | ⟨c, rest⟩
      · rfl
      by_cases hc : c = '['
      · subst hc
        cases hextras : afterExtras (rest.length + 1) rest with
        | none => simp [afterBrackets, hextras]
        | some versions =>
            cases versions <;> simp [afterBrackets, hextras, endsWithVersions]
      · have hother : ∀ extras, c :: rest ≠ '[' :: extras := by simp [hc]
        rw [afterBrackets.eq_2 _ (hother ·)]
        simp [endsWithVersions]

theorem afterBrackets_iff {rest versions : List Char}
    (hversions : IsVersions versions) :
    afterBrackets rest = some versions ↔ ∃ extras, rest = extras ++ versions ∧
      IsExtras extras := by
  constructor
  · intro h
    unfold afterBrackets at h
    split at h
    · obtain ⟨extras, rfl, hextras⟩ := exists_of_afterExtras h
      exact ⟨'[' :: extras ++ [']'], by simp, .bracketed hextras⟩
    · obtain rfl := Option.some.inj h
      exact ⟨[], rfl, .none⟩
  · rintro ⟨extras, rfl, hextras⟩
    cases hextras with
    | none =>
        -- versions begin with white space or a mark, so no bracket is taken
        -- for one of extras
        have hopening : Ends (· == '[') versions := by
          refine hversions.ends (fun c hc => beq_eq_false_iff_ne.mpr ?_)
            (List.all_iff_forall_prop.mp (by decide))
          rintro rfl
          exact absurd hc (by decide)
        unfold afterBrackets
        split
        · next rest heq =>
          rw [show versions = '[' :: rest from heq] at hopening
          exact absurd (hopening '[' rfl) (by decide)
        · rfl
    | @bracketed extras h =>
        rw [show '[' :: extras ++ [']'] ++ versions =
          '[' :: (extras ++ ']' :: versions) by simp, afterBrackets]
        refine afterExtras_of_separated h versions ?_
        rw [List.length_append]
        omega

theorem endsWithVersions_iff {versions : List Char} :
    endsWithVersions versions = true ↔ IsVersions versions := by
  cases versions with
  | nil => exact ⟨fun _ => .none, fun _ => rfl⟩
  | cons c rest =>
      constructor
      · intro h
        obtain ⟨gap, clauses, heq, hgap, hclauses⟩ := exists_of_areVersions h
        rw [heq]
        exact .listed hgap hclauses
      · exact fun h => areVersions_of_isVersions h (List.cons_ne_nil c rest)

/-- After a name there may only be what does not go on with it. -/
theorem IsExtras.ends {extras versions : List Char} (h : IsExtras extras)
    (hversions : IsVersions versions) :
    Ends isPackageChar (extras ++ versions) := by
  cases h with
  | none =>
      exact hversions.ends isPackageChar_of_isBlank
        (List.all_iff_forall_prop.mp (by decide))
  | bracketed => exact ends_cons _ (by decide)

/-- The lines that pass are the requirements. -/
theorem isRequirement_iff {line : List Char} :
    isRequirement line = true ↔ IsRequirement line := by
  rw [isRequirement_eq, Option.any_eq_true]
  constructor
  · rintro ⟨versions, hversions, hends⟩
    obtain ⟨rest, hrest, hbrackets⟩ := Option.bind_eq_some_iff.mp hversions
    obtain ⟨name, rfl, hname, -⟩ := afterName_eq_some_iff.mp hrest
    obtain ⟨extras, rfl, hextras⟩ :=
      (afterBrackets_iff (endsWithVersions_iff.mp hends)).mp hbrackets
    exact ⟨name, extras, versions, rfl, hname, hextras, endsWithVersions_iff.mp hends⟩
  · rintro ⟨name, extras, versions, rfl, hname, hextras, hversions⟩
    refine ⟨versions, Option.bind_eq_some_iff.mpr ⟨extras ++ versions, ?_, ?_⟩,
      endsWithVersions_iff.mpr hversions⟩
    · exact afterName_eq_some_iff.mpr ⟨name, rfl, hname, hextras.ends hversions⟩
    · exact (afterBrackets_iff hversions).mpr ⟨extras, rfl, hextras⟩

example : isRequirement "a[b, c] >= 1,!=2".toList = true ∧
    isRequirement "a > =1".toList = false := by
  decide

/-! ## Files -/

/-- A line that has something in it, apart from its comment, that is no requirement. -/
def IsInvalid (line : List Char) : Prop :=
  requirementText line ≠ [] ∧ ¬ IsRequirement (requirementText line)

/-- A line is passed over exactly when it is not invalid. -/
theorem passes_iff {line : List Char} :
    ((requirementText line).isEmpty || isRequirement (requirementText line)) = true ↔
      ¬ IsInvalid line := by
  rw [Bool.or_eq_true, List.isEmpty_iff, isRequirement_iff, IsInvalid]
  tauto

/-- The first line that is invalid is reported, with its number and without comment
and white space. -/
theorem firstInvalid_eq_some_iff {first number : Nat} {lines : List (List Char)}
    {text : String} :
    firstInvalid first lines = some (number, text) ↔
      ∃ before line after, lines = before ++ line :: after ∧
      (∀ other ∈ before, ¬ IsInvalid other) ∧ IsInvalid line ∧
      number = first + before.length ∧
      text = String.ofList (requirementText line) := by
  induction lines generalizing first with
  | nil => simp [firstInvalid]
  | cons line rest ih =>
      rw [firstInvalid]
      split
      · next hpasses =>
        have hline := passes_iff.mp hpasses
        rw [ih]
        constructor
        · rintro ⟨before, found, after, rfl, hbefore, hfound, rfl, rfl⟩
          refine ⟨line :: before, found, after, rfl,
            List.forall_mem_cons.mpr ⟨hline, hbefore⟩, hfound, ?_, rfl⟩
          rw [List.length_cons]
          omega
        · rintro ⟨before, found, after, heq, hbefore, hfound, rfl, rfl⟩
          cases before with
          | nil =>
              obtain ⟨rfl, rfl⟩ := List.cons.inj heq
              exact absurd hfound hline
          | cons other before =>
              obtain ⟨rfl, rfl⟩ := List.cons.inj heq
              refine ⟨before, found, after, rfl, fun l hl =>
                hbefore l (List.mem_cons_of_mem _ hl), hfound, ?_, rfl⟩
              rw [List.length_cons]
              omega
      · next hinvalid =>
        have hline : IsInvalid line := not_not.mp fun h => hinvalid (passes_iff.mpr h)
        rw [Option.some.injEq, Prod.mk.injEq]
        constructor
        · rintro ⟨rfl, rfl⟩
          exact ⟨[], line, rest, rfl, by simp, hline, rfl, rfl⟩
        · rintro ⟨before, found, after, heq, hbefore, hfound, rfl, rfl⟩
          cases before with
          | nil =>
              obtain ⟨rfl, rfl⟩ := List.cons.inj heq
              exact ⟨rfl, rfl⟩
          | cons other before =>
              obtain ⟨rfl, rfl⟩ := List.cons.inj heq
              exact absurd hline (hbefore line List.mem_cons_self)

theorem firstInvalid_eq_none_iff {first : Nat} {lines : List (List Char)} :
    firstInvalid first lines = none ↔ ∀ line ∈ lines, ¬ IsInvalid line := by
  induction lines generalizing first with
  | nil => simp [firstInvalid]
  | cons line rest ih =>
      rw [firstInvalid, List.forall_mem_cons, ← passes_iff]
      split
      · next hpasses => rw [ih, and_iff_right hpasses]
      · next hinvalid => simp [hinvalid]

/-- A list of requirements, by the last part of its name. -/
def IsRequirementsFile (name : String) : Prop :=
  name = "requirements.txt" ∨ ∃ directory, name = directory ++ "/" ++ "requirements.txt"

theorem isRequirementsName_iff {name : String} :
    isRequirementsName name = true ↔ IsRequirementsFile name := by
  rw [isRequirementsName, beq_iff_eq, Text.getLast?_splitAt, and_iff_right (by decide),
    IsRequirementsFile]
  refine or_congr String.toList_inj ⟨?_, ?_⟩
  · rintro ⟨before, h⟩
    refine ⟨String.ofList before, String.toList_inj.mp ?_⟩
    rw [h]
    simp
  · rintro ⟨directory, rfl⟩
    exact ⟨directory.toList, by simp⟩

/-- The first line of a text that is invalid, as it is reported: its number, from one
on, and what is in it apart from its comment and the white space around the rest. -/
def FirstInvalidLine (content : String) (number : Nat) (text : String) : Prop :=
  ∃ before line after, Text.SplitInto content.toList (before ++ line :: after) ∧
    (∀ other ∈ before, ¬ IsInvalid other) ∧ IsInvalid line ∧
    number = before.length + 1 ∧
    text = String.ofList (requirementText line)

theorem invalidRequirement_eq_some_iff {content text : String} {number : Nat} :
    invalidRequirement content = some (number, text) ↔
      FirstInvalidLine content number text := by
  rw [invalidRequirement, firstInvalid_eq_some_iff, FirstInvalidLine]
  simp only [Text.splitInto_iff, Nat.add_comm 1,
    eq_comm (a := Text.linesOf content.toList)]

theorem IsRequirementsFile.suffix {name : String} (h : IsRequirementsFile name) :
    "requirements.txt".toList <:+ name.toList := by
  rcases h with rfl | ⟨directory, rfl⟩
  · exact List.suffix_rfl
  · rw [String.toList_append]
    exact List.suffix_append _ _

/-- A list of requirements is checked as nothing else. -/
theorem checkFile_of_isRequirementsFile {name : String} (h : IsRequirementsFile name)
    (content : String) :
    checkFile name content = .ok (checkRequirements content) := by
  have hends : ∀ ending ∈ [".py", ".yaml", ".yml", ".json"],
      name.endsWith ending = false := by
    intro ending hending
    have hother : ∀ ending ∈ [".py", ".yaml", ".yml", ".json"],
        ending.toList.length ≤ "requirements.txt".toList.length ∧ ¬ ending.toList <:+
          "requirements.txt".toList := by
      decide
    rw [String.endsWith_eq_endsWith_toSlice, String.Slice.endsWith_string_eq_false_iff,
      String.copy_toSlice]
    intro hsuffix
    exact (hother ending hending).2
      (List.suffix_of_suffix_length_le hsuffix h.suffix (hother ending hending).1)
  rw [checkFile, hends ".py" (by simp), hends ".yaml" (by simp), hends ".yml" (by simp),
    hends ".json" (by simp), isRequirementsName_iff.mpr h]
  rfl

/-- Other files are not reported for requirements. -/
theorem isRequirementsFile_of_checkFile {name content text : String} {number : Nat}
    (h : checkFile name content = .ok (some (.brokenRequirement number text))) :
    IsRequirementsFile name := by
  unfold checkFile at h
  split at h
  · unfold checkSource at h
    split at h <;> simp at h
  split at h
  · unfold checkYaml at h
    split at h <;> simp at h
  split at h
  · unfold checkJson at h
    split at h <;> simp at h
  split at h
  · exact isRequirementsName_iff.mp ‹_›
  · simp at h

theorem checkFile_brokenRequirement_iff {name content text : String} {number : Nat} :
    checkFile name content = .ok (some (.brokenRequirement number text)) ↔
      IsRequirementsFile name ∧ FirstInvalidLine content number text := by
  constructor
  · intro h
    have hname := isRequirementsFile_of_checkFile h
    rw [checkFile_of_isRequirementsFile hname, checkRequirements, Except.ok.injEq,
      Option.map_eq_some_iff] at h
    obtain ⟨⟨line, found⟩, hfound, hfinding⟩ := h
    obtain ⟨rfl, rfl⟩ := Finding.brokenRequirement.inj hfinding
    exact ⟨hname, invalidRequirement_eq_some_iff.mp hfound⟩
  · rintro ⟨hname, hfirst⟩
    rw [checkFile_of_isRequirementsFile hname, checkRequirements,
      invalidRequirement_eq_some_iff.mpr hfirst]
    rfl

/-- There is an invalid line exactly if there is a first one. -/
theorem exists_firstInvalidLine_iff {content : String} :
    (∃ number text, FirstInvalidLine content number text) ↔
      ∃ lines, Text.SplitInto content.toList lines ∧ ∃ line ∈ lines,
        IsInvalid line := by
  constructor
  · rintro ⟨-, -, before, line, after, hsplit, -, hline, -⟩
    exact ⟨_, hsplit, line, by simp, hline⟩
  · rintro ⟨lines, hsplit, line, hline, hinvalid⟩
    obtain rfl := Text.splitInto_iff.mp hsplit
    cases hfound : invalidRequirement content with
    | none => exact absurd hinvalid (firstInvalid_eq_none_iff.mp hfound line hline)
    | some found => exact ⟨found.1, found.2, invalidRequirement_eq_some_iff.mp hfound⟩

/-- Of a file a line that is no requirement is reported exactly if it is a list of
requirements in which some line is invalid. It is the first such line that is reported,
with its number and its text; nothing else is ever reported of a list of requirements,
and its check comes to an end. -/
theorem requirements_reported (name content : String) :
    ((∃ number text, checkFile name content =
      .ok (some (.brokenRequirement number text))) ↔
      IsRequirementsFile name ∧ ∃ lines, Text.SplitInto content.toList lines ∧
        ∃ line ∈ lines, IsInvalid line) ∧
    (∀ number text, checkFile name content =
      .ok (some (.brokenRequirement number text)) ↔
      IsRequirementsFile name ∧ FirstInvalidLine content number text) ∧
    (IsRequirementsFile name → checkFile name content = .ok none ∨
      ∃ number text, checkFile name content =
        .ok (some (.brokenRequirement number text))) := by
  refine ⟨?_, fun number text => checkFile_brokenRequirement_iff, fun hname => ?_⟩
  · simp only [checkFile_brokenRequirement_iff, exists_and_left,
      exists_firstInvalidLine_iff]
  · rw [checkFile_of_isRequirementsFile hname, checkRequirements]
    cases invalidRequirement content with
    | none => exact .inl rfl
    | some found => exact .inr ⟨found.1, found.2, rfl⟩

end ApiWorkbench.Check
