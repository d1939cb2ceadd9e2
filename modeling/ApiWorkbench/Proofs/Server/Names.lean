import ApiWorkbench.Proofs.FreeNames
import ApiWorkbench.Server.Program

/-!
# Free names in a generated server

The search for a name looks at one number after another until one makes a free name, and
different numbers make different names.

A tool brings one name into use. The function for a tool brings three, its own and two
that are made from it by an ending, and still a name in use stands in the way of one
number only, since no ending is made of digits.

## Main results

* `free_isFirstFree`: the search ends with the first free name, if some number within
  its tries makes one.
* `freeToolName_notMem`, `handlerName_isFirstFree`: what is found is free.
* `isToolChar_of_mem_freeToolName`, `isHandlerName_handlerName`: what it is made of.
-/

namespace ApiWorkbench.Server

/-! ## Numbers after names -/

theorem toList_numbered (base : String) (n : Nat) :
    (numbered base n).toList = base.toList ++ '_' :: Nat.toDigits 10 n := by
  simp [numbered]

theorem numbered_inj {base : String} {m n : Nat} :
    numbered base m = numbered base n ↔ m = n := by
  rw [← String.toList_inj, toList_numbered, toList_numbered, List.append_cancel_left_eq,
    List.cons.injEq, toDigits_inj]
  exact and_iff_right rfl

/-! ## The search -/

section

variable {taken : String → Bool} {base : String}

/-- The search for a number is the one for a number that makes a free name. -/
theorem freeNumber_eq (taken : String → Bool) (base : String) (tries start : Nat) :
    freeNumber taken base tries start =
      leastFree (fun n => taken (numbered base n)) tries start := by
  induction tries generalizing start with
  | zero => rfl
  | succ tries ih => rw [freeNumber, leastFree, ih]

/-- A free name is the first one that a search comes to: the name itself, or else the
name with the least number from two on that makes it a free one. -/
def IsFirstFree (taken : String → Bool) (base found : String) : Prop :=
  taken found = false ∧ (found = base ∨
    taken base = true ∧ ∃ n, 2 ≤ n ∧ found = numbered base n ∧ ∀ k, 2 ≤ k → k < n →
      taken (numbered base k) = true)

/-- What is found is the first free name, if some number within the tries makes one. -/
theorem free_isFirstFree {tries : Nat}
    (h : ∃ n, 2 ≤ n ∧ n < 2 + tries ∧ taken (numbered base n) = false) :
    IsFirstFree taken base (free taken tries base) := by
  rw [free]
  split
  · rw [freeNumber_eq]
    have hfirst := leastFree_first h
    exact ⟨hfirst.free, .inr ⟨‹_›, _, hfirst.start_le, rfl, hfirst.before⟩⟩
  · rename_i hbase
    exact ⟨eq_false_of_ne_true hbase, .inl rfl⟩

/-- What is found is the name itself, or has a number after it. -/
theorem free_cases (taken : String → Bool) (tries : Nat) (base : String) :
    free taken tries base = base ∨ ∃ n, free taken tries base = numbered base n := by
  rw [free]
  split
  · exact .inr ⟨_, rfl⟩
  · exact .inl rfl

end

/-! ## Tools -/

theorem exists_free_toolNumber (used : List String) (base : String) :
    ∃ n, 2 ≤ n ∧ n < 2 + (used.length + 1) ∧
      used.contains (numbered base n) = false := by
  refine exists_free_number (fun n => used.contains (numbered base n))
    (fun n => [numbered base n]) (fun n hn => ?_) (fun m n name hm hn => ?_) 2
  · exact ⟨numbered base n, List.mem_singleton_self _, List.contains_iff_mem.mp hn⟩
  · exact numbered_inj.mp
      ((List.mem_singleton.mp hm).symm.trans (List.mem_singleton.mp hn))

/-- The name of a tool is not in use. -/
theorem freeToolName_notMem (used : List String) (base : String) :
    freeToolName used base ∉ used := by
  intro hmem
  have hfree := (free_isFirstFree (exists_free_toolNumber used base)).1
  rw [show free used.contains (used.length + 1) base = freeToolName used base from rfl,
    List.contains_iff_mem.mpr hmem] at hfree
  contradiction

theorem isToolChar_iff {c : Char} :
    isToolChar c = true ↔
      ('A' ≤ c ∧ c ≤ 'Z') ∨ ('a' ≤ c ∧ c ≤ 'z') ∨ ('0' ≤ c ∧ c ≤ '9') ∨
        c = '_' ∨ c = '-' := by
  simp only [isToolChar, Text.isAsciiAlphanumeric, Text.isAsciiLetter,
    Text.isAsciiDigit, Bool.or_eq_true, Bool.and_eq_true, decide_eq_true_eq, beq_iff_eq]
  tauto

theorem singleUnderscores_sublist (text : List Char) :
    (singleUnderscores text).Sublist text := by
  induction text with
  | nil => exact .slnil
  | cons c rest ih =>
      rw [singleUnderscores]
      split
      · exact ih.cons c
      · exact ih.cons_cons c

theorem trimBy_sublist (drop : Char → Bool) (text : List Char) :
    (Text.trimBy drop text).Sublist text := by
  have hreverse : ((text.dropWhile drop).reverse.dropWhile drop).Sublist
      (text.dropWhile drop).reverse :=
    List.dropWhile_sublist drop
  rw [Text.trimBy, ← List.reverse_sublist, List.reverse_reverse]
  exact hreverse.trans (List.reverse_sublist.mpr (List.dropWhile_sublist drop))

/-- A digit of a number is an ASCII digit. -/
theorem isAsciiDigit_of_mem_toDigits {n : Nat} {c : Char} (hc : c ∈ Nat.toDigits 10 n) :
    Text.isAsciiDigit c = true := by
  have hdigit := Nat.isDigit_of_mem_toDigits (by omega) (by omega) hc
  simpa [Char.isDigit, Text.isAsciiDigit, Char.le_def] using hdigit

/-- The name of a tool for an operation is made of plain characters, if that of
the fallback is. -/
theorem isToolChar_of_mem_toolName {operationId fallback : String}
    (hfallback : ∀ c ∈ fallback.toList, isToolChar c = true) :
    ∀ c ∈ (toolName operationId fallback).toList, isToolChar c = true := by
  intro c hc
  unfold toolName at hc
  dsimp only at hc
  split at hc
  · exact hfallback c hc
  · rename_i name hname
    rw [String.toList_ofList] at hc
    have hplain := ((trimBy_sublist _ _).trans (singleUnderscores_sublist _)).subset hc
    obtain ⟨d, -, rfl⟩ := List.mem_map.mp hplain
    split
    · assumption
    · rfl

theorem toolName_ne_empty {operationId fallback : String} (hfallback : fallback ≠ "") :
    toolName operationId fallback ≠ "" := by
  unfold toolName
  dsimp only
  split
  · exact hfallback
  · rename_i name hname
    intro hempty
    have hnil := congrArg String.toList hempty
    rw [String.toList_ofList] at hnil
    exact hname hnil

/-- A number after a name leaves it made of plain characters. -/
private theorem isToolChar_of_mem_numbered {base : String}
    (hbase : ∀ c ∈ base.toList, isToolChar c = true) (n : Nat) :
    ∀ c ∈ (numbered base n).toList, isToolChar c = true := by
  intro c hc
  rw [toList_numbered, List.mem_append, List.mem_cons] at hc
  rcases hc with hc | rfl | hc
  · exact hbase c hc
  · rfl
  · rw [isToolChar, Text.isAsciiAlphanumeric, isAsciiDigit_of_mem_toDigits hc]
    simp

theorem numbered_ne_empty (base : String) (n : Nat) : numbered base n ≠ "" := by
  intro hempty
  simpa [toList_numbered] using congrArg String.toList hempty

/-- A free name for a tool is made of plain characters, if the name that was asked for
is. -/
theorem isToolChar_of_mem_freeToolName {base : String}
    (hbase : ∀ c ∈ base.toList, isToolChar c = true) (used : List String) :
    ∀ c ∈ (freeToolName used base).toList, isToolChar c = true := by
  rw [freeToolName]
  rcases free_cases used.contains (used.length + 1) base with heq | ⟨n, heq⟩
  · rwa [heq]
  · rw [heq]
    exact isToolChar_of_mem_numbered hbase n

theorem freeToolName_ne_empty {base : String} (hbase : base ≠ "") (used : List String) :
    freeToolName used base ≠ "" := by
  rw [freeToolName]
  rcases free_cases used.contains (used.length + 1) base with heq | ⟨n, heq⟩
  · rwa [heq]
  · rw [heq]
    exact numbered_ne_empty base n

/-! ## Functions -/

/-- What comes after the name of a function in the names it brings along. -/
def endings : List String := ["", "_input", "_adapter"]

theorem mem_handlerNames {handler name : String} :
    name ∈ handlerNames handler ↔ ∃ ending ∈ endings, name = handler ++ ending := by
  simp [handlerNames, endings]

/-- The digits of a number end where an ending begins. -/
private theorem takeWhile_toDigits_append (n : Nat) {ending : String}
    (h : ending ∈ endings) :
    (Nat.toDigits 10 n ++ ending.toList).takeWhile Text.isAsciiDigit =
      Nat.toDigits 10 n := by
  rw [List.takeWhile_append_of_pos fun c hc => isAsciiDigit_of_mem_toDigits hc]
  have hendings : ∀ ending ∈ endings,
      ending.toList.takeWhile Text.isAsciiDigit = [] := by
    decide
  rw [hendings ending h, List.append_nil]

/-- Names with different numbers bring along different names. -/
theorem numbered_eq_of_mem_handlerNames
    {base name : String} {m n : Nat} (hm : name ∈ handlerNames (numbered base m))
    (hn : name ∈ handlerNames (numbered base n)) : m = n := by
  obtain ⟨ending, hending, rfl⟩ := mem_handlerNames.mp hm
  obtain ⟨ending', hending', heq⟩ := mem_handlerNames.mp hn
  rw [← String.toList_inj, String.toList_append, String.toList_append, toList_numbered,
    toList_numbered, List.append_assoc, List.append_assoc, List.append_cancel_left_eq,
    List.cons_append, List.cons_append, List.cons.injEq] at heq
  have hdigits := congrArg (List.takeWhile Text.isAsciiDigit) heq.2
  rw [takeWhile_toDigits_append m hending, takeWhile_toDigits_append n hending']
    at hdigits
  exact toDigits_inj.mp hdigits

theorem exists_free_handlerNumber (used : List String) (base : String) :
    ∃ n, 2 ≤ n ∧ n < 2 + (used.length + 1) ∧
      (handlerNames (numbered base n)).any used.contains = false := by
  have htaken : ∀ n, (handlerNames (numbered base n)).any used.contains = true →
      ∃ name ∈ handlerNames (numbered base n), name ∈ used := by
    intro n hn
    obtain ⟨name, hname, hused⟩ := List.any_eq_true.mp hn
    exact ⟨name, hname, List.contains_iff_mem.mp hused⟩
  exact exists_free_number (fun n => (handlerNames (numbered base n)).any used.contains)
    _ htaken (fun m n name hm hn => numbered_eq_of_mem_handlerNames hm hn) 2

/-- The name of the function for a tool is the first that brings along no name in use,
whatever is in use. -/
theorem handlerName_isFirstFree (used : List String) (tool : String) :
    IsFirstFree (fun name => (handlerNames name).any used.contains)
      ("tool_" ++ Text.underscored tool) (handlerName used tool) :=
  free_isFirstFree (exists_free_handlerNumber used ("tool_" ++ Text.underscored tool))

/-- None of the names that the function for a tool brings along is in use. -/
theorem handlerName_free (used : List String) (tool : String) :
    ∀ name ∈ handlerNames (handlerName used tool), name ∉ used := by
  intro name hname hused
  have hany := List.any_eq_true.mpr ⟨name, hname, List.contains_iff_mem.mpr hused⟩
  exact absurd (handlerName_isFirstFree used tool).1 (by simp [hany])

/-- The names that a function brings along are different ones. -/
theorem nodup_handlerNames (handler : String) : (handlerNames handler).Nodup := by
  have hmap : handlerNames handler = endings.map (handler ++ ·) := by
    simp [handlerNames, endings]
  rw [hmap]
  refine List.Nodup.map (fun ending ending' heq => ?_) (by decide)
  rwa [← String.toList_inj, String.toList_append, String.toList_append,
    List.append_cancel_left_eq, String.toList_inj] at heq

/-- The name of a function begins with a prefix of its own. -/
def IsHandlerName (name : String) : Prop :=
  "tool_".toList <+: name.toList ∧ ∀ c ∈ name.toList, Text.isWordChar c = true

theorem isHandlerName_append {base ending : String} (hbase : IsHandlerName base)
    (hending : ∀ c ∈ ending.toList, Text.isWordChar c = true) :
    IsHandlerName (base ++ ending) := by
  rw [IsHandlerName, String.toList_append]
  refine ⟨hbase.1.trans (List.prefix_append _ _), fun c hc => ?_⟩
  rcases List.mem_append.mp hc with hc | hc
  · exact hbase.2 c hc
  · exact hending c hc

theorem isWordChar_of_mem_underscored (text : String) :
    ∀ c ∈ (Text.underscored text).toList, Text.isWordChar c = true := by
  intro c hc
  rw [Text.underscored, String.toList_map] at hc
  obtain ⟨d, -, rfl⟩ := List.mem_map.mp hc
  split
  · assumption
  · decide

theorem isWordChar_of_isAsciiDigit {c : Char} (hc : Text.isAsciiDigit c = true) :
    Text.isWordChar c = true := by
  have hrange : 48 ≤ c.toNat ∧ c.toNat ≤ 57 := by
    simpa [Text.isAsciiDigit, Char.le_def, UInt32.le_iff_toNat_le] using hc
  rw [Text.isWordChar, if_pos (by omega), Text.isAsciiAlphanumeric, hc]
  simp

theorem isHandlerName_handlerName (used : List String) (tool : String) :
    IsHandlerName (handlerName used tool) := by
  have hprefix : IsHandlerName "tool_" :=
    ⟨List.prefix_rfl, List.all_eq_true.mp (by decide)⟩
  have hbase := isHandlerName_append hprefix (isWordChar_of_mem_underscored tool)
  rw [handlerName]
  rcases free_cases (fun name => (handlerNames name).any used.contains)
    (used.length + 1) ("tool_" ++ Text.underscored tool) with heq | ⟨n, heq⟩
  · rwa [heq]
  · rw [heq, numbered, String.append_assoc]
    refine isHandlerName_append hbase fun c hc => ?_
    have hcases : c = '_' ∨ c ∈ Nat.toDigits 10 n := by simpa using hc
    rcases hcases with rfl | hc
    · decide
    · exact isWordChar_of_isAsciiDigit (isAsciiDigit_of_mem_toDigits hc)

/-- The names that a function brings along begin with the same prefix and are made of
word characters. -/
theorem isHandlerName_of_mem_handlerNames {handler : String}
    (hhandler : IsHandlerName handler) :
    ∀ name ∈ handlerNames handler, IsHandlerName name := by
  intro name hname
  obtain ⟨ending, hending, rfl⟩ := mem_handlerNames.mp hname
  have hendings : ∀ ending ∈ endings, ending.toList.all Text.isWordChar = true := by
    decide
  exact isHandlerName_append hhandler (List.all_eq_true.mp (hendings ending hending))

end ApiWorkbench.Server
