import ApiWorkbench.Json.Reader
import ApiWorkbench.Proofs.Yaml.Written

/-!
# Blocks are no JSON

A text is first read as JSON. The text of a block is never JSON, even where its first
line begins with a text that is: a JSON text that begins with neither a bracket, a brace
nor a double quote has no colon in it, and where a key is written between double quotes,
reading it as JSON fails or comes to an end at the same quote, before the colon.

## Main results

* `json_read_write`: the text that is written for an object with members is not JSON.
-/

namespace ApiWorkbench.Json

/-! ## Texts with a colon -/

section

variable {cs rest : List Char}

private theorem colon_mem_dropWhile {p : Char → Bool} (hp : p ':' = false)
    (h : ':' ∈ cs) : ':' ∈ cs.dropWhile p := by
  rw [← List.takeWhile_append_dropWhile (p := p) (l := cs)] at h
  rcases List.mem_append.mp h with h | h
  · have htrue := List.all_eq_true.mp List.all_takeWhile _ h
    simp [hp] at htrue
  · exact h

private theorem colon_mem_span {p : Char → Bool} (hp : p ':' = false) (h : ':' ∈ cs) :
    ':' ∈ (cs.span p).2 := by
  rw [List.span_eq_takeWhile_dropWhile]
  exact colon_mem_dropWhile hp h

/-- White space is all that is left only where there is no colon. -/
theorem skipSpace_ne_nil (h : ':' ∈ cs) : skipSpace cs ≠ [] :=
  List.ne_nil_of_mem (colon_mem_dropWhile rfl h)

private theorem colon_after_whole (h : ':' ∈ cs) : ':' ∈ (readWhole cs).2 := by
  unfold readWhole
  split
  · simpa using h
  · exact colon_mem_span rfl h

private theorem colon_after_fraction (h : ':' ∈ cs) : ':' ∈ (readFraction cs).2 := by
  unfold readFraction
  split
  · split
    · refine colon_mem_span rfl ?_
      simpa using h
    · exact h
  · exact h

private theorem colon_after_exponent (h : ':' ∈ cs) : ':' ∈ (readExponent cs).2 := by
  have hspan : ∀ {after digits others : List Char},
      after.span isDecimalDigit = (digits, others) → ':' ∈ after →
      ':' ∈ others := fun hsplit hafter => by
    have hothers := colon_mem_span (p := isDecimalDigit) rfl hafter
    rwa [hsplit] at hothers
  unfold readExponent
  dsimp only
  split
  · rename_i e rest
    split
    · rename_i he
      have hrest : ':' ∈ rest := by
        rcases List.mem_cons.mp h with rfl | h
        · simp at he
        · exact h
      -- a sign, another sign, or digits at once
      split <;> split
      all_goals first
        | exact h
        | exact hspan ‹_› (by simpa using hrest)
    · exact h
  · exact h

private theorem colon_after_number {negative : Bool} {start : List Char}
    {v : Value} (h : ':' ∈ cs) (hread : readNumber negative start cs = .ok (v, rest)) :
    ':' ∈ rest := by
  unfold readNumber at hread
  dsimp only at hread
  split at hread
  · cases hread
  · split at hread
    · split at hread
      · cases hread
      · obtain ⟨-, rfl⟩ := Prod.mk.inj (Except.ok.inj hread)
        exact colon_after_exponent (colon_after_fraction (colon_after_whole h))
    · obtain ⟨-, rfl⟩ := Prod.mk.inj (Except.ok.inj hread)
      exact colon_after_exponent (colon_after_fraction (colon_after_whole h))

private theorem colon_after_word
    {word : String} {v w : Value} (hword : ':' ∉ word.toList) (h : ':' ∈ cs)
    (hread : (if word.toList.isPrefixOf cs then some (w, cs.drop word.length)
  else none) = some (v, rest)) :
    ':' ∈ rest := by
  split at hread
  · rename_i hstart
    obtain ⟨more, rfl⟩ := List.isPrefixOf_iff_prefix.mp hstart
    obtain ⟨-, rfl⟩ := Prod.mk.inj (Option.some.inj hread)
    rw [← String.length_toList, List.drop_left]
    rcases List.mem_append.mp h with h | h
    · exact absurd h hword
    · exact h
  · cases hread

/-- A word or a number ends before a colon. -/
private theorem colon_after_atom {v : Value} (h : ':' ∈ cs)
    (hread : readAtom cs = .ok (v, rest)) : ':' ∈ rest := by
  unfold readAtom at hread
  dsimp only at hread
  split at hread
  · rename_i result hresult
    obtain rfl := Except.ok.inj hread
    obtain ⟨word, hword, heq⟩ := List.exists_of_findSome?_eq_some hresult
    obtain rfl : word = some (v, rest) := heq
    simp only [List.mem_cons, List.not_mem_nil, or_false] at hword
    rcases hword with hword | hword | hword | hword | hword | hword
    all_goals exact colon_after_word (by simp) h hword.symm
  · split at hread
    · exact colon_after_number (by simpa using h) hread
    · exact colon_after_number h hread

/-- A text whose first value ends before a colon is not JSON. -/
private theorem read_of_value {text : String}
    {c : Char} {cs : List Char} (htext : text.toList = c :: cs)
    (hmark : c ≠ Char.ofNat 0xfeff) (hspace : isSpace c = false) (h : ∀ v rest,
      readValue (2 * text.toList.length + 2) (c :: cs) = .ok (v, rest) → ':' ∈ rest) :
    ∃ failure, read text = .error failure := by
  have hstart : (text.toList.head? == some (Char.ofNat 0xfeff)) = false := by
    simpa [htext] using hmark
  have hskip : skipSpace text.toList = c :: cs := by
    rw [skipSpace, htext, List.dropWhile_cons_of_neg (by simp [hspace])]
  unfold read
  dsimp only
  rw [hstart, if_neg Bool.false_ne_true, hskip]
  cases hread : readValue (2 * text.toList.length + 2) (c :: cs) with
  | error failure => exact ⟨failure, rfl⟩
  | ok result =>
      have hcolon := skipSpace_ne_nil (h result.1 result.2 hread)
      rw [ok_bind]
      split
      · rename_i hnil
        exact absurd hnil hcolon
      · exact ⟨_, rfl⟩

/-- A text with a colon that begins with neither a quote nor a bracket nor a
brace is not JSON. -/
theorem read_of_colon {text : String} {c : Char} {cs : List Char}
    (htext : text.toList = c :: cs) (hc : c ≠ '"' ∧ c ≠ '[' ∧ c ≠ '\x7b')
    (hmark : c ≠ Char.ofNat 0xfeff) (hspace : isSpace c = false) (h : ':' ∈ c :: cs) :
    ∃ failure, read text = .error failure := by
  refine read_of_value htext hmark hspace fun v rest hread => ?_
  have hvalue : readValue (2 * text.toList.length + 2) (c :: cs) =
      readAtom (c :: cs) := by
    rw [readValue]
    · exact fun _ heq => hc.1 (List.cons.inj heq).1
    · exact fun _ heq => hc.2.2 (List.cons.inj heq).1
    · exact fun _ heq => hc.2.1 (List.cons.inj heq).1
  rw [hvalue] at hread
  exact colon_after_atom h hread

/-! ## Keys between double quotes -/

section

variable {start fuel : Nat} {done : List Text.Letter} {result : Read Scalar}
  {ch next : Char} {text more : List Char}

private theorem readString_char (hquote : ch ≠ '"') (hbackslash : ch ≠ '\\')
    (hread : readString start (fuel + 1) done (ch :: more) = .ok result) :
    readString start fuel (.char ch :: done) more = .ok result := by
  rw [readString] at hread
  · split at hread
    · cases hread
    · exact hread
  · exact hquote
  · exact fun heq => absurd heq hbackslash
  · exact fun _ heq => absurd heq hbackslash
  · exact fun _ _ heq => absurd heq hbackslash

private theorem readString_letter (hletter : ch ≠ 'u')
    (hread : readString start (fuel + 1) done ('\\' :: ch :: more) = .ok result) :
    ∃ c, readString start fuel (c :: done) more = .ok result := by
  rw [readString] at hread
  · split at hread
    · exact ⟨_, hread⟩
    · cases hread
  · exact hletter

private theorem readUnicodeEscape_digits (hcode : ch.toNat < 0x10000) :
    readUnicodeEscape ('u' :: ((Yaml.upperHex 4 ch.toNat).toList ++ next :: more)) =
      .ok (.char ch, next :: more) := by
  have hvalid : ch.toNat < 0xd800 ∨ 0xdfff < ch.toNat ∧ ch.toNat < 0x110000 := ch.valid
  have hhigh : ¬ (0xd800 ≤ ch.toNat ∧ ch.toNat < 0xdc00) := by omega
  have hlength : (Yaml.upperHex 4 ch.toNat).toList.length = 4 :=
    Yaml.length_upperHex (by decide) hcode
  have hnumber : hexNumber? (Yaml.upperHex 4 ch.toNat).toList = some ch.toNat :=
    Yaml.hexValue?_upperHex 4 ch.toNat
  obtain ⟨a, b, c, d, hdigits⟩ : ∃ a b c d,
      (Yaml.upperHex 4 ch.toNat).toList = [a, b, c, d] := by
    match hlist : (Yaml.upperHex 4 ch.toNat).toList, hlength with
    | [a, b, c, d], _ => exact ⟨a, b, c, d, rfl⟩
  rw [hdigits] at hnumber ⊢
  have hread : readHex ('u' :: ([a, b, c, d] ++ next :: more)) =
      .ok (ch.toNat, next :: more) := by
    simp [readHex, hnumber]
  rw [readUnicodeEscape, hread, ok_bind]
  have hletter : Text.Letter.ofCode ch.toNat = .char ch :=
    Text.Letter.ofCode_code (.char ch)
  simp only [Bool.and_eq_true, decide_eq_true_eq, hhigh, if_false, false_and, hletter]
  split <;> rfl

/-- A string that is read from what is written between double quotes goes on after
each character. -/
private theorem readString_shown (htext : text = [' '] ∨ Yaml.Shown ch text)
    (hread : readString start (fuel + 1) done (text ++ next :: more) = .ok result) :
    ∃ c, readString start fuel (c :: done) (next :: more) = .ok result := by
  rcases htext with rfl | htext
  · exact ⟨_, readString_char (by decide) (by decide) hread⟩
  · cases htext with
    | letter hletter =>
        refine readString_letter (fun hu => ?_) hread
        subst hu
        unfold Yaml.escapeLetter? at hletter
        split at hletter <;> cases hletter
    | plain _ _ hquote hbackslash => exact ⟨_, readString_char hquote hbackslash hread⟩
    | @code letter width _ hdigits _ hcode =>
        unfold Yaml.escapeDigits? at hdigits
        split at hdigits
        · simp [readString, simpleEscape?, problemAt] at hread
        · obtain rfl := Option.some.inj hdigits
          rw [List.cons_append, List.cons_append, readString,
            readUnicodeEscape_digits hcode, ok_bind] at hread
          exact ⟨_, hread⟩
        · simp [readString, simpleEscape?, problemAt] at hread
        · cases hdigits

/-- A string that is read from what is written between double quotes ends there. -/
private theorem readString_doubleQuoted {cs tail : List Char}
    (hread : readString start fuel done (Yaml.doubleQuoted cs ++ '"' :: tail) =
      .ok result) : result.2 = tail := by
  induction cs generalizing fuel done with
  | nil =>
      cases fuel with
      | zero => cases hread
      | succ fuel =>
          obtain rfl := Except.ok.inj hread
          rfl
  | cons ch cs ih =>
      cases fuel with
      | zero => simp [readString] at hread
      | succ fuel =>
          have hshown : (Yaml.doubleQuotedChar ch).toList = [' '] ∨
              Yaml.Shown ch (Yaml.doubleQuotedChar ch).toList := by
            by_cases hspace : ch = ' '
            · subst hspace
              exact .inl rfl
            · exact .inr (Yaml.shown_doubleQuotedChar hspace)
          obtain ⟨next, more, hnext⟩ : ∃ next more, Yaml.doubleQuoted cs ++ '"' ::
              tail = next :: more := by
            cases hlist : Yaml.doubleQuoted cs with
            | nil => exact ⟨_, _, rfl⟩
            | cons x xs => exact ⟨_, _, rfl⟩
          rw [Yaml.doubleQuoted_cons, List.append_assoc, hnext] at hread
          obtain ⟨c, hread⟩ := readString_shown hshown hread
          rw [← hnext] at hread
          exact ih hread

end

/-- A text that begins with a key between double quotes is not JSON. -/
theorem read_of_doubleQuoted {text : String} {cs tail : List Char}
    (htext : text.toList = '"' :: (Yaml.doubleQuoted cs ++ '"' :: tail))
    (h : ':' ∈ tail) :
    ∃ failure, read text = .error failure := by
  refine read_of_value htext (by decide) (by decide) fun v rest hread => ?_
  rw [readValue] at hread
  obtain ⟨result, hstring, heq⟩ := bind_eq_ok.mp hread
  obtain ⟨-, rfl⟩ := Prod.mk.inj (Except.ok.inj heq)
  rw [readString_doubleQuoted hstring]
  exact h

end

end ApiWorkbench.Json

namespace ApiWorkbench.Yaml

/-! ## What is written for an object -/

private theorem stackedChars_cons (column : Nat) (text : List Char)
    (texts : List (List Char)) :
    ∃ more, stackedChars column (text :: texts) = text ++ more := by
  unfold stackedChars
  cases texts with
  | nil =>
      refine ⟨[], ?_⟩
      rw [List.intercalate_singleton, List.append_nil]
  | cons next texts =>
      rw [List.intercalate_cons_cons, List.append_assoc]
      exact ⟨_, rfl⟩

/-- The text of an object begins with a key and a colon, or with the question mark of a
key on a line of its own. -/
private theorem write_begins {name : String} {v : Value} {ms : Members} {text : String}
    (h : write (.object ((.str name, v) :: ms)) = .ok text) :
    (∃ tail, text.toList = (textScalar 0 true name).toList ++ ':' :: tail) ∨
      ∃ tail, text.toList = '?' :: tail ∧ ':' ∈ tail := by
  have hsimple : isSimpleKey (.str name) = .ok (isSimpleName name) := rfl
  rw [write, memberLines, hsimple, ok_bind] at h
  · obtain ⟨lines, hlines, h⟩ := bind_eq_ok.mp h
    obtain ⟨line, hline, hlines⟩ := bind_eq_ok.mp hlines
    obtain ⟨others, -, hlines⟩ := bind_eq_ok.mp hlines
    obtain rfl := Except.ok.inj hlines
    obtain rfl := Except.ok.inj h
    rw [String.toList_append, toList_stacked, List.map_cons]
    obtain ⟨more, hmore⟩ := stackedChars_cons 0 line.toList (others.map String.toList)
    rw [hmore, List.append_assoc]
    generalize more ++ "\n".toList = more
    unfold keyLines at hline
    split at hline
    · obtain ⟨key, hkey, hline⟩ := bind_eq_ok.mp hline
      obtain rfl := Except.ok.inj hkey
      obtain ⟨value, -, hline⟩ := bind_eq_ok.mp hline
      obtain rfl := Except.ok.inj hline
      refine .inl ⟨value.toList ++ more, ?_⟩
      simp only [String.toList_append, List.append_assoc]
      rfl
    · obtain ⟨key, -, hline⟩ := bind_eq_ok.mp hline
      obtain ⟨value, -, hline⟩ := bind_eq_ok.mp hline
      obtain rfl := Except.ok.inj hline
      refine .inr ⟨' ' :: (key.toList ++ '\n' ::
        ((spaces 0).toList ++ ':' :: (value.toList ++ more))), ?_, by simp⟩
      simp only [String.toList_append, List.append_assoc]
      rfl
  · exact List.cons_ne_nil _ ms

/-- The text that is written for an object with members is not JSON. -/
theorem json_read_write {name : String} {v : Value} {ms : Members} {text : String}
    (h : write (.object ((.str name, v) :: ms)) = .ok text) :
    ∃ failure, Json.read text = .error failure := by
  rcases write_begins h with ⟨tail, htext⟩ | ⟨tail, htext, hcolon⟩
  · have hstyle := textStyle_textScalar 0 true name
    generalize (textScalar 0 true name).toList = key at hstyle htext
    cases hstyle with
    | plain hplain =>
        have hallows := (Bool.and_eq_true_iff.mp hplain).2
        have hstart : LineStart (name.toList ++ ':' :: tail) :=
          (scalarText_plain hallows).lineStart (.inl rfl)
        obtain ⟨x, xs, hcons, hx, -⟩ := head_of_allowsPlain hallows
        have hplain : needsEscape x = false ∧ isKeptBreak x = false :=
          plain_of_mem hallows (by simp [hcons])
        rw [hcons] at htext hstart
        have hspace : x ≠ ' ' := (hstart.solid x rfl).2.1
        have hshown : ∀ y, (needsEscape y || isKeptBreak y) = true → x ≠ y := by
          rintro y hy rfl
          simp [hplain] at hy
        refine Json.read_of_colon htext ⟨?_, ?_, ?_⟩ (hshown _ (by decide)) ?_ (by simp)
        · rintro rfl
          simp at hx
        · rintro rfl
          simp at hx
        · rintro rfl
          simp at hx
        · have htab : x ≠ '\t' := hshown _ (by decide)
          have hfeed : x ≠ '\n' := hshown _ (by decide)
          have hreturn : x ≠ '\r' := hshown _ (by decide)
          simp [Json.isSpace, hspace, htab, hfeed, hreturn]
    | single _ _ _ =>
        exact Json.read_of_colon htext ⟨by decide, by decide, by decide⟩ (by decide)
          (by decide) (by simp)
    | double _ _ =>
        have hquoted : text.toList =
            '"' :: (doubleQuoted name.toList ++ '"' :: ':' :: tail) := by
          rw [htext]
          simp
        exact Json.read_of_doubleQuoted hquoted (by simp)
  · exact Json.read_of_colon htext ⟨by decide, by decide, by decide⟩ (by decide)
      (by decide) (by simp [hcolon])

end ApiWorkbench.Yaml
