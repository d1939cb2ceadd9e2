import ApiWorkbench.Json.Reader
import ApiWorkbench.Json.Writer
import ApiWorkbench.Proofs.Letters
import ApiWorkbench.Proofs.Result

/-!
# Texts between quotes

Every layout writes each character of a text so that the reader finds that character
again: as it is, by a short escape, by the four digits of its code, or by the two
surrogates of a code that needs more digits. What is read after a code has to have one
more character; the closing quote is one.

The layout in ASCII also writes the halves of surrogate pairs. Each is read again as it
is, unless the next letter is the other half of a pair: then both are read as one
character (`joined`).

## Main results

* `readUnicodeEscape_of_unicodeEscape`: the escape of a character is read as
  that character.
* `quoted_stringText`: a text that was written by any layout is read again.
* `quoted_tornText`: what is read for a torn text that was written in ASCII.
* `quoted_of_plain`: a text in which nothing needs an escape is read as it is.
-/

namespace ApiWorkbench

namespace Json

open Text (Letter)

/-! ## Codes -/

/-- A code of sixteen bits has four digits, which spell it. -/
private theorem exists_digits {n : Nat} (h : n < 0x10000) :
    ∃ a b c d, (paddedHex 4 n).toList = [a, b, c, d] ∧
      hexNumber? [a, b, c, d] = some n :=
  match hdigits : (paddedHex 4 n).toList, length_paddedHex (show 0 < 4 by decide) h with
  | [a, b, c, d], _ => ⟨a, b, c, d, rfl, hdigits ▸ spelled_paddedHex 4 n⟩

private theorem toList_codeEscape (n : Nat) :
    (codeEscape n).toList = '\\' :: 'u' :: (paddedHex 4 n).toList := by
  have hstart : "\\u".toList = ['\\', 'u'] := rfl
  rw [codeEscape, String.toList_append, hstart, List.cons_append, List.cons_append,
    List.nil_append]

private theorem readHex_code {n : Nat} (h : n < 0x10000) {next : Char}
    {rest : List Char} :
    readHex ('u' :: ((paddedHex 4 n).toList ++ next :: rest)) =
      .ok (n, next :: rest) := by
  obtain ⟨a, b, c, d, hdigits, hnumber⟩ := exists_digits h
  rw [hdigits]
  simp only [readHex, List.drop_succ_cons, List.drop_zero, List.cons_append,
    List.nil_append, hnumber]
  rfl

/-- What follows is not the escape of a second half. -/
inductive NoSecondHalf : List Char → Prop
  | char {c : Char} {rest : List Char} : c ≠ '\\' → NoSecondHalf (c :: rest)
  | short {e : Char} {rest : List Char} : e ≠ 'u' → NoSecondHalf ('\\' :: e :: rest)
  | code {n : Nat} {next : Char} {rest : List Char} : n < 0x10000 →
      n < 0xdc00 ∨ 0xe000 ≤ n →
      NoSecondHalf ('\\' :: 'u' :: ((paddedHex 4 n).toList ++ next :: rest))

/-- A code is read alone if it is no first half, or if no second half follows. -/
private theorem readUnicodeEscape_single
    {n : Nat} (hn : n < 0x10000) {next : Char} {rest : List Char}
    (halone : ¬ (0xd800 ≤ n ∧ n < 0xdc00) ∨ NoSecondHalf (next :: rest)) :
    readUnicodeEscape ('u' :: ((paddedHex 4 n).toList ++ next :: rest)) =
      .ok (Letter.ofCode n, next :: rest) := by
  rw [readUnicodeEscape, readHex_code hn, ok_bind]
  rcases halone with hfirst | hnext
  · simp only [Bool.and_eq_true, decide_eq_true_eq, hfirst, if_false, false_and]
    split <;> rfl
  · cases hnext with
    | char hc =>
        dsimp only
        split
        · rename_i heq
          exact absurd (List.cons.inj heq).1 hc
        · rfl
    | short he =>
        dsimp only
        split
        · rename_i heq
          exact absurd (List.cons.inj (List.cons.inj heq).2).1 he
        · rfl
    | @code low _ _ hcode hrange =>
        have hnoHalf : ¬ (0xdc00 ≤ low ∧ low < 0xe000) := by omega
        simp only [readHex_code hcode, ok_bind, Bool.and_eq_true, decide_eq_true_eq,
          hnoHalf, if_false]
        split <;> rfl

/-- The code of a first half is read together with that of a second one. -/
private theorem readUnicodeEscape_pair {high low : Nat} (hhigh : high < 0x400)
    (hlow : low < 0x400) (next : Char) (rest : List Char) :
    readUnicodeEscape ('u' :: ((paddedHex 4 (0xd800 + high)).toList ++
        '\\' :: 'u' :: ((paddedHex 4 (0xdc00 + low)).toList ++ next :: rest))) =
      .ok (.char (Char.ofNat (0x10000 + high * 0x400 + low)), next :: rest) := by
  have hlength : ((paddedHex 4 (0xdc00 + low)).toList ++ next :: rest).length > 4 := by
    rw [List.length_append, length_paddedHex (by omega) (by omega), List.length_cons]
    omega
  have hsurrogate : 0xd800 + high < 0xdc00 := by omega
  have hsecond : 0xdc00 + low < 0xe000 := by omega
  rw [readUnicodeEscape, readHex_code (by omega), ok_bind]
  simp only [Nat.le_add_right, hsurrogate, hlength, decide_true, Bool.and_self, if_true]
  rw [readHex_code (by omega), ok_bind]
  simp only [Nat.le_add_right, hsecond, decide_true, Bool.and_self, if_true,
    Nat.add_sub_cancel_left]
  rfl

/-- The escape of a character is read as that character. -/
theorem readUnicodeEscape_of_unicodeEscape (c next : Char) (rest : List Char) :
    ∃ escape, (unicodeEscape c).toList = '\\' :: 'u' :: escape ∧
      readUnicodeEscape ('u' :: (escape ++ next :: rest)) =
        .ok (.char c, next :: rest) := by
  have hvalid : c.toNat < 0xd800 ∨ 0xdfff < c.toNat ∧ c.toNat < 0x110000 := c.valid
  by_cases hcode : c.toNat < 0x10000
  · have hread :
        readUnicodeEscape ('u' :: ((paddedHex 4 c.toNat).toList ++ next :: rest)) =
        .ok (Letter.ofCode (Letter.char c).code, next :: rest) :=
      readUnicodeEscape_single hcode (.inl (by omega))
    rw [Letter.ofCode_code (.char c)] at hread
    refine ⟨(paddedHex 4 c.toNat).toList, ?_, hread⟩
    rw [unicodeEscape, if_pos hcode, toList_codeEscape]
  · have hcombined : 0x10000 + (c.toNat - 0x10000) / 0x400 * 0x400 +
        (c.toNat - 0x10000) % 0x400 = c.toNat := by
      omega
    refine ⟨(paddedHex 4 (0xd800 + (c.toNat - 0x10000) / 0x400)).toList ++
      '\\' :: 'u' :: (paddedHex 4 (0xdc00 + (c.toNat - 0x10000) % 0x400)).toList, ?_,
        ?_⟩
    · rw [unicodeEscape, if_neg hcode, String.toList_append, toList_codeEscape,
        toList_codeEscape, List.cons_append, List.cons_append]
    · have hhigh : (c.toNat - 0x10000) / 0x400 < 0x400 := by omega
      have hlow : (c.toNat - 0x10000) % 0x400 < 0x400 := by omega
      have hread := readUnicodeEscape_pair hhigh hlow next rest
      rw [hcombined, Char.ofNat_toNat] at hread
      rw [List.append_assoc, List.cons_append, List.cons_append, hread]

/-- The escape of a character is not that of a second half. -/
private theorem noSecondHalf_unicodeEscape (c next : Char) (rest : List Char) :
    NoSecondHalf ((unicodeEscape c).toList ++ next :: rest) := by
  have hvalid : c.toNat < 0xd800 ∨ 0xdfff < c.toNat ∧ c.toNat < 0x110000 := c.valid
  rw [unicodeEscape]
  split
  · rw [toList_codeEscape]
    exact .code (by omega) (by omega)
  · rw [String.toList_append, toList_codeEscape, toList_codeEscape, List.cons_append,
      List.cons_append, List.append_assoc, List.cons_append]
    exact .code (by omega) (by omega)

/-! ## Characters and texts -/

section

variable {start fuel : Nat} {done : List Letter} {rest : List Char}

private theorem readString_short {e c : Char} (h : simpleEscape? e = some c) :
    readString start (fuel + 1) done ('\\' :: e :: rest) =
      readString start fuel (.char c :: done) rest := by
  have hne : e ≠ 'u' := by
    rintro rfl
    simp [simpleEscape?] at h
  rw [readString, h]
  exact hne

private theorem readString_plain {c : Char} (hquote : c ≠ '"') (hbackslash : c ≠ '\\')
    (hcontrol : 32 ≤ c.toNat) :
    readString start (fuel + 1) done (c :: rest) =
      readString start fuel (.char c :: done) rest := by
  rw [readString, if_neg (by omega)]
  · exact hquote
  · intro heq
    exact absurd heq hbackslash
  · intro rest' heq
    exact absurd heq hbackslash
  · intro e rest' heq
    exact absurd heq hbackslash

/-- A character of a text that was written is read, if something follows. -/
theorem readString_escapedChar (layout : Layout) (c : Char) {next : Char} :
    readString start (fuel + 1) done ((escapedChar layout c).toList ++ next :: rest) =
      readString start fuel (.char c :: done) (next :: rest) := by
  unfold escapedChar
  split_ifs with hquote hbackslash hnewline hreturn htab hback hfeed hallowed
  · obtain rfl := eq_of_beq hquote
    exact readString_short rfl
  · obtain rfl := eq_of_beq hbackslash
    exact readString_short rfl
  · obtain rfl := eq_of_beq hnewline
    exact readString_short rfl
  · obtain rfl := eq_of_beq hreturn
    exact readString_short rfl
  · obtain rfl := eq_of_beq htab
    exact readString_short rfl
  · obtain rfl : Char.ofNat 8 = c := by rw [← eq_of_beq hback, Char.ofNat_toNat]
    exact readString_short rfl
  · obtain rfl : Char.ofNat 12 = c := by rw [← eq_of_beq hfeed, Char.ofNat_toNat]
    exact readString_short rfl
  · have hcontrol : 32 ≤ c.toNat := by
      cases layout <;> simp only [Layout.allows, Bool.and_eq_true, decide_eq_true_eq]
        at hallowed <;> omega
    rw [Char.toString, String.toList_singleton]
    exact readString_plain (by simpa using hquote) (by simpa using hbackslash) hcontrol
  · obtain ⟨escape, hescape, hread⟩ := readUnicodeEscape_of_unicodeEscape c next rest
    rw [hescape, List.cons_append, List.cons_append, readString, hread, ok_bind]

end

/-! ## Texts -/

/-- Letters as they are read again: two halves that make a pair have become
one character. -/
def joined : List Letter → List Letter
  | .half high :: .half low :: rest =>
    if high.val < 0x400 ∧ 0x400 ≤ low.val then
      .char (Char.ofNat (0x10000 + high.val * 0x400 + (low.val - 0x400))) :: joined rest
    else .half high :: joined (.half low :: rest)
  | letter :: rest => letter :: joined rest
  | [] => []

/-- Characters after an opening quote, up to the closing one, that are read as a
text. -/
def Quoted (cs : List Char) (text : Scalar) : Prop :=
  ∀ start rest, readString start ((cs ++ rest).length + 1) [] (cs ++ rest) =
    .ok (text, rest)

section

variable {start fuel : Nat} {write : Letter → List Char}

/-- A way to write a letter that the reader undoes, if something follows. -/
private def Undone (write : Letter → List Char) (letter : Letter) : Prop :=
  ∀ {start fuel : Nat} {done : List Letter} {rest : List Char} {next : Char},
    readString start (fuel + 1) done (write letter ++ next :: rest) =
      readString start fuel (letter :: done) (next :: rest)

/-- Something follows a letter: the next one or the quote. -/
private theorem exists_next (cs rest : List Char) :
    ∃ next more, cs ++ '"' :: rest = next :: more := by
  cases cs with
  | nil => exact ⟨_, _, rfl⟩
  | cons next more => exact ⟨_, _, rfl⟩

private theorem readString_of_undone {rest : List Char} (letters done : List Letter)
    (hwrite : ∀ letter ∈ letters, Undone write letter) (hfuel : letters.length < fuel) :
    readString start fuel done (letters.flatMap write ++ '"' :: rest) =
      .ok (.ofLetters (done.reverse ++ letters), rest) := by
  induction letters generalizing fuel done with
  | nil =>
      cases fuel with
      | zero => simp at hfuel
      | succ fuel => simp [readString]
  | cons letter letters ih =>
      cases fuel with
      | zero => simp at hfuel
      | succ fuel =>
          obtain ⟨next, more, hmore⟩ := exists_next (letters.flatMap write) rest
          have hrest := ih (letter :: done) (fun l hl => hwrite l (.tail _ hl))
            (by simpa using hfuel)
          rw [List.flatMap_cons, List.append_assoc,
            hmore, hwrite letter (.head _), ← hmore, hrest, List.reverse_cons,
            List.append_assoc, List.cons_append, List.nil_append]

private theorem length_le_flatMap {letters : List Letter}
    (h : ∀ letter ∈ letters, write letter ≠ []) :
    letters.length ≤ (letters.flatMap write).length := by
  induction letters with
  | nil => simp
  | cons letter letters ih =>
      have hpos : 0 < (write letter).length :=
        List.length_pos_iff.mpr (h letter (.head _))
      have hrest := ih fun l hl => h l (.tail _ hl)
      rw [List.flatMap_cons, List.length_append, List.length_cons]
      omega

/-- A text whose letters are undone one by one is read up to the quote after it. -/
private theorem quoted_of_undone (write : Letter → List Char) (letters : List Letter)
    (hwritten : ∀ letter ∈ letters, write letter ≠ [])
    (hundone : ∀ letter ∈ letters, Undone write letter) :
    Quoted (letters.flatMap write ++ ['"']) (.ofLetters letters) := by
  have hlength := length_le_flatMap hwritten
  intro start rest
  rw [List.append_assoc, List.cons_append, List.nil_append,
    readString_of_undone letters [] hundone]
  · rfl
  · simp only [List.length_append, List.length_cons]
    omega

end

private theorem escapedChar_ne_nil (layout : Layout) (c : Char) :
    (escapedChar layout c).toList ≠ [] := by
  unfold escapedChar
  split_ifs
  · decide
  · decide
  · decide
  · decide
  · decide
  · decide
  · decide
  · simp [Char.toString]
  · obtain ⟨escape, hescape, -⟩ := readUnicodeEscape_of_unicodeEscape c '"' []
    simp [hescape]

private theorem escapedLetter_ne_nil (letter : Letter) :
    (escapedLetter .ascii letter).toList ≠ [] := by
  cases letter with
  | char c => exact escapedChar_ne_nil .ascii c
  | half half =>
      rw [escapedLetter, if_pos rfl, toList_codeEscape]
      exact List.cons_ne_nil _ _

private theorem toList_quoted {α : Type} (write : α → String) (xs : List α) :
    ("\"" ++ String.join (xs.map write) ++ "\"").toList =
      '"' :: (xs.flatMap fun x => (write x).toList) ++ ['"'] := by
  have hquote : "\"".toList = ['"'] := rfl
  rw [String.toList_append, String.toList_append, String.toList_join, List.flatMap_map,
    hquote, List.cons_append, List.nil_append]

/-- A text that was written by any layout is read again. -/
theorem quoted_stringText (layout : Layout) (s : String) :
    ∃ inner, (stringText layout s).toList = '"' :: inner ∧ Quoted inner (.str s) := by
  have hquoted := quoted_of_undone (fun letter => (escapedLetter layout letter).toList)
    (s.toList.map .char) (List.forall_mem_map.mpr fun c _ => escapedChar_ne_nil layout
    c) (List.forall_mem_map.mpr fun c _ => readString_escapedChar layout c)
  rw [Scalar.ofLetters_chars, String.ofList_toList, List.flatMap_map] at hquoted
  exact ⟨_, toList_quoted (escapedChar layout) s.toList, hquoted⟩

/-- A text in which nothing needs an escape is read as it is. -/
theorem quoted_of_plain {cs : List Char}
    (h : ∀ c ∈ cs, c ≠ '"' ∧ c ≠ '\\' ∧ 32 ≤ c.toNat) :
    Quoted (cs ++ ['"']) (.str (String.ofList cs)) := by
  have hquoted := quoted_of_undone (fun letter => [letter.shown]) (cs.map .char)
    (by simp) (List.forall_mem_map.mpr fun c hc =>
      readString_plain (h c hc).1 (h c hc).2.1 (h c hc).2.2)
  have hcs : (cs.flatMap fun c => [(Letter.char c).shown]) = cs :=
    List.flatMap_singleton' cs
  rwa [Scalar.ofLetters_chars, List.flatMap_map, hcs] at hquoted

/-! ## Torn texts -/

/-- What follows a letter is not the escape of a second half, unless that is
the next letter. -/
private theorem noSecondHalf_letters {letters : List Letter} {rest : List Char}
    (h : ∀ low more, letters = .half low :: more → ¬ 0x400 ≤ low.val) :
    NoSecondHalf ((letters.flatMap fun letter =>
      (escapedLetter .ascii letter).toList) ++ '"' :: rest) := by
  cases letters with
  | nil => exact .char (by decide)
  | cons letter more =>
      obtain ⟨next, after, hafter⟩ :=
        exists_next (more.flatMap fun letter =>
          (escapedLetter .ascii letter).toList) rest
      rw [List.flatMap_cons, List.append_assoc, hafter]
      cases letter with
      | half low =>
          have hlow := h low more rfl
          rw [escapedLetter, if_pos rfl, toList_codeEscape]
          exact .code (by simp only [Letter.code]; omega)
            (by simp only [Letter.code]; omega)
      | char c =>
          rw [escapedLetter]
          unfold escapedChar
          split_ifs with hquote hbackslash
          · exact .short (by decide)
          · exact .short (by decide)
          · exact .short (by decide)
          · exact .short (by decide)
          · exact .short (by decide)
          · exact .short (by decide)
          · exact .short (by decide)
          · rw [Char.toString, String.toList_singleton]
            exact .char (by simpa using hbackslash)
          · exact noSecondHalf_unicodeEscape c next after

/-- The escapes of letters in ASCII. -/
private abbrev escapedLetters (letters : List Letter) : List Char :=
  letters.flatMap fun letter => (escapedLetter .ascii letter).toList

private theorem escapedLetters_cons (letter : Letter) (letters : List Letter) :
    escapedLetters (letter :: letters) = (escapedLetter .ascii letter).toList ++
      escapedLetters letters :=
  List.flatMap_cons

private theorem toList_escapedHalf (half : Fin 0x800) :
    (escapedLetter .ascii (.half half)).toList =
    '\\' :: 'u' :: (paddedHex 4 (0xd800 + half.val)).toList := by
  rw [escapedLetter, if_pos rfl, toList_codeEscape]
  rfl

section

variable {start fuel : Nat} {done more : List Letter} {rest : List Char}

/-- Halves that make a pair are read together. -/
private theorem readString_pair {high low : Fin 0x800} (hhigh : high.val < 0x400)
    (hlow : 0x400 ≤ low.val) :
    readString start (fuel + 1) done ((escapedLetter .ascii (.half high)).toList ++
        ((escapedLetter .ascii (.half low)).toList ++
          (escapedLetters more ++ '"' :: rest))) =
      readString start fuel
        (.char (Char.ofNat (0x10000 + high.val * 0x400 + (low.val - 0x400))) :: done)
        (escapedLetters more ++ '"' :: rest) := by
  obtain ⟨next, after, hafter⟩ := exists_next (escapedLetters more) rest
  have hread :=
    readUnicodeEscape_pair hhigh (show low.val - 0x400 < 0x400 by omega) next after
  have hcode : 0xdc00 + (low.val - 0x400) = 0xd800 + low.val := by omega
  rw [hcode] at hread
  rw [hafter, toList_escapedHalf, toList_escapedHalf, List.cons_append,
    List.cons_append, List.cons_append, List.cons_append, readString, hread, ok_bind]

/-- A half is read alone if the next letter does not make a pair with it. -/
private theorem readString_half {half : Fin 0x800}
    (halone : ∀ low after, more = .half low :: after →
      ¬ (half.val < 0x400 ∧ 0x400 ≤ low.val)) :
    readString start (fuel + 1) done
        ((escapedLetter .ascii (.half half)).toList ++
          (escapedLetters more ++ '"' :: rest)) =
      readString start fuel (.half half :: done)
        (escapedLetters more ++ '"' :: rest) := by
  have hsingle : ¬ (0xd800 ≤ 0xd800 + half.val ∧ 0xd800 + half.val < 0xdc00) ∨
      NoSecondHalf (escapedLetters more ++ '"' :: rest) := by
    by_cases hfirst : half.val < 0x400
    · exact .inr (noSecondHalf_letters fun low after heq hlow =>
        halone low after heq ⟨hfirst, hlow⟩)
    · exact .inl (by omega)
  have hletter : Letter.ofCode (0xd800 + half.val) = .half half :=
    Letter.ofCode_code (.half half)
  obtain ⟨next, after, hafter⟩ := exists_next (escapedLetters more) rest
  rw [hafter] at hsingle ⊢
  rw [toList_escapedHalf, List.cons_append, List.cons_append, readString,
    readUnicodeEscape_single (by omega) hsingle, ok_bind, hletter]

/-- Torn letters that were written in ASCII are read again, pairs of halves as
one character. -/
private theorem readString_torn (letters done : List Letter)
    (hfuel : letters.length < fuel) :
    readString start fuel done (escapedLetters letters ++ '"' :: rest) =
      .ok (.ofLetters (done.reverse ++ joined letters), rest) := by
  induction letters using joined.induct generalizing fuel done with
  | case4 =>
      cases fuel with
      | zero => simp at hfuel
      | succ fuel => simp [readString, joined]
  | case1 high low letters hpair ih =>
      cases fuel with
      | zero => simp at hfuel
      | succ fuel =>
          have hshort : letters.length < fuel := by
            simp only [List.length_cons] at hfuel
            omega
          have hrest :=
            ih (.char (Char.ofNat (0x10000 + high.val * 0x400 + (low.val - 0x400))) ::
            done) hshort
          rw [escapedLetters_cons, List.append_assoc, escapedLetters_cons,
            List.append_assoc, readString_pair hpair.1 hpair.2, hrest, joined,
            if_pos hpair, List.reverse_cons, List.append_assoc]
          rfl
  | case2 high low letters hpair ih =>
      cases fuel with
      | zero => simp at hfuel
      | succ fuel =>
          have hrest := ih (.half high :: done) (by simpa using hfuel)
          have halone : ∀ low' after, Letter.half low :: letters = .half low' :: after →
              ¬ (high.val < 0x400 ∧ 0x400 ≤ low'.val) := by
            rintro _ _ ⟨⟩
            exact hpair
          rw [escapedLetters_cons, List.append_assoc, readString_half halone, hrest,
            joined, if_neg hpair, List.reverse_cons, List.append_assoc]
          rfl
  | case3 letter letters hnoPair ih =>
      cases fuel with
      | zero => simp at hfuel
      | succ fuel =>
          have hrest := ih (letter :: done) (by simpa using hfuel)
          rw [joined]
          · rw [escapedLetters_cons, List.append_assoc]
            rw [List.reverse_cons, List.append_assoc] at hrest
            refine Eq.trans ?_ hrest
            cases letter with
            | half half =>
                exact readString_half fun low after heq =>
                  (hnoPair half low after rfl heq).elim
            | char c =>
                obtain ⟨next, after, hafter⟩ :=
                  exists_next (escapedLetters letters) rest
                rw [hafter]
                exact readString_escapedChar .ascii c
          · exact hnoPair

end

/-- A torn text that was written in ASCII is read again, pairs of halves as
one character. -/
theorem quoted_tornText (text : Text.Torn) :
    ∃ inner, (tornText .ascii text).toList = '"' :: inner ∧
    Quoted inner (.ofLetters (joined text.letters)) := by
  have hlength : text.letters.length ≤ (escapedLetters text.letters).length :=
    length_le_flatMap fun letter _ => escapedLetter_ne_nil letter
  refine ⟨escapedLetters text.letters ++ ['"'], toList_quoted _ text.letters,
    fun start rest => ?_⟩
  rw [List.append_assoc, List.cons_append, List.nil_append,
    readString_torn text.letters []]
  · rfl
  · simp only [List.length_append, List.length_cons]
    omega

end Json

end ApiWorkbench
