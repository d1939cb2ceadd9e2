import ApiWorkbench.Proofs.Json.Numbers
import ApiWorkbench.Proofs.Letters
import ApiWorkbench.Proofs.Server.Phrases
import ApiWorkbench.Value.Literal

/-!
# Reading literals

What is written for a value of a document is read as that value. A text or bytes are one
atom, whatever characters are in them: each character is written so that the reader
finds it again and stays in the literal, and the quote that begins the literal is not
among the characters that stand for themselves in it. Everything else is words and marks
between brackets.

For doubles, dates and moments it is only said that their literals are read.

## Main results

* `readsAs_textLiteral`, `readsAs_bytesLiteral`: a text and bytes are read from
  their literals.
* `readsAs_value`: the same for every value, which is read as `valuePhrases`.
-/

namespace ApiWorkbench.Server

open Text (Letter)

/-! ## Letters of literals -/

/-- Inside a literal the source of a letter stands for that letter, whatever is
before and after it. -/
def Spells (kind : LiteralKind) (quote : Char) (source : String)
    (letter : Letter) : Prop :=
  ∀ content rest, tokensFrom (.literal kind quote content) (source.toList ++ rest) =
    tokensFrom (.literal kind quote (content ++ [letter])) rest

theorem letterOfCode?_code (letter : Letter) :
    letterOfCode? letter.code = some letter := by
  have hcode : letter.code < 0x110000 := by
    cases letter with
    | char c =>
        have hvalid : c.toNat < 0xd800 ∨ 0xdfff < c.toNat ∧
            c.toNat < 0x110000 := c.valid
        rw [Letter.code]
        omega
    | half index =>
        rw [Letter.code]
        omega
  rw [letterOfCode?, if_pos hcode, Letter.ofCode_code]

/-- The digits of a code stand for its letter. -/
theorem tokensFrom_code {kind : LiteralKind} {quote : Char} {content : List Letter}
    {digits : List Char} {letter : Letter} {start : Nat} (hne : digits ≠ [])
    (h : spelled start digits = some letter.code) (rest : List Char) :
    tokensFrom (.code kind quote content start digits.length) (digits ++ rest) =
      tokensFrom (.literal kind quote (content ++ [letter])) rest := by
  induction digits generalizing start with
  | nil => exact absurd rfl hne
  | cons d digits ih =>
      rw [spelled, List.foldlM_cons, Option.bind_eq_bind, Option.bind_eq_some_iff] at h
      obtain ⟨next, hdigit, hrest⟩ := h
      obtain ⟨value, hvalue, rfl⟩ := Option.map_eq_some_iff.mp hdigit
      cases digits with
      | nil =>
          obtain hcode : 16 * start + value = letter.code := by simpa using hrest
          have hstep : step (.code kind quote content start 1) d =
              some ([], .literal kind quote (content ++ [letter])) := by
            rw [step, hvalue, Option.bind_some, if_pos rfl, hcode, letterOfCode?_code,
              Option.map_some]
          exact tokensFrom_silent hstep rest
      | cons e digits =>
          have hstep : step (.code kind quote content start (d :: e :: digits).length)
              d = some ([], .code kind quote content (16 * start + value)
              (e :: digits).length) := by
            simp [step, hvalue]
          rw [List.cons_append, tokensFrom_silent hstep]
          exact ih (List.cons_ne_nil e digits) hrest

variable {kind : LiteralKind} {quote c : Char}

theorem ne_backslash_of_isQuote (h : isQuote quote = true) : '\\' ≠ quote := by
  rintro rfl
  exact absurd h (by decide)

/-- A backslash begins an escape. -/
theorem tokensFrom_backslash (hquote : isQuote quote = true) (content : List Letter)
    (rest : List Char) :
    tokensFrom (.literal kind quote content) ('\\' :: rest) =
      tokensFrom (.escape kind quote content) rest := by
  refine tokensFrom_silent ?_ rest
  rw [step, if_neg (ne_backslash_of_isQuote hquote), if_pos rfl]

theorem spells_itself (hquote : c ≠ quote) (hescape : c ≠ '\\')
    (hstands : standsInLiteral kind c = true) :
    Spells kind quote (String.singleton c) (.char c) := by
  intro content rest
  rw [String.toList_singleton, List.singleton_append]
  refine tokensFrom_silent ?_ rest
  rw [step, if_neg hquote, if_neg hescape, if_pos hstands]

/-- What stands after a backslash stands for the character that it is the escape of. -/
theorem spells_escape (e : Char) (hquote : isQuote quote = true)
    (h : escaped? e = some c) :
    Spells kind quote ("\\".push e) (.char c) := by
  intro content rest
  have hstep : step (.escape kind quote content) e =
      some ([], .literal kind quote (content ++ [.char c])) := by
    rw [step, h]
  rw [String.toList_push, show "\\".toList = ['\\'] from rfl, List.singleton_append,
    List.cons_append, tokensFrom_backslash hquote, List.singleton_append,
    tokensFrom_silent hstep]

/-- The code of a letter after a backslash and the character for its length stands
for the letter. -/
theorem spells_code (letter : Letter) (e : Char) {length : Nat}
    (hquote : isQuote quote = true) (he : escaped? e = none)
    (hlength : codeLength? kind e = some length) (hpos : 0 < length)
    (hletter : letter.code < 16 ^ length) :
    Spells kind quote ("\\".push e ++ paddedHex length letter.code) letter := by
  intro content rest
  have hdigits := length_paddedHex hpos hletter
  have hne : (paddedHex length letter.code).toList ≠ [] :=
    List.ne_nil_of_length_pos (hdigits.symm ▸ hpos)
  have hstep : step (.escape kind quote content) e =
      some ([],
        .code kind quote content 0 (paddedHex length letter.code).toList.length) := by
    rw [step, he, hlength, hdigits]
  rw [String.toList_append, String.toList_push, show "\\".toList = ['\\'] from rfl,
    List.append_assoc, List.append_assoc, List.singleton_append,
    tokensFrom_backslash hquote, List.singleton_append, tokensFrom_silent hstep,
    tokensFrom_code hne (spelled_paddedHex length letter.code)]

/-- A character is read from what `literalChar` writes for it. In literals of bytes that
is so for ASCII. -/
theorem spells_literalChar (hquote : isQuote quote = true)
    (h : kind = .text ∨ c.toNat < 0x80) :
    Spells kind quote (literalChar quote c) (.char c) := by
  have hprintable : ∀ d ∈ ['\n', '\r', '\x00'], Text.isPrintable d = false :=
    List.all_iff_forall_prop.mp (by decide)
  have hx : codeLength? kind 'x' = some 2 := by cases kind <;> rfl
  unfold literalChar
  split
  · next hescape =>
    refine spells_escape c hquote ?_
    rcases (by simpa using hescape : c = quote ∨ c = '\\') with rfl | rfl
    · rcases (by simpa [isQuote] using hquote : c = '\'' ∨ c = '"') with rfl | rfl <;>
        rfl
    · rfl
  next hescape =>
  obtain ⟨hne, hbackslash⟩ : c ≠ quote ∧ c ≠ '\\' := by simpa using hescape
  split
  · next hc =>
    obtain rfl := eq_of_beq hc
    exact spells_escape 'n' hquote rfl
  split
  · next hc =>
    obtain rfl := eq_of_beq hc
    exact spells_escape 'r' hquote rfl
  split
  · next hc =>
    obtain rfl := eq_of_beq hc
    exact spells_escape 't' hquote rfl
  split
  · next hc =>
    refine spells_itself hne hbackslash ?_
    have hother : ∀ d ∈ ['\n', '\r', '\x00'], c ≠ d := by
      rintro d hd rfl
      exact absurd hc (by simp [hprintable _ hd])
    simp [standsInLiteral, hother, h]
  split
  · next hc => exact spells_code (.char c) 'x' hquote rfl hx (by omega) hc
  next hlarge =>
  obtain rfl : kind = .text := h.resolve_right (by omega)
  split
  · next hc => exact spells_code (.char c) 'u' hquote rfl rfl (by omega) hc
  · have hcode : c.toNat < 16 ^ 8 := c.val.toNat_lt
    exact spells_code (.char c) 'U' hquote rfl rfl (by omega) hcode

/-- A letter is read from what `literalLetter` writes for it. -/
theorem spells_literalLetter (hquote : isQuote quote = true) (letter : Letter) :
    Spells .text quote (literalLetter quote letter) letter := by
  cases letter with
  | char c => exact spells_literalChar hquote (.inl rfl)
  | half index =>
      have hcode : (Letter.half index).code < 16 ^ 4 := by
        rw [Letter.code]
        omega
      exact spells_code (.half index) 'u' hquote rfl rfl (by omega) hcode

/-- The same for what stands for a byte. -/
theorem spells_literalByte (hquote : isQuote quote = true) (hc : c.toNat < 0x100) :
    Spells .bytes quote (literalByte quote c) (.char c) := by
  unfold literalByte
  split
  · next hascii => exact spells_literalChar hquote (.inr (by omega))
  · exact spells_code (.char c) 'x' hquote rfl rfl (by omega) hc

/-! ## Literals -/

/-- The letters of a literal, one after the other. -/
theorem tokensFrom_spelled {written : Letter → String} {letters : List Letter}
    (h : ∀ letter ∈ letters, Spells kind quote (written letter) letter)
    (content : List Letter) (rest : List Char) :
    tokensFrom (.literal kind quote content)
      ((String.join (letters.map written)).toList ++ rest) =
      tokensFrom (.literal kind quote (content ++ letters)) rest := by
  induction letters generalizing content with
  | nil => simp
  | cons letter letters ih =>
      rw [List.map_cons, String.join_cons, String.toList_append,
        List.append_assoc, h letter List.mem_cons_self, ih (fun l hl =>
        h l (List.mem_cons_of_mem letter hl)), List.append_assoc, List.singleton_append]

/-- The quote that ends a literal. -/
theorem tokensFrom_close (hquote : isQuote quote = true)
    (content : List Letter) {rest : List Char} (hrest : Stops rest) :
    tokensFrom (.literal kind quote content) (quote :: rest) =
    (tokensFrom .between rest).map (.atom (literalAtom kind content) :: ·) := by
  cases content with
  | nil =>
      have hstep : step (.literal kind quote []) quote =
          some ([], .empty kind quote) := by
        simp [step]
      rw [tokensFrom_silent hstep]
      refine tokensFrom_pending rfl (fun c _ hc => ?_) hrest
      have hne : c ≠ quote := by
        rintro rfl
        exact absurd hquote (by simp [hc])
      rw [step, if_neg hne]
  | cons c content =>
      have hstep : step (.literal kind quote (c :: content)) quote =
          some ([.atom (literalAtom kind (c :: content))], .between) := by simp [step]
      exact tokensFrom_step hstep rest

theorem isQuote_literalQuote (chars : List Char) :
    isQuote (literalQuote chars) = true := by
  unfold literalQuote
  split <;> rfl

/-- A literal after the quote that begins it. -/
theorem tokensFrom_literal {written : Letter → String} {letters : List Letter}
    (hquote : isQuote quote = true)
    (h : ∀ letter ∈ letters, Spells kind quote (written letter) letter)
    {rest : List Char} (hrest : Stops rest) :
    tokensFrom (.literal kind quote [])
      ((String.join (letters.map written) ++ String.singleton quote).toList ++ rest) =
      (tokensFrom .between rest).map (.atom (literalAtom kind letters) :: ·) := by
  rw [String.toList_append, String.toList_singleton,
    List.append_assoc, List.singleton_append, tokensFrom_spelled h, List.nil_append,
    tokensFrom_close hquote _ hrest]

/-- Letters are read from their literal. -/
private theorem readsAs_letters (hquote : isQuote quote = true)
    (letters : List Letter) :
    ReadsAs (quote.toString ++ String.join (letters.map (literalLetter quote)) ++
      quote.toString) [.atom (lettersAtom letters)] := by
  intro rest hrest
  have hbegun : step .between quote = some ([], .literal .text quote []) := by
    rcases (by simpa [isQuote] using hquote) with rfl | rfl <;> rfl
  rw [String.append_assoc, String.toList_append,
    Char.toString, String.toList_singleton, List.append_assoc,
    List.singleton_append, tokensFrom_silent hbegun, tokensFrom_literal hquote
    (fun letter _ => spells_literalLetter hquote letter) hrest]
  rfl

private theorem lettersAtom_chars (cs : List Char) :
    lettersAtom (cs.map .char) = .text (String.ofList cs) := by
  have hwhole : ¬ (cs.map Letter.char).any Letter.isHalf = true := by
    simp [Letter.isHalf]
  rw [lettersAtom, dif_neg hwhole, List.map_map]
  simp [Function.comp_def, Letter.shown]

/-- A text is read from its literal, whatever is in it. -/
theorem readsAs_textLiteral (text : String) :
    ReadsAs (textLiteral text) [.atom (.text text)] := by
  have hletters := readsAs_letters (isQuote_literalQuote text.toList)
    (text.toList.map .char)
  rw [lettersAtom_chars, String.ofList_toList, List.map_map] at hletters
  exact hletters

/-- So is a torn text. -/
theorem readsAs_tornLiteral (text : Text.Torn) :
    ReadsAs (tornLiteral text) [.atom (.torn text)] := by
  have hletters := readsAs_letters (isQuote_literalQuote text.shown.toList) text.letters
  rwa [lettersAtom, dif_pos text.isTorn] at hletters

/-- The character for a byte has the code of the byte. -/
private theorem toNat_ofNat_toNat (byte : UInt8) :
    (Char.ofNat byte.toNat).toNat = byte.toNat := by
  have hvalid : byte.toNat.isValidChar := by
    have := byte.toNat_lt
    exact .inl (by omega)
  rw [Char.ofNat, dif_pos hvalid]
  rfl

/-- Bytes are read from their literal. -/
theorem readsAs_bytesLiteral (bytes : List UInt8) :
    ReadsAs (bytesLiteral bytes) [.atom (.bytes bytes)] := by
  intro rest hrest
  have hbytes : (bytes.map fun byte => Char.ofNat byte.toNat).map
      (fun c => c.toNat.toUInt8) = bytes := by
    simp [Function.comp_def, toNat_ofNat_toNat]
  have hcodes : ∀ c ∈ bytes.map fun byte => Char.ofNat byte.toNat, c.toNat < 0x100 := by
    intro c hc
    obtain ⟨byte, -, rfl⟩ := List.mem_map.mp hc
    rw [toNat_ofNat_toNat]
    exact byte.toNat_lt
  rw [bytesLiteral]
  generalize bytes.map (fun byte => Char.ofNat byte.toNat) = chars at hbytes hcodes
  have hquote := isQuote_literalQuote chars
  generalize literalQuote chars = quote at hquote
  have hb : step .between 'b' = some ([], .word ['b']) := begun_word (by decide)
  have hbegun : step (.word ['b']) quote = some ([], .literal .bytes quote []) := by
    rcases (by simpa [isQuote] using hquote) with rfl | rfl <;> decide
  have hletters : ∀ letter ∈ chars.map Letter.char,
      Spells .bytes quote (literalByte quote letter.shown) letter :=
    List.forall_mem_map.mpr fun c hc => spells_literalByte hquote (hcodes c hc)
  have hread := tokensFrom_literal hquote hletters hrest
  rw [List.map_map, literalAtom, List.map_map] at hread
  rw [String.append_assoc, String.append_assoc,
    String.toList_append, String.toList_append, show "b".toList = ['b'] from rfl,
    Char.toString, String.toList_singleton, List.append_assoc, List.append_assoc,
    List.singleton_append, List.singleton_append, tokensFrom_silent hb,
    tokensFrom_silent hbegun]
  exact hread.trans (congrArg (fun content =>
    (tokensFrom .between rest).map (.atom (.bytes content) :: ·)) hbytes)

/-! ## Numbers and plain texts -/

/-- The digits of a number are a word. -/
theorem isWord_toString (n : Nat) : IsWord (toString n) := by
  have htoList : (toString n).toList = Nat.toDigits 10 n := Nat.toList_repr
  refine ⟨fun hempty => ?_, fun c hc => ?_⟩
  · rw [hempty] at htoList
    exact Nat.toDigits_ne_nil htoList.symm
  · rw [htoList] at hc
    exact isWordChar_of_isAsciiDigit (isAsciiDigit_of_mem_toDigits hc)

/-- The phrases of an integer. -/
def integerPhrases : Int → List Phrase
  | .ofNat n => [word (toString n)]
  | .negSucc n => [.atom (.mark '-'), word (toString (n + 1))]

theorem readsAs_integer (n : Int) : ReadsAs (toString n) (integerPhrases n) := by
  cases n with
  | ofNat n => exact .word (isWord_toString n)
  | negSucc n =>
      exact (isGap_mark (c := '-') (by decide)).append (.word (isWord_toString (n + 1)))

theorem unparted_integer (n : Int) : Unparted (integerPhrases n) := by
  cases n with
  | ofNat n => simp [integerPhrases]
  | negSucc n => exact unparted_cons.mpr ⟨rfl, by simp⟩

/-- The marks that part nothing. -/
def plainMarks : List Char :=
  ['=', '.', '+', '-']

/-- Whether a character makes words or is such a mark. -/
def IsPlain (c : Char) : Prop :=
  Text.isWordChar c = true ∨ c ∈ plainMarks

instance : DecidablePred IsPlain := fun c =>
  inferInstanceAs (Decidable (Text.isWordChar c = true ∨ c ∈ plainMarks))

/-- Where a reader is that is in no literal. -/
def Mode.IsOutside : Mode → Prop
  | .between => True
  | .word _ => True
  | _ => False

/-- A plain character ends the word before it or goes on with it. -/
private theorem step_plain {c : Char} (hc : IsPlain c) {mode : Mode}
    (hmode : mode.IsOutside) :
    ∃ (phrases : List Phrase) (next : Mode), Unparted phrases ∧ next.IsOutside ∧
      step mode c = some (phraseTokens phrases, next) := by
  have hmarks : ∀ c ∈ plainMarks, Text.isWordChar c = false ∧ isQuote c = false ∧
      begun c = some ([.atom (.mark c)], .between) ∧
        (Phrase.atom (.mark c)).isSeparator = false :=
    List.all_iff_forall_prop.mp (by decide)
  cases mode with
  | between =>
      rcases hc with hword | hmark
      · exact ⟨[], .word [c], unparted_nil, True.intro, begun_word hword⟩
      · obtain ⟨-, -, hbegun, hmark⟩ := hmarks c hmark
        exact ⟨[.atom (.mark c)], .between, by simpa using hmark, True.intro, hbegun⟩
  | word chars =>
      rcases hc with hword | hmark
      · exact ⟨[], .word (chars ++ [c]), unparted_nil, True.intro, if_pos hword⟩
      · obtain ⟨hword, hquote, hbegun, hmark⟩ := hmarks c hmark
        refine ⟨[word (String.ofList chars), .atom (.mark c)], .between, ?_,
          True.intro, ?_⟩
        · simpa using hmark
        rw [step, if_neg (by simp [hword]), if_neg (by simp [hquote]), hbegun]
        rfl
  | _ => exact hmode.elim

/-- Plain characters are read from any place outside of literals. -/
private theorem exists_tokensFrom (mode : Mode)
    {chars : List Char} (h : ∀ c ∈ chars, IsPlain c) (hmode : mode.IsOutside) :
    ∃ phrases, (∀ rest, Stops rest →
      tokensFrom mode (chars ++ rest) =
        (tokensFrom .between rest).map (phraseTokens phrases ++ ·)) ∧
      Unparted phrases := by
  induction chars generalizing mode with
  | nil =>
      cases mode with
      | between => exact ⟨[], fun rest _ => by simp, unparted_nil⟩
      | word chars =>
          exact ⟨[word (String.ofList chars)], fun rest hrest =>
            tokensFrom_word hrest, by simp⟩
      | _ => exact hmode.elim
  | cons c chars ih =>
      obtain ⟨before, next, hbefore, hnext, hstep⟩ :=
        step_plain (h c List.mem_cons_self) hmode
      obtain ⟨phrases, hphrases, hunparted⟩ :=
        ih next (fun d hd => h d (List.mem_cons_of_mem c hd)) hnext
      refine ⟨before ++ phrases, fun rest hrest => ?_, hbefore.append hunparted⟩
      rw [List.cons_append, tokensFrom_step hstep, hphrases rest hrest, Option.map_map]
      simp [Function.comp_def]

/-- Source is read as some phrases, and nothing parts these. -/
def IsRead (source : String) : Prop :=
  ∃ phrases, ReadsAs source phrases ∧ Unparted phrases

/-- A text of plain characters. -/
def IsPlainText (text : String) : Prop :=
  ∀ c ∈ text.toList, IsPlain c

instance : DecidablePred IsPlainText := fun _ =>
  decidable_of_iff _ List.all_iff_forall_prop

/-- A text of plain characters is read. -/
theorem isRead_of_plain {text : String} (h : IsPlainText text) : IsRead text :=
  exists_tokensFrom .between h True.intro

/-- A numeral is made of plain characters. -/
private theorem isPlain_of_mem_numeral {n : Json.Numeral} (hn : n.WellFormed) :
    ∀ c ∈ n.text, IsPlain c := by
  have hothers : ∀ c ∈ ['.', 'e', '-', '+'], IsPlain c :=
    List.all_iff_forall_prop.mp (by decide)
  have hdigit : ∀ c, Json.isDecimalDigit c = true → IsPlain c :=
    fun c hc => .inl (isWordChar_of_isAsciiDigit hc)
  intro c hc
  rw [Json.Numeral.text, List.mem_append, List.mem_append, Json.Numeral.fractionText,
    Json.Numeral.exponentText] at hc
  rcases hc with hc | hc | hc
  · exact hdigit c (hn.whole c hc)
  · split at hc
    · simp at hc
    · rcases List.mem_cons.mp hc with rfl | hc
      · exact hothers _ (by simp)
      · exact hdigit c (hn.fraction c hc)
  · split at hc
    · next negative digits hexponent =>
      rcases List.mem_cons.mp hc with rfl | hc
      · exact hothers _ (by simp)
      rcases List.mem_cons.mp hc with rfl | hc
      · cases negative <;> exact hothers _ (by simp)
      · exact hdigit c ((hn.exponent _ hexponent).2 c hc)
    · simp at hc

theorem isRead_float (x : Binary64) : IsRead x.literal := by
  have hnames : ∀ text ∈ ["nan", "-inf", "inf"], IsPlainText text := by decide
  apply isRead_of_plain
  unfold Binary64.literal
  split
  · exact hnames "nan" (by simp)
  split
  · split
    · exact hnames "-inf" (by simp)
    · exact hnames "inf" (by simp)
  obtain ⟨n, hn, -, htext⟩ := Json.finiteText_numeral x
  intro c hc
  rw [htext, List.mem_append] at hc
  rcases hc with hc | hc
  · have hminus : c = '-' := by simpa using (List.mem_ite_nil_right.mp hc).2
    exact .inr (hminus ▸ by decide)
  · exact isPlain_of_mem_numeral hn c hc

/-! ## Dates and moments -/

/-- A call of what has a plain name. -/
private theorem IsRead.call {name arguments : String} (hname : IsPlainText name)
    (h : ∃ phrases, ReadsAs arguments phrases) :
    IsRead (name ++ ("(" ++ arguments ++ ")")) := by
  obtain ⟨names, hnames, hunparted⟩ := isRead_of_plain hname
  obtain ⟨phrases, hphrases⟩ := h
  exact ⟨_, hnames.grouped .round hphrases, hunparted.append (by simp)⟩

private theorem exists_readsAs_listed {sources : List String}
    (h : ∀ source ∈ sources, IsRead source) :
    ∃ phrases, ReadsAs (", ".intercalate sources) phrases := by
  obtain ⟨phrases, hphrases⟩ : ∃ phrases, List.Forall₂ ReadsAs sources phrases := by
    induction sources with
    | nil => exact ⟨[], .nil⟩
    | cons source sources ih =>
        obtain ⟨entry, hentry, -⟩ := h source List.mem_cons_self
        obtain ⟨entries, hentries⟩ := ih fun other hother =>
          h other (List.mem_cons_of_mem source hother)
        exact ⟨entry :: entries, .cons hentry hentries⟩
  exact ⟨_, ReadsAs.listed hphrases⟩

private theorem isRead_number (n : Nat) : IsRead (toString n) :=
  isRead_of_plain fun c hc => .inl ((isWord_toString n).2 c hc)

theorem isRead_date (d : Date) : IsRead d.literal := by
  have hname : "datetime.date(" = "datetime.date" ++ "(" := by rfl
  have hliteral : d.literal =
      "datetime.date" ++ ("(" ++ ", ".intercalate [toString d.year, toString d.month,
        toString d.day] ++ ")") := by
    have hd : d.literal =
        "datetime.date(" ++ toString d.year ++ ", " ++ toString d.month ++ ", " ++
          toString d.day ++ ")" := rfl
    rw [hd, hname, String.intercalate_cons_cons, String.intercalate_cons_cons,
      String.intercalate_singleton]
    simp only [String.append_assoc]
  rw [hliteral]
  refine .call (by decide) (exists_readsAs_listed fun source hsource => ?_)
  simp only [List.mem_cons, List.not_mem_nil, or_false] at hsource
  rcases hsource with rfl | rfl | rfl <;> exact isRead_number _

/-- An argument with its name before it. -/
private theorem IsRead.assigned {name argument : String} (hname : IsPlainText name)
    (h : IsRead argument) : IsRead (name ++ ("=" ++ argument)) := by
  obtain ⟨names, hnames, hunparted⟩ := isRead_of_plain hname
  obtain ⟨phrases, hphrases, hphrasesUnparted⟩ := h
  refine ⟨_, hnames.assigned hphrases, hunparted.append ?_⟩
  exact unparted_cons.mpr ⟨rfl, hphrasesUnparted⟩

private theorem isRead_integer (n : Int) : IsRead (toString n) :=
  ⟨_, readsAs_integer n, unparted_integer n⟩

private theorem exists_readsAs_span (seconds : Int) :
    ∃ phrases, ReadsAs (if seconds < 0 then "days=-1, seconds=" ++
      toString (seconds + 86400) else "seconds=" ++ toString seconds) phrases := by
  split
  · have hdays : "days=-1, seconds=" = "days=-1" ++ ", " ++ ("seconds" ++ "=") := by rfl
    have htext : "days=-1, seconds=" ++ toString (seconds + 86400) =
        ", ".intercalate ["days=-1",
          "seconds" ++ ("=" ++ toString (seconds + 86400))] := by
      rw [hdays, String.intercalate_cons_cons, String.intercalate_singleton]
      simp only [String.append_assoc]
    rw [htext]
    refine exists_readsAs_listed fun source hsource => ?_
    simp only [List.mem_cons, List.not_mem_nil, or_false] at hsource
    rcases hsource with rfl | rfl
    · exact isRead_of_plain (by decide)
    · exact .assigned (by decide) (isRead_integer _)
  · have hseconds : "seconds=" = "seconds" ++ "=" := by rfl
    rw [hseconds, String.append_assoc]
    obtain ⟨phrases, hphrases, -⟩ := IsRead.assigned (by decide : IsPlainText "seconds")
      (isRead_integer seconds)
    exact ⟨phrases, hphrases⟩

private theorem isRead_offset (offset : Int) :
    IsRead (Moment.offsetLiteral offset) := by
  unfold Moment.offsetLiteral
  split
  · exact isRead_of_plain (by decide)
  extract_lets seconds span
  have hspan : ∃ phrases, ReadsAs span phrases := exists_readsAs_span seconds
  obtain ⟨call, hcall, -⟩ :=
    IsRead.call (by decide : IsPlainText "datetime.timedelta") hspan
  have hopens : "datetime.timezone(datetime.timedelta(" =
      "datetime.timezone" ++ "(" ++ "datetime.timedelta" ++ "(" := by rfl
  have hcloses : "))" = ")" ++ ")" := by rfl
  have hliteral : "datetime.timezone(datetime.timedelta(" ++ span ++ "))" =
      "datetime.timezone" ++
        ("(" ++ ("datetime.timedelta" ++ ("(" ++ span ++ ")")) ++ ")") := by
    rw [hopens, hcloses]
    simp only [String.append_assoc]
  show IsRead ("datetime.timezone(datetime.timedelta(" ++ span ++ "))")
  rw [hliteral]
  exact .call (by decide) ⟨call, hcall⟩

theorem isRead_moment (m : Moment) : IsRead m.literal := by
  unfold Moment.literal
  extract_lets clock numbers parts
  have hnumbers : ∀ source ∈ numbers, IsRead source := by
    intro source hsource
    obtain ⟨n, -, rfl⟩ := List.mem_map.mp hsource
    exact isRead_number n
  have hparts : ∀ source ∈ parts, IsRead source := by
    intro source hsource
    unfold parts at hsource
    split at hsource
    · exact hnumbers source hsource
    next offset hoffset =>
    rcases List.mem_append.mp hsource with hsource | hsource
    · exact hnumbers source hsource
    have hzone : "tzinfo=" = "tzinfo" ++ "=" := by rfl
    obtain rfl := List.mem_singleton.mp hsource
    rw [hzone, String.append_assoc]
    exact .assigned (by decide) (isRead_offset offset)
  have hname : "datetime.datetime(" = "datetime.datetime" ++ "(" := by rfl
  have hliteral : "datetime.datetime(" ++ ", ".intercalate parts ++ ")" =
      "datetime.datetime" ++ ("(" ++ ", ".intercalate parts ++ ")") := by
    rw [hname]
    simp only [String.append_assoc]
  rw [hliteral]
  exact .call (by decide) (exists_readsAs_listed hparts)

/-! ## Values -/

/-- The phrases of source that is read. -/
def phrasesRead (source : String) : List Phrase :=
  (readSource source).getD []

/-- Source that is read is read as its phrases, and nothing parts these. -/
theorem IsRead.readsAs {source : String} (h : IsRead source) :
    ReadsAs source (phrasesRead source) ∧ Unparted (phrasesRead source) := by
  obtain ⟨phrases, hphrases, hunparted⟩ := h
  rw [phrasesRead, readSource_of_readsAs hphrases, Option.getD_some]
  exact ⟨hphrases, hunparted⟩

/-- The phrases of a scalar. -/
def scalarPhrases : Scalar → List Phrase
  | .null => [word "None"]
  | .bool b => [word (if b then "True" else "False")]
  | .int n => integerPhrases n
  | .float x => phrasesRead x.literal
  | .str s => [.atom (.text s)]
  | .torn text => [.atom (.torn text)]
  | .bytes b => [.atom (.bytes b)]
  | .date d => phrasesRead d.literal
  | .moment m => phrasesRead m.literal
  | .pair a b => [.group .round (listed [scalarPhrases a, scalarPhrases b])]

/-- The phrases of a set. -/
def setPhrases : List Scalar → List Phrase
  | [] => [word "set", .group .round []]
  | names => [.group .curly (listed (names.map scalarPhrases))]

mutual

/-- The phrases of a value. -/
def valuePhrases : Value → List Phrase
  | .scalar s => scalarPhrases s
  | .list items => [.group .square (listed (itemPhrases items))]
  | .pair a b => [.group .round (listed [valuePhrases a, valuePhrases b])]
  | .set names => setPhrases names
  | .marked _ members => [.group .curly (listed (memberPhrases members))]

/-- The phrases of each item of a list. -/
def itemPhrases : List Value → List (List Phrase)
  | [] => []
  | v :: rest => valuePhrases v :: itemPhrases rest

/-- The phrases of each entry of an object. -/
def memberPhrases : Members → List (List Phrase)
  | [] => []
  | (k, v) :: rest => (scalarPhrases k ++ colon :: valuePhrases v) :: memberPhrases rest

end

/-- Two sources as a pair. -/
private theorem ReadsAs.paired {first second : String} {phrases others : List Phrase}
    (h : ReadsAs first phrases) (hsecond : ReadsAs second others) :
    ReadsAs ("(" ++ first ++ ", " ++ second ++ ")")
      [.group .round (Server.listed [phrases, others])] := by
  have hlisted := (ReadsAs.listed (.cons h (.cons hsecond .nil))).group .round
  rw [String.intercalate_cons_cons, String.intercalate_singleton] at hlisted
  simpa only [String.append_assoc, Bracket.opens, Bracket.closes] using hlisted

/-- A scalar is read from its literal. -/
theorem readsAs_scalar : ∀ s : Scalar, ReadsAs s.literal (scalarPhrases s)
  | .null => .word (by decide)
  | .bool true => .word (by decide)
  | .bool false => .word (by decide)
  | .int n => readsAs_integer n
  | .float x => (isRead_float x).readsAs.1
  | .str s => readsAs_textLiteral s
  | .torn text => readsAs_tornLiteral text
  | .bytes b => readsAs_bytesLiteral b
  | .date d => (isRead_date d).readsAs.1
  | .moment m => (isRead_moment m).readsAs.1
  | .pair a b => (readsAs_scalar a).paired (readsAs_scalar b)

/-- Nothing parts the phrases of a scalar. -/
theorem unparted_scalar : ∀ s : Scalar, Unparted (scalarPhrases s)
  | .null => by simp [scalarPhrases]
  | .bool _ => by simp [scalarPhrases]
  | .int n => unparted_integer n
  | .float x => (isRead_float x).readsAs.2
  | .str _ => by simp [scalarPhrases, Phrase.isSeparator]
  | .torn _ => by simp [scalarPhrases, Phrase.isSeparator]
  | .bytes _ => by simp [scalarPhrases, Phrase.isSeparator]
  | .date d => (isRead_date d).readsAs.2
  | .moment m => (isRead_moment m).readsAs.2
  | .pair _ _ => by simp [scalarPhrases]

private theorem readsAs_set :
    ∀ names : List Scalar, ReadsAs (setLiteral names) (setPhrases names)
  | [] => (ReadsAs.word (by decide : IsWord "set")).grouped .round .empty
  | name :: names => by
      have hnames :
          List.Forall₂ ReadsAs ((name :: names).map Scalar.literal)
            ((name :: names).map scalarPhrases) := by
        rw [List.forall₂_map_left_iff, List.forall₂_map_right_iff, List.forall₂_same]
        exact fun s _ => readsAs_scalar s
      exact (ReadsAs.listed hnames).group .curly

mutual

/-- A value is read from its literal. -/
theorem readsAs_value : ∀ v : Value, ReadsAs v.literal (valuePhrases v)
  | .scalar s => readsAs_scalar s
  | .list items => (ReadsAs.listed (readsAs_items items)).group .square
  | .pair a b => (readsAs_value a).paired (readsAs_value b)
  | .set names => readsAs_set names
  | .marked _ members => (ReadsAs.listed (readsAs_members members)).group .curly

theorem readsAs_items : ∀ items : List Value,
    List.Forall₂ ReadsAs (Tree.itemLiterals items) (itemPhrases items)
  | [] => .nil
  | v :: rest => .cons (readsAs_value v) (readsAs_items rest)

theorem readsAs_members : ∀ members : Members,
    List.Forall₂ ReadsAs (Tree.memberLiterals members) (memberPhrases members)
  | [] => .nil
  | (k, v) :: rest =>
      .cons ((readsAs_scalar k).keyed (readsAs_value v)) (readsAs_members rest)

end

end ApiWorkbench.Server
