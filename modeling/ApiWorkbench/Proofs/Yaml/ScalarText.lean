import ApiWorkbench.Proofs.Letters
import ApiWorkbench.Proofs.Yaml.Arrival
import ApiWorkbench.Proofs.Yaml.PlainText

/-!
# Scalars as tokens

However a scalar is written, it becomes one token, and the lexer arrives at the same
state after it: at the start of the next line if the line ends with the scalar, and at
the colon if the scalar is a key on the line of its value. `ScalarText` says so for the
characters of a scalar.

## Main results

* `scalarText_plain`: characters that can be written without quotes.
* `scalarText_textScalar`: a text, in whichever style it is written.
-/

namespace ApiWorkbench.Yaml

open Cursor Lexer

/-- The node that begins at a place, as a possible key. -/
def candidateAt (c : Cursor) (tokens : List Token) (indent : Int) : Candidate where
  position := tokens.length
  required := indent == c.column
  index := c.index
  line := c.line
  column := c.column

/-- Characters that are read as one token. -/
structure ScalarText (text : List Char) (token : Token) : Prop where
  nonempty : text ≠ []
  lineStart : ∀ {x : Char} {tail : List Char}, x = ':' ∨ x = '\n' →
    LineStart (text ++ x :: tail)
  /-- at the end of a line -/
  line : ∀ {c : Cursor} {tokens : List Token} {indent : Int} {outer : List Int}
    {allowed : Bool} {k : Nat} {rest : List Char}, indent < c.column →
    (k : Int) ≤ indent →
    c.rest = text ++ '\n' :: (List.replicate k ' ' ++ rest) → LineStart rest →
    Reads (place c tokens indent outer allowed)
      ((place (c.skip (text.length + (k + 1))) (token :: tokens) indent outer
        true).closeBlocks k)
  /-- before a colon -/
  key : ∀ {c : Cursor} {tokens : List Token} {indent : Int} {outer : List Int}
    {tail : List Char}, indent ≤ c.column → c.rest = text ++ ':' :: tail →
    isBlankOrEnd (tail.headD endChar) = true →
    (∀ x ∈ text, IsInline x) → text.length ≤ 1024 →
    Reads (place c tokens indent outer true)
      (placeAfter (some (candidateAt c tokens indent)) (c.skip text.length)
        (token :: tokens) indent outer false)

section

variable {c : Cursor} {tokens : List Token} {token : Token} {indent : Int}
  {outer : List Int} {allowed : Bool} {text rest : List Char} {k n : Nat}

/-! ## Steps from a scalar -/

/-- The node that begins at a place, if it may be a key. -/
abbrev optionalCandidate (allowed : Bool) (c : Cursor) (tokens : List Token)
    (indent : Int) : Option Candidate :=
  if allowed then some (candidateAt c tokens indent) else none

theorem markCandidate_place : (place c tokens indent outer allowed).markCandidate =
    .ok (placeAfter (optionalCandidate allowed c tokens indent) c tokens indent outer
      allowed) := by
  cases allowed <;> rfl

/-- A node that is indented more than its block need not be a key. -/
theorem candidateAt_optional (hindent : indent < c.column) {key : Candidate}
    (hkey : key ∈ optionalCandidate allowed c tokens indent) : key.required = false ∧
      key.line = c.line := by
  cases allowed with
  | false => simp at hkey
  | true =>
      obtain rfl : candidateAt c tokens indent = key := by simpa using hkey
      have hne : indent ≠ c.column := by omega
      simp [candidateAt, hne]

private theorem length_skip_lt (htext : text ≠ []) (hc : c.rest = text ++ rest) :
    (c.skip (text.length + k)).rest.length < c.rest.length := by
  have hpos : 0 < text.length := List.length_pos_iff.mpr htext
  rw [rest_skip, List.length_drop, hc, List.length_append]
  omega

/-- The lexer goes on to the next line after a scalar at whose end it stands, or after
one that it has read together with the end of its line. -/
private theorem reads_line (htext : text ≠ []) (hindent : indent < c.column)
    (hc : c.rest = text ++ '\n' :: (List.replicate k ' ' ++ rest)) (hrest : Solid rest)
    (hread : ∃ newLine, (place c tokens indent outer allowed).readToken =
      .ok (placeAfter (optionalCandidate allowed c tokens indent)
        (c.skip (text.length + if newLine then k + 1 else 0)) (token :: tokens) indent
        outer newLine)) :
    Reads (place c tokens indent outer allowed)
      ((place (c.skip (text.length + (k + 1))) (token :: tokens) indent outer
        true).closeBlocks k) := by
  obtain ⟨newLine, hread⟩ := hread
  have hbreak : (c.skip text.length).rest = '\n' :: (List.replicate k ' ' ++ rest) :=
    rest_skip_length hc
  have hplace := skip_line hbreak
  rw [← skip_add] at hplace
  have hline := line_le_skip text.length c
  refine ⟨?_, ?_, _, hread, ?_⟩
  · show c.rest ≠ []
    simp [hc]
  · rw [cursor_closeBlocks]
    exact length_skip_lt htext hc
  · cases newLine with
    | false =>
        rw [if_neg Bool.false_ne_true, Nat.add_zero, skip_add]
        refine arrive_line rfl hbreak hrest fun key hkey => ?_
        obtain ⟨hrequired, hkeyLine⟩ := candidateAt_optional hindent hkey
        exact ⟨hrequired, by rw [hkeyLine]; exact hline⟩
    | true =>
        rw [if_pos rfl, hplace]
        refine arrive_solid (k := 0) rfl rfl hrest fun key hkey => ?_
        obtain ⟨hrequired, hkeyLine⟩ := candidateAt_optional hindent hkey
        refine ⟨hrequired, ?_⟩
        rw [hkeyLine]
        show c.line ≠ (c.skip text.length).line + 1
        omega

/-- The lexer arrives at the colon after a scalar. -/
private theorem reads_key {tail : List Char} (htext : text ≠ [])
    (hindent : indent ≤ c.column) (hc : c.rest = text ++ ':' :: tail)
    (hinline : ∀ x ∈ text, IsInline x) (hshort : text.length ≤ 1024)
    (hread : (place c tokens indent outer true).readToken =
      .ok (placeAfter (some (candidateAt c tokens indent)) (c.skip text.length)
      (token :: tokens) indent outer false)) :
    Reads (place c tokens indent outer true)
      (placeAfter (some (candidateAt c tokens indent)) (c.skip text.length)
        (token :: tokens) indent outer false) := by
  have hplace := skip_inline hc hinline
  refine ⟨?_, length_skip_lt (k := 0) htext hc, _, hread, arrive_fresh ?_ ?_ (.inr ?_)⟩
  · show c.rest ≠ []
    simp [hc]
  · show Solid (c.skip text.length).rest
    rw [hplace]
    exact solid_cons ⟨rfl, rfl, by decide⟩ (by decide) (by decide) tail
  · intro candidate hcandidate key hkey
    obtain rfl : some (candidateAt c tokens indent) = candidate := by
      simpa [placeAfter, eq_comm] using hcandidate
    obtain rfl : candidateAt c tokens indent = key := by simpa using hkey
    show c.line = (c.skip text.length).line ∧
    (c.skip text.length).index ≤ c.index + 1024
    rw [hplace]
    exact ⟨rfl, by simpa using hshort⟩
  · show indent ≤ (c.skip text.length).column
    rw [hplace]
    push_cast
    omega

/-! ## Scalars between quotes -/

/-- A quoted text without halves of surrogate pairs. -/
theorem Token.quoted_chars (cs : List Char) :
    Token.quoted (cs.map .char) = .scalar false cs := by
  rw [Token.quoted, dif_neg (Text.not_any_isHalf_chars cs), Text.map_shown_chars]

private theorem readToken_quoted (hpeek : c.peek = '\'' ∨ c.peek = '"')
    {value : List Char} (hread : quotedScalar c = .ok (value.map .char, c.skip n)) :
    (place c tokens indent outer allowed).readToken =
      .ok (placeAfter (optionalCandidate allowed c tokens indent) (c.skip n)
        (.scalar false value :: tokens) indent outer false) := by
  have hmarker : c.atMarker = false := atMarker_eq_false fun x hx => by
    obtain rfl : x = c.peek := by
      cases hrest : c.rest with
      | nil => simp [hrest] at hx
      | cons y ys =>
          rw [peek_cons hrest]
          simpa [hrest] using hx.symm
    rcases hpeek with h | h <;> simp [h]
  have hquoted : (place c tokens indent outer allowed).readQuoted = .ok (placeAfter
      (optionalCandidate allowed c tokens indent) (c.skip n)
        (.scalar false value :: tokens) indent outer false) := by
    rw [readQuoted, markCandidate_place, ok_bind]
    show (quotedScalar c >>= fun _ => _) = _
    rw [hread]
    show (Except.ok _ : Except Failure Lexer) = _
    rw [Token.quoted_chars]
    rfl
  rw [← hquoted, readToken]
  rcases hpeek with h | h <;> simp [placeAfter, h, hmarker]

/-- A scalar between quotes that is read up to its closing quote, whatever may
come after it. -/
private theorem scalarText_quoted
    {quote : Char} {text value : List Char} (hquote : quote = '\'' ∨ quote = '"')
    (hread : ∀ {c : Cursor} {x : Char} {tail : List Char}, x = ':' ∨ x = '\n' →
      c.rest = quote :: text ++ x :: tail →
      quotedScalar c = .ok (value.map .char, c.skip (quote :: text).length)) :
    ScalarText (quote :: text) (.scalar false value) where
  nonempty := by simp
  lineStart {x tail} _ := by
    refine ⟨?_, ?_⟩
    · rcases hquote with rfl | rfl
      · exact solid_cons ⟨rfl, rfl, by decide⟩ (by decide) (by decide) _
      · exact solid_cons ⟨rfl, rfl, by decide⟩ (by decide) (by decide) _
    · rcases hquote with rfl | rfl <;> exact ⟨rfl, rfl⟩
  line hindent _ hc hrest := by
    refine reads_line (by simp) hindent hc hrest.solid ⟨false, ?_⟩
    exact readToken_quoted (by rw [peek_cons hc]; exact hquote) (hread (.inr rfl) hc)
  key hindent hc _ hinline hshort := by
    refine reads_key (by simp) hindent hc hinline hshort ?_
    exact readToken_quoted (by rw [peek_cons hc]; exact hquote) (hread (.inl rfl) hc)

theorem scalarText_double (cs : List Char) :
    ScalarText ('"' :: (doubleQuoted cs ++ ['"'])) (.scalar false cs) := by
  refine scalarText_quoted (.inr rfl) fun _ hc => ?_
  rw [quotedScalar_double (by simpa using hc)]
  simp

theorem scalarText_single {cs : List Char} (hcs : allowsSingleQuotes cs = true)
    (indent : Nat) :
    ScalarText ('\'' :: ((singleQuotedChars (spaces (indent + 2)) false cs).toList ++
      ['\''])) (.scalar false (refolded false cs)) := by
  refine scalarText_quoted (.inl rfl) fun {c x tail} hx hc => ?_
  have hnext : ∀ y ∈ (x :: tail).head?, y ≠ '\'' := by
    rcases hx with rfl | rfl <;> simp
  rw [quotedScalar_single hcs hnext (by simpa using hc)]
  simp

/-! ## Scalars without quotes -/

/-- How a text without quotes may begin. -/
theorem head_of_allowsPlain {cs : List Char} (hcs : allowsPlain cs = true) :
    ∃ x xs, cs = x :: xs ∧ "#,[]\x7b\x7d&*!|>'\"%@\x60".toList.contains x = false ∧
      ((x = '?' ∨ x = ':' ∨ x = '-') → isBlankOrEnd (xs.headD endChar) = false) := by
  simp only [allowsPlain, Bool.and_eq_true, Bool.not_eq_true'] at hcs
  cases cs with
  | nil => simp [beginsIndicator] at hcs
  | cons x xs =>
      have hbegins : beginsIndicator (x :: xs) = false := hcs.1.1.1.1.1.1.1
      rw [beginsIndicator, Bool.or_eq_false_iff] at hbegins
      refine ⟨x, xs, rfl, hbegins.1, fun hx => ?_⟩
      rcases hx with rfl | rfl | rfl <;> simpa using hbegins.2

private theorem isPrefixOf_append {start cs tail : List Char} {y : Char}
    (hy : y ∉ start) :
    start.isPrefixOf (cs ++ y :: tail) = start.isPrefixOf cs := by
  induction start generalizing cs with
  | nil => simp [List.isPrefixOf]
  | cons x start ih =>
      obtain ⟨hne, hmem⟩ : y ≠ x ∧ y ∉ start := by simpa using hy
      cases cs with
      | nil => simp [List.isPrefixOf, hne.symm]
      | cons z zs => rw [List.cons_append, List.isPrefixOf, List.isPrefixOf, ih hmem]

private theorem lineStart_of_allowsPlain {cs tail : List Char}
    {y : Char} (hcs : allowsPlain cs = true) (hy : y = ':' ∨ y = '\n') :
    LineStart (cs ++ y :: tail) := by
  obtain ⟨x, xs, rfl, hx, -⟩ := head_of_allowsPlain hcs
  have hplain := plain_of_mem hcs (show x ∈ x :: xs by simp)
  simp only [allowsPlain, Bool.and_eq_true, Bool.not_eq_true', List.head?_cons,
    Option.any_some, Bool.or_eq_false_iff, beq_eq_false_iff_ne] at hcs
  obtain ⟨⟨⟨⟨⟨⟨⟨-, hdashes⟩, hdots⟩, -⟩, hspace, -⟩, -⟩, -⟩, -⟩ := hcs
  refine ⟨solid_cons (isInline_of_not_needsEscape hplain.1 hplain.2) hspace ?_ _, ?_,
    ?_⟩
  · rintro rfl
    simp at hx
  · rw [isPrefixOf_append (by rcases hy with rfl | rfl <;> decide), hdashes]
  · rw [isPrefixOf_append (by rcases hy with rfl | rfl <;> decide), hdots]

/-- What a reader sees where a text without quotes begins. -/
private theorem peek_of_allowsPlain {cs tail : List Char}
    {y : Char} (hcs : allowsPlain cs = true) (hy : y = ':' ∨ y = '\n')
    (hc : c.rest = cs ++ y :: tail) :
    "#,[]\x7b\x7d&*!|>'\"%@\x60".toList.contains c.peek = false ∧
      isBlankOrEnd c.peek = false ∧
      ((c.peek = '?' ∨ c.peek = ':' ∨ c.peek = '-') →
        isBlankOrEnd (c.peekAt 1) = false) := by
  obtain ⟨x, xs, rfl, hx, hindicator⟩ := head_of_allowsPlain hcs
  have hplain := plain_of_mem hcs (show x ∈ x :: xs by simp)
  have hstart : LineStart (x :: xs ++ y :: tail) := lineStart_of_allowsPlain hcs hy
  have hsolid := hstart.solid x rfl
  rw [peek_cons hc, peekAt_one hc]
  refine ⟨hx, isBlankOrEnd_of_not_needsEscape hplain.1 hplain.2 hsolid.2.1, fun h => ?_⟩
  have hnext := hindicator h
  cases xs with
  | nil => contradiction
  | cons z zs => exact hnext

private theorem readToken_plain
    {cs tail : List Char} {y : Char} {newLine : Bool} (hcs : allowsPlain cs = true)
    (hy : y = ':' ∨ y = '\n') (hc : c.rest = cs ++ y :: tail)
    (hread : plainScalar false (indent + 1) c = ⟨cs, newLine, c.skip n⟩) :
    (place c tokens indent outer allowed).readToken =
      .ok (placeAfter (optionalCandidate allowed c tokens indent) (c.skip n)
        (.scalar true cs :: tokens) indent outer newLine) := by
  have hmarker : c.atMarker = false :=
    (lineStart_of_allowsPlain hcs hy).atMarker (k := 0) hc
  have hplain : (place c tokens indent outer allowed).readPlain =
      .ok (placeAfter (optionalCandidate allowed c tokens indent) (c.skip n)
        (.scalar true cs :: tokens) indent outer newLine) := by
    rw [readPlain, markCandidate_place, ok_bind]
    simp only [placeAfter, inFlow, List.isEmpty_nil, Bool.not_true, hread,
      allowKey, pure_eq_ok]
  obtain ⟨hx, hblank, hspaced⟩ := peek_of_allowsPlain hcs hy hc
  have hindicator : ∀ x, x = '?' ∨ x = ':' ∨ x = '-' →
      (c.peek == x && isBlankOrEnd (c.peekAt 1)) = false := by
    rintro x hx
    by_cases h : c.peek = x
    · simp [hspaced (h ▸ hx)]
    · simp [h]
  have hne : c.peek ≠ '#' ∧ c.peek ≠ ',' ∧ c.peek ≠ '[' ∧ c.peek ≠ ']' ∧
      c.peek ≠ '\x7b' ∧ c.peek ≠ '\x7d' ∧
      c.peek ≠ '&' ∧ c.peek ≠ '*' ∧ c.peek ≠ '!' ∧ c.peek ≠ '|' ∧ c.peek ≠ '>' ∧
        c.peek ≠ '\'' ∧ c.peek ≠ '"' ∧
      c.peek ≠ '%' ∧ c.peek ≠ '@' ∧ c.peek ≠ '\x60' := by
    simpa using hx
  have hbegins : beginsPlain false c = true := by
    by_cases h : c.peek = '?' ∨ c.peek = ':' ∨ c.peek = '-'
    · have hnext := hspaced h
      rcases h with h | h | h <;> simp [beginsPlain, hnext, h]
    · simp only [not_or] at h
      simp [beginsPlain, isFlowIndicator, hblank, hne, h]
  rw [← hplain, readToken]
  simp [placeAfter, inFlow, hmarker, hindicator, hbegins, hne]

/-- Characters that can be written without quotes. -/
theorem scalarText_plain {cs : List Char} (hcs : allowsPlain cs = true) :
    ScalarText cs (.scalar true cs) where
  nonempty := by
    obtain ⟨x, xs, rfl, -⟩ := head_of_allowsPlain hcs
    simp
  lineStart := lineStart_of_allowsPlain hcs
  line {c tokens indent outer allowed k rest} hindent hk hc hrest := by
    obtain ⟨x, xs, hcons, -⟩ := head_of_allowsPlain hcs
    have hgap := plainGap_line (rest_skip_length hc) hrest
    have hend : (plainGap (c.skip cs.length)).text = none ∨
        ((plainGap (c.skip cs.length)).cursor.column : Int) < indent + 1 := by
      rw [hgap, ← skip_add, skip_add, skip_line (rest_skip_length hc)]
      exact .inr (show (k : Int) < indent + 1 by omega)
    have hread := plainScalar_eq hcs hc (by omega) rfl hend
    rw [hgap, ← skip_add] at hread
    exact reads_line (by simp [hcons]) hindent hc hrest.solid
      ⟨true, readToken_plain hcs (.inr rfl) hc hread⟩
  key {c tokens indent outer tail} hindent hc htail hinline hshort := by
    obtain ⟨x, xs, hcons, -⟩ := head_of_allowsPlain hcs
    have hgap := plainGap_colon (rest_skip_length hc)
    have hstop : plainRun false (':' :: tail) = [] := by
      rw [plainRun, endsPlain, htail]
      rfl
    have hread := plainScalar_eq hcs hc
      (show indent + 1 ≤ (c.column : Int) + 1 by omega) hstop (.inl (by rw [hgap]))
    rw [hgap] at hread
    exact reads_key (by simp [hcons]) hindent hc hinline hshort
      (readToken_plain hcs (.inl rfl) hc hread)

/-! ## Texts -/

/-- A text that is written without quotes. -/
def isPlainText (cs : List Char) : Bool :=
  plainTag cs == .str && allowsPlain cs

/-- A text as it is read after it was written. -/
def rereadText (s : String) : String :=
  if allowsSingleQuotes s.toList then String.ofList (refolded false s.toList) else s

/-- The token that a text becomes. -/
def textToken (s : String) : Token :=
  .scalar (isPlainText s.toList) (rereadText s).toList

theorem rereadText_of_no_break {s : String}
    (hs : ∀ c ∈ s.toList, isKeptBreak c = false) : rereadText s = s := by
  rw [rereadText, refolded_of_no_break hs, String.ofList_toList, ite_self]

/-- A text is read again unless a next-line character is written between single
quotes. -/
theorem rereadText_eq_self_iff {s : String} :
    rereadText s = s ↔
      ¬ (allowsSingleQuotes s.toList = true ∧ ∃ c ∈ s.toList, c.toNat = 0x85) := by
  unfold rereadText
  split
  · rename_i hquotes
    rw [← String.toList_inj, String.toList_ofList, refolded_eq_self_iff]
    simp [hquotes]
  · rename_i hquotes
    simp [hquotes]

/-- The three styles in which the characters of a text are written. -/
inductive TextStyle (indent : Nat) (isKey : Bool) (cs : List Char) : List Char → Prop
  | plain : isPlainText cs = true → TextStyle indent isKey cs cs
  | single : isPlainText cs = false → allowsSingleQuotes cs = true →
      (isKey && cs.any isKeptBreak) = false →
      TextStyle indent isKey cs
        ('\'' :: ((singleQuotedChars (spaces (indent + 2)) false cs).toList ++ ['\'']))
  | double : isPlainText cs = false →
      (allowsSingleQuotes cs && !(isKey && cs.any isKeptBreak)) = false →
      TextStyle indent isKey cs ('"' :: (doubleQuoted cs ++ ['"']))

theorem textStyle_textScalar (indent : Nat) (isKey : Bool) (s : String) :
    TextStyle indent isKey s.toList (textScalar indent isKey s).toList := by
  have hsingle : ("'" : String).toList = ['\''] := rfl
  have hdouble : ("\"" : String).toList = ['"'] := rfl
  unfold textScalar
  dsimp only
  split
  · exact .plain ‹_›
  · rename_i hplain
    have hplain : isPlainText s.toList = false := Bool.eq_false_iff.mpr hplain
    split
    · rename_i hquotes
      simp only [Bool.and_eq_true, Bool.not_eq_true'] at hquotes
      rw [String.toList_append, String.toList_append, hsingle, List.append_assoc]
      exact .single hplain hquotes.1 hquotes.2
    · rename_i hquotes
      rw [String.toList_append, String.toList_append, hdouble, List.append_assoc,
        toList_join_doubleQuotedChar]
      exact .double hplain (Bool.eq_false_iff.mpr hquotes)

/-- A text, in whichever style it is written; a key has no line ends in it. -/
theorem scalarText_textScalar (indent : Nat) (isKey : Bool) (s : String)
    (hkey : isKey = true → s.toList.any isKeptBreak = false) :
    ScalarText (textScalar indent isKey s).toList (textToken s) := by
  have hbreak : (isKey && s.toList.any isKeptBreak) = false := by
    cases isKey with
    | false => rfl
    | true => exact hkey rfl
  have hstyle := textStyle_textScalar indent isKey s
  generalize (textScalar indent isKey s).toList = text at hstyle
  cases hstyle with
  | plain hplain =>
      have hallows : allowsPlain s.toList = true := (Bool.and_eq_true_iff.mp hplain).2
      rw [textToken, hplain, rereadText_of_no_break fun c hc =>
        (plain_of_mem hallows hc).2]
      exact scalarText_plain hallows
  | single hplain hquotes _ =>
      rw [textToken, hplain, rereadText, if_pos hquotes, String.toList_ofList]
      exact scalarText_single hquotes indent
  | double hplain hquotes =>
      rw [hbreak, Bool.not_false, Bool.and_true] at hquotes
      rw [textToken, hplain, rereadText, if_neg (Bool.eq_false_iff.mp hquotes)]
      exact scalarText_double s.toList

end

end ApiWorkbench.Yaml
