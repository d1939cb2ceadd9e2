import ApiWorkbench.Proofs.Yaml.ScalarText

/-!
# Blocks as tokens

The entries of a block stand at one column, each with its indicator or its key first.
The first one opens the block unless the lexer is in one that is indented as far
(`Opens`), and the block ends at a line that is indented less. So entries below each
other are read if each of them is (`EntryText.stacked`), whatever they are.

## Main results

* `EntryText.stacked`: entries below each other.
* `EntryText.item`, `EntryText.simpleMember`, `EntryText.explicitMember`: the three
  forms of entries.
-/

namespace ApiWorkbench.Yaml

open Cursor Lexer Relation

/-! ## The tokens of a block -/

/-- A block at a column begins or is at hand: the blocks and the tokens
before and after. -/
inductive Opens (opening : Token) (column : Nat) :
    Int → List Int → List Token → List Int → List Token → Prop
  | here (outer : List Int) (tokens : List Token) :
      Opens opening column column outer tokens outer tokens
  | deeper {indent : Int} (outer : List Int) (tokens : List Token) : indent < column →
      Opens opening column indent outer tokens (indent :: outer) (opening :: tokens)

/-- The lexer arrives somewhere, and steps lead from there to a state. -/
def Leads (s b : Lexer) : Prop :=
  ∃ a, s.arrive = .ok a ∧ a.cursor.rest.length ≤ s.cursor.rest.length ∧
    ReflTransGen Reads a b

section

variable {c : Cursor} {tokens top : List Token} {indent : Int} {outer around : List Int}
  {opening token : Token} {allowed : Bool} {rest : List Char}

private theorem openBlock_eq
    (hopens : Opens opening c.column indent outer tokens around top) :
    (place c tokens indent outer allowed).openBlock opening c.column tokens.length =
      place c top c.column around allowed := by
  cases hopens with
  | here => simp [openBlock, placeAfter]
  | deeper _ _ hlt => simp [openBlock, placeAfter, Lexer.insert, hlt]

/-- The dash of an item. -/
private theorem readToken_dash (hc : c.rest = '-' :: ' ' :: rest)
    (hopens : Opens .blockSequenceStart c.column indent outer tokens around top) :
    (place c tokens indent outer true).readToken =
      .ok (place (c.skip 1) (.blockEntry :: top) c.column around true) := by
  have hmarker : c.atMarker = false := by
    rw [atMarker, hc]
    rfl
  have hread : (place c tokens indent outer true).readBlockEntry =
      .ok (place (c.skip 1) (.blockEntry :: top) c.column around true) := by
    simp [readBlockEntry, openBlock_eq hopens]
  rw [← hread, readToken]
  simp [placeAfter, peek_cons hc, peekAt_one hc, hmarker, isBlankOrEnd, isSpaceOrEnd]

/-- The question mark of a key on a line of its own. -/
private theorem readToken_question (hc : c.rest = '?' :: ' ' :: rest)
    (hopens : Opens .blockMappingStart c.column indent outer tokens around top) :
    (place c tokens indent outer true).readToken =
      .ok (place (c.skip 1) (.key :: top) c.column around true) := by
  have hmarker : c.atMarker = false := atMarker_eq_false (by simp [hc])
  have hread : (place c tokens indent outer true).readKey =
      .ok (place (c.skip 1) (.key :: top) c.column around true) := by
    simp [readKey, openBlock_eq hopens]
  rw [← hread, readToken]
  simp [placeAfter, peek_cons hc, peekAt_one hc, hmarker, isBlankOrEnd, isSpaceOrEnd]

private theorem readToken_colon (candidate : Option Candidate)
    (hc : c.rest = ':' :: rest) (hrest : isBlankOrEnd (rest.headD endChar) = true) :
    (placeAfter candidate c tokens indent outer allowed).readToken =
      (placeAfter candidate c tokens indent outer allowed).readValue := by
  have hmarker : c.atMarker = false := atMarker_eq_false (by simp [hc])
  rw [← peekAt_one hc] at hrest
  simp [readToken, peek_cons hc, hrest, hmarker]

/-- The colon of a value on a line of its own. -/
private theorem readValue_own : (place c tokens c.column outer true).readValue =
    .ok (place (c.skip 1) (.value :: tokens) c.column outer true) := by
  simp [readValue, openBlock_eq (.here outer tokens)]

/-- The colon after a key. -/
private theorem readValue_key {c' : Cursor}
    (hopens : Opens .blockMappingStart c.column indent outer tokens around top) :
    (placeAfter (some (candidateAt c tokens indent))
      c' (token :: tokens) indent outer false).readValue = .ok
      (place (c'.skip 1) (.value :: token :: .key :: top) c.column around false) := by
  have hone : tokens.length + 1 - tokens.length = 1 := by omega
  have htwo : tokens.length + 1 + 1 - tokens.length = 2 := by omega
  cases hopens with
  | here =>
      simp [readValue, placeAfter, Lexer.insert, openBlock, candidateAt, inFlow,
        allowKey, pushOver, hone]
  | deeper _ _ hlt =>
      simp [readValue, placeAfter, Lexer.insert, openBlock, candidateAt, inFlow,
        allowKey, pushOver, hlt, hone, htwo]

end

/-! ## Values and entries -/

/-- Characters that are read as a value after the indicator of an entry at a column. -/
structure IndicatedText (column : Nat) (text : List Char) (tokens : List Token) :
    Prop where
  starts : ∃ more, text = ' ' :: more
  reads : ∀ {c : Cursor} {before : List Token} {outer : List Int}
    {k : Nat} {rest : List Char}, c.column = column + 1 → k ≤ column →
    c.rest = text ++ '\n' :: (List.replicate k ' ' ++ rest) → LineStart rest →
    Leads (place c before column outer true)
      ((place (c.skip (text.length + (k + 1))) (tokens.reverse ++ before) column outer
        true).closeBlocks k)

/-- Characters that are read as a value after a key at a column and its colon. -/
structure KeyedText (column : Nat) (text : List Char) (tokens : List Token) : Prop where
  starts : ∃ x more, text = x :: more ∧ isBlankOrEnd x = true
  reads : ∀ {c : Cursor} {before : List Token} {outer : List Int}
    {k : Nat} {rest : List Char}, column < c.column → k ≤ column →
    c.rest = text ++ '\n' :: (List.replicate k ' ' ++ rest) → LineStart rest →
    Leads (place c before column outer false)
      ((place (c.skip (text.length + (k + 1))) (tokens.reverse ++ before) column outer
        true).closeBlocks k)

/-- Characters that are read as entries at a column, of a block that they open or
that is at hand. -/
structure EntryText (opening : Token) (column : Nat) (text : List Char)
    (tokens : List Token) : Prop where
  lineStart : ∀ tail, LineStart (text ++ '\n' :: tail)
  reads : ∀ {c : Cursor} {before top : List Token} {indent : Int}
    {outer around : List Int} {k : Nat} {rest : List Char}, Opens opening column indent
    outer before around top → c.column = column → k ≤ column →
    c.rest = text ++ '\n' :: (List.replicate k ' ' ++ rest) → LineStart rest →
    ReflTransGen Reads (place c before indent outer true)
      ((place (c.skip (text.length + (k + 1))) (tokens.reverse ++ top) column around
        true).closeBlocks k)

section

variable {column : Nat} {text key : List Char} {tokens : List Token}
  {token opening : Token}

/-- A step to a token after which the lexer goes on. -/
private theorem reads_leads {a s b : Lexer} (hmore : a.cursor.rest ≠ [])
    (hread : a.readToken = .ok s) (hless : s.cursor.rest.length < a.cursor.rest.length)
    (hleads : Leads s b) : ReflTransGen Reads a b := by
  obtain ⟨t, harrive, hlength, hreads⟩ := hleads
  exact .head ⟨hmore, by omega, s, hread, harrive⟩ hreads

private theorem length_skip_one_lt {c : Cursor} {x : Char} {rest : List Char}
    (hc : c.rest = x :: rest) :
    (c.skip 1).rest.length < c.rest.length := by
  simp [hc]

/-- The place after an indicator. -/
private theorem skip_indicator {c : Cursor} {x : Char} {rest : List Char}
    (hc : c.rest = x :: rest) (hx : IsInline x) :
    c.skip 1 = ⟨rest, c.index + 1, c.line, c.column + 1⟩ :=
  skip_inline (show c.rest = [x] ++ rest from hc) (by simpa using hx)

/-- The lexer passes over one space. -/
private theorem arrive_after_space {c : Cursor} {before : List Token} {indent : Int}
    {outer : List Int} {allowed : Bool} {rest : List Char} (hc : c.rest = ' ' :: rest)
    (hrest : Solid rest) (hindent : indent ≤ c.column + 1) :
    (place c before indent outer allowed).arrive =
      .ok (place (c.skip 1) before indent outer allowed) := by
  have hplace := skip_indicator hc isInline_space
  rw [arrive_solid (k := 1) rfl hc hrest (by simp)]
  refine congrArg Except.ok (closeBlocks_place_of_le ?_)
  show indent ≤ ((c.skip 1).column : Int)
  rw [hplace]
  exact hindent

/-- An item is a value after a dash. -/
theorem EntryText.item (h : IndicatedText column text tokens) :
    EntryText .blockSequenceStart column ('-' :: text) (.blockEntry :: tokens) where
  lineStart tail := by
    obtain ⟨more, rfl⟩ := h.starts
    exact ⟨solid_cons ⟨rfl, rfl, by decide⟩ (by decide) (by decide) _, rfl, rfl⟩
  reads {c before top indent outer around k rest} hopens hcolumn hk hc hrest := by
    subst hcolumn
    obtain ⟨more, hmore⟩ := h.starts
    have hdash : c.rest = '-' :: ' ' ::
        (more ++ '\n' :: (List.replicate k ' ' ++ rest)) := by
      rw [hc, hmore]
      rfl
    have hplace := skip_indicator hc ⟨rfl, rfl, by decide⟩
    refine reads_leads (by simp [hc]) (readToken_dash hdash hopens)
      (length_skip_one_lt hdash) ?_
    rw [List.reverse_cons, List.append_assoc, List.length_cons, Nat.add_right_comm,
      Nat.add_comm _ 1, skip_add]
    exact h.reads (by rw [hplace]) hk (by rw [hplace]; rfl) hrest

/-- A member whose key stands on the line of its value. -/
theorem EntryText.simpleMember (hkey : ScalarText key token)
    (hinline : ∀ x ∈ key, IsInline x) (hshort : key.length ≤ 1024)
    (h : KeyedText column text tokens) :
    EntryText .blockMappingStart column (key ++ ':' :: text)
      (.key :: token :: .value :: tokens) where
  lineStart tail := by
    rw [List.append_assoc]
    exact hkey.lineStart (.inl rfl)
  reads {c before top indent outer around k rest} hopens hcolumn hk hc hrest := by
    subst hcolumn
    obtain ⟨x, more, hmore, hblank⟩ := h.starts
    have hindent : indent ≤ c.column := by
      cases hopens with
      | here => exact Int.le_refl _
      | deeper _ _ hlt => omega
    rw [List.append_assoc, List.cons_append] at hc
    have hhead : isBlankOrEnd
        ((text ++ '\n' :: (List.replicate k ' ' ++ rest)).headD endChar) = true := by
      rw [hmore]
      exact hblank
    have hcolon : (c.skip key.length).rest =
        ':' :: (text ++ '\n' :: (List.replicate k ' ' ++ rest)) :=
      rest_skip_length hc
    have hplace := skip_indicator hcolon ⟨rfl, rfl, by decide⟩
    refine .head (hkey.key hindent hc hhead hinline hshort) ?_
    refine reads_leads (by rw [cursor_placeAfter, hcolon]; simp)
      ((readToken_colon _ hcolon hhead).trans (readValue_key hopens))
      (length_skip_one_lt hcolon) ?_
    have hcount : (key ++ ':' :: text).length + (k + 1) =
        key.length + (1 + (text.length + (k + 1))) := by
      simp only [List.length_append, List.length_cons]
      omega
    rw [hcount, skip_add, skip_add]
    simp only [List.reverse_cons, List.append_assoc, List.cons_append, List.nil_append]
    refine h.reads ?_ hk (by rw [hplace]) hrest
    rw [hplace, skip_inline hc hinline]
    show c.column < c.column + key.length + 1
    omega

/-- A member whose key stands on a line of its own. -/
theorem EntryText.explicitMember (hkey : ScalarText key token)
    (h : IndicatedText column text tokens) :
    EntryText .blockMappingStart column
      ('?' :: ' ' :: (key ++ '\n' :: (List.replicate column ' ' ++ ':' :: text)))
      (.key :: token :: .value :: tokens) where
  lineStart tail :=
    ⟨solid_cons ⟨rfl, rfl, by decide⟩ (by decide) (by decide) _, rfl, rfl⟩
  reads {c before top indent outer around k rest} hopens hcolumn hk hc hrest := by
    subst hcolumn
    obtain ⟨more, hmore⟩ := h.starts
    have hafter : (key ++ '\n' :: (List.replicate c.column ' ' ++ ':' :: text)) ++
        '\n' :: (List.replicate k ' ' ++ rest) = key ++ '\n' :: (List.replicate c.column
        ' ' ++ ':' :: (text ++ '\n' :: (List.replicate k ' ' ++ rest))) := by
      simp
    rw [List.cons_append, List.cons_append, hafter] at hc
    have hvalue : LineStart (':' :: (text ++ '\n' :: (List.replicate k ' ' ++ rest))) :=
      ⟨solid_cons ⟨rfl, rfl, by decide⟩ (by decide) (by decide) _, rfl, rfl⟩
    have hspace := skip_indicator hc ⟨rfl, rfl, by decide⟩
    have hplace : (c.skip 1).skip 1 = ⟨key ++ '\n' :: (List.replicate c.column ' ' ++
        ':' :: (text ++ '\n' :: (List.replicate k ' ' ++ rest))), c.index + 1 + 1,
          c.line, c.column + 1 + 1⟩ := by
      rw [hspace]
      exact skip_indicator rfl isInline_space
    refine reads_leads (by simp [hc]) (readToken_question hc hopens)
      (length_skip_one_lt hc) ?_
    refine ⟨_, arrive_after_space (by rw [hspace]) (hkey.lineStart (.inr rfl)).solid ?_,
      ?_, ?_⟩
    · rw [hspace]
      push_cast
      omega
    · rw [cursor_placeAfter, cursor_placeAfter, rest_skip, List.length_drop]
      omega
    -- the key is read up to the start of the next line, which begins with the colon
    refine .head (hkey.line ?_ (Int.le_refl _) (by rw [hplace]) hvalue) ?_
    · rw [hplace]
      push_cast
      omega
    rw [closeBlocks_place_of_le (Int.le_refl _)]
    have hkeyEnd : (((c.skip 1).skip 1).skip key.length).rest = '\n' :: (List.replicate
        c.column ' ' ++ ':' :: (text ++ '\n' :: (List.replicate k ' ' ++ rest))) :=
      rest_skip_length (by rw [hplace])
    have hline := skip_line hkeyEnd
    rw [← skip_add] at hline
    generalize hcolon : ((c.skip 1).skip 1).skip (key.length + (c.column + 1)) =
      colon at hline ⊢
    have hcolumn : colon.column = c.column := by rw [hline]
    have hrestColon : colon.rest =
        ':' :: (text ++ '\n' :: (List.replicate k ' ' ++ rest)) := by
      rw [hline]
    have hafterColon := skip_indicator hrestColon ⟨rfl, rfl, by decide⟩
    have hhead : isBlankOrEnd
        ((text ++ '\n' :: (List.replicate k ' ' ++ rest)).headD endChar) = true := by
      rw [hmore]
      rfl
    rw [← hcolumn] at h hk ⊢
    refine reads_leads (by simp [hrestColon])
      ((readToken_colon none hrestColon hhead).trans readValue_own)
      (length_skip_one_lt hrestColon) ?_
    have hcount : ('?' :: ' ' :: (key ++ '\n' ::
        (List.replicate colon.column ' ' ++ ':' :: text))).length + (k + 1) =
        1 + (1 + ((key.length + (colon.column + 1)) +
          (1 + (text.length + (k + 1))))) := by
      simp only [List.length_append, List.length_cons, List.length_replicate]
      omega
    rw [hcount, skip_add, skip_add, skip_add, hcolumn, hcolon, skip_add]
    simp only [List.reverse_cons, List.append_assoc, List.cons_append, List.nil_append]
    rw [← hcolumn]
    exact h.reads (by rw [hafterColon]) hk (by rw [hafterColon]) hrest

/-- Entries below each other at a column. -/
def stackedChars (column : Nat) (entries : List (List Char)) : List Char :=
  ('\n' :: List.replicate column ' ').intercalate entries

theorem toList_stacked (column : Nat) (entries : List String) :
    (stacked column entries).toList =
      stackedChars column (entries.map String.toList) := by
  have hfeed : ("\n" : String).toList = ['\n'] := rfl
  rw [stacked, String.toList_intercalate, String.toList_append, toList_spaces, hfeed]
  rfl

/-- Entries below each other are read if each of them is. -/
theorem EntryText.stacked {texts : List (List Char)} {tokenss : List (List Token)}
    (h : List.Forall₂ (EntryText opening column) texts tokenss) (hsome : texts ≠ []) :
    EntryText opening column (stackedChars column texts) tokenss.flatten := by
  induction h with
  | nil => exact absurd rfl hsome
  | @cons text tokens texts tokenss hfirst hothers ih =>
      cases hothers with
      | nil =>
          simp only [stackedChars, List.intercalate_singleton, List.flatten_cons,
            List.flatten_nil, List.append_nil]
          exact hfirst
      | @cons next nextTokens texts tokenss hnext hothers =>
          have hrest := ih (by simp)
          have hsplit : stackedChars column (text :: next :: texts) =
              text ++ '\n' ::
                (List.replicate column ' ' ++ stackedChars column (next :: texts)) := by
            rw [stackedChars, List.intercalate_cons_cons, List.append_assoc]
            rfl
          rw [hsplit, List.flatten_cons]
          generalize stackedChars column (next :: texts) = others at hrest ⊢
          refine ⟨fun tail => ?_, fun {c before top indent outer around k rest} hopens
            hcolumn hk hc hstart => ?_⟩
          · rw [List.append_assoc]
            exact hfirst.lineStart _
          · have hc' : c.rest = text ++ '\n' :: (List.replicate column ' ' ++
                (others ++ '\n' :: (List.replicate k ' ' ++ rest))) := by
              rw [hc]
              simp
            have hstep :=
              hfirst.reads hopens hcolumn (Nat.le_refl _) hc' (hrest.lineStart _)
            rw [closeBlocks_place_of_le (Int.le_refl _)] at hstep
            refine hstep.trans ?_
            have hline := skip_line (rest_skip_length hc')
            rw [← skip_add] at hline
            have hcount :
                (text ++ '\n' :: (List.replicate column ' ' ++ others)).length +
                (k + 1) = (text.length + (column + 1)) + (others.length + (k + 1)) := by
              simp only [List.length_append, List.length_cons, List.length_replicate]
              omega
            rw [hcount, skip_add (text.length + (column + 1)), List.reverse_append,
              List.append_assoc]
            refine hrest.reads (.here around _) ?_ hk ?_ hstart
            · rw [hline]
            · rw [hline]

end

/-! ## Values on one line -/

/-- Characters that are read as a value up to the end of a line. -/
structure LineText (text : List Char) (tokens : List Token) : Prop where
  solid : ∀ tail, Solid (text ++ '\n' :: tail)
  reads : ∀ {c : Cursor} {before : List Token} {indent : Int} {outer : List Int}
    {allowed : Bool} {k : Nat} {rest : List Char}, indent < c.column →
    (k : Int) ≤ indent →
    c.rest = text ++ '\n' :: (List.replicate k ' ' ++ rest) → LineStart rest →
    ReflTransGen Reads (place c before indent outer allowed)
      ((place (c.skip (text.length + (k + 1))) (tokens.reverse ++ before) indent outer
        true).closeBlocks k)

theorem ScalarText.lineText {text : List Char} {token : Token}
    (h : ScalarText text token) : LineText text [token] where
  solid _ := (h.lineStart (.inr rfl)).solid
  reads hindent hk hc hrest := .single (h.line hindent hk hc hrest)

/-- A bracket and the one that closes it. -/
inductive Brackets : Char → Token → Char → Token → Prop
  | sequence : Brackets '[' .flowSequenceStart ']' .flowSequenceEnd
  | mapping : Brackets '\x7b' .flowMappingStart '\x7d' .flowMappingEnd

section

variable {c : Cursor} {before : List Token} {indent : Int} {outer : List Int}
  {allowed : Bool} {rest : List Char} {opening closing : Char} {start finish : Token}
  {candidate : Option Candidate}

/-- The lexer after an opening bracket. -/
private def inBrackets (candidate : Option Candidate) (c : Cursor) (tokens : List Token)
    (indent : Int) (outer : List Int) : Lexer :=
  { placeAfter none c tokens indent outer true with outerCandidates := [candidate] }

private theorem Brackets.isInline (h : Brackets opening start closing finish) :
    IsInline opening ∧ IsInline closing := by
  cases h with
  | sequence => exact ⟨⟨rfl, rfl, by decide⟩, ⟨rfl, rfl, by decide⟩⟩
  | mapping => exact ⟨⟨rfl, rfl, by decide⟩, ⟨rfl, rfl, by decide⟩⟩

private theorem readToken_opening (h : Brackets opening start closing finish)
    (hc : c.rest = opening :: rest) :
    (place c before indent outer allowed).readToken =
      .ok (inBrackets (optionalCandidate allowed c before indent) (c.skip 1)
        (start :: before) indent outer) := by
  have hread : (place c before indent outer allowed).readOpening start =
      .ok (inBrackets (optionalCandidate allowed c before indent) (c.skip 1)
        (start :: before) indent outer) := by
    rw [readOpening, markCandidate_place]
    rfl
  rw [← hread, readToken]
  cases h with
  | sequence => simp [peek_cons hc, atMarker, hc]
  | mapping => simp [peek_cons hc, atMarker, hc]

private theorem readToken_closing (h : Brackets opening start closing finish)
    (hc : c.rest = closing :: rest) :
    (inBrackets candidate c before indent outer).readToken =
      .ok (placeAfter candidate (c.skip 1) (finish :: before) indent outer false) := by
  have hread : (inBrackets candidate c before indent outer).readClosing finish =
      .ok (placeAfter candidate (c.skip 1) (finish :: before) indent outer false) := rfl
  have hpeek : (inBrackets candidate c before indent outer).cursor.peek = closing :=
    peek_cons hc
  have hmarker : (inBrackets candidate c before indent outer).cursor.atMarker =
      false := by
    refine atMarker_eq_false fun x hx => ?_
    obtain rfl : closing = x := by
      rw [show (inBrackets candidate c before indent outer).cursor = c from rfl, hc]
        at hx
      simpa using hx
    cases h <;> simp
  rw [← hread, readToken]
  cases h with
  | sequence => simp [hpeek, hmarker]
  | mapping => simp [hpeek, hmarker]

/-- Brackets with nothing between them. -/
theorem Brackets.lineText (h : Brackets opening start closing finish) :
    LineText [opening, closing] [start, finish] where
  solid _ := by
    cases h with
    | sequence => exact solid_cons ⟨rfl, rfl, by decide⟩ (by decide) (by decide) _
    | mapping => exact solid_cons ⟨rfl, rfl, by decide⟩ (by decide) (by decide) _
  reads {c before indent outer allowed k rest} hindent hk hc hrest := by
    have hopening : c.rest = opening :: closing :: '\n' ::
        (List.replicate k ' ' ++ rest) := hc
    have hplace := skip_indicator hopening h.isInline.1
    have hclosing : (c.skip 1).rest =
        closing :: '\n' :: (List.replicate k ' ' ++ rest) := by
      rw [hplace]
    have hplace' := skip_indicator hclosing h.isInline.2
    have hsolid : Solid (closing :: '\n' :: (List.replicate k ' ' ++ rest)) := by
      cases h with
      | sequence => exact solid_cons ⟨rfl, rfl, by decide⟩ (by decide) (by decide) _
      | mapping => exact solid_cons ⟨rfl, rfl, by decide⟩ (by decide) (by decide) _
    refine .head ⟨by simp [hc], ?_, _, readToken_opening h hopening, arrive_fresh ?_ ?_
      (.inl rfl)⟩ (.single ⟨?_, ?_, _, readToken_closing h hclosing, ?_⟩)
    · exact length_skip_one_lt hopening
    · show Solid (c.skip 1).rest
      rw [hclosing]
      exact hsolid
    · intro candidate hcandidate key hkey
      have hline : (c.skip 1).line = c.line ∧ (c.skip 1).index = c.index + 1 := by
        rw [hplace]; exact ⟨rfl, rfl⟩
      show key.line = (c.skip 1).line ∧ (c.skip 1).index ≤ key.index + 1024
      rcases List.mem_pair.mp hcandidate with rfl | rfl
      · simp [inBrackets] at hkey
      · cases allowed with
        | false => simp at hkey
        | true =>
            obtain rfl : candidateAt c before indent = key := by simpa using hkey
            exact
              ⟨hline.1.symm, by rw [hline.2]; show c.index + 1 ≤ c.index + 1024; omega⟩
    · show (c.skip 1).rest ≠ []
      rw [hclosing]
      simp
    · show _ < (c.skip 1).rest.length
      rw [cursor_closeBlocks, cursor_placeAfter, rest_skip, List.length_drop,
        hopening, hclosing]
      simp
      omega
    · have hend : ((c.skip 1).skip 1).rest =
          '\n' :: (List.replicate k ' ' ++ rest) := by
        rw [hplace']
      have hline : ((c.skip 1).skip 1).line = c.line := by
        rw [hplace']
        show (c.skip 1).line = c.line
        rw [hplace]
      have harrive := arrive_line (s := placeAfter (optionalCandidate allowed c before
          indent) ((c.skip 1).skip 1) (finish :: start :: before) indent outer false)
          rfl hend hrest.solid fun key hkey => by
          obtain ⟨hrequired, hkeyLine⟩ := candidateAt_optional hindent hkey
          exact ⟨hrequired, Nat.le_of_eq (by rw [hkeyLine, cursor_placeAfter, hline])⟩
      have hcount : [opening, closing].length + (k + 1) = 1 + (1 + (k + 1)) := by
        simp only [List.length_cons, List.length_nil]
        omega
      rw [hcount, skip_add, skip_add]
      exact harrive

end

/-! ## Values of entries -/

section

variable {column : Nat} {text : List Char} {tokens : List Token} {opening : Token}

/-- A value on the line of its indicator. -/
theorem IndicatedText.line (h : LineText text tokens) :
    IndicatedText column (' ' :: text) tokens where
  starts := ⟨text, rfl⟩
  reads {c before outer k rest} hcolumn hk hc hrest := by
    have hplace := skip_indicator hc isInline_space
    refine ⟨_, arrive_after_space hc (h.solid _) (by omega), by simp, ?_⟩
    rw [List.length_cons, Nat.add_right_comm, Nat.add_comm _ 1, skip_add]
    exact h.reads (by rw [hplace]; show (column : Int) < (c.column + 1 : Nat); omega)
      (by omega) (by rw [hplace]; rfl) hrest

/-- A value on the line of its key. -/
theorem KeyedText.line (h : LineText text tokens) :
    KeyedText column (' ' :: text) tokens where
  starts := ⟨' ', text, rfl, rfl⟩
  reads {c before outer k rest} hcolumn hk hc hrest := by
    have hplace := skip_indicator hc isInline_space
    refine ⟨_, arrive_after_space hc (h.solid _) (by omega), by simp, ?_⟩
    rw [List.length_cons, Nat.add_right_comm, Nat.add_comm _ 1, skip_add]
    exact h.reads (by rw [hplace]; show (column : Int) < (c.column + 1 : Nat); omega)
      (by omega) (by rw [hplace]; rfl) hrest

/-- A block that is indented more than the one around it, and that ends with
its last entry. -/
private theorem EntryText.reads_block (h : EntryText opening (column + 2) text tokens)
    {c : Cursor} {before : List Token}
    {outer : List Int} {k : Nat} {rest : List Char} (hcolumn : c.column = column + 2)
    (hk : k ≤ column) (hc : c.rest = text ++ '\n' :: (List.replicate k ' ' ++ rest))
    (hrest : LineStart rest) :
    ReflTransGen Reads (place c before column outer true)
      ((place (c.skip (text.length + (k + 1))) ((opening :: (tokens ++
        [.blockEnd])).reverse ++ before) column outer true).closeBlocks k) := by
  have hdeeper : (column : Int) < (column + 2 : Nat) := by omega
  have hreads := h.reads (.deeper outer before hdeeper) hcolumn (by omega) hc hrest
  rw [closeBlocks_of_lt (show (k : Int) < (column + 2 : Nat) by omega)] at hreads
  simpa using hreads

/-- A block after an indicator. -/
theorem IndicatedText.block (h : EntryText opening (column + 2) text tokens) :
    IndicatedText column (' ' :: text) (opening :: (tokens ++ [.blockEnd])) where
  starts := ⟨text, rfl⟩
  reads {c before outer k rest} hcolumn hk hc hrest := by
    have hplace := skip_indicator hc isInline_space
    refine ⟨_, arrive_after_space hc (h.lineStart _).solid (by omega), by simp, ?_⟩
    rw [List.length_cons, Nat.add_right_comm, Nat.add_comm _ 1, skip_add]
    exact h.reads_block (by rw [hplace, hcolumn]) hk (by rw [hplace]; rfl) hrest

/-- The lexer goes on to the first line of a block. -/
private theorem arrive_at_block {c : Cursor} {before : List Token}
    {outer : List Int} {allowed : Bool} {k : Nat} {rest : List Char}
    (hc : c.rest = '\n' :: (List.replicate k ' ' ++ rest)) (hrest : Solid rest)
    (hk : column ≤ k) :
    (place c before column outer allowed).arrive =
      .ok (place (c.skip (k + 1)) before column outer true) :=
  (arrive_line rfl hc hrest (by simp)).trans
    (congrArg Except.ok (closeBlocks_of_le (show (column : Int) ≤ k by omega)))

/-- A sequence after a key, which is indented no more than the key. -/
theorem KeyedText.sequence (h : EntryText .blockSequenceStart column text tokens) :
    KeyedText column ('\n' :: (List.replicate column ' ' ++ text)) tokens where
  starts := ⟨'\n', _, rfl, rfl⟩
  reads {c before outer k rest} _ hk hc hrest := by
    rw [List.cons_append, List.append_assoc] at hc
    have hplace := skip_line hc
    refine ⟨_, arrive_at_block hc (h.lineStart _).solid (Nat.le_refl _), by simp, ?_⟩
    have hcount : ('\n' :: (List.replicate column ' ' ++ text)).length + (k + 1) =
        (column + 1) + (text.length + (k + 1)) := by
      simp only [List.length_cons, List.length_append, List.length_replicate]
      omega
    rw [hcount, skip_add (column + 1)]
    refine h.reads (.here outer before) ?_ hk ?_ hrest
    · rw [hplace]
    · rw [hplace]

/-- A block after a key. -/
theorem KeyedText.block (h : EntryText opening (column + 2) text tokens) :
    KeyedText column ('\n' :: (List.replicate (column + 2) ' ' ++ text))
      (opening :: (tokens ++ [.blockEnd])) where
  starts := ⟨'\n', _, rfl, rfl⟩
  reads {c before outer k rest} _ hk hc hrest := by
    rw [List.cons_append, List.append_assoc] at hc
    have hplace := skip_line hc
    refine ⟨_, arrive_at_block hc (h.lineStart _).solid (by omega), by simp, ?_⟩
    have hcount : ('\n' :: (List.replicate (column + 2) ' ' ++ text)).length + (k + 1) =
        (column + 2 + 1) + (text.length + (k + 1)) := by
      simp only [List.length_cons, List.length_append, List.length_replicate]
      omega
    rw [hcount, skip_add (column + 2 + 1)]
    refine h.reads_block ?_ hk ?_ hrest
    · rw [hplace]
    · rw [hplace]

/-- The tokens of a text that is one block. -/
theorem tokens_of_entryText (h : EntryText opening 0 text tokens)
    (hallowed : ∀ x ∈ text, isAllowed x = true)
    {s : String} (hs : s.toList = text ++ ['\n']) :
    Yaml.tokens s = opening :: (tokens ++ [.blockEnd]) := by
  have hall : s.toList.all isAllowed = true := by
    rw [hs, List.all_append, List.all_eq_true.mpr hallowed]
    rfl
  have hstart := h.lineStart []
  have hc : (Cursor.start s.toList).rest =
      text ++ '\n' :: (List.replicate 0 ' ' ++ []) := hs
  have harrive : (Lexer.start s.toList).arrive =
      .ok (place (.start s.toList) [] (-1) [] true) := by
    have hsolid : Solid (Cursor.start s.toList).rest := by
      rw [hc]
      exact hstart.solid
    exact arrive_fresh hsolid (by simp [Lexer.start])
      (.inr (show (-1 : Int) ≤ (0 : Nat) by decide))
  have houtside : (-1 : Int) < (0 : Nat) := by decide
  have hreads := h.reads (.deeper [] [] houtside) rfl (Nat.le_refl 0) hc lineStart_nil
  rw [closeBlocks_place_of_le (Int.le_refl _)] at hreads
  have hend : ((Cursor.start s.toList).skip (text.length + (0 + 1))).rest = [] := by
    rw [rest_skip, hc]
    simp
  have hread : readAll (s.toList.length + 1) (Lexer.start s.toList) = _ :=
    readAll_of_reads harrive hreads hend rfl (Nat.lt_succ_self _)
  rw [Yaml.tokens]
  simp only [hall, if_true, hread]
  simp [closeBlocks, closeBlocks.close, placeAfter, allowKey, inFlow]

end

end ApiWorkbench.Yaml
