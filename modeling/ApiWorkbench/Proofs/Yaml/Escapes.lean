import ApiWorkbench.Proofs.Yaml.Arrival
import ApiWorkbench.Yaml.Lexer

/-!
# Where the tokens of a text break off

A text whose tokens can be read only in part is malformed, with one exception. An escape
between double quotes may give the code of a character that there is not; then the text
obeys the rules up to that place and means nothing.

The place at hand is always one in the text: what is left there is an end of it. This is
shown for every step, and `Reports` says besides why a step may fail.

## Main results

* `tokens_breakOff`: the tokens of a text break off at an escape for no character, or
  the text is malformed.
-/

namespace ApiWorkbench.Yaml

/-! ## Failures on the way -/

/-- A failure has a reason: a fault only a certain one, and nothing goes round. -/
def Failure.Due (R : Fault → Prop) : Failure → Prop
  | .malformed => True
  | .meaningless fault => R fault
  | .circular _ _ => False

theorem Failure.Due.imp {R R' : Fault → Prop} {failure : Failure} (h : failure.Due R)
    (hR : ∀ fault, R fault → R' fault) : failure.Due R' := by
  cases failure with
  | malformed => trivial
  | meaningless fault => exact hR fault h
  | circular _ _ => exact h

section

variable {α β : Type} {R R' : Fault → Prop} {P P' : α → Prop} {Q : β → Prop}

/-- A step fails only for a reason, and what it ends with has a property. -/
inductive Reports (R : Fault → Prop) (P : α → Prop) : Except Failure α → Prop
  | ok {a : α} : P a → Reports R P (.ok a)
  | error {failure : Failure} : failure.Due R → Reports R P (.error failure)

theorem reports_malformed : Reports R P (.error .malformed) := .error trivial

theorem Reports.bind {x : Except Failure α} {f : α → Except Failure β}
    (hx : Reports R P x) (hf : ∀ a, P a → Reports R Q (f a)) :
    Reports R Q (x >>= f) := by
  cases hx with
  | ok ha => exact hf _ ha
  | error hfailure => exact .error hfailure

theorem Reports.ite {c : Prop} [Decidable c] {x y : Except Failure α}
    (hx : Reports R P x) (hy : Reports R P y) : Reports R P (if c then x else y) := by
  split
  · exact hx
  · exact hy

/-- The reason of a failure. -/
theorem Reports.due {x : Except Failure α} (hx : Reports R P x) {failure : Failure}
    (h : x = .error failure) : failure.Due R := by
  subst h
  cases hx with
  | error hfailure => exact hfailure

/-- A check before the rest of a step, which is made in some cases only. -/
theorem Reports.guarded {c : Prop} [Decidable c] {x : Except Failure Unit}
    {f : Unit → Except Failure β} (hx : Reports R (fun _ => True) x)
    (hf : ∀ u, Reports R Q (f u)) : Reports R Q (if c then x >>= f else f ()) := by
  split
  · exact hx.bind fun u _ => hf u
  · exact hf ()

theorem Reports.imp {x : Except Failure α} (hx : Reports R P x)
    (hR : ∀ fault, R fault → R' fault) (hP : ∀ a, P a → P' a) : Reports R' P' x := by
  cases hx with
  | ok ha => exact .ok (hP _ ha)
  | error hfailure => exact .error (hfailure.imp hR)

/-- A fault that is reported is the one that a step ends with. -/
theorem Reports.named {x : Except Failure α} (hx : Reports R P x) :
    Reports (fun fault => R fault ∧ x = .error (.meaningless fault)) P x := by
  cases hx with
  | ok ha => exact .ok ha
  | @error failure hfailure =>
      refine .error ?_
      cases failure with
      | malformed => trivial
      | meaningless fault => exact ⟨hfailure, rfl⟩
      | circular _ _ => exact hfailure

theorem Reports.foldlM {step : β → α → Except Failure β} {xs : List α} {b : β}
    (hstep : ∀ x ∈ xs, ∀ b, Q b → Reports R Q (step b x)) (hb : Q b) :
    Reports R Q (xs.foldlM step b) := by
  induction xs generalizing b with
  | nil => exact .ok hb
  | cons x xs ih =>
      rw [List.forall_mem_cons] at hstep
      rw [List.foldlM_cons]
      exact (hstep.1 b hb).bind fun c hc => ih hstep.2 hc

end

/-- Where tokens break off there is a reason. -/
def BreakOff (R : Fault → Prop) (tokens : List Token) : Prop :=
  ∀ failure, .broken failure ∈ tokens → failure.Due R

/-- A text has an escape for a character that there is not: a letter that says how many
digits follow, and digits that spell a number beyond the last code. -/
inductive EscapesNoCharacter (text : List Char) : Prop where
  | intro {before after digits : List Char} {letter : Char} {code : Nat} :
      text = before ++ '\\' :: letter :: (digits ++ after) →
      escapeDigits? letter = some digits.length → hexValue? digits = some code →
        0x10ffff < code →
      EscapesNoCharacter text

/-- The fault of such a text. -/
def EscapeFault (text : List Char) (fault : Fault) : Prop :=
  fault = .notACharacter ∧ EscapesNoCharacter text

/-! ## Places -/

/-- A place in a text. -/
def Cursor.IsIn (text : List Char) (c : Cursor) : Prop :=
  c.rest <:+ text

variable {text : List Char} {c : Cursor}

namespace Cursor.IsIn

theorem skip (h : c.IsIn text) (n : Nat) : (c.skip n).IsIn text := by
  rw [IsIn, rest_skip]
  exact (List.drop_suffix n c.rest).trans h

theorem next (h : c.IsIn text) : c.next.IsIn text := by
  rw [IsIn, rest_next]
  exact (List.drop_suffix 1 c.rest).trans h

theorem takeWhile (h : c.IsIn text) (p : Char → Bool) : (c.takeWhile p).2.IsIn text :=
  h.skip _

theorem skipSpaces (h : c.IsIn text) : c.skipSpaces.IsIn text :=
  h.skip _

theorem skipLine (h : c.IsIn text) : c.skipLine.IsIn text :=
  h.skip _

theorem lineBreak (h : c.IsIn text) : c.lineBreak.2.IsIn text := by
  unfold Cursor.lineBreak
  dsimp only
  split
  · exact h.skip 2
  · split
    · exact h.next
    · split
      · exact h.next
      · exact h

/-- The place after a comment, if there is one. -/
theorem skipComment (h : c.IsIn text) :
    (if c.peek == '#' then c.skipLine else c).IsIn text := by
  split
  · exact h.skipLine
  · exact h

end Cursor.IsIn

/-- What a step ends with, the place after it being in the text. -/
abbrev EndsIn {α : Type} (text : List Char) (r : α × Cursor) : Prop :=
  r.2.IsIn text

/-! ## Quoted scalars -/

theorem quotedBreaks_reports (fuel : Nat) (hc : c.IsIn text) :
    Reports (EscapeFault text) (EndsIn text) (quotedBreaks fuel c) := by
  induction fuel generalizing c with
  | zero => exact .ok hc
  | succ fuel ih =>
      rw [quotedBreaks]
      split
      · exact reports_malformed
      · dsimp only
        split
        · exact (ih (hc.takeWhile _).lineBreak).bind fun r hr => .ok hr
        · exact .ok (hc.takeWhile _)

theorem quotedSpace_reports (hc : c.IsIn text) :
    Reports (EscapeFault text) (EndsIn text) (quotedSpace c) := by
  unfold quotedSpace
  dsimp only
  split
  · exact reports_malformed
  · split
    · refine (quotedBreaks_reports _ (hc.takeWhile _).lineBreak).bind fun r hr => ?_
      split
      · exact .ok hr
      · split
        · exact .ok hr
        · exact .ok hr
    · exact .ok (hc.takeWhile _)

/-- The digits of an escape give a letter, or there is no character with their code. -/
private theorem letterOfCode_reports {letter : Char} {rest : List Char}
    {count code : Nat} (hin : '\\' :: letter :: rest <:+ text)
    (hcount : escapeDigits? letter = some count)
    (hlength : (rest.take count).length = count)
    (hcode : hexValue? (rest.take count) = some code) :
    Reports (EscapeFault text) (fun _ => True) (letterOfCode code) := by
  rw [letterOfCode]
  split
  · exact .ok trivial
  · obtain ⟨before, htext⟩ := hin
    rw [← hlength] at hcount
    exact .error ⟨rfl, .intro (by rw [List.take_append_drop, ← htext]) hcount hcode
      (by omega)⟩

theorem quotedEscape_reports (hc : '\\' :: c.rest <:+ text) :
    Reports (EscapeFault text) (EndsIn text) (quotedEscape c) := by
  have hin : c.IsIn text := (List.suffix_cons '\\' c.rest).trans hc
  unfold quotedEscape
  dsimp only
  split
  · exact .ok hin.next
  · rename_i count hletter hcount
    split
    · rename_i hlength
      split
      · rename_i code hcode
        have hletterOf : Reports (EscapeFault text) (fun _ => True)
            (letterOfCode code) := by
          cases hrest : c.rest with
          | nil =>
              simp [Cursor.peek, Cursor.peekAt, hrest, endChar, escapeDigits?] at hcount
          | cons letter rest =>
              rw [Cursor.peek_cons hrest] at hcount
              rw [Cursor.rest_next, hrest, List.drop_one, List.tail_cons]
                at hlength hcode
              exact letterOfCode_reports (hrest ▸ hc) hcount (beq_iff_eq.mp hlength)
                hcode
        exact hletterOf.bind fun letter _ => .ok (hin.next.skip count)
      · exact reports_malformed
    · exact reports_malformed
  · split
    · exact (quotedBreaks_reports _ hin.lineBreak).bind fun r hr => .ok hr
    · exact reports_malformed

theorem quotedRest_reports (double : Bool) (fuel : Nat) (done : List Text.Letter)
    (hc : c.IsIn text) :
    Reports (EscapeFault text) (EndsIn text) (quotedRest double fuel done c) := by
  induction fuel generalizing done c with
  | zero => exact reports_malformed
  | succ fuel ih =>
      rw [quotedRest]
      generalize (if double = true then '"' else '\'') = quote
      dsimp only
      split
      · split
        · exact ih _ (hc.skip 2)
        · exact .ok hc.next
      · split
        · rename_i hescape
          have hbackslash : c.peek = '\\' := by
            rw [Bool.and_eq_true] at hescape
            exact beq_iff_eq.mp hescape.2
          have hrest : '\\' :: c.next.rest = c.rest := by
            cases hrest : c.rest with
            | nil => simp [Cursor.peek_nil hrest, endChar] at hbackslash
            | cons ch rest =>
                rw [Cursor.peek_cons hrest] at hbackslash
                rw [Cursor.rest_next, hrest, hbackslash, List.drop_one, List.tail_cons]
          have hescaped : '\\' :: c.next.rest <:+ text := by rwa [hrest]
          exact (quotedEscape_reports hescaped).bind fun r hr => ih _ hr
        · split
          · exact (quotedSpace_reports hc).bind fun r hr => ih _ hr
          · exact ih _ hc.next

theorem quotedScalar_reports (hc : c.IsIn text) :
    Reports (EscapeFault text) (EndsIn text) (quotedScalar c) :=
  quotedRest_reports _ _ _ hc.next

/-! ## Other scalars -/

section

variable {R : Fault → Prop}

theorem blockIndicators_reports (hc : c.IsIn text) :
    Reports R (fun r => r.2.2.IsIn text) (blockIndicators c) := by
  have hdigit : ∀ ch, Reports R (fun _ => True) (indentationOf? ch) := by
    intro ch
    rw [indentationOf?]
    exact .ite reports_malformed (.ok trivial)
  have hended : ∀ {chomping : Chomping} {increment : Option Nat} {c : Cursor},
      c.IsIn text →
      Reports R (fun r => r.2.2.IsIn text)
        (if isSpaceOrEnd c.peek then pure (chomping, increment, c) else throw
          .malformed) := by
    intro chomping increment c hc
    split
    · exact .ok hc
    · exact reports_malformed
  unfold blockIndicators
  split
  · refine (hdigit _).bind fun increment _ => ?_
    cases increment with
    | none => exact hended hc.next
    | some n => exact hended (hc.skip 2)
  · refine (hdigit _).bind fun increment _ => ?_
    cases increment with
    | none => exact hended hc
    | some n =>
        dsimp only
        split
        · exact hended (hc.skip 2)
        · exact hended hc.next

theorem ignoredLine_reports (hc : c.IsIn text) :
    Reports R (·.IsIn text) (ignoredLine c) := by
  have hcomment := hc.skipSpaces.skipComment
  unfold ignoredLine
  dsimp only
  generalize (if (c.skipSpaces.peek == '#') = true then c.skipSpaces.skipLine
    else c.skipSpaces) = after at hcomment ⊢
  split
  · exact .ok hcomment.lineBreak
  · exact reports_malformed

theorem leadingBreaks_isIn (fuel deepest : Nat) (hc : c.IsIn text) :
    (leadingBreaks fuel deepest c).2.2.IsIn text := by
  induction fuel generalizing deepest c with
  | zero => exact hc
  | succ fuel ih =>
      rw [leadingBreaks]
      split
      · exact ih _ hc.next
      · split
        · exact ih deepest hc.lineBreak
        · exact hc

theorem blockBreaks_isIn (indent fuel : Nat) (hc : c.IsIn text) :
    (blockBreaks indent fuel c).2.IsIn text := by
  induction fuel generalizing c with
  | zero => exact hc
  | succ fuel ih =>
      rw [blockBreaks]
      dsimp only
      split
      · exact ih (hc.skip _).lineBreak
      · exact hc.skip _

theorem blockLines_isIn (folded : Bool) (chomping : Chomping) (indent fuel : Nat)
    (done lineEnd breaks : List Char) (hc : c.IsIn text) :
    (blockLines folded chomping indent fuel done lineEnd breaks c).2.IsIn text := by
  have hfinish : ∀ done lineEnd breaks {c : Cursor}, c.IsIn text →
      (blockLines.finish chomping done lineEnd breaks c).2.IsIn text := by
    intro done lineEnd breaks c hc
    cases chomping <;> exact hc
  induction fuel generalizing done lineEnd breaks c with
  | zero => exact hc
  | succ fuel ih =>
      rw [blockLines]
      split
      · have hline := (blockBreaks_isIn
          indent ((c.takeWhile fun ch => !endsLine ch).2.lineBreak.2.rest.length + 1)
          (hc.takeWhile fun ch => !endsLine ch).lineBreak)
        dsimp only
        split
        · exact ih _ _ _ hline
        · exact hfinish _ _ _ hline
      · exact hfinish _ _ _ hc

theorem blockScalar_reports (indent : Int) (hc : c.IsIn text) :
    Reports R (EndsIn text) (blockScalar indent c) := by
  refine (blockIndicators_reports hc.next).bind fun r hr =>
    (ignoredLine_reports hr).bind fun c hc => ?_
  dsimp only
  split
  · exact .ok (blockLines_isIn _ _ _ _ _ _ _ (blockBreaks_isIn _ _ hc))
  · exact .ok (blockLines_isIn _ _ _ _ _ _ _ (leadingBreaks_isIn _ _ hc))

theorem plainBreaks_isIn (fuel : Nat) (hc : c.IsIn text) :
    (plainBreaks fuel c).2.IsIn text := by
  induction fuel generalizing c with
  | zero => exact hc
  | succ fuel ih =>
      rw [plainBreaks]
      split
      · exact ih hc.next
      · split
        · dsimp only
          split
          · exact hc.lineBreak
          · exact ih hc.lineBreak
        · exact hc

theorem plainGap_isIn (hc : c.IsIn text) : (plainGap c).cursor.IsIn text := by
  have hblank := hc.takeWhile (· == ' ')
  unfold plainGap
  dsimp only
  split
  · split
    · exact hblank.lineBreak
    · have hbreaks := plainBreaks_isIn
        ((c.takeWhile (· == ' ')).2.lineBreak.2.rest.length + 1) hblank.lineBreak
      split <;> simp_all
  · exact hblank

theorem plainScalar_isIn (inFlow : Bool) (indent : Int) (hc : c.IsIn text) :
    (plainScalar inFlow indent c).cursor.IsIn text := by
  have hrest : ∀ fuel done gap newLine {c : Cursor}, c.IsIn text →
      (plainRest inFlow indent fuel done gap newLine c).cursor.IsIn text := by
    intro fuel
    induction fuel with
    | zero => exact fun _ _ _ _ hc => hc
    | succ fuel ih =>
        intro done gap newLine c hc
        have hgap := plainGap_isIn (hc.skip (plainRun inFlow c.rest).length)
        rw [plainRest]
        dsimp only
        split
        · exact hc
        · split
          · exact hgap
          · split
            · exact hgap
            · exact ih _ _ _ hgap
  exact hrest _ _ _ _ hc

/-! ## Tags, anchors and directives -/

theorem tagEscapes_reports (fuel : Nat) (hc : c.IsIn text) :
    Reports R (EndsIn text) (tagEscapes fuel c) := by
  induction fuel generalizing c with
  | zero => exact .ok hc
  | succ fuel ih =>
      rw [tagEscapes]
      split
      · split
        · exact (ih (hc.skip 3)).bind fun r hr => .ok hr
        · exact reports_malformed
      · exact .ok hc

theorem tagChars_reports (fuel : Nat) (hc : c.IsIn text) :
    Reports R (EndsIn text) (tagChars fuel c) := by
  induction fuel generalizing c with
  | zero => exact .ok hc
  | succ fuel ih =>
      rw [tagChars]
      split
      · refine (tagEscapes_reports _ hc).bind fun r hr => ?_
        dsimp only
        split
        · exact reports_malformed
        · exact (ih hr).bind fun r hr => .ok hr
      · split
        · exact (ih hc.next).bind fun r hr => .ok hr
        · exact .ok hc

theorem tagText_reports (hc : c.IsIn text) : Reports R (EndsIn text) (tagText c) := by
  refine (tagChars_reports _ hc).bind fun r hr => ?_
  dsimp only
  split
  · exact reports_malformed
  · exact .ok hr

theorem tagHandle_reports (hc : c.IsIn text) :
    Reports R (EndsIn text) (tagHandle c) := by
  unfold tagHandle
  split
  · exact reports_malformed
  · split
    · exact .ok hc.next
    · dsimp only
      split
      · exact .ok ((hc.next.takeWhile _).next)
      · exact reports_malformed

/-- A token that was read, and the place after it. -/
def TokenIn (text : List Char) (r : Token × Cursor) : Prop :=
  (∀ failure, r.1 ≠ .broken failure) ∧ r.2.IsIn text

/-- What was read counts if a space or the end of the line comes next. -/
theorem spaced_reports {token : Token} (htoken : ∀ failure, token ≠ .broken failure)
    (hc : c.IsIn text) :
    Reports R (TokenIn text)
      (if isSpaceOrEnd c.peek then pure (token, c) else throw .malformed) := by
  split
  · exact .ok ⟨htoken, hc⟩
  · exact reports_malformed

theorem tagToken_reports (hc : c.IsIn text) :
    Reports R (TokenIn text) (tagToken c) := by
  unfold tagToken
  dsimp only
  split
  · refine (tagText_reports (hc.skip 2)).bind fun r hr => ?_
    split
    · exact spaced_reports (by simp) hr.next
    · exact reports_malformed
  · split
    · exact spaced_reports (by simp) hc.next
    · split
      · exact (tagHandle_reports hc).bind fun handle hhandle =>
          (tagText_reports hhandle).bind fun suffix hsuffix =>
            spaced_reports (by simp) hsuffix
      · exact (tagText_reports hc.next).bind fun suffix hsuffix =>
          spaced_reports (by simp) hsuffix

theorem anchorName_reports (hc : c.IsIn text) :
    Reports R (EndsIn text) (anchorName c) := by
  unfold anchorName
  dsimp only
  split
  · exact reports_malformed
  · split
    · exact .ok (hc.next.takeWhile _)
    · exact reports_malformed

theorem directiveNumber_reports (hc : c.IsIn text) :
    Reports R (EndsIn text) (directiveNumber c) := by
  unfold directiveNumber
  dsimp only
  split
  · exact reports_malformed
  · exact .ok (hc.takeWhile _)

theorem versionDirective_reports (hc : c.IsIn text) :
    Reports R (TokenIn text) (versionDirective c) := by
  refine (directiveNumber_reports hc.skipSpaces).bind fun major hmajor => ?_
  refine Reports.guarded reports_malformed fun _ => ?_
  exact (directiveNumber_reports hmajor.next).bind fun minor hminor =>
    spaced_reports (by simp) hminor

theorem tagDirective_reports (hc : c.IsIn text) :
    Reports R (TokenIn text) (tagDirective c) := by
  refine (tagHandle_reports hc.skipSpaces).bind fun handle hhandle => ?_
  refine Reports.guarded reports_malformed fun _ => ?_
  exact (tagText_reports hhandle.skipSpaces).bind fun expansion hexpansion =>
    spaced_reports (by simp) hexpansion

/-- What was read counts if there is nothing but a comment in the rest of the line. -/
theorem commented_reports {token : Token} (hread : TokenIn text (token, c)) :
    Reports R (TokenIn text) (
      let c := c.skipSpaces
      let c := if c.peek == '#' then c.skipLine else c
      if endsLine c.peek then pure (token, c.lineBreak.2) else throw .malformed) := by
  have hcomment := hread.2.skipSpaces.skipComment
  dsimp only at hcomment ⊢
  generalize (if (c.skipSpaces.peek == '#') = true then c.skipSpaces.skipLine
    else c.skipSpaces) = after at hcomment ⊢
  split
  · exact .ok ⟨hread.1, hcomment.lineBreak⟩
  · exact reports_malformed

theorem directive_reports (hc : c.IsIn text) :
    Reports R (TokenIn text) (directive c) := by
  have hname := hc.next.takeWhile isNameChar
  unfold directive
  refine Reports.guarded reports_malformed fun _ => ?_
  dsimp only
  split
  · refine (versionDirective_reports hname).bind ?_
    rintro ⟨token, after⟩ hread
    exact commented_reports hread
  · split
    · refine (tagDirective_reports hname).bind ?_
      rintro ⟨token, after⟩ hread
      exact commented_reports hread
    · have hother : Reports R (TokenIn text)
          (pure (.otherDirective, (c.next.takeWhile isNameChar).2.skipLine)) :=
        .ok ⟨by simp, hname.skipLine⟩
      refine hother.bind ?_
      rintro ⟨token, after⟩ hread
      exact commented_reports hread

end

/-! ## The lexer -/

namespace Lexer

/-- The lexer is at a place in the text, and what it has read so far is all tokens. -/
structure IsIn (text : List Char) (s : Lexer) : Prop where
  place : s.cursor.IsIn text
  whole : ∀ failure, Token.broken failure ∉ s.tokens

variable {R : Fault → Prop} {s : Lexer} {token : Token}

theorem settle_reports (c : Cursor) (candidate : Option Candidate) :
    Reports R (fun _ => True) (settle c candidate) := by
  unfold settle
  split
  · exact .ok trivial
  · exact .ite (.ite reports_malformed (.ok trivial)) (.ok trivial)

theorem settleAll_reports (c : Cursor) (candidates : List (Option Candidate)) :
    Reports R (fun _ => True) (candidates.mapM (settle c)) := by
  induction candidates with
  | nil => exact .ok trivial
  | cons candidate candidates ih =>
      rw [List.mapM_cons]
      exact (settle_reports c candidate).bind fun _ _ => ih.bind fun _ _ => .ok trivial

theorem dropStale_reports (hs : s.IsIn text) : Reports R (IsIn text) s.dropStale :=
  (settle_reports _ _).bind fun _ _ => (settleAll_reports _ _).bind fun _ _ =>
    .ok ⟨hs.place, hs.whole⟩

theorem dropCandidate_reports (hs : s.IsIn text) :
    Reports R (IsIn text) s.dropCandidate := by
  unfold dropCandidate
  split
  · split
    · exact reports_malformed
    · exact .ok ⟨hs.place, hs.whole⟩
  · exact .ok hs

theorem markCandidate_reports (hs : s.IsIn text) :
    Reports R (IsIn text) s.markCandidate := by
  unfold markCandidate
  split
  · exact (dropCandidate_reports hs).bind fun s hs => .ok ⟨hs.place, hs.whole⟩
  · exact .ok hs

namespace IsIn

theorem allowKey (hs : s.IsIn text) (allowed : Bool) : (s.allowKey allowed).IsIn text :=
  ⟨hs.place, hs.whole⟩

/-- The lexer after a token that was read. -/
theorem push (hs : s.IsIn text) {r : Token × Cursor} (hr : TokenIn text r) :
    ({ s with tokens := r.1 :: s.tokens, cursor := r.2 } : Lexer).IsIn text where
  place := hr.2
  whole := fun failure hmem => by
    rcases List.mem_cons.mp hmem with heq | hmem
    · exact hr.1 failure heq.symm
    · exact hs.whole failure hmem

theorem pushOver (hs : s.IsIn text) (htoken : ∀ failure, token ≠ .broken failure)
    (width : Nat) :
    (s.pushOver token width).IsIn text :=
  hs.push (r := (token, s.cursor.skip width)) ⟨htoken, hs.place.skip width⟩

theorem insert (hs : s.IsIn text) (htoken : ∀ failure, token ≠ .broken failure)
    (position : Nat) :
    (s.insert token position).IsIn text where
  place := hs.place
  whole := fun failure hmem => by
    rcases List.mem_append.mp hmem with hmem | hmem
    · exact hs.whole failure (List.mem_of_mem_take hmem)
    · rcases List.mem_cons.mp hmem with heq | hmem
      · exact htoken failure heq.symm
      · exact hs.whole failure (List.mem_of_mem_drop hmem)

theorem openBlock (hs : s.IsIn text) (htoken : ∀ failure, token ≠ .broken failure)
    (column position : Nat) :
    (s.openBlock token column position).IsIn text := by
  have hinserted := hs.insert htoken position
  unfold Lexer.openBlock
  split
  · exact ⟨hinserted.place, hinserted.whole⟩
  · exact hs

/-- A block is opened outside of brackets only. -/
theorem openOutside (hs : s.IsIn text) (htoken : ∀ failure, token ≠ .broken failure)
    (column position : Nat) :
    (if s.inFlow then s else s.openBlock token column position).IsIn text := by
  split
  · exact hs
  · exact hs.openBlock htoken column position

theorem closeBlocks (hs : s.IsIn text) (column : Int) :
    (s.closeBlocks column).IsIn text := by
  have hclose : ∀ outer {s : Lexer}, s.IsIn text →
      (closeBlocks.close column s outer).IsIn text := by
    intro outer
    induction outer with
    | nil => exact fun hs => hs
    | cons indent outer ih =>
        intro s hs
        unfold closeBlocks.close
        split
        · have hpushed := hs.push (r := (.blockEnd, s.cursor)) ⟨by simp, hs.place⟩
          exact ih ⟨hpushed.place, hpushed.whole⟩
        · exact hs
  unfold Lexer.closeBlocks
  split
  · exact hs
  · exact hclose s.outer hs

theorem skipSpace (hs : s.IsIn text) (fuel : Nat) :
    (Lexer.skipSpace fuel s).IsIn text := by
  induction fuel generalizing s with
  | zero => exact hs
  | succ fuel ih =>
      have hcomment := hs.place.skipSpaces.skipComment
      rw [Lexer.skipSpace]
      generalize (if (s.cursor.skipSpaces.peek == '#') = true
        then s.cursor.skipSpaces.skipLine
        else s.cursor.skipSpaces) = after at hcomment ⊢
      split
      · exact ih ⟨hcomment.lineBreak, hs.whole⟩
      · exact ⟨hcomment, hs.whole⟩

theorem skipMark (hs : s.IsIn text) : s.skipMark.IsIn text := by
  unfold Lexer.skipMark
  split
  · exact ⟨hs.place.next, hs.whole⟩
  · exact hs

end IsIn

theorem arrive_reports (hs : s.IsIn text) : Reports R (IsIn text) s.arrive := by
  have hspace := hs.skipMark.skipSpace (s.cursor.rest.length + 1)
  exact (dropStale_reports hspace).bind fun next hnext =>
    .ok (hnext.closeBlocks next.cursor.column)

theorem readEnd_reports (hs : s.IsIn text) : Reports R (IsIn text) s.readEnd :=
  (dropCandidate_reports (hs.closeBlocks _)).bind fun _ hs => .ok (hs.allowKey false)

theorem readDirective_reports (hs : s.IsIn text) :
    Reports R (IsIn text) s.readDirective :=
  (dropCandidate_reports (hs.closeBlocks _)).bind fun _ hs =>
    (directive_reports hs.place).bind fun _ hr => .ok ((hs.allowKey false).push hr)

theorem readBoundary_reports (hs : s.IsIn text)
    (htoken : ∀ failure, token ≠ .broken failure) :
    Reports R (IsIn text) (s.readBoundary token) :=
  (dropCandidate_reports (hs.closeBlocks _)).bind fun _ hs =>
    .ok ((hs.allowKey false).pushOver htoken 3)

theorem readOpening_reports (hs : s.IsIn text)
    (htoken : ∀ failure, token ≠ .broken failure) :
    Reports R (IsIn text) (s.readOpening token) :=
  (markCandidate_reports hs).bind fun _ hs =>
    have hpushed := (hs.allowKey true).pushOver htoken 1
    .ok ⟨hpushed.place, hpushed.whole⟩

theorem readClosing_reports (hs : s.IsIn text)
    (htoken : ∀ failure, token ≠ .broken failure) :
    Reports R (IsIn text) (s.readClosing token) := by
  refine (dropCandidate_reports hs).bind fun s hs => ?_
  split
  · exact reports_malformed
  · have hpushed := (hs.allowKey false).pushOver htoken 1
    exact .ok ⟨hpushed.place, hpushed.whole⟩

theorem readFlowEntry_reports (hs : s.IsIn text) :
    Reports R (IsIn text) s.readFlowEntry :=
  (dropCandidate_reports (hs.allowKey true)).bind fun _ hs =>
    .ok (hs.pushOver (by simp) 1)

theorem readBlockEntry_reports (hs : s.IsIn text) :
    Reports R (IsIn text) s.readBlockEntry := by
  unfold readBlockEntry
  refine Reports.guarded reports_malformed fun _ => ?_
  exact (dropCandidate_reports ((hs.openOutside (by simp) _ _).allowKey true)).bind
      fun _ hs =>
    .ok (hs.pushOver (by simp) 1)

theorem readKey_reports (hs : s.IsIn text) : Reports R (IsIn text) s.readKey := by
  unfold readKey
  refine Reports.guarded reports_malformed fun _ => ?_
  exact (dropCandidate_reports ((hs.openOutside (by simp) _ _).allowKey _)).bind
      fun _ hs =>
    .ok (hs.pushOver (by simp) 1)

theorem readValue_reports (hs : s.IsIn text) : Reports R (IsIn text) s.readValue := by
  unfold readValue
  split
  · rename_i key hkey
    have hbare : ({ s with candidate := none } : Lexer).IsIn text :=
      ⟨hs.place, hs.whole⟩
    exact .ok ((((hbare.insert (by simp) key.position).openOutside (by simp)
      _ _).allowKey false).pushOver (by simp) 1)
  · refine Reports.guarded reports_malformed fun _ => ?_
    exact .ok (((hs.openOutside (by simp) _ _).allowKey _).pushOver (by simp) 1)

theorem readAnchor_reports {tokenOf : List Char → Token}
    (htoken : ∀ name failure, tokenOf name ≠ .broken failure) (hs : s.IsIn text) :
    Reports R (IsIn text) (s.readAnchor tokenOf) :=
  (markCandidate_reports hs).bind fun _ hs =>
    (anchorName_reports hs.place).bind fun r hr =>
    .ok ((hs.allowKey false).push (r := (tokenOf r.1, r.2)) ⟨htoken r.1, hr⟩)

theorem readTag_reports (hs : s.IsIn text) : Reports R (IsIn text) s.readTag :=
  (markCandidate_reports hs).bind fun _ hs =>
    (tagToken_reports hs.place).bind fun _ hr =>
    .ok ((hs.allowKey false).push hr)

theorem readBlockScalar_reports (hs : s.IsIn text) :
    Reports R (IsIn text) s.readBlockScalar :=
  (dropCandidate_reports (hs.allowKey true)).bind fun _ hs =>
    (blockScalar_reports _ hs.place).bind fun r hr =>
      .ok (hs.push (r := (.scalar false r.1, r.2)) ⟨by simp, hr⟩)

theorem readPlain_reports (hs : s.IsIn text) : Reports R (IsIn text) s.readPlain :=
  (markCandidate_reports hs).bind fun s hs =>
    have hpushed :=
      hs.push (r := (.scalar true (plainScalar s.inFlow (s.indent + 1) s.cursor).text,
      (plainScalar s.inFlow (s.indent + 1) s.cursor).cursor))
      ⟨by simp, plainScalar_isIn _ _ hs.place⟩
    .ok (hpushed.allowKey _)

theorem readQuoted_reports (hs : s.IsIn text) :
    Reports (EscapeFault text) (IsIn text) s.readQuoted :=
  (markCandidate_reports hs).bind fun _ hs =>
    (quotedScalar_reports hs.place).bind fun r hr =>
    have hquoted : ∀ failure, Token.quoted r.1 ≠ .broken failure := by
      intro failure
      rw [Token.quoted]
      split <;> simp
    .ok ((hs.allowKey false).push (r := (.quoted r.1, r.2)) ⟨hquoted, hr⟩)

/-- A token is read, or there is a reason why it is not: only a quoted scalar can be one
without meaning. -/
theorem readToken_reports (hs : s.IsIn text) :
    Reports (EscapeFault text) (IsIn text) s.readToken := by
  have hboundary : ∀ failure,
      (if s.cursor.peek == '-' then Token.documentStart else .documentEnd) ≠
        .broken failure := by
    intro failure
    split <;> simp
  exact .ite (readDirective_reports hs) <| .ite (readBoundary_reports hs hboundary) <|
    .ite (readOpening_reports hs (by simp)) <|
      .ite (readOpening_reports hs (by simp)) <|
    .ite (readClosing_reports hs (by simp)) <|
      .ite (readClosing_reports hs (by simp)) <|
    .ite (readFlowEntry_reports hs) <| .ite (readBlockEntry_reports hs) <|
    .ite (readKey_reports hs) <| .ite (readValue_reports hs) <|
    .ite (readAnchor_reports (by simp) hs) <| .ite (readAnchor_reports (by simp) hs) <|
    .ite (readTag_reports hs) <| .ite (readBlockScalar_reports hs) <|
    .ite (readQuoted_reports hs) <| .ite (readPlain_reports hs) reports_malformed

/-- A step either leads on, or the tokens break off for the reason it gives. -/
theorem orBroken_breakOff {step : Except Failure Lexer} {further : Lexer → List Token}
    (hs : s.IsIn text) (hstep : Reports R (IsIn text) step)
    (hfurther : ∀ next : Lexer, next.IsIn text → BreakOff R (further next)) :
    BreakOff R (s.orBroken step further) := by
  cases hstep with
  | ok hnext => exact hfurther _ hnext
  | error hfailure =>
      intro other hmem
      rcases List.mem_append.mp hmem with hmem | hmem
      · exact absurd (List.mem_reverse.mp (List.mem_of_mem_take hmem)) (hs.whole other)
      · obtain rfl := Token.broken.inj (List.mem_singleton.mp hmem)
        exact hfailure

theorem IsIn.breakOff (hs : s.IsIn text) : BreakOff R s.tokens.reverse :=
  fun failure hmem => absurd (List.mem_reverse.mp hmem) (hs.whole failure)

theorem readAll_breakOff (fuel : Nat) (hs : s.IsIn text) :
    BreakOff (EscapeFault text) (readAll fuel s) := by
  induction fuel generalizing s with
  | zero => exact hs.breakOff
  | succ fuel ih =>
      rw [readAll]
      apply orBroken_breakOff hs (arrive_reports hs)
      intro here hhere
      split
      · exact orBroken_breakOff hs (readEnd_reports hhere) fun last hlast =>
          hlast.breakOff
      · exact orBroken_breakOff hs (readToken_reports hhere) fun next hnext => ih hnext

end Lexer

/-- The tokens of a text break off where it is malformed, or at an escape for no
character. -/
theorem tokens_breakOff (text : String) :
    BreakOff (EscapeFault text.toList) (tokens text) := by
  have hstart : (Lexer.start text.toList).IsIn text.toList :=
    ⟨List.suffix_refl _, by simp [Lexer.start]⟩
  unfold tokens
  dsimp only
  split
  · exact Lexer.readAll_breakOff _ hstart
  · intro failure hmem
    obtain rfl := Token.broken.inj (List.mem_singleton.mp hmem)
    trivial

end ApiWorkbench.Yaml
