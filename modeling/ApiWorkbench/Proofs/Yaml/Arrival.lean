import Mathlib.Logic.Relation
import ApiWorkbench.Proofs.Result
import ApiWorkbench.Proofs.Yaml.Cursor
import ApiWorkbench.Yaml.Lexer

/-!
# From token to token

Between two tokens the lexer passes over white space, drops the nodes that can no
longer be keys, and ends the blocks that are indented more than the place it has come
to: it arrives at its next token (`Lexer.arrive`). `Lexer.Reads` is the step from one
arrival to the next, and the tokens of a text are those of a run of such steps to the
end of the text.

A lexer that has arrived is known by its place, its tokens and its blocks
(`Lexer.place`) if it stands outside of brackets and no node before it could be a key.

## Main results

* `Lexer.readAll_of_reads`: the tokens of a run.
* `Lexer.arrive_line`: the arrival at the start of the next line.
* `Lexer.arrive_solid`: the arrival at the next token of the same line.
-/

namespace ApiWorkbench.Yaml

open Relation

namespace Lexer

/-! ## Runs -/

/-- One token is read, and the lexer arrives at the next one. -/
def Reads (a b : Lexer) : Prop :=
  a.cursor.rest ≠ [] ∧ b.cursor.rest.length < a.cursor.rest.length ∧
    ∃ s, a.readToken = .ok s ∧ s.arrive = .ok b

/-- A run of steps to the end of the text gives the tokens of its last state. -/
theorem readAll_of_reads {s a b e : Lexer} {fuel : Nat} (harrive : s.arrive = .ok a)
    (hreads : ReflTransGen Reads a b) (hend : b.cursor.rest = [])
    (hlast : b.readEnd = .ok e) (hfuel : a.cursor.rest.length < fuel) :
    readAll fuel s = e.tokens.reverse := by
  induction hreads using ReflTransGen.head_induction_on generalizing s fuel with
  | refl =>
      obtain ⟨fuel, rfl⟩ : ∃ f, fuel = f + 1 := ⟨fuel - 1, by omega⟩
      simp [readAll, harrive, orBroken, hend, hlast]
  | head hstep _ ih =>
      obtain ⟨hmore, hless, t, hread, harrive'⟩ := hstep
      obtain ⟨fuel, rfl⟩ : ∃ f, fuel = f + 1 := ⟨fuel - 1, by omega⟩
      simp only [readAll, harrive, orBroken, List.isEmpty_iff, hmore, if_false, hread]
      exact ih harrive' (by omega)

/-! ## Places -/

/-- The lexer at a place outside of brackets, with a node before it that may be a
key. -/
def placeAfter (candidate : Option Candidate) (c : Cursor) (tokens : List Token)
    (indent : Int) (outer : List Int) (keyAllowed : Bool) : Lexer where
  cursor := c
  tokens := tokens
  indent := indent
  outer := outer
  keyAllowed := keyAllowed
  candidate := candidate
  outerCandidates := []

/-- The lexer at a place outside of brackets, with no node before it that
could be a key. -/
abbrev place (c : Cursor) (tokens : List Token) (indent : Int) (outer : List Int)
    (keyAllowed : Bool) : Lexer :=
  placeAfter none c tokens indent outer keyAllowed

section

variable {c : Cursor} {rest : List Char} {tokens : List Token} {indent : Int}
  {outer : List Int} {allowed : Bool}

@[simp] theorem cursor_placeAfter (candidate : Option Candidate) :
    (placeAfter candidate c tokens indent outer allowed).cursor = c :=
  rfl

@[simp] theorem tokens_placeAfter (candidate : Option Candidate) :
    (placeAfter candidate c tokens indent outer allowed).tokens = tokens :=
  rfl

@[simp] theorem keyAllowed_placeAfter (candidate : Option Candidate) :
    (placeAfter candidate c tokens indent outer allowed).keyAllowed = allowed :=
  rfl

@[simp] theorem candidate_placeAfter (candidate : Option Candidate) :
    (placeAfter candidate c tokens indent outer allowed).candidate = candidate :=
  rfl

@[simp] theorem inFlow_placeAfter (candidate : Option Candidate) :
    (placeAfter candidate c tokens indent outer allowed).inFlow = false :=
  rfl

@[simp] theorem allowKey_placeAfter (candidate : Option Candidate) (now : Bool) :
    (placeAfter candidate c tokens indent outer allowed).allowKey now =
      placeAfter candidate c tokens indent outer now :=
  rfl

@[simp] theorem pushOver_placeAfter (candidate : Option Candidate) (token : Token)
    (width : Nat) :
    (placeAfter candidate c tokens indent outer allowed).pushOver token width =
      placeAfter candidate (c.skip width) (token :: tokens) indent outer allowed :=
  rfl

@[simp] theorem dropCandidate_place :
    (place c tokens indent outer allowed).dropCandidate =
      .ok (place c tokens indent outer allowed) :=
  rfl

@[simp] theorem cursor_closeBlocks (column : Int) (s : Lexer) :
    (s.closeBlocks column).cursor = s.cursor := by
  have hclose : ∀ outer s, (closeBlocks.close column s outer).cursor = s.cursor := by
    intro outer
    induction outer with
    | nil => exact fun _ => rfl
    | cons indent outer ih =>
        intro s
        unfold closeBlocks.close
        split
        · exact ih _
        · rfl
  unfold closeBlocks
  split
  · rfl
  · exact hclose s.outer s

/-- Blocks that are indented no more than the place go on. -/
theorem closeBlocks_of_le {s : Lexer} {column : Int} (h : s.indent ≤ column) :
    s.closeBlocks column = s := by
  unfold closeBlocks
  split
  · rfl
  · cases s.outer with
    | nil => rfl
    | cons indent outer =>
        rw [closeBlocks.close, if_neg (by omega)]

theorem closeBlocks_place_of_le {column : Int} (h : indent ≤ column) :
    (place c tokens indent outer allowed).closeBlocks column =
      place c tokens indent outer allowed :=
  closeBlocks_of_le h

/-- A block that is indented more than the place ends. -/
theorem closeBlocks_of_lt {column around : Int} (h : column < indent) :
    (place c tokens indent (around :: outer) allowed).closeBlocks column =
      (place c (.blockEnd :: tokens) around outer allowed).closeBlocks column := by
  simp [closeBlocks, placeAfter, inFlow, closeBlocks.close, h]

/-! ## Arrivals -/

private theorem skipSpace_solid {s : Lexer} {k fuel : Nat}
    (hs : s.cursor.rest = List.replicate k ' ' ++ rest) (hrest : Solid rest) :
    skipSpace (fuel + 1) s = { s with cursor := s.cursor.skip k } := by
  have hspaces : s.cursor.skipSpaces = s.cursor.skip k :=
    Cursor.skipSpaces_eq hs fun x hx => (hrest x hx).2.1
  have hafter : (s.cursor.skip k).rest = rest := by
    rw [Cursor.rest_skip, hs, List.drop_left' (by simp)]
  obtain ⟨-, hhash, hbreak, -⟩ := hrest.peek hafter
  simp [skipSpace, hspaces, hhash, hbreak]

private theorem skipMark_eq {s : Lexer} (h : s.cursor.peek.toNat ≠ 0xfeff) :
    s.skipMark = s := by
  simp [skipMark, h]

/-- A node that need not be a key is none if the place is on another line. -/
private theorem settle_stale {candidate : Option Candidate}
    (h : ∀ key ∈ candidate, key.required = false ∧ key.line ≠ c.line) :
    settle c candidate = .ok none := by
  cases candidate with
  | none => rfl
  | some key =>
      obtain ⟨hrequired, hline⟩ := h key rfl
      simp [settle, hrequired, hline]

/-- A node on the line of the place that is not too far away may still be a key. -/
private theorem settle_fresh {candidate : Option Candidate}
    (h : ∀ key ∈ candidate, key.line = c.line ∧ c.index ≤ key.index + 1024) :
    settle c candidate = .ok candidate := by
  cases candidate with
  | none => rfl
  | some key =>
      obtain ⟨hline, hindex⟩ := h key rfl
      have hnear : ¬ key.index + 1024 < c.index := by omega
      simp [settle, hline, hnear]

private theorem peek_ne_mark {k : Nat} (hc : c.rest = List.replicate k ' ' ++ rest)
    (hrest : Solid rest) :
    c.peek.toNat ≠ 0xfeff := by
  cases k with
  | zero => exact (hrest.peek hc).2.2.2
  | succ k =>
      rw [List.replicate_succ] at hc
      rw [Cursor.peek_cons hc]
      decide

/-- The arrival after spaces, when no node before the place can be a key any longer. -/
theorem arrive_solid {s : Lexer} {k : Nat} (hflow : s.outerCandidates = [])
    (hs : s.cursor.rest = List.replicate k ' ' ++ rest) (hrest : Solid rest)
    (hstale : ∀ key ∈ s.candidate, key.required = false ∧
      key.line ≠ (s.cursor.skip k).line) :
    s.arrive = .ok ((place (s.cursor.skip k) s.tokens s.indent s.outer
      s.keyAllowed).closeBlocks (s.cursor.skip k).column) := by
  have hdrop : dropStale { s with cursor := s.cursor.skip k } =
      .ok (place (s.cursor.skip k) s.tokens s.indent s.outer s.keyAllowed) := by
    simp [dropStale, settle_stale hstale, hflow, placeAfter]
  rw [arrive, skipMark_eq (peek_ne_mark hs hrest), skipSpace_solid hs hrest, hdrop]
  rfl

/-- The arrival on the next line. -/
theorem arrive_line {s : Lexer} {k : Nat} (hflow : s.outerCandidates = [])
    (hs : s.cursor.rest = '\n' :: (List.replicate k ' ' ++ rest)) (hrest : Solid rest)
    (hstale : ∀ key ∈ s.candidate, key.required = false ∧ key.line ≤ s.cursor.line) :
    s.arrive = .ok ((place (s.cursor.skip (k + 1)) s.tokens s.indent s.outer
      true).closeBlocks k) := by
  have hspaces : s.cursor.skipSpaces = s.cursor :=
    Cursor.skipSpaces_eq (k := 0) hs (by simp)
  have hpeek : s.cursor.peek = '\n' := Cursor.peek_cons hs
  have hline : (s.cursor.skip 1).rest = List.replicate k ' ' ++ rest := by
    rw [Cursor.rest_skip, hs]
    rfl
  have hplace := Cursor.skip_line hs
  obtain ⟨fuel, hfuel⟩ : ∃ f, s.cursor.rest.length = f + 1 := by simp [hs]
  have hskip : skipSpace (s.cursor.rest.length + 1) s =
      { s with cursor := s.cursor.skip (k + 1), keyAllowed := true } := by
    rw [hfuel, skipSpace, hspaces]
    simp only [hpeek, Char.reduceBEq, Bool.false_eq_true, if_false, show isBreak '\n' =
      true from rfl, if_true, Cursor.lineBreak_eq hs rfl, inFlow, hflow,
      List.isEmpty_nil, Bool.not_true, Bool.not_false, Bool.or_true]
    rw [skipSpace_solid hline hrest, ← Cursor.skip_add, Nat.add_comm 1]
  have hdrop :
      dropStale { s with cursor := s.cursor.skip (k + 1), keyAllowed := true } =
      .ok (place (s.cursor.skip (k + 1)) s.tokens s.indent s.outer true) := by
    have hgone : settle (s.cursor.skip (k + 1)) s.candidate = .ok none := by
      refine settle_stale fun key hkey => ⟨(hstale key hkey).1, ?_⟩
      have := (hstale key hkey).2
      rw [hplace]
      show key.line ≠ s.cursor.line + 1
      omega
    simp [dropStale, hgone, hflow, placeAfter]
  rw [arrive, skipMark_eq (by rw [hpeek]; decide), hskip, hdrop, ok_bind, pure_eq_ok]
  simp only [placeAfter, hplace]

/-- The arrival where the lexer stands, when the nodes before the place may
still be keys. -/
theorem arrive_fresh {s : Lexer} (hs : Solid s.cursor.rest)
    (hfresh : ∀ candidate ∈ s.candidate :: s.outerCandidates, ∀ key ∈ candidate,
      key.line = s.cursor.line ∧ s.cursor.index ≤ key.index + 1024)
    (hindent : s.inFlow = true ∨ s.indent ≤ s.cursor.column) : s.arrive = .ok s := by
  have hskip : skipSpace (s.cursor.rest.length + 1) s = s :=
    skipSpace_solid (k := 0) (show s.cursor.rest = List.replicate 0 ' ' ++
      s.cursor.rest from rfl) hs
  have houter : s.outerCandidates.mapM (settle s.cursor) = .ok s.outerCandidates := by
    refine mapM_eq_ok_iff.mpr (List.forall₂_same.mpr fun candidate hcandidate => ?_)
    exact settle_fresh (hfresh candidate (by simp [hcandidate]))
  have hdrop : s.dropStale = .ok s := by
    simp [dropStale, settle_fresh (hfresh s.candidate (by simp)), houter]
  have hclose : s.closeBlocks s.cursor.column = s := by
    rcases hindent with hflow | hle
    · rw [closeBlocks, if_pos hflow]
    · exact closeBlocks_of_le hle
  rw [arrive, skipMark_eq (hs.peek rfl).2.2.2, hskip, hdrop, ok_bind, hclose]
  rfl

end

end Lexer

end ApiWorkbench.Yaml
