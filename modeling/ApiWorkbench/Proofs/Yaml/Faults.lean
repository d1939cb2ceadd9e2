import ApiWorkbench.Proofs.Result
import ApiWorkbench.Proofs.Tree
import ApiWorkbench.Proofs.Yaml.Escapes
import ApiWorkbench.Yaml.Reader

/-!
# Why a YAML text has no value

Reading a text fails for one of three reasons: it is malformed, its value is a part of
itself, or something in it obeys the rules and means nothing all the same. Here the last
of these is traced back to where it comes from. Either there is an escape for no
character, or the survey comes to a node that has a text of a type that the text is no
notation for, a mapping in place of a date, or a place where it goes round.

Tokens are only ever taken away while nodes are put together, and the survey only ever
comes to nodes of the document. So each of the two walks keeps an invariant, and
`Reports` says what is known of a failure on the way.

## Main results

* `compose_reports`: an escape for no character is all that is wrong with the nodes of a
  text that is not malformed.
* `survey_reports`: the survey comes to a node without a value, or the
  document is malformed.
* `read_meaningless_iff`, `read_circular_iff`: which texts mean nothing, and
  which go round.
-/

namespace ApiWorkbench.Yaml

/-! ## Tokens that break off -/

namespace Parser

variable {R : Fault → Prop} {p : Parser}

/-- What a step ends with; where the tokens that are left break off there is a
reason. -/
def Leaves {α : Type} (R : Fault → Prop) (r : α × Parser) : Prop :=
  BreakOff R r.2.rest

theorem skip_breakOff (count : Nat) (hp : BreakOff R p.rest) :
    BreakOff R (p.skip count).rest :=
  fun failure hmem => hp failure (List.mem_of_mem_drop hmem)

theorem finish_breakOff (anchor : Option (List Char)) (node : Node)
    (hp : BreakOff R p.rest) :
    BreakOff R (p.finish anchor node).2.rest := by
  cases anchor <;> exact hp

theorem name_breakOff (anchor : Option (List Char)) (node : Node)
    (hp : BreakOff R p.rest) :
    BreakOff R (p.name anchor node).rest := by
  cases anchor <;> exact hp

theorem properties_breakOff (hp : BreakOff R p.rest) :
    BreakOff R p.properties.2.2.rest := by
  unfold properties
  split <;> first | exact hp | exact skip_breakOff _ hp

variable {α : Type} {P : α → Prop}

theorem unexpected_reports (hp : BreakOff R p.rest) :
    Reports R P (p.unexpected (α := α)) := by
  unfold unexpected
  split
  · rename_i failure rest hrest
    exact .error (hp failure (by simp [hrest]))
  · exact reports_malformed

theorem readable_reports (hp : BreakOff R p.rest) :
    Reports R (fun _ => True) p.readable := by
  unfold readable
  split
  · rename_i failure rest hrest
    exact .error (hp failure (by simp [hrest]))
  · exact .ok trivial

theorem fullTag_reports (handles : List (List Char × List Char))
    (tag : Option (List Char) × List Char) :
    Reports R (fun _ => True) (fullTag handles tag) := by
  unfold fullTag
  split
  · exact .ok trivial
  · split
    · exact .ok trivial
    · exact reports_malformed

variable {handles : List (List Char × List Char)}


theorem finish_reports (anchor : Option (List Char))
    {result : Except Failure (Node × Parser)} (h : Reports R (Leaves R) result) :
    Reports R (Leaves R) (do
      let (node, p) ← result
      pure (p.finish anchor node)) :=
  h.bind fun _ hleft => .ok (finish_breakOff anchor _ hleft)

mutual

theorem node_reports (block indentless : Bool) :
    ∀ (fuel : Nat) {p : Parser}, BreakOff R p.rest →
    Reports R (Leaves R) (node handles block indentless fuel p)
  | 0, p, hp => unexpected_reports hp
  | fuel + 1, p, hp => by
    unfold node
    split
    · split
      · exact .ok (skip_breakOff 1 hp)
      · exact reports_malformed
    · have hleft := properties_breakOff hp
      revert hleft
      generalize p.properties = properties
      obtain ⟨anchor, written, q⟩ := properties
      intro hleft
      have hopened : ∀ tag,
          BreakOff R ((q.name anchor (.loop p.rest.length tag)).skip 1).rest :=
        fun tag => skip_breakOff 1 (name_breakOff _ _ hleft)
      have hfull : Reports R (fun _ => True) (written.mapM (fullTag handles)) := by
        cases written with
        | none => exact .ok trivial
        | some tag => exact (fullTag_reports handles tag).bind fun _ _ => .ok trivial
      refine Reports.guarded (readable_reports hleft) fun _ => hfull.bind fun full _ =>
        (readable_reports hleft).bind fun _ _ =>
          Reports.guarded reports_malformed fun _ => ?_
      dsimp only
      split
      · exact finish_reports anchor (.ok (skip_breakOff 1 hleft))
      · exact finish_reports anchor (.ok (skip_breakOff 1 hleft))
      · exact finish_reports anchor (flowSequence_reports fuel [] (hopened _))
      · exact finish_reports anchor (flowMapping_reports fuel [] (hopened _))
      · split
        · exact finish_reports anchor (blockSequence_reports fuel [] (hopened _))
        · exact unexpected_reports hleft
      · split
        · exact finish_reports anchor (blockMapping_reports fuel [] (hopened _))
        · exact unexpected_reports hleft
      · split
        · exact finish_reports anchor
            (indentlessSequence_reports fuel [] (name_breakOff _ _ hleft))
        · split
          · exact finish_reports anchor (.ok hleft)
          · exact unexpected_reports hleft
termination_by structural fuel => fuel

theorem optionalNode_reports (block indentless : Bool) (stops : List Token) :
    ∀ (fuel : Nat) {p : Parser}, BreakOff R p.rest →
    Reports R (Leaves R) (optionalNode handles block indentless stops fuel p)
  | 0, p, hp => unexpected_reports hp
  | fuel + 1, p, hp => by
    rw [optionalNode]
    split
    · exact .ok hp
    · exact node_reports block indentless fuel hp
termination_by structural fuel => fuel

theorem optionalValue_reports (block : Bool) (stops : List Token) :
    ∀ (fuel : Nat) {p : Parser}, BreakOff R p.rest →
    Reports R (Leaves R) (optionalValue handles block stops fuel p)
  | 0, p, hp => unexpected_reports hp
  | fuel + 1, p, hp => by
    rw [optionalValue]
    split
    · exact optionalNode_reports block block stops fuel (skip_breakOff 1 hp)
    · exact .ok hp
termination_by structural fuel => fuel

theorem blockSequence_reports {number : Nat} {tag : Tag} :
    ∀ (fuel : Nat) (done : List Node) {p : Parser}, BreakOff R p.rest →
    Reports R (Leaves R) (blockSequence handles number tag fuel done p)
  | 0, _, p, hp => unexpected_reports hp
  | fuel + 1, done, p, hp => by
    rw [blockSequence]
    split
    · exact (optionalNode_reports _ _ _ fuel (skip_breakOff 1 hp)).bind
          fun item hitem =>
        blockSequence_reports fuel (item.1 :: done) hitem
    · split
      · exact .ok (skip_breakOff 1 hp)
      · exact unexpected_reports hp
termination_by structural fuel => fuel

theorem indentlessSequence_reports {number : Nat} {tag : Tag} :
    ∀ (fuel : Nat) (done : List Node) {p : Parser}, BreakOff R p.rest →
    Reports R (Leaves R) (indentlessSequence handles number tag fuel done p)
  | 0, _, p, hp => unexpected_reports hp
  | fuel + 1, done, p, hp => by
    rw [indentlessSequence]
    split
    · exact (optionalNode_reports _ _ _ fuel (skip_breakOff 1 hp)).bind
          fun item hitem =>
        indentlessSequence_reports fuel (item.1 :: done) hitem
    · exact .ok hp
termination_by structural fuel => fuel

theorem blockMapping_reports {number : Nat} {tag : Tag} :
    ∀ (fuel : Nat) (done : List (Node × Node)) {p : Parser}, BreakOff R p.rest →
    Reports R (Leaves R) (blockMapping handles number tag fuel done p)
  | 0, _, p, hp => unexpected_reports hp
  | fuel + 1, done, p, hp => by
    rw [blockMapping]
    split
    · exact (optionalNode_reports _ _ _ fuel (skip_breakOff 1 hp)).bind fun key hkey =>
        (optionalValue_reports _ _ fuel hkey).bind fun value hvalue =>
          blockMapping_reports fuel ((key.1, value.1) :: done) hvalue
    · split
      · exact .ok (skip_breakOff 1 hp)
      · exact unexpected_reports hp
termination_by structural fuel => fuel

theorem flowSequence_reports {number : Nat} {tag : Tag} :
    ∀ (fuel : Nat) (done : List Node) {p : Parser}, BreakOff R p.rest →
    Reports R (Leaves R) (flowSequence handles number tag fuel done p)
  | 0, _, p, hp => unexpected_reports hp
  | fuel + 1, done, p, hp => by
    rw [flowSequence]
    split
    · exact .ok (skip_breakOff 1 hp)
    · split
      · exact unexpected_reports hp
      · have hentry :
            BreakOff R (if done.isEmpty = true then p else p.skip 1).rest := by
          split
          · exact hp
          · exact skip_breakOff 1 hp
        dsimp only
        generalize (if done.isEmpty = true then p else p.skip 1) = entry at hentry ⊢
        split
        · exact (optionalNode_reports _ _ _ fuel (skip_breakOff 1 hentry)).bind
              fun key hkey =>
            (optionalValue_reports _ _ fuel hkey).bind fun value hvalue =>
              flowSequence_reports fuel _ hvalue
        · split
          · exact .ok (skip_breakOff 1 hentry)
          · exact (node_reports _ _ fuel hentry).bind fun item hitem =>
              flowSequence_reports fuel (item.1 :: done) hitem
termination_by structural fuel => fuel

theorem flowMapping_reports {number : Nat} {tag : Tag} :
    ∀ (fuel : Nat) (done : List (Node × Node)) {p : Parser}, BreakOff R p.rest →
    Reports R (Leaves R) (flowMapping handles number tag fuel done p)
  | 0, _, p, hp => unexpected_reports hp
  | fuel + 1, done, p, hp => by
    rw [flowMapping]
    split
    · exact .ok (skip_breakOff 1 hp)
    · split
      · exact unexpected_reports hp
      · have hentry :
            BreakOff R (if done.isEmpty = true then p else p.skip 1).rest := by
          split
          · exact hp
          · exact skip_breakOff 1 hp
        dsimp only
        generalize (if done.isEmpty = true then p else p.skip 1) = entry at hentry ⊢
        split
        · exact (optionalNode_reports _ _ _ fuel (skip_breakOff 1 hentry)).bind
              fun key hkey =>
            (optionalValue_reports _ _ fuel hkey).bind fun value hvalue =>
              flowMapping_reports fuel ((key.1, value.1) :: done) hvalue
        · split
          · exact .ok (skip_breakOff 1 hentry)
          · exact (node_reports _ _ fuel hentry).bind fun key hkey =>
              flowMapping_reports fuel ((key.1, .absent) :: done) hkey
termination_by structural fuel => fuel

end

theorem directives_reports (fuel : Nat) (versioned : Bool)
    (handles : List (List Char × List Char)) (hp : BreakOff R p.rest) :
    Reports R (Leaves R) (directives fuel versioned handles p) := by
  induction fuel generalizing versioned handles p with
  | zero => exact unexpected_reports hp
  | succ fuel ih =>
      rw [directives]
      split
      · split
        · exact reports_malformed
        · exact ih true handles (skip_breakOff 1 hp)
      · split
        · exact reports_malformed
        · exact ih versioned _ (skip_breakOff 1 hp)
      · exact ih versioned handles (skip_breakOff 1 hp)
      · exact .ok (skip_breakOff 1 hp)
      · exact unexpected_reports hp

private theorem ended_reports {ended : Except Failure Unit} {root : Node}
    (hp : BreakOff R p.rest) (hended : ended = pure () ∨
      ended = (Parser.mk (p.rest.dropWhile (· == .documentEnd)) p.anchors).unexpected) :
    Reports R (fun _ => True) (ended >>= fun _ => pure (some root)) := by
  refine Reports.bind (P := fun _ => True) ?_ fun _ _ => .ok trivial
  rcases hended with rfl | rfl
  · exact .ok trivial
  · exact unexpected_reports fun failure hmem =>
      hp failure (List.dropWhile_subset _ hmem)

theorem document_reports (hp : BreakOff R p.rest) :
    Reports R (fun _ => True) p.document := by
  unfold document
  split
  · exact .ok trivial
  iterate 4
    · refine (directives_reports _ false [] hp).bind ?_
      rintro ⟨handles, q⟩ hq
      dsimp only
      split
      iterate 6 exact ended_reports hq (by split <;> simp)
      exact (node_reports true false _ hq).bind fun root hleft =>
        ended_reports hleft (by split <;> simp)
  · exact (node_reports true false _ hp).bind fun root hleft =>
      ended_reports hleft (by dsimp only; split <;> simp)

end Parser

/-- A text whose nodes can be put together, or that fails for a reason: an escape
for no character. -/
theorem compose_reports (text : String) :
    Reports (EscapeFault text.toList) (fun _ => True) (compose text) :=
  Parser.document_reports (p := ⟨tokens text, []⟩) (tokens_breakOff text)

/-! ## Nodes without a value -/

namespace Node

/-- A node is a part of another one, or that node itself. -/
inductive Within : Node → Node → Prop where
  | here (node : Node) : Within node node
  | item {number : Nat} {tag : Tag} {items : List Node} {item node : Node} :
      item ∈ items → Within item node → Within (.sequence number tag items) node
  | key {number : Nat} {tag : Tag} {entries : List (Node × Node)} {entry : Node × Node}
      {node : Node} :
      entry ∈ entries → Within entry.1 node → Within (.mapping number tag entries) node
  | value {number : Nat} {tag : Tag} {entries : List (Node × Node)}
      {entry : Node × Node} {node : Node} :
      entry ∈ entries → Within entry.2 node → Within (.mapping number tag entries) node

theorem Within.trans {a b c : Node} (hab : Within a b) (hbc : Within b c) :
    Within a c := by
  induction hab with
  | here node => exact hbc
  | item hitem _ ih => exact .item hitem (ih hbc)
  | key hentry _ ih => exact .key hentry (ih hbc)
  | value hentry _ ih => exact .value hentry (ih hbc)

/-- The text of a node that is a scalar. -/
def text? : Node → Option (List Char)
  | .scalar _ _ text => some text
  | .torn _ text => some text.shown.toList
  | _ => none

/-- A node has no value: a text in it is no notation for what its type stands for, it is
a mapping in place of a date, or it holds a place where it goes round. -/
inductive WithoutValue (node : Node) : Fault → Prop where
  | text {part : Node} {text : List Char} {fault : Fault} : Within node part →
      part.text? = some text →
      scalarValue node.tag text = .error (.meaningless fault) → WithoutValue node fault
  | date {number : Nat} {entries : List (Node × Node)} : node =
      .mapping number .timestamp entries →
      WithoutValue node .notADate
  | round {number : Nat} {tag : Tag} : Within node (.loop number tag) →
      WithoutValue node .endless

/-- A fault is due to a node of a document. -/
def Explains (root : Node) (fault : Fault) : Prop :=
  ∃ node, Within root node ∧ WithoutValue node fault

end Node

namespace Survey

open Node

variable {root : Node} {s : Survey}

/-- What has been found out about a document is about nodes of it. -/
structure Keeps (root : Node) (s : Survey) : Prop where
  waiting : ∀ node ∈ s.waiting, Within root node
  resolved : ∀ e ∈ s.resolved, ∀ entry ∈ e.2, Within root entry.1 ∧ Within root entry.2

/-- Entries whose parts are nodes of a document. -/
def AllWithin (root : Node) (entries : List (Node × Node)) : Prop :=
  ∀ entry ∈ entries, Within root entry.1 ∧ Within root entry.2

/-- What is known of the text that is asked of a node, or of the entries of one. -/
def HasText (holds : Node → Prop) (text : List Char) : Prop :=
  ∃ part, holds part ∧ part.text? = some text

/-- Why there is none: it goes round. -/
def GoesRound (holds : Node → Prop) (fault : Fault) : Prop :=
  fault = .endless ∧ ∃ number tag, holds (.loop number tag)

mutual

theorem scalarText_reports (s : Survey) : ∀ node : Node,
    Reports (GoesRound (Within node)) (HasText (Within node)) (s.scalarText node)
  | .scalar _ _ _ => .ok ⟨_, .here _, rfl⟩
  | .torn _ _ => .ok ⟨_, .here _, rfl⟩
  | .sequence _ _ _ => .error trivial
  | .loop number tag => .error ⟨rfl, number, tag, .here _⟩
  | .mapping number tag entries => by
    rw [scalarText]
    split
    · exact reports_malformed
    · refine (ownText_reports s entries).imp ?_ ?_
      · rintro fault ⟨rfl, target, tag, entry, hentry, hwithin⟩
        exact ⟨rfl, target, tag, .value hentry hwithin⟩
      · rintro text ⟨part, ⟨entry, hentry, hwithin⟩, htext⟩
        exact ⟨part, .value hentry hwithin, htext⟩

theorem ownText_reports (s : Survey) : ∀ entries : List (Node × Node),
    Reports (GoesRound fun node => ∃ entry ∈ entries, Within entry.2 node)
      (HasText fun node => ∃ entry ∈ entries, Within entry.2 node) (s.ownText entries)
  | [] => .error trivial
  | (k, v) :: rest => by
    rw [ownText]
    split
    · refine (scalarText_reports s v).imp ?_ ?_
      · rintro fault ⟨rfl, target, tag, hwithin⟩
        exact ⟨rfl, target, tag, (k, v), List.mem_cons_self, hwithin⟩
      · rintro text ⟨part, hwithin, htext⟩
        exact ⟨part, ⟨(k, v), List.mem_cons_self, hwithin⟩, htext⟩
    · refine (ownText_reports s rest).imp ?_ ?_
      · rintro fault ⟨rfl, target, tag, entry, hentry, hwithin⟩
        exact ⟨rfl, target, tag, entry, List.mem_cons_of_mem _ hentry, hwithin⟩
      · rintro text ⟨part, ⟨entry, hentry, hwithin⟩, htext⟩
        exact ⟨part, ⟨entry, List.mem_cons_of_mem _ hentry, hwithin⟩, htext⟩

end

theorem orMeaningless_reports {α : Type} (fault : Fault) (result : Option α) :
    Reports (fun _ => True) (fun _ => True) (orMeaningless fault result) := by
  cases result with
  | none => exact .error trivial
  | some a => exact .ok trivial

/-- The text of a scalar has a value, or it is malformed or means nothing. -/
theorem scalarValue_reports (tag : Tag) (text : List Char) :
    Reports (fun _ => True) (fun _ => True) (scalarValue tag text) := by
  have hbool : Reports (fun _ => True) (fun _ => True) (boolValue text) :=
    .ite (.ok trivial) (.ite (.ok trivial) (.error trivial))
  have hint : Reports (fun _ => True) (fun _ => True) (intValue text) :=
    (orMeaningless_reports _ _).bind fun _ _ => .ok trivial
  have hfloat : Reports (fun _ => True) (fun _ => True) (floatValue text) := by
    have hempty : Reports (fun _ => True) (fun _ => True)
        (.error (.meaningless .notANumber) : Except Failure Unit) := .error trivial
    unfold floatValue
    refine Reports.guarded hempty fun _ => ?_
    exact (orMeaningless_reports _ _).bind fun _ _ => .ok trivial
  have hmoment : Reports (fun _ => True) (fun _ => True) (timestampValue text) := by
    refine (orMeaningless_reports _ _).bind fun parts _ => ?_
    dsimp only
    split
    · exact .ite (.ok trivial) (.error trivial)
    · exact .ite (.ok trivial) (.error trivial)
  have hbytes : Reports (fun _ => True) (fun _ => True) (bytesValue text) := by
    refine .ite ?_ reports_malformed
    split
    · exact .ok trivial
    · exact reports_malformed
  cases tag with
  | bool => exact hbool.bind fun _ _ => .ok trivial
  | int => exact hint.bind fun _ _ => .ok trivial
  | float => exact hfloat.bind fun _ _ => .ok trivial
  | timestamp => exact hmoment
  | binary => exact hbytes.bind fun _ _ => .ok trivial
  | null => exact .ok trivial
  | str => exact .ok trivial
  | _ => exact reports_malformed

/-- A node of a scalar type is read, or has no value. -/
theorem scalarOf_reports (s : Survey) (node : Node) :
    Reports (WithoutValue node) (fun _ => True) (s.scalarOf node) := by
  have htag : s.tagOf node = .str ∨ s.tagOf node = node.tag := by
    unfold tagOf
    split
    · exact .inl rfl
    · exact .inr rfl
  rw [scalarOf]
  refine ((scalarText_reports s node).imp ?_ fun _ h => h).bind ?_
  · rintro fault ⟨rfl, target, tag, hwithin⟩
    exact .round hwithin
  · rintro text ⟨part, hwithin, htext⟩
    have hread : Reports (WithoutValue node) (fun _ => True)
        (scalarValue (s.tagOf node) text) := by
      obtain htag | htag := htag
      · rw [htag]
        exact .ok trivial
      · rw [htag]
        exact (scalarValue_reports _ _).named.imp
          (fun fault h => .text hwithin htext h.2) fun _ h => h
    split
    · exact .ok trivial
    · rename_i hdate
      rw [hdate] at htag
      obtain htag | htag := htag
      · contradiction
      · exact .error (.date (congrArg (Node.mapping _ · _) htag.symm))
    · exact hread

mutual

theorem entriesOf_reports : ∀ (node : Node) {s : Survey}, Keeps root s →
    Within root node →
    Reports (Explains root) (fun r => Keeps root r.1 ∧ AllWithin root r.2)
      (s.entriesOf node)
  | .mapping number tag entries, s, hs, hnode => by
    rw [entriesOf]
    split
    · rename_i others hlookup
      obtain ⟨before, after, hsplit, -⟩ := List.lookup_eq_some_iff.mp hlookup
      exact .ok ⟨hs, hs.resolved (number, others) (by simp [hsplit])⟩
    · refine (separate_reports entries hs fun entry hentry =>
        ⟨hnode.trans (.key hentry (.here _)),
          hnode.trans (.value hentry (.here _))⟩).bind ?_
      rintro ⟨s', taken, own⟩ ⟨hs', htaken, hown⟩
      have hall : AllWithin root (taken ++ own) :=
        List.forall_mem_append.mpr ⟨htaken, hown⟩
      exact .ok ⟨⟨hs'.waiting, List.forall_mem_cons.mpr ⟨hall, hs'.resolved⟩⟩, hall⟩
  | .scalar _ _ _, s, _, _ | .torn _ _, s, _, _ | .sequence _ _ _, s, _, _
  | .loop _ _, s, _, _ => by
    simpa [entriesOf] using reports_malformed

theorem separate_reports : ∀ (entries : List (Node × Node)) {s : Survey}, Keeps root s →
    AllWithin root entries →
    Reports (Explains root) (fun r => Keeps root r.1 ∧ AllWithin root r.2.1 ∧
      AllWithin root r.2.2) (s.separate entries)
  | [], s, hs, _ => by
    rw [separate]
    exact .ok ⟨hs, by simp [AllWithin], by simp [AllWithin]⟩
  | (k, v) :: rest, s, hs, hentries => by
    obtain ⟨hfirst, hrest⟩ := List.forall_mem_cons.mp hentries
    rw [separate]
    split
    · refine (takenFrom_reports v hs hfirst.2).bind ?_
      rintro ⟨s', first⟩ ⟨hs', htaken⟩
      refine (separate_reports rest hs' hrest).bind ?_
      rintro ⟨s'', taken, own⟩ ⟨hs'', hothers, hown⟩
      exact .ok ⟨hs'', List.forall_mem_append.mpr ⟨htaken, hothers⟩, hown⟩
    · have hs' : Keeps root (if k.tag ==
          .value then { s with texts := k.number :: s.texts } else s) := by
        split
        · exact ⟨hs.waiting, hs.resolved⟩
        · exact hs
      refine (separate_reports rest hs' hrest).bind ?_
      rintro ⟨s'', taken, own⟩ ⟨hs'', htaken, hown⟩
      exact .ok ⟨hs'', htaken, List.forall_mem_cons.mpr ⟨hfirst, hown⟩⟩

theorem takenFrom_reports : ∀ (node : Node) {s : Survey}, Keeps root s →
    Within root node →
    Reports (Explains root) (fun r => Keeps root r.1 ∧ AllWithin root r.2)
      (s.takenFrom node)
  | .scalar _ _ _, s, _, _ | .torn _ _, s, _, _ | .loop _ _, s, _, _ => by
      simpa [takenFrom] using reports_malformed
  | .sequence _ _ items, s, hs, hnode => by
    rw [takenFrom]
    exact takenFromAll_reports items hs fun item hitem =>
      hnode.trans (.item hitem (.here _))
  | .mapping number tag entries, s, hs, hnode => by
    rw [takenFrom]
    exact entriesOf_reports (.mapping number tag entries) hs hnode

theorem takenFromAll_reports : ∀ (items : List Node) {s : Survey}, Keeps root s →
    (∀ item ∈ items, Within root item) →
    Reports (Explains root) (fun r => Keeps root r.1 ∧ AllWithin root r.2)
      (s.takenFromAll items)
  | [], s, hs, _ => by
    rw [takenFromAll]
    exact .ok ⟨hs, by simp [AllWithin]⟩
  | item :: rest, s, hs, hitems => by
    obtain ⟨hfirst, hrest⟩ := List.forall_mem_cons.mp hitems
    rw [takenFromAll]
    refine (entriesOf_reports item hs hfirst).bind ?_
    rintro ⟨s', first⟩ ⟨hs', htaken⟩
    refine (takenFromAll_reports rest hs' hrest).bind ?_
    rintro ⟨s'', others⟩ ⟨hs'', hothers⟩
    exact .ok ⟨hs'', List.forall_mem_append.mpr ⟨hothers, htaken⟩⟩

end

section

variable {node : Node}

private theorem meet_reports (hs : Keeps root s) (hnode : Within root node) :
    Reports (Explains root) (Keeps root) (s.meet node) := by
  rw [meet]
  split
  · split
    · exact .ok hs
    · exact .ok ⟨List.forall_mem_cons.mpr ⟨hnode, hs.waiting⟩, hs.resolved⟩
  · exact ((scalarOf_reports s node).imp (fun fault h => ⟨node, hnode, h⟩) fun _ h =>
      h).bind fun _ _ => .ok hs

private theorem meetEntry_reports {entry : Node × Node} (hs : Keeps root s)
    (hentry : Within root entry.1 ∧ Within root entry.2) :
    Reports (Explains root) (Keeps root) (s.meetEntry entry) := by
  rw [meetEntry]
  split
  · exact reports_malformed
  · exact (meet_reports hs hentry.1).bind fun s' hs' => meet_reports hs' hentry.2

private theorem meetPair_reports (hs : Keeps root s) (hnode : Within root node) :
    Reports (Explains root) (Keeps root) (s.meetPair node) := by
  unfold meetPair
  split
  · rename_i number tag entries
    have hall : AllWithin root ((s.resolved.lookup number).getD entries) := by
      cases hlookup : s.resolved.lookup number with
      | none =>
          exact fun entry hentry =>
            ⟨hnode.trans (.key hentry (.here _)), hnode.trans (.value hentry (.here _))⟩
      | some others =>
          obtain ⟨before, after, hsplit, -⟩ := List.lookup_eq_some_iff.mp hlookup
          exact hs.resolved (number, others) (by simp [hsplit])
    split
    · rename_i first second hpair
      obtain ⟨hfirst, hsecond⟩ := hall (first, second) (by simp [hpair])
      exact (meet_reports hs hfirst).bind fun s' hs' => meet_reports hs' hsecond
    · exact reports_malformed
  · exact reports_malformed

private theorem lookInto_reports (hs : Keeps root s) (hnode : Within root node) :
    Reports (Explains root) (Keeps root) (s.lookInto node) := by
  have hmapping : Reports (Explains root) (Keeps root)
      (s.entriesOf node >>= fun found => found.2.foldlM meetEntry found.1) :=
    (entriesOf_reports node hs hnode).bind fun found hfound =>
      Reports.foldlM (fun entry hentry s hs =>
        meetEntry_reports hs (hfound.2 entry hentry)) hfound.1
  unfold lookInto
  split
  · exact Reports.foldlM
      (fun item hitem s hs => meet_reports hs (hnode.trans (.item hitem (.here _)))) hs
  · exact Reports.foldlM
      (fun item hitem s hs => meetPair_reports hs (hnode.trans (.item hitem (.here _))))
        hs
  · exact Reports.foldlM
      (fun item hitem s hs => meetPair_reports hs (hnode.trans (.item hitem (.here _))))
        hs
  · exact hmapping
  · exact hmapping
  · exact .ok hs
  · exact reports_malformed

private theorem generations_reports (fuel : Nat) (hs : Keeps root s) :
    Reports (Explains root) (fun _ => True) (generations fuel s) := by
  induction fuel generalizing s with
  | zero => exact .ok trivial
  | succ fuel ih =>
      rw [generations]
      split
      · exact .ok trivial
      · have hrest : Keeps root { s with waiting := [] } := ⟨by simp, hs.resolved⟩
        exact (Reports.foldlM (fun node hnode s hs' =>
          lookInto_reports hs' (hs.waiting node (List.mem_reverse.mp hnode)))
          hrest).bind fun s' hs' => ih hs'

end

end Survey

/-- A document has a meaning, or it is malformed or holds a node without a value. -/
theorem survey_reports (root : Node) :
    Reports root.Explains (fun _ => True) (survey root) := by
  have hstart : Survey.Keeps root .start :=
    ⟨by simp [Survey.start], by simp [Survey.start]⟩
  exact (Survey.meet_reports hstart (.here root)).bind fun s hs =>
    (Survey.generations_reports (root.number + 1) hs).bind fun _ _ => .ok trivial

/-! ## Texts -/

section

variable {μ : Type} {mark : Option Nat → μ} {text : String} {failure : Failure}

/-- The ways in which a text has no value, given the places where it goes round. -/
theorem readMarked_eq_error : readMarked mark text = .error failure ↔
    compose text = .error failure ∨ ∃ root : Node, compose text = .ok (some root) ∧
      (survey root = .error failure ∨
        failure = .malformed ∧ survey root = .ok () ∧
        ∃ f, valueOf mark root = .error f) := by
  rw [readMarked]
  cases compose text with
  | error failure => simp
  | ok root =>
      cases root with
      | none => simp
      | some root =>
          simp only [ok_bind]
          cases hsurvey : survey root with
          | error failure => simp [hsurvey]
          | ok _ =>
              cases hvalue : valueOf mark root <;>
                simp [hsurvey, hvalue, Except.mapError, eq_comm]

/-- The value of a text is not said to go round before all of it is there. -/
theorem readMarked_reports :
    Reports (fun _ => True) (fun _ => True) (readMarked mark text) := by
  refine ((compose_reports text).imp (fun _ _ => trivial) fun _ h => h).bind
    fun root _ => ?_
  cases root with
  | none => exact .ok trivial
  | some root =>
      refine ((survey_reports root).imp (fun _ _ => trivial) fun _ h => h).bind
        fun _ _ => ?_
      cases valueOf mark root with
      | ok v => exact .ok trivial
      | error failure => exact reports_malformed

end

/-- A text means nothing if there is an escape for no character where its nodes are put
together, or if the survey of its document comes to a node without a value. -/
theorem read_meaningless_iff {text : String} {fault : Fault} :
    read text = .error (.meaningless fault) ↔
      (EscapeFault text.toList fault ∧ compose text = .error (.meaningless fault)) ∨
        ∃ root : Node, compose text = .ok (some root) ∧ root.Explains fault ∧
          survey root = .error (.meaningless fault) := by
  have hread : read text = .error (.meaningless fault) ↔
      readMarked Option.isNone text = .error (.meaningless fault) := by
    rw [read]
    cases readMarked Option.isNone text with
    | error failure => simp
    | ok rounds =>
        rw [ok_bind, requireEnd]
        split <;> simp
  rw [hread, readMarked_eq_error]
  constructor
  · rintro (hcompose | ⟨root, hcompose, hsurvey | ⟨hmalformed, -⟩⟩)
    · exact .inl ⟨(compose_reports text).due hcompose, hcompose⟩
    · exact .inr ⟨root, hcompose, (survey_reports root).due hsurvey, hsurvey⟩
    · exact absurd hmalformed (by simp)
  · rintro (⟨-, hcompose⟩ | ⟨root, hcompose, -, hsurvey⟩)
    · exact .inl hcompose
    · exact .inr ⟨root, hcompose, .inl hsurvey⟩

theorem itemsReachMark_eq_any (pairs : Bool) (xs : List (Tree Bool)) :
    itemsReachMark pairs xs = xs.any (reachesMark pairs) := by
  induction xs with
  | nil => rfl
  | cons x xs ih => rw [itemsReachMark, List.any_cons, ih]

theorem membersReachMark_eq_any (pairs : Bool) (ms : Tree.Members Bool) :
    membersReachMark pairs ms = ms.any fun e => reachesMark pairs e.2 := by
  induction ms with
  | nil => rfl
  | cons e ms ih => rw [membersReachMark, List.any_cons, ih]

/-- A place that lists and objects lead to is reached all the more if pairs count. -/
theorem reachesMark_of_not_pairs {v : Tree Bool} (h : reachesMark false v = true) :
    reachesMark true v = true := by
  induction v using Tree.parts_induction with
  | scalar s => exact h
  | pair a b => simp [reachesMark] at h
  | set names => exact h
  | list xs ih =>
      rw [reachesMark, itemsReachMark_eq_any, List.any_eq_true] at h ⊢
      obtain ⟨x, hx, hreach⟩ := h
      exact ⟨x, hx, ih x hx hreach⟩
  | marked mark ms ih =>
      rw [reachesMark, membersReachMark_eq_any, Bool.or_eq_true, List.any_eq_true]
        at h ⊢
      refine h.imp_right ?_
      rintro ⟨e, he, hreach⟩
      exact ⟨e, he, ih e he hreach⟩

/-- A text goes round, without a pair on the way, if that is what its value shows. -/
theorem read_circular_iff {text : String} :
    read text = .error (.circular true false) ↔
      ∃ rounds : Tree Bool, readMarked Option.isNone text = .ok rounds ∧
        rounds.isObject = true ∧
        reachesMark false rounds = true := by
  rw [read]
  cases hmarked : readMarked Option.isNone text with
  | error failure =>
      have hflat : failure ≠ .circular true false := by
        rintro rfl
        exact readMarked_reports.due hmarked
      simpa using hflat
  | ok rounds =>
      rw [ok_bind, requireEnd]
      split
      · simp
      · rename_i hreach
        simpa using fun _ hpairs => hreach (reachesMark_of_not_pairs hpairs)

end ApiWorkbench.Yaml
