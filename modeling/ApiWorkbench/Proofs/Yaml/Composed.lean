import ApiWorkbench.Proofs.Yaml.Written
import ApiWorkbench.Yaml.Node
import ApiWorkbench.Yaml.Scalar
import ApiWorkbench.Yaml.Survey

/-!
# Nodes for values

The tokens of a value are put together to a node that stands for it: a scalar whose type
and text give the leaf, a sequence of the nodes of the items, a mapping of the nodes of
the members (`Denotes`). The numbers of the nodes do not matter. What comes after the
tokens does not matter either, unless they are the items of a list after a key, which
end where no dash follows.

## Main results

* `node_valueTokens`: the tokens of a value are read as a node that stands for it.
* `document_valueTokens`: they are read as a document.
-/

namespace ApiWorkbench.Yaml

/-! ## What a node stands for -/

/-- A leaf as it is read after it was written. -/
def rereadScalar : Scalar → Scalar
  | .str s => .str (rereadText s)
  | s => s

/-- A node that stands for a leaf: neither a collection nor one of the two
marks of mappings. -/
inductive DenotesLeaf (s : Scalar) : Node → Prop
  | scalar {number : Nat} {tag : Tag} {text : List Char} : tag.isCollection = false →
      tag ≠ .merge → tag ≠ .value →
      scalarValue tag text = .ok (rereadScalar s) →
        DenotesLeaf s (.scalar number tag text)

mutual

/-- A node that stands for a value. -/
inductive Denotes : Value → Node → Prop
  | scalar {s : Scalar} {node : Node} : DenotesLeaf s node → Denotes (.scalar s) node
  | list {xs : List Value} {number : Nat} {items : List Node} : DenoteItems xs items →
      Denotes (.list xs) (.sequence number .sequence items)
  | object {ms : List (Scalar × Value)} {number : Nat} {entries : List (Node × Node)} :
      DenoteMembers ms entries →
      Denotes (.object ms) (.mapping number .mapping entries)

/-- Nodes that stand for the items of a list. -/
inductive DenoteItems : List Value → List Node → Prop
  | nil : DenoteItems [] []
  | cons {v : Value} {xs : List Value} {node : Node} {items : List Node} :
      Denotes v node → DenoteItems xs items →
      DenoteItems (v :: xs) (node :: items)

/-- Entries that stand for the members of an object. -/
inductive DenoteMembers : List (Scalar × Value) → List (Node × Node) → Prop
  | nil : DenoteMembers [] []
  | cons {k : Scalar} {v : Value} {ms : List (Scalar × Value)} {key value : Node}
      {entries : List (Node × Node)} :
      DenotesLeaf k key → Denotes v value → DenoteMembers ms entries →
      DenoteMembers ((k, v) :: ms) ((key, value) :: entries)

end

/-- The token of a leaf gives a scalar that stands for it. -/
private theorem leafToken_denotes {s : Scalar} (hs : IsLeaf s) :
    ∃ plain text, leafToken s = .scalar plain text ∧
      ∀ number, DenotesLeaf s
        (.scalar number (if plain then impliedTag text else .str) text) := by
  cases s with
  | null => exact ⟨true, _, rfl, fun _ => .scalar rfl (by decide) (by decide) rfl⟩
  | bool b => cases b with
    | true => exact ⟨true, _, rfl, fun _ => .scalar rfl (by decide) (by decide) rfl⟩
    | false => exact ⟨true, _, rfl, fun _ => .scalar rfl (by decide) (by decide) rfl⟩
  | int n =>
      refine ⟨true, _, rfl, fun _ => ?_⟩
      rw [if_pos rfl, impliedTag_toString]
      refine .scalar rfl (by decide) (by decide) ?_
      have hint : isWritable n = true := hs
      rw [scalarValue, intValue_toString hint]
      rfl
  | str s =>
      refine ⟨isPlainText s.toList, (rereadText s).toList, rfl, fun _ => ?_⟩
      have htag : (if isPlainText s.toList then impliedTag (rereadText s).toList
        else Tag.str) = .str := by
        split
        · rename_i hplain
          obtain ⟨htag, hallows⟩ := Bool.and_eq_true_iff.mp hplain
          have hnone : ∀ c ∈ s.toList, isKeptBreak c = false := fun c hc =>
            (plain_of_mem hallows hc).2
          rw [rereadText_of_no_break hnone, impliedTag, withoutFinalFeed_eq]
          · simpa using htag
          · intro hfeed
            exact absurd (hnone _ hfeed) (by decide)
        · rfl
      rw [htag]
      refine .scalar rfl (by decide) (by decide) ?_
      rw [scalarValue, String.ofList_toList]
      rfl
  | float _ => exact hs.elim
  | torn _ => exact hs.elim
  | bytes _ => exact hs.elim
  | date _ => exact hs.elim
  | moment _ => exact hs.elim
  | pair _ _ => exact hs.elim

/-! ## Reading tokens as nodes -/

/-- A node for a value has been read, and tokens are left. -/
def Yields (v : Value) (rest : List Token)
    (result : Except Failure (Node × Parser)) : Prop :=
  ∃ node, Denotes v node ∧ result = .ok (node, ⟨rest, []⟩)

/-- The tokens of a value are read as a node for it, whatever follows them; but no dash
may follow items without tokens around them. -/
def ReadAsNode (v : Value) : Prop :=
  ∀ (keyed indentless : Bool) (handles : List (List Char × List Char))
    (fuel : Nat) (rest : List Token), 3 * (valueTokens keyed v).length ≤ fuel →
    (keyed = true → indentless = true ∧ rest.head? ≠ some .blockEntry) →
    Yields v rest
      (Parser.node handles true indentless fuel ⟨valueTokens keyed v ++ rest, []⟩)

namespace Parser

@[simp] theorem finish_none (node : Node) (p : Parser) :
    p.finish none node = (node, p) := rfl

section

variable {handles : List (List Char × List Char)} {block indentless : Bool}
  {fuel number : Nat} {tag : Tag} {rest : List Token} {s : Scalar} {v : Value}
  {xs : List Value} {ms : List (Scalar × Value)}

/-- The tokens of a value begin with one that does not end anything. -/
private theorem valueTokens_head (hv : Portable v) (keyed : Bool) :
    ∃ token more, valueTokens keyed v = token :: more ∧
    token ∉ [Token.key, .value, .blockEnd] ∧ (keyed = false → token ≠ .blockEntry) := by
  cases hv with
  | scalar hs =>
      obtain ⟨plain, text, htoken, -⟩ := leafToken_denotes hs
      rw [valueTokens, htoken]
      exact ⟨_, _, rfl, by simp⟩
  | @list xs _ =>
      cases xs with
      | nil => exact ⟨_, _, rfl, by simp⟩
      | cons x xs =>
          cases keyed with
          | true => exact ⟨_, _, rfl, by simp⟩
          | false => exact ⟨_, _, rfl, by simp⟩
  | @object ms _ _ _ =>
      cases ms with
      | nil => exact ⟨_, _, rfl, by simp⟩
      | cons e ms => exact ⟨_, _, rfl, by simp⟩

/-- A value is read where a node may be left out, unless it would end there. -/
private theorem optionalNode_value (hv : Portable v) (hreads : ReadAsNode v)
    {keyed : Bool} {stops : List Token} (hstops : ∀ token ∈ stops,
      token ∈ [Token.key, .value, .blockEnd] ∨ (token = .blockEntry ∧ keyed = false))
    (hfuel : 3 * (valueTokens keyed v).length < fuel)
    (hkeyed : keyed = true → indentless = true ∧ rest.head? ≠ some .blockEntry) :
    Yields v rest (optionalNode handles true indentless stops fuel
      ⟨valueTokens keyed v ++ rest, []⟩) := by
  obtain ⟨fuel, rfl⟩ : ∃ more, fuel = more + 1 := ⟨fuel - 1, by omega⟩
  obtain ⟨value, hvalue, hread⟩ :=
    hreads keyed indentless handles fuel rest (Nat.lt_succ_iff.mp hfuel) hkeyed
  refine ⟨value, hvalue, ?_⟩
  obtain ⟨token, more, htoken, hends, hentry⟩ := valueTokens_head hv keyed
  have hstop : token ∉ stops := fun hmem => by
    rcases hstops token hmem with h | ⟨h, hkeyed⟩
    · exact hends h
    · exact hentry hkeyed h
  rw [← hread, htoken, optionalNode]
  simp [isAt, hstop]

/-- The token of a leaf is read as a scalar. -/
private theorem readAsNode_scalar (hs : IsLeaf s) : ReadAsNode (.scalar s) := by
  intro keyed indentless handles fuel rest hfuel _
  obtain ⟨plain, text, htoken, hleaf⟩ := leafToken_denotes hs
  have hlength : (valueTokens keyed (.scalar s)).length = 1 := by simp [valueTokens]
  obtain ⟨fuel, rfl⟩ : ∃ more, fuel = more + 1 := ⟨fuel - 1, by omega⟩
  refine ⟨_, .scalar (hleaf (rest.length + 1)), ?_⟩
  rw [valueTokens, htoken]
  simp [node, properties, readable, Parser.skip]

/-! ## Items -/

private theorem blockSequence_entry {done : List Node} {tokens : List Token}
    {item : Node} (hitem : optionalNode handles true false [.blockEntry, .blockEnd] fuel
      ⟨tokens, []⟩ = .ok (item, ⟨rest, []⟩)) :
    blockSequence handles number tag (fuel + 1) done ⟨.blockEntry :: tokens, []⟩ =
      blockSequence handles number tag fuel (item :: done) ⟨rest, []⟩ := by
  simp [blockSequence, isAt, Parser.skip, hitem]

/-- The items of a block are read one after the other. -/
private theorem blockSequence_items
    (fuel : Nat) (hxs : ∀ x ∈ xs, Portable x ∧ ReadAsNode x) (done : List Node)
    (hfuel : 3 * (itemTokens xs).length < fuel) : ∃ items, DenoteItems xs items ∧
      blockSequence handles number tag fuel done ⟨itemTokens xs ++ .blockEnd :: rest,
        []⟩ = .ok (.sequence number tag (done.reverse ++ items), ⟨rest, []⟩) := by
  obtain ⟨fuel, rfl⟩ : ∃ more, fuel = more + 1 := ⟨fuel - 1, by omega⟩
  induction xs generalizing fuel done with
  | nil =>
      refine ⟨[], .nil, ?_⟩
      simp [blockSequence, itemTokens, isAt, Parser.skip]
  | cons v xs ih =>
      rw [List.forall_mem_cons] at hxs
      simp only [itemTokens, List.length_cons, List.length_append] at hfuel
      obtain ⟨item, hitem, hread⟩ : Yields v (itemTokens xs ++ .blockEnd :: rest)
          (optionalNode handles true false [.blockEntry, .blockEnd] fuel
          ⟨valueTokens false v ++ (itemTokens xs ++ .blockEnd :: rest), []⟩) :=
        optionalNode_value hxs.1.1 hxs.1.2 (by simp) (by omega) (by simp)
      obtain ⟨fuel, rfl⟩ : ∃ more, fuel = more + 1 := ⟨fuel - 1, by omega⟩
      obtain ⟨items, hitems, hrest⟩ := ih hxs.2 (item :: done) fuel (by omega)
      refine ⟨item :: items, .cons hitem hitems, ?_⟩
      rw [itemTokens, List.cons_append, List.append_assoc,
        blockSequence_entry hread, hrest]
      simp

private theorem indentlessSequence_entry
    {done : List Node} {tokens : List Token} {item : Node}
    (hitem : optionalNode handles true false [.blockEntry, .key, .value, .blockEnd] fuel
      ⟨tokens, []⟩ = .ok (item, ⟨rest, []⟩)) :
    indentlessSequence handles number tag (fuel + 1) done ⟨.blockEntry :: tokens, []⟩ =
      indentlessSequence handles number tag fuel (item :: done) ⟨rest, []⟩ := by
  simp [indentlessSequence, isAt, Parser.skip, hitem]

/-- The items of a sequence without a start and an end are read up to the first token
that is no dash. -/
private theorem indentlessSequence_items
    (fuel : Nat) (hxs : ∀ x ∈ xs, Portable x ∧ ReadAsNode x)
    (hrest : rest.head? ≠ some .blockEntry) (done : List Node) (hpos : 0 < fuel)
    (hfuel : 3 * (itemTokens xs).length ≤ fuel + 1) : ∃ items, DenoteItems xs items ∧
      indentlessSequence handles number tag fuel done ⟨itemTokens xs ++ rest, []⟩ =
        .ok (.sequence number tag (done.reverse ++ items), ⟨rest, []⟩) := by
  obtain ⟨fuel, rfl⟩ : ∃ more, fuel = more + 1 := ⟨fuel - 1, by omega⟩
  clear hpos
  induction xs generalizing fuel done with
  | nil =>
      refine ⟨[], .nil, ?_⟩
      have hend : isAt [.blockEntry] ⟨rest, []⟩ = false := by
        cases rest with
        | nil => rfl
        | cons token more => simpa [isAt] using hrest
      simp [indentlessSequence, itemTokens, hend]
  | cons v xs ih =>
      rw [List.forall_mem_cons] at hxs
      simp only [itemTokens, List.length_cons, List.length_append] at hfuel
      obtain ⟨item, hitem, hread⟩ : Yields v (itemTokens xs ++ rest)
          (optionalNode handles true false [.blockEntry, .key, .value, .blockEnd] fuel
          ⟨valueTokens false v ++ (itemTokens xs ++ rest), []⟩) :=
        optionalNode_value hxs.1.1 hxs.1.2 (by simp) (by omega) (by simp)
      obtain ⟨fuel, rfl⟩ : ∃ more, fuel = more + 1 := ⟨fuel - 1, by omega⟩
      obtain ⟨items, hitems, hrest⟩ := ih hxs.2 (item :: done) fuel (by omega)
      refine ⟨item :: items, .cons hitem hitems, ?_⟩
      rw [itemTokens, List.cons_append, List.append_assoc,
        indentlessSequence_entry hread, hrest]
      simp

/-! ## Members -/

private theorem blockMapping_entry
    {done : List (Node × Node)} {tokens others : List Token} {key value : Node}
    (hkey : optionalNode handles true true [.key, .value, .blockEnd] (fuel + 1)
      ⟨tokens, []⟩ = .ok (key, ⟨.value :: others, []⟩)) (hvalue : optionalNode handles
      true true [.key, .value, .blockEnd] fuel ⟨others, []⟩ = .ok (value, ⟨rest, []⟩)) :
    blockMapping handles number tag (fuel + 2) done ⟨.key :: tokens, []⟩ =
      blockMapping handles number tag (fuel + 1) ((key, value) :: done) ⟨rest, []⟩ := by
  rw [blockMapping]
  simp [isAt, Parser.skip, hkey, optionalValue, hvalue]

/-- The members of a block are read one after the other. -/
private theorem blockMapping_members
    (fuel : Nat) (hnames : ∀ e ∈ ms, ∃ name, e.1 = .str name)
    (hms : ∀ e ∈ ms, Portable e.2 ∧ ReadAsNode e.2)
    (done : List (Node × Node)) (hfuel : 3 * (memberTokens ms).length < fuel) :
    ∃ entries, DenoteMembers ms entries ∧
      blockMapping handles number tag fuel done ⟨memberTokens ms ++ .blockEnd :: rest,
        []⟩ = .ok (.mapping number tag (done.reverse ++ entries), ⟨rest, []⟩) := by
  obtain ⟨fuel, rfl⟩ : ∃ more, fuel = more + 1 := ⟨fuel - 1, by omega⟩
  induction ms generalizing fuel done with
  | nil =>
      refine ⟨[], .nil, ?_⟩
      simp [blockMapping, memberTokens, isAt, Parser.skip]
  | cons e ms ih =>
      obtain ⟨k, v⟩ := e
      rw [List.forall_mem_cons] at hnames hms
      simp only [memberTokens, List.length_cons, List.length_append] at hfuel
      have hhead : (memberTokens ms ++ Token.blockEnd :: rest).head? ≠
          some .blockEntry := by
        cases ms with
        | nil => simp [memberTokens]
        | cons e ms => simp [memberTokens]
      have hv : Portable v ∧ ReadAsNode v := hms.1
      have hleaf : IsLeaf k := by
        obtain ⟨name, hname⟩ := hnames.1
        obtain rfl : k = .str name := hname
        exact True.intro
      obtain ⟨fuel, rfl⟩ : ∃ more, fuel = more + 1 := ⟨fuel - 1, by omega⟩
      generalize hothers : memberTokens ms ++ Token.blockEnd :: rest =
        others at hhead ih
      obtain ⟨key, hkey, hreadKey⟩ : Yields (.scalar k)
          (.value :: (valueTokens (isSimple k) v ++ others)) (optionalNode handles true
          true [.key, .value, .blockEnd] (fuel + 1) ⟨valueTokens false (.scalar k) ++
          .value :: (valueTokens (isSimple k) v ++ others), []⟩) :=
        optionalNode_value (.scalar hleaf) (readAsNode_scalar hleaf) (by simp)
          (by simp only [valueTokens, List.length_singleton]; omega) (by simp)
      obtain ⟨value, hvalue, hreadValue⟩ :
          Yields v others (optionalNode handles true true [.key, .value, .blockEnd] fuel
          ⟨valueTokens (isSimple k) v ++ others, []⟩) :=
        optionalNode_value hv.1 hv.2 (by simp) (by omega) fun _ => ⟨rfl, hhead⟩
      obtain ⟨entries, hentries, hread⟩ :=
        ih hnames.2 hms.2 ((key, value) :: done) fuel (by omega)
      cases hkey with
      | scalar hkey =>
          refine ⟨(key, value) :: entries, .cons hkey hvalue hentries, ?_⟩
          rw [valueTokens, List.singleton_append] at hreadKey
          rw [memberTokens, List.cons_append, List.cons_append, List.cons_append,
            List.append_assoc, hothers, blockMapping_entry hreadKey hreadValue, hread]
          simp

/-! ## Values -/

private theorem node_blockSequence {tokens : List Token} {result : Node}
    (h : blockSequence handles (tokens.length + 1) .sequence fuel [] ⟨tokens, []⟩ =
      .ok (result, ⟨rest, []⟩)) :
    node handles true indentless (fuel + 1) ⟨.blockSequenceStart :: tokens, []⟩ =
      .ok (result, ⟨rest, []⟩) := by
  simp [node, properties, readable, name, Parser.skip, h]

private theorem node_indentlessSequence {tokens : List Token} {result : Node}
    (h : indentlessSequence handles (tokens.length + 1) .sequence fuel []
      ⟨.blockEntry :: tokens, []⟩ = .ok (result, ⟨rest, []⟩)) :
    node handles true true (fuel + 1) ⟨.blockEntry :: tokens, []⟩ =
      .ok (result, ⟨rest, []⟩) := by
  simp [node, properties, readable, name, h]

private theorem node_blockMapping {tokens : List Token} {result : Node}
    (h : blockMapping handles (tokens.length + 1) .mapping fuel [] ⟨tokens, []⟩ =
      .ok (result, ⟨rest, []⟩)) :
    node handles true indentless (fuel + 1) ⟨.blockMappingStart :: tokens, []⟩ =
      .ok (result, ⟨rest, []⟩) := by
  simp [node, properties, readable, name, Parser.skip, h]

private theorem readAsNode_list (hxs : ∀ x ∈ xs, Portable x ∧ ReadAsNode x) :
    ReadAsNode (.list xs) := by
  intro keyed indentless handles fuel rest hfuel hkeyed
  cases xs with
  | nil =>
      have hlength : (valueTokens keyed (.list [])).length = 2 := by simp [valueTokens]
      obtain ⟨fuel, rfl⟩ : ∃ more, fuel = more + 2 := ⟨fuel - 2, by omega⟩
      refine ⟨.sequence (rest.length + 2) .sequence [], .list .nil, ?_⟩
      simp [valueTokens, node, properties, readable, name, Parser.skip,
        flowSequence, isAt]
  | cons x xs =>
      cases keyed with
      | true =>
          obtain ⟨rfl, hrest⟩ := hkeyed rfl
          have htokens : valueTokens true (.list (x :: xs)) = itemTokens (x :: xs) := by
            simp [valueTokens]
          have hlength : 2 ≤ fuel := by
            simp only [htokens, itemTokens, List.length_cons] at hfuel
            omega
          obtain ⟨fuel, rfl⟩ : ∃ more, fuel = more + 1 := ⟨fuel - 1, by omega⟩
          rw [htokens] at hfuel ⊢
          obtain ⟨items, hitems, hread⟩ :=
            indentlessSequence_items fuel hxs hrest [] (by omega) (by omega)
          exact ⟨_, .list hitems, node_indentlessSequence hread⟩
      | false =>
          have htokens : valueTokens false (.list (x :: xs)) =
            .blockSequenceStart :: (itemTokens (x :: xs) ++ [.blockEnd]) := by
              simp [valueTokens]
          rw [htokens] at hfuel ⊢
          simp only [List.length_cons, List.length_append, List.length_nil] at hfuel
          obtain ⟨fuel, rfl⟩ : ∃ more, fuel = more + 1 := ⟨fuel - 1, by omega⟩
          obtain ⟨items, hitems, hread⟩ := blockSequence_items fuel hxs [] (by omega)
          rw [List.cons_append, List.append_assoc]
          exact ⟨_, .list hitems, node_blockSequence hread⟩

private theorem readAsNode_object (hnames : ∀ e ∈ ms, ∃ name, e.1 = .str name)
    (hms : ∀ e ∈ ms, Portable e.2 ∧ ReadAsNode e.2) : ReadAsNode (.object ms) := by
  intro keyed indentless handles fuel rest hfuel _
  cases ms with
  | nil =>
      have hlength : (valueTokens keyed (.object [])).length = 2 := by
        simp [valueTokens]
      obtain ⟨fuel, rfl⟩ : ∃ more, fuel = more + 2 := ⟨fuel - 2, by omega⟩
      refine ⟨.mapping (rest.length + 2) .mapping [], .object .nil, ?_⟩
      simp [valueTokens, node, properties, readable, name, Parser.skip,
        flowMapping, isAt]
  | cons e ms =>
      have htokens : valueTokens keyed (.object (e :: ms)) =
        .blockMappingStart :: (memberTokens (e :: ms) ++ [.blockEnd]) := by
          simp [valueTokens]
      rw [htokens] at hfuel ⊢
      simp only [List.length_cons, List.length_append, List.length_nil] at hfuel
      obtain ⟨fuel, rfl⟩ : ∃ more, fuel = more + 1 := ⟨fuel - 1, by omega⟩
      obtain ⟨entries, hentries, hread⟩ :=
        blockMapping_members fuel hnames hms [] (by omega)
      rw [List.cons_append, List.append_assoc]
      exact ⟨_, .object hentries, node_blockMapping hread⟩

/-- The tokens of a value are read as a node for it. -/
theorem node_valueTokens (hv : Portable v) : ReadAsNode v := by
  induction v using Tree.parts_induction with
  | scalar s =>
      cases hv with
      | scalar hs => exact readAsNode_scalar hs
  | list xs ih =>
      cases hv with
      | list hxs => exact readAsNode_list fun x hx => ⟨hxs x hx, ih x hx (hxs x hx)⟩
  | pair a b => cases hv
  | set names => cases hv
  | marked mark ms ih =>
      cases hv with
      | object hnames _ hms =>
          refine readAsNode_object (fun e he => ?_) fun e he =>
            ⟨hms e he, ih e he (hms e he)⟩
          obtain ⟨name, hname, -⟩ := hnames e he
          exact ⟨name, hname⟩

/-- The tokens of an object are read as a document. -/
theorem document_valueTokens (hms : Portable (.object ms)) (hsome : ms ≠ []) :
    ∃ root, Denotes (.object ms) root ∧
    document ⟨valueTokens false (.object ms), []⟩ = .ok (some root) := by
  cases ms with
  | nil => exact absurd rfl hsome
  | cons e ms =>
      have htokens : valueTokens false (.object (e :: ms)) =
        .blockMappingStart :: (memberTokens (e :: ms) ++ [.blockEnd]) := by
          simp [valueTokens]
      obtain ⟨root, hroot, hread⟩ := node_valueTokens hms false false defaultHandles
        (4 * (valueTokens false (.object (e :: ms))).length + 4) [] (by omega) (by simp)
      refine ⟨root, hroot, ?_⟩
      rw [List.append_nil] at hread
      rw [document]
      simp only [htokens] at hread ⊢
      rw [hread]
      rfl

end

end Parser

end ApiWorkbench.Yaml
