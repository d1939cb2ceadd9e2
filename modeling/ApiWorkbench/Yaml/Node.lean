import ApiWorkbench.Yaml.Lexer
import ApiWorkbench.Yaml.Resolution

/-!
# Nodes of a YAML document

The tokens of a text are put together to a tree of scalars, sequences and mappings, each
with its type. An alias stands for the node that its anchor names, which has to come
before it. A text holds one document at most.

An alias may stand inside the node that it names. It is kept as a `loop` then: there the
value goes round. Only where the node would be taken apart at that place are its parts
needed, as far as they do not lead to the same place.

Nodes have numbers, so that one node in several places can be told from several nodes.
The number of a node is that of the tokens left where it begins.
-/

namespace ApiWorkbench.Yaml

/-- A node. -/
inductive Node where
  | scalar (number : Nat) (tag : Tag) (text : List Char)
  /-- a scalar of text that is torn -/
  | torn (number : Nat) (text : Text.Torn)
  | sequence (number : Nat) (tag : Tag) (items : List Node)
  | mapping (number : Nat) (tag : Tag) (entries : List (Node × Node))
  /-- an alias for a collection, inside that collection -/
  | loop (number : Nat) (tag : Tag)
deriving Repr

namespace Node

/-- The type of a node. -/
def tag : Node → Tag
  | .scalar _ tag _ => tag
  | .torn _ _ => .str
  | .sequence _ tag _ => tag
  | .mapping _ tag _ => tag
  | .loop _ tag => tag

/-- The number of a node. -/
def number : Node → Nat
  | .scalar number _ _ => number
  | .torn number _ => number
  | .sequence number _ _ => number
  | .mapping number _ _ => number
  | .loop number _ => number

/-- A scalar of no characters. -/
def absent : Node := .scalar 0 .null []

/-- A scalar of a torn text, which may have been given another type than that of
texts. -/
def ofTorn (number : Nat) (tag : Tag) (text : Text.Torn) : Node :=
  if tag = .str then .torn number text else .scalar number tag text.shown.toList

mutual

/-- Whether a node holds an alias for the collection with a number that is taken apart
where it stands, or is one. What holds the node takes it apart if `apart` is set. -/
def borrows (number : Nat) (apart : Bool) : Node → Bool
  | .loop target tag => target == number && (apart || !tag.isCollection)
  | .sequence _ tag items => itemsBorrow number (apart || tag.isOfPairs) items
  | .mapping _ _ entries => entriesBorrow number entries
  | _ => false

/-- Whether items hold such an alias. -/
def itemsBorrow (number : Nat) (apart : Bool) : List Node → Bool
  | [] => false
  | item :: rest => borrows number apart item || itemsBorrow number apart rest

/-- Whether entries hold such an alias. -/
def entriesBorrow (number : Nat) : List (Node × Node) → Bool
  | [] => false
  | (key, value) :: rest =>
    borrows number false key || borrows number key.tag.takesApart value ||
      entriesBorrow number rest

end

mutual

/-- A node with another one in place of these aliases. -/
def lend (number : Nat) (source : Node) (apart : Bool) : Node → Node
  | .loop target tag =>
    if target == number && (apart || !tag.isCollection) then source
    else .loop target tag
  | .sequence own tag items =>
      .sequence own tag (lendItems number source (apart || tag.isOfPairs) items)
  | .mapping own tag entries => .mapping own tag (lendEntries number source entries)
  | node => node

/-- Items with a node in place of these aliases. -/
def lendItems (number : Nat) (source : Node) (apart : Bool) : List Node → List Node
  | [] => []
  | item :: rest => lend number source apart item :: lendItems number source apart rest

/-- Entries with a node in place of these aliases. -/
def lendEntries (number : Nat) (source : Node) : List (Node × Node) → List (Node × Node)
  | [] => []
  | (key, value) :: rest =>
    (lend number source false key, lend number source key.tag.takesApart value) ::
      lendEntries number source rest

end

/-- A node, or an alias for it if it holds aliases for a collection around it that
are taken apart. -/
def unlessBorrowing (number : Nat) (apart : Bool) (node : Node) : Node :=
  if node.borrows number apart then .loop node.number node.tag else node

/-- The entries that are lent to such aliases. What is merged into a mapping does not
come back to it, and of the part that holds the alias only an alias is lent. -/
def lendableEntries (number : Nat) (entries : List (Node × Node)) :
    List (Node × Node) :=
  (entries.filter fun entry =>
    !(entry.1.tag == .merge && entry.2.borrows number true)).map fun entry =>
    (entry.1.unlessBorrowing number false,
      entry.2.unlessBorrowing number entry.1.tag.takesApart)

/-- What a collection lends to the aliases in it that are taken apart. -/
def lendable : Node → Node
  | .mapping number tag entries => .mapping number tag (lendableEntries number entries)
  | .sequence number tag items => .sequence number tag <| items.map fun
    | .mapping own tag entries => .mapping own tag (lendableEntries number entries)
    | item => item
  | node => node

/-- A node that is finished, with its parts lent to the aliases in it. -/
def closed (node : Node) : Node :=
  lend node.number node.lendable false node

end Node

/-- What is left of the tokens, and the anchors met so far; that of a node that is not
finished stands for a loop. -/
structure Parser where
  rest : List Token
  anchors : List (List Char × Node)

namespace Parser

/-- The parser after a number of tokens. -/
def skip (count : Nat) (p : Parser) : Parser :=
  { p with rest := p.rest.drop count }

/-- A token stands where it may not. -/
def unexpected {α : Type} (p : Parser) : Except Failure α :=
  match p.rest with
  | .broken failure :: _ => throw failure
  | _ => throw .malformed

/-- Makes sure that the next token can be read. -/
def readable (p : Parser) : Except Failure Unit :=
  match p.rest with
  | .broken failure :: _ => throw failure
  | _ => pure ()

/-- Gives an anchor a node. -/
def name (anchor : Option (List Char)) (node : Node) (p : Parser) : Parser :=
  match anchor with
  | some name => { p with anchors := (name, node) :: p.anchors }
  | none => p

/-- Finishes a node, which may have an anchor. -/
def finish (anchor : Option (List Char)) (node : Node) (p : Parser) : Node × Parser :=
  match anchor with
  | some _ => (node.closed, p.name anchor node.closed)
  | none => (node, p)

/-- The anchor and the tag before a node, in either order. -/
def properties (p : Parser) :
    Option (List Char) × Option (Option (List Char) × List Char) × Parser :=
  match p.rest with
  | .anchor name :: .tag handle suffix :: _ =>
      (some name, some (handle, suffix), p.skip 2)
  | .tag handle suffix :: .anchor name :: _ =>
      (some name, some (handle, suffix), p.skip 2)
  | .anchor name :: _ => (some name, none, p.skip 1)
  | .tag handle suffix :: _ => (none, some (handle, suffix), p.skip 1)
  | _ => (none, none, p)

/-- The full name of a tag, given what the handles of the document expand to. -/
def fullTag (handles : List (List Char × List Char))
    (tag : Option (List Char) × List Char) :
    Except Failure (List Char) :=
  match tag with
  | (none, suffix) => pure suffix
  | (some handle, suffix) =>
    match handles.find? (·.1 == handle) with
    | some (_, expansion) => pure (expansion ++ suffix)
    | none => throw .malformed

/-- Whether a node may be left out before the next token, given the tokens that stand
for nothing there. -/
def isAt (stops : List Token) (p : Parser) : Bool :=
  match p.rest.head? with
  | some token => stops.contains token
  | none => false

mutual

/-- A node. Blocks may start here if `block` is set, and a sequence that is indented no
deeper than the mapping around it if `indentless` is. -/
def node (handles : List (List Char × List Char)) (block indentless : Bool) :
    (fuel : Nat) → Parser → Except Failure (Node × Parser)
  | 0, p => p.unexpected
  | fuel + 1, p =>
    match p.rest with
    | .alias name :: _ =>
      match p.anchors.find? (·.1 == name) with
      | some (_, target) => pure (target, p.skip 1)
      | none => throw .malformed
    | _ => do
      let number := p.rest.length
      let (anchor, written, p) := p.properties
      if anchor.isNone || written.isNone then p.readable
      let full ← written.mapM (fullTag handles)
      p.readable
      let isFresh := match anchor with
        | some name => !p.anchors.any (·.1 == name)
        | none => true
      let explicit := full.filter (· != ['!'])
      let collection (default : Tag) : Tag := (explicit.map Tag.ofName).getD default
      let finish (result : Except Failure (Node × Parser)) :
          Except Failure (Node × Parser) := do
        let (node, p) ← result
        pure (p.finish anchor node)
      let opened (default : Tag) := p.name anchor (.loop number (collection default))
      if !isFresh then throw .malformed
      match p.rest with
      | .scalar plain text :: _ =>
        let tag := match explicit with
          | some name => Tag.ofName name
          | none => if plain || full.isSome then impliedTag text else .str
        finish (pure (.scalar number tag text, p.skip 1))
      | .torn text :: _ =>
        finish
          (pure (.ofTorn number ((explicit.map Tag.ofName).getD .str) text, p.skip 1))
      | .flowSequenceStart :: _ =>
        finish (flowSequence handles number (collection .sequence) fuel []
          ((opened .sequence).skip 1))
      | .flowMappingStart :: _ =>
        finish (flowMapping handles number (collection .mapping) fuel []
          ((opened .mapping).skip 1))
      | .blockSequenceStart :: _ =>
        if block then finish (blockSequence handles number (collection .sequence) fuel
          [] ((opened .sequence).skip 1))
        else p.unexpected
      | .blockMappingStart :: _ =>
        if block then finish (blockMapping handles number (collection .mapping) fuel []
          ((opened .mapping).skip 1))
        else p.unexpected
      | next =>
        if indentless && next.head? == some .blockEntry then
          finish (indentlessSequence handles number (collection .sequence) fuel []
            (opened .sequence))
        else if anchor.isSome || written.isSome then
          let tag := match explicit with
            | some name => Tag.ofName name
            | none => .null
          finish (pure (.scalar number tag [], p))
        else p.unexpected
termination_by structural fuel => fuel

/-- A node, or nothing if one of the tokens that may come after it is next. -/
def optionalNode (handles : List (List Char × List Char)) (block indentless : Bool)
    (stops : List Token) :
    (fuel : Nat) → Parser → Except Failure (Node × Parser)
  | 0, p => p.unexpected
  | fuel + 1, p =>
    if p.isAt stops then pure (.absent, p) else node handles block indentless fuel p
termination_by structural fuel => fuel

/-- The value after a key, or nothing if there is no colon. -/
def optionalValue (handles : List (List Char × List Char)) (block : Bool)
    (stops : List Token) :
    (fuel : Nat) → Parser → Except Failure (Node × Parser)
  | 0, p => p.unexpected
  | fuel + 1, p =>
    if p.isAt [.value] then optionalNode handles block block stops fuel (p.skip 1)
    else pure (.absent, p)
termination_by structural fuel => fuel

/-- The rest of a block sequence. -/
def blockSequence (handles : List (List Char × List Char)) (number : Nat) (tag : Tag) :
    (fuel : Nat) → (done : List Node) → Parser → Except Failure (Node × Parser)
  | 0, _, p => p.unexpected
  | fuel + 1, done, p =>
    if p.isAt [.blockEntry] then do
      let (item, p) ← optionalNode handles true false [.blockEntry, .blockEnd]
        fuel (p.skip 1)
      blockSequence handles number tag fuel (item :: done) p
    else if p.isAt [.blockEnd] then pure (.sequence number tag done.reverse, p.skip 1)
    else p.unexpected
termination_by structural fuel => fuel

/-- The rest of a sequence that is indented no deeper than the mapping around it. -/
def indentlessSequence (handles : List (List Char × List Char))
    (number : Nat) (tag : Tag) :
    (fuel : Nat) → (done : List Node) → Parser → Except Failure (Node × Parser)
  | 0, _, p => p.unexpected
  | fuel + 1, done, p =>
    if p.isAt [.blockEntry] then do
      let (item, p) ← optionalNode handles true false
        [.blockEntry, .key, .value, .blockEnd] fuel (p.skip 1)
      indentlessSequence handles number tag fuel (item :: done) p
    else pure (.sequence number tag done.reverse, p)
termination_by structural fuel => fuel

/-- The rest of a block mapping. -/
def blockMapping (handles : List (List Char × List Char)) (number : Nat) (tag : Tag) :
    (fuel : Nat) → (done : List (Node × Node)) → Parser → Except Failure (Node × Parser)
  | 0, _, p => p.unexpected
  | fuel + 1, done, p =>
    if p.isAt [.key] then do
      let stops : List Token := [.key, .value, .blockEnd]
      let (key, p) ← optionalNode handles true true stops fuel (p.skip 1)
      let (value, p) ← optionalValue handles true stops fuel p
      blockMapping handles number tag fuel ((key, value) :: done) p
    else if p.isAt [.blockEnd] then pure (.mapping number tag done.reverse, p.skip 1)
    else p.unexpected
termination_by structural fuel => fuel

/-- The rest of a sequence in brackets. An entry with a colon is a mapping of one
entry. -/
def flowSequence (handles : List (List Char × List Char)) (number : Nat) (tag : Tag) :
    (fuel : Nat) → (done : List Node) → Parser → Except Failure (Node × Parser)
  | 0, _, p => p.unexpected
  | fuel + 1, done, p =>
    if p.isAt [.flowSequenceEnd] then pure (.sequence number tag done.reverse, p.skip 1)
    else if !done.isEmpty && !p.isAt [.flowEntry] then p.unexpected
    else
      let p := if done.isEmpty then p else p.skip 1
      if p.isAt [.key] then do
        let pair := p.rest.length
        let (key, p) ← optionalNode handles false false
          [.value, .flowEntry, .flowSequenceEnd] fuel (p.skip 1)
        let (value, p) ← optionalValue handles false
          [.flowEntry, .flowSequenceEnd] fuel p
        flowSequence handles number tag fuel
          (.mapping pair .mapping [(key, value)] :: done) p
      else if p.isAt [.flowSequenceEnd] then pure (.sequence number tag done.reverse,
        p.skip 1)
      else do
        let (item, p) ← node handles false false fuel p
        flowSequence handles number tag fuel (item :: done) p
termination_by structural fuel => fuel

/-- The rest of a mapping in braces. An entry without a colon has no value. -/
def flowMapping (handles : List (List Char × List Char)) (number : Nat) (tag : Tag) :
    (fuel : Nat) → (done : List (Node × Node)) → Parser → Except Failure (Node × Parser)
  | 0, _, p => p.unexpected
  | fuel + 1, done, p =>
    if p.isAt [.flowMappingEnd] then pure (.mapping number tag done.reverse, p.skip 1)
    else if !done.isEmpty && !p.isAt [.flowEntry] then p.unexpected
    else
      let p := if done.isEmpty then p else p.skip 1
      if p.isAt [.key] then do
        let (key, p) ← optionalNode handles false false
          [.value, .flowEntry, .flowMappingEnd] fuel (p.skip 1)
        let (value, p) ← optionalValue handles false
          [.flowEntry, .flowMappingEnd] fuel p
        flowMapping handles number tag fuel ((key, value) :: done) p
      else if p.isAt [.flowMappingEnd] then pure (.mapping number tag done.reverse,
        p.skip 1)
      else do
        let (key, p) ← node handles false false fuel p
        flowMapping handles number tag fuel ((key, .absent) :: done) p
termination_by structural fuel => fuel

end

/-- What the handles of every document expand to, unless a directive says otherwise. -/
def defaultHandles : List (List Char × List Char) :=
  [(['!'], ['!']), (['!', '!'], coreNamespace.toList)]

/-- The handles that the directives at the start of a document set up, and the
place after them. -/
def directives : (fuel : Nat) → (versioned : Bool) → List (List Char × List Char) →
    Parser →
    Except Failure (List (List Char × List Char) × Parser)
  | 0, _, _, p => p.unexpected
  | fuel + 1, versioned, handles, p =>
    match p.rest with
    | .versionDirective major :: _ =>
      if versioned || major != 1 then throw .malformed
      else directives fuel true handles (p.skip 1)
    | .tagDirective handle expansion :: _ =>
      if handles.any (·.1 == handle) then throw .malformed
      else directives fuel versioned (handles ++ [(handle, expansion)]) (p.skip 1)
    | .otherDirective :: _ => directives fuel versioned handles (p.skip 1)
    | .documentStart :: _ => pure (handles ++ defaultHandles, p.skip 1)
    | _ => p.unexpected

/-- The document that starts here; none at the end of the text. -/
def document (p : Parser) : Except Failure (Option Node) := do
  let fuel := 4 * p.rest.length + 4
  let ended (p : Parser) : Except Failure Unit :=
    match p.rest.dropWhile (· == .documentEnd) with
    | [] => pure ()
    | rest => { p with rest := rest }.unexpected
  match p.rest with
  | [] => pure none
  | .versionDirective _ :: _ | .tagDirective _ _ :: _ | .otherDirective :: _
  | .documentStart :: _ => do
    let (handles, p) ← directives fuel false [] p
    let (root, p) ← match p.rest with
      | [] => pure (Node.absent, p)
      | .versionDirective _ :: _ | .tagDirective _ _ :: _ | .otherDirective ::
          _ | .documentStart :: _
      | .documentEnd :: _ => pure (Node.absent, p)
      | _ => node handles true false fuel p
    ended p
    pure (some root)
  | _ => do
    let (root, p) ← node defaultHandles true false fuel p
    ended p
    pure (some root)

end Parser

/-- The document of a text. -/
def compose (text : String) : Except Failure (Option Node) :=
  Parser.document ⟨tokens text, []⟩

end ApiWorkbench.Yaml
