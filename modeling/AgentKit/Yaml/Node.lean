import AgentKit.Yaml.Token.Stream
/-!
# Nodes

The tree that the tokens of the first document spell.  An alias stands for the node that carried
its anchor last; nodes with an anchor are numbered in the order in which they start, so that an
alias may also point to a node around it.
-/

namespace AgentKit.Yaml

/-- A node of a document, with the number of the line it starts on. -/
inductive Node where
  | scalar (line : Nat) (tag : Bytes) (text : Bytes) (style : Style)
  | sequence (line : Nat) (tag : Bytes) (items : List Node)
  | mapping (line : Nat) (tag : Bytes) (entries : List (Node × Node))
  | alias (line : Nat) (name : Bytes) (target : Nat)
  deriving Repr, Inhabited

/-- The line a node starts on. -/
def Node.line : Node → Nat
  | .scalar n .. | .sequence n .. | .mapping n .. | .alias n .. => n

/-- Why a text has no value. -/
inductive Refusal where
  /-- The text is not well-formed. -/
  | fault (f : Fault)
  | unknownAnchor (name : Bytes)
  | containsItself (name : Bytes)
  | excessiveAliasing
  | invalidMapKey (shown : Bytes)
  | undecodable (tag text wanted : Bytes)
  | invalidBase64
  | badMerge
  /-- Parts of the text do not fit where they stand. -/
  | mismatches (reasons : List Bytes)
  deriving DecidableEq, Repr

def Refusal.message : Refusal → Bytes
  | .fault f => "yaml: " ++ f.message
  | .unknownAnchor name => "yaml: unknown anchor '" ++ name ++ "' referenced"
  | .containsItself name => "yaml: anchor '" ++ name ++ "' value contains itself"
  | .excessiveAliasing => "yaml: document contains excessive aliasing"
  | .invalidMapKey shown => "yaml: invalid map key: " ++ shown
  | .undecodable tag text wanted =>
    "yaml: cannot decode " ++ tag ++ " `" ++ text ++ "` as a " ++ wanted
  | .invalidBase64 => "yaml: !!binary value contains invalid base64 data"
  | .badMerge => "yaml: map merge requires map or sequence of maps as the value"
  | .mismatches reasons =>
    "yaml: unmarshal errors:\n  " ++ Bytes.joinWith "\n  " reasons

/-- The root of a document and its nodes with an anchor, by number. -/
structure Document where
  root : Node
  anchored : List (Nat × Node)

/-! ## 1. Reading tokens -/

/-- The tokens still to be read, and what the ones before them have declared. -/
structure NodeReader where
  rest : List Token
  /-- What follows the tokens. -/
  fault : Option Fault
  /-- What the handles of tags stand for. -/
  handles : List (Bytes × Bytes) := []
  /-- The number of the node that carried each anchor last. -/
  anchors : List (Bytes × Nat) := []
  /-- The number of anchors so far. -/
  count : Nat := 0
  /-- Finished nodes with an anchor. -/
  anchored : List (Nat × Node) := []

/-- A step of reading nodes. -/
abbrev Reading := StateT NodeReader (Except Refusal)

namespace Reading

/-- The next token. -/
def peek : Reading Token := do
  match (← get).rest with
  | t :: _ => return t
  | [] => throw (.fault ((← get).fault.getD (.parsing .noNodeContent {} {})))

def skip : Reading Unit := modify fun s => { s with rest := s.rest.drop 1 }

/-- Fails at `stop`, inside what starts at `start`. -/
def fail {α : Type} (p : Problem) (start stop : Mark) : Reading α :=
  throw (.fault (.parsing p start stop))

/-- An empty scalar on the line of a place. -/
def nothing (place : Mark) : Node := .scalar (place.line + 1) [] [] .plain

/-! ## 2. Directives -/

/-- Adds a handle. -/
def declare (handle start : Bytes) : Reading Unit :=
  modify fun s => { s with handles := s.handles ++ [(handle, start)] }

/-- The handles that are always known. -/
def standardHandles : List (Bytes × Bytes) := [("!", "!"), ("!!", "tag:yaml.org,2002:")]

/-- Reads the directives of a document. -/
def directives : Nat → Bool → Reading Unit
  | 0, _ => return ()
  | fuel + 1, versionSeen => do
    let t ← peek
    match t.kind with
    | .versionDirective major minor =>
      if versionSeen then fail .duplicateVersion {} t.start
      if major ≠ 1 ∨ minor ≠ 1 then fail .incompatibleVersion {} t.start
      skip
      directives fuel true
    | .tagDirective handle start =>
      if ((← get).handles.lookup handle).isSome then fail .duplicateTagDirective {} t.start
      declare handle start
      skip
      directives fuel versionSeen
    | _ =>
      for (handle, start) in standardHandles do
        if ((← get).handles.lookup handle).isNone then declare handle start

/-! ## 3. Properties of nodes -/

/-- The tag that a handle and a suffix spell.  A handle has to be declared, and the two together have
to spell something. -/
def fullTag (start place : Mark) (handle suffix : Bytes) : Reading Bytes := do
  if handle.isEmpty then return suffix
  match (← get).handles.lookup handle with
  | some stem =>
    if (stem ++ suffix).isEmpty then fail .undefinedTagHandle start place else return stem ++ suffix
  | none => fail .undefinedTagHandle start place

/-- The tag and the anchor in front of a node, in either order. -/
def properties (start : Mark) : Reading (Bytes × Option Bytes) := do
  let first ← peek
  match first.kind with
  | .anchor name =>
    skip
    let second ← peek
    match second.kind with
    | .tag handle suffix =>
      skip
      let _ ← peek
      return (← fullTag start second.start handle suffix, some (Utf8.encodeAll name))
    | _ => return ([], some (Utf8.encodeAll name))
  | .tag handle suffix =>
    skip
    let second ← peek
    match second.kind with
    | .anchor name =>
      skip
      let _ ← peek
      return (← fullTag start first.start handle suffix, some (Utf8.encodeAll name))
    | _ => return (← fullTag start first.start handle suffix, none)
  | _ => return ([], none)

/-- Gives an anchor the next number. -/
def register : Option Bytes → Reading (Option Nat)
  | none => return none
  | some name => do
    let n := (← get).count
    modify fun s => { s with anchors := (name, n) :: s.anchors, count := n + 1 }
    return some n

/-- Notes a finished node under its number. -/
def finish (number : Option Nat) (n : Node) : Reading Node := do
  match number with
  | some k => modify fun s => { s with anchored := (k, n) :: s.anchored }
  | none => pure ()
  return n

/-! ## 4. Nodes -/

mutual

/-- Reads a node.  Block collections are read only where `block` holds, and a sequence that is not
indented only where `indentless` holds. -/
def node : Nat → Bool → Bool → Reading Node
  | 0, _, _ => fail .noNodeContent {} {}
  | fuel + 1, block, indentless => do
    let t ← peek
    match t.kind with
    | .alias name =>
      let name := Utf8.encodeAll name
      match (← get).anchors.lookup name with
      | none => throw (.unknownAnchor name)
      | some k =>
        skip
        return .alias (t.start.line + 1) name k
    | _ =>
      let start := t.start
      let line := start.line + 1
      let (tag, anchor) ← properties start
      let t ← peek
      match t.kind, block, indentless with
      | .blockEntry, _, true =>
        let number ← register anchor
        finish number (.sequence line tag (← indentlessItems fuel))
      | .scalar text style, _, _ =>
        let number ← register anchor
        skip
        finish number (.scalar line tag (Utf8.encodeAll text) style)
      | .flowSequenceStart, _, _ =>
        let number ← register anchor
        skip
        finish number (.sequence line tag (← flowItems fuel t.start true))
      | .flowMappingStart, _, _ =>
        let number ← register anchor
        skip
        finish number (.mapping line tag (← flowEntries fuel t.start true))
      | .blockSequenceStart, true, _ =>
        let number ← register anchor
        skip
        finish number (.sequence line tag (← blockItems fuel t.start))
      | .blockMappingStart, true, _ =>
        let number ← register anchor
        skip
        finish number (.mapping line tag (← blockEntries fuel t.start))
      | _, _, _ =>
        if anchor.isSome || !tag.isEmpty then
          let number ← register anchor
          finish number (.scalar line tag [] .plain)
        else fail .noNodeContent start t.start

/-- Reads the items of a block sequence up to its end. -/
def blockItems : Nat → Mark → Reading (List Node)
  | 0, start => fail .noBlockEntry start start
  | fuel + 1, start => do
    let t ← peek
    match t.kind with
    | .blockEntry =>
      skip
      let item ←
        match (← peek).kind with
        | .blockEntry | .blockEnd => pure (nothing t.start)
        | _ => node fuel true false
      return item :: (← blockItems fuel start)
    | .blockEnd =>
      skip
      return []
    | _ => fail .noBlockEntry start t.start

/-- Reads the items of a sequence at the column of the mapping around it. -/
def indentlessItems : Nat → Reading (List Node)
  | 0 => return []
  | fuel + 1 => do
    let t ← peek
    match t.kind with
    | .blockEntry =>
      skip
      let item ←
        match (← peek).kind with
        | .blockEntry | .key | .value | .blockEnd => pure (nothing t.start)
        | _ => node fuel true false
      return item :: (← indentlessItems fuel)
    | _ => return []

/-- Reads the entries of a block mapping up to its end. -/
def blockEntries : Nat → Mark → Reading (List (Node × Node))
  | 0, start => fail .noKey start start
  | fuel + 1, start => do
    let t ← peek
    match t.kind with
    | .key =>
      skip
      let k ← blockPart fuel t.start
      let v ← blockValue fuel
      return (k, v) :: (← blockEntries fuel start)
    | .blockEnd =>
      skip
      return []
    | _ => fail .noKey start t.start

/-- Reads a key or a value of a block mapping behind its sign. -/
def blockPart : Nat → Mark → Reading Node
  | 0, sign => fail .noNodeContent sign sign
  | fuel + 1, sign => do
    match (← peek).kind with
    | .key | .value | .blockEnd => return nothing sign
    | _ => node fuel true true

/-- Reads the value of a block mapping's entry. -/
def blockValue : Nat → Reading Node
  | 0 => fail .noNodeContent {} {}
  | fuel + 1 => do
    let t ← peek
    match t.kind with
    | .value =>
      skip
      blockPart fuel t.start
    | _ => return nothing t.start

/-- Reads the items of a flow sequence up to its end. -/
def flowItems : Nat → Mark → Bool → Reading (List Node)
  | 0, start, _ => fail .flowSequenceEnd start start
  | fuel + 1, start, first => do
    let t ← peek
    match t.kind, first with
    | .flowSequenceEnd, _ =>
      skip
      return []
    | .flowEntry, false =>
      skip
      flowItem fuel start
    | _, false => fail .flowSequenceEnd start t.start
    | _, true => flowItem fuel start

/-- Reads one item of a flow sequence and all behind it. -/
def flowItem : Nat → Mark → Reading (List Node)
  | 0, start => fail .flowSequenceEnd start start
  | fuel + 1, start => do
    let t ← peek
    match t.kind with
    | .flowSequenceEnd =>
      skip
      return []
    | .key =>
      skip
      let pair ← flowPair fuel
      return .mapping (t.start.line + 1) [] [pair] :: (← flowItems fuel start false)
    | _ =>
      let item ← node fuel false false
      return item :: (← flowItems fuel start false)

/-- Reads the single entry of a mapping that stands in a flow sequence without braces. -/
def flowPair : Nat → Reading (Node × Node)
  | 0 => fail .noNodeContent {} {}
  | fuel + 1 => do
    let t ← peek
    let k ←
      match t.kind with
      | .value | .flowEntry | .flowSequenceEnd =>
        skip
        pure (nothing t.start)
      | _ => node fuel false false
    let t ← peek
    match t.kind with
    | .value =>
      skip
      match (← peek).kind with
      | .flowEntry | .flowSequenceEnd => return (k, nothing t.start)
      | _ =>
        let v ← node fuel false false
        let _ ← peek
        return (k, v)
    | _ => return (k, nothing t.start)

/-- Reads the entries of a flow mapping up to its end. -/
def flowEntries : Nat → Mark → Bool → Reading (List (Node × Node))
  | 0, start, _ => fail .flowMappingEnd start start
  | fuel + 1, start, first => do
    let t ← peek
    match t.kind, first with
    | .flowMappingEnd, _ =>
      skip
      return []
    | .flowEntry, false =>
      skip
      flowEntry fuel start
    | _, false => fail .flowMappingEnd start t.start
    | _, true => flowEntry fuel start

/-- Reads one entry of a flow mapping and all behind it. -/
def flowEntry : Nat → Mark → Reading (List (Node × Node))
  | 0, start => fail .flowMappingEnd start start
  | fuel + 1, start => do
    let t ← peek
    match t.kind with
    | .flowMappingEnd =>
      skip
      return []
    | .key =>
      skip
      let t ← peek
      let k ←
        match t.kind with
        | .value | .flowEntry | .flowMappingEnd => pure (nothing t.start)
        | _ => node fuel false false
      let v ← flowValue fuel
      return (k, v) :: (← flowEntries fuel start false)
    | _ =>
      let k ← node fuel false false
      let after ← peek
      return (k, nothing after.start) :: (← flowEntries fuel start false)

def flowValue : Nat → Reading Node
  | 0 => fail .noNodeContent {} {}
  | fuel + 1 => do
    let t ← peek
    match t.kind with
    | .value =>
      skip
      let t ← peek
      match t.kind with
      | .flowEntry | .flowMappingEnd => return nothing t.start
      | _ => node fuel false false
    | _ => return nothing t.start

end

/-! ## 5. Documents -/

/-- Reads the first document; `none` if there is none. -/
def document (fuel : Nat) : Reading (Option Node) := do
  let t ← peek
  match t.kind with
  | .streamEnd => return none
  | .versionDirective .. | .tagDirective .. | .documentStart =>
    directives fuel false
    let t ← peek
    if t.kind ≠ .documentStart then fail .noDocumentStart {} t.start
    skip
    let t ← peek
    let root ←
      match t.kind with
      | .versionDirective .. | .tagDirective .. | .documentStart | .documentEnd | .streamEnd =>
        pure (nothing t.start)
      | _ => node fuel true false
    let _ ← peek
    return some root
  | _ =>
    directives fuel false
    let root ← node fuel true false
    let _ ← peek
    return some root

end Reading

/-- The first document of a text; `none` if the text has none. -/
def Document.ofBytes (t : Bytes) : Except Refusal (Option Document) := do
  let (ts, fault) := tokens (Input.ofBytes t)
  let (root, s) ← (Reading.document (3 * ts.length + 8)).run { rest := ts, fault }
  return root.map fun n => ⟨n, s.anchored⟩

end AgentKit.Yaml
