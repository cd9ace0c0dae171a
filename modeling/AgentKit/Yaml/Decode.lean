import AgentKit.Yaml.Resolve
/-!
# The value of a document

Aliases are replaced by the nodes they point to, and the entries of a map under the key `<<` are
added to the map around it unless that has the key already.  Parts that do not fit are collected, so
that one message names them all.
-/

namespace AgentKit.Yaml

/-- What has been decoded so far. -/
structure Progress where
  /-- The number of nodes. -/
  decoded : Nat := 0
  /-- Those of them that were reached through an alias. -/
  aliased : Nat := 0
  /-- What does not fit. -/
  mismatches : List Bytes := []

/-- A step of decoding. -/
abbrev Decoding := StateT Progress (Except Refusal)

namespace Decoding

/-- Too many of the nodes come from aliases.  The share allowed falls from 99 to 10 in a hundred as
the number of nodes grows from 400,000 to 4,000,000. -/
def excessive (p : Progress) : Bool :=
  let low := 400000
  let high := 4000000
  let hundredths :=
    if p.decoded ≤ low then 99 * (high - low)
    else if p.decoded ≥ high then 10 * (high - low)
    else 99 * (high - low) - 89 * (p.decoded - low)
  p.aliased > 100 && p.decoded > 1000 &&
    p.aliased * 100 * (high - low) > p.decoded * hundredths

def count (viaAlias : Bool) : Decoding Unit := do
  modify fun p =>
    { p with decoded := p.decoded + 1, aliased := if viaAlias then p.aliased + 1 else p.aliased }
  if excessive (← get) then throw .excessiveAliasing

/-- Notes something that does not fit. -/
def mismatch (reason : Bytes) : Decoding Unit :=
  modify fun p => { p with mismatches := p.mismatches ++ [reason] }

/-- Notes that a node does not fit where `wanted` is expected. -/
def cannotUnmarshal (n : Node) (wanted : Bytes) : Decoding Unit :=
  let tag := n.effectiveTag
  let value :=
    if tag = "!!seq" ∨ tag = "!!map" then n.text
    else if n.text.length > 10 then " `" ++ n.text.take 7 ++ "...`"
    else " `" ++ n.text ++ "`"
  mismatch ("line " ++ Bytes.ofNat n.line ++ ": cannot unmarshal " ++ tag ++ value ++ " into " ++ wanted)

/-- Two keys are written alike. -/
def sameText : Node → Node → Bool
  | .scalar _ _ a _, .scalar _ _ b _ => a == b
  | .sequence .., .sequence .. => true
  | .mapping .., .mapping .. => true
  | .alias _ a _, .alias _ b _ => a == b
  | _, _ => false

/-- The complaints about keys that repeat one of those before them. -/
def repeatedKeys : List (Node × Node) → List Bytes
  | [] => []
  | (k, _) :: rest =>
    (rest.filter fun e => sameText k e.1).map (fun e =>
      "line " ++ Bytes.ofNat e.1.line ++ ": mapping key " ++ Quoted.text e.1.text ++
        " already defined at line " ++ Bytes.ofNat k.line) ++
      repeatedKeys rest

/-- The key asks for another map's entries. -/
def isMerge : Node → Bool
  | .scalar _ tag text style => text == ("<<" : Bytes) && scalarTag tag text style == ("!!merge" : Bytes)
  | _ => false

/-- The entries with `k` set to `v`. -/
def assign (k v : Value) : List (Value × Value) → List (Value × Value)
  | [] => [(k, v)]
  | (k', v') :: t => if Value.sameKey k k' then (k', v) :: t else (k', v') :: assign k v t

/-- The node an alias points to. -/
def target (anchored : List (Nat × Node)) (k : Nat) : Node :=
  (anchored.lookup k).getD (.scalar 0 [] [] .plain)

/-- The tag of a node, or of what it points to. -/
def tagThrough (anchored : List (Nat × Node)) (n : Node) : Bytes :=
  match n with
  | .alias _ _ k => (target anchored k).effectiveTag
  | n => n.effectiveTag

/-- All keys of a mapping are texts. -/
def hasTextKeys (anchored : List (Nat × Node)) (entries : List (Node × Node)) : Bool :=
  entries.all fun (k, _) =>
    let tag := tagThrough anchored k
    tag == ("!!str" : Bytes) || tag == ("!!merge" : Bytes)

/-- Entries and the keys that must not be merged over them. -/
structure Merged where
  entries : List (Value × Value) := []
  taken : Option (List Value) := none

mutual

/-- The value of a node; `none` if it does not fit.  `inside` holds the nodes whose aliases are
being replaced. -/
def value (anchored : List (Nat × Node)) : Nat → List Nat → Node → Decoding (Option Value)
  | 0, _, _ => return none
  | fuel + 1, inside, n => do
    count !inside.isEmpty
    match n with
    | .alias _ name k =>
      if inside.contains k then throw (.containsItself name)
      value anchored fuel (k :: inside) (target anchored k)
    | .scalar _ tag text style => return some (← scalarValue tag text style)
    | .sequence _ _ items => return some (.list (← values anchored fuel inside items))
    | .mapping _ _ entries =>
      match ← mapping anchored fuel inside (hasTextKeys anchored entries) {} entries with
      | some m => return some (.map (m.entries.map fun (k, v) => (k.keyText, v)))
      | none => return none

/-- The values of those nodes that fit. -/
def values (anchored : List (Nat × Node)) : Nat → List Nat → List Node → Decoding (List Value)
  | 0, _, _ => return []
  | _ + 1, _, [] => return []
  | fuel + 1, inside, n :: rest => do
    let v ← value anchored fuel inside n
    return v.toList ++ (← values anchored fuel inside rest)

/-- A key where all keys are texts. -/
def textKey (anchored : List (Nat × Node)) : Nat → List Nat → Node → Decoding (Option Value)
  | 0, _, _ => return none
  | fuel + 1, inside, n => do
    count !inside.isEmpty
    match n with
    | .alias _ name k =>
      if inside.contains k then throw (.containsItself name)
      textKey anchored fuel (k :: inside) (target anchored k)
    | .scalar _ tag text style =>
      match ← scalarValue tag text style with
      | .null => return none
      | .text t => return some (.text t)
      | _ => return some (.text text)
    | .sequence .. =>
      cannotUnmarshal n "string"
      return none
    | .mapping _ _ entries =>
      match repeatedKeys entries with
      | [] => cannotUnmarshal n "string"
      | reasons => reasons.forM mismatch
      return none

/-- Adds the entries of a mapping to `m`; `none` if keys repeat. -/
def mapping (anchored : List (Nat × Node)) : Nat → List Nat → Bool → Merged → List (Node × Node) →
    Decoding (Option Merged)
  | 0, _, _, _, _ => return none
  | fuel + 1, inside, textKeys, m, entries => do
    match repeatedKeys entries with
    | [] =>
      let m ← assignAll anchored fuel inside textKeys m entries
      match (entries.filter fun (k, _) => isMerge k).getLast? with
      | none => return some m
      | some (_, source) =>
        let merged ←
          match m.taken with
          | some taken => mergeFrom anchored fuel inside textKeys { m with taken := some taken } source
          | none => do
            let own ← values anchored fuel inside (entries.map (·.1))
            mergeFrom anchored fuel inside textKeys { m with taken := some own } source
        return some { merged with taken := m.taken.bind fun _ => merged.taken }
    | reasons =>
      reasons.forM mismatch
      return none

/-- Assigns the entries one after the other. -/
def assignAll (anchored : List (Nat × Node)) : Nat → List Nat → Bool → Merged → List (Node × Node) →
    Decoding Merged
  | 0, _, _, m, _ => return m
  | _ + 1, _, _, m, [] => return m
  | fuel + 1, inside, textKeys, m, (k, v) :: rest => do
    if isMerge k then assignAll anchored fuel inside textKeys m rest
    else
      let key ← if textKeys then textKey anchored fuel inside k else value anchored fuel inside k
      match key with
      | none => assignAll anchored fuel inside textKeys m rest
      | some key =>
        if m.taken.any (·.any (Value.sameKey key)) then assignAll anchored fuel inside textKeys m rest
        else
          if key.isCollection then throw (.invalidMapKey key.literal)
          let m := { m with taken := m.taken.map (· ++ [key]) }
          match ← value anchored fuel inside v with
          | some v =>
            assignAll anchored fuel inside textKeys { m with entries := assign key v m.entries } rest
          | none => assignAll anchored fuel inside textKeys m rest

/-- Adds the entries of the map, or of the maps in the list, that a node stands for. -/
def mergeFrom (anchored : List (Nat × Node)) : Nat → List Nat → Bool → Merged → Node →
    Decoding Merged
  | 0, _, _, m, _ => return m
  | fuel + 1, inside, textKeys, m, n => do
    match n with
    | .mapping .. | .alias .. => mergeOne anchored fuel inside textKeys m n
    | .sequence _ _ items => mergeEach anchored fuel inside textKeys m items
    | .scalar .. => throw .badMerge

/-- Adds the entries of each map. -/
def mergeEach (anchored : List (Nat × Node)) : Nat → List Nat → Bool → Merged → List Node →
    Decoding Merged
  | 0, _, _, m, _ => return m
  | _ + 1, _, _, m, [] => return m
  | fuel + 1, inside, textKeys, m, n :: rest => do
    mergeEach anchored fuel inside textKeys (← mergeOne anchored fuel inside textKeys m n) rest

/-- Adds the entries of a map or of one that an alias points to. -/
def mergeOne (anchored : List (Nat × Node)) : Nat → List Nat → Bool → Merged → Node →
    Decoding Merged
  | 0, _, _, m, _ => return m
  | fuel + 1, inside, textKeys, m, n => do
    match n with
    | .mapping _ _ entries =>
      count !inside.isEmpty
      return (← mapping anchored fuel inside textKeys m entries).getD m
    | .alias _ name k =>
      match target anchored k with
      | .mapping _ _ entries =>
        count !inside.isEmpty
        if inside.contains k then throw (.containsItself name)
        count true
        return (← mapping anchored fuel (k :: inside) textKeys m entries).getD m
      | _ => throw .badMerge
    | _ => throw .badMerge

end

/-- The entries of a document's root, which has to be a map or nothing. -/
def rootMap (fuel : Nat) (d : Document) : Decoding (List (Bytes × Value)) := do
  count false
  count false
  match d.root with
  | .mapping _ _ entries =>
    let m ← mapping d.anchored fuel [] true {} entries
    return (m.getD {}).entries.map fun (k, v) => (k.keyText, v)
  | .scalar _ tag text style =>
    match ← scalarValue tag text style with
    | .null => return []
    | _ =>
      cannotUnmarshal d.root "map[string]interface \x7b\x7d"
      return []
  | _ =>
    cannotUnmarshal d.root "map[string]interface \x7b\x7d"
    return []

end Decoding

mutual

/-- The number of nodes in a tree. -/
def Node.size : Node → Nat
  | .scalar .. | .alias .. => 1
  | .sequence _ _ items => 1 + sizes items
  | .mapping _ _ entries => 1 + entrySizes entries

def Node.sizes : List Node → Nat
  | [] => 0
  | n :: t => n.size + sizes t

/-- The number of nodes in keys and values. -/
def Node.entrySizes : List (Node × Node) → Nat
  | [] => 0
  | (k, v) :: t => k.size + v.size + entrySizes t

end

/-- The map that a text stands for. -/
def readMap (t : Bytes) : Except Refusal (List (Bytes × Value)) := do
  match ← Document.ofBytes t with
  | none => return []
  | some d =>
    let fuel := 4 * (d.root.size + 8) * (d.root.size + 8)
    let (entries, p) ← (Decoding.rootMap fuel d).run {}
    if p.mismatches.isEmpty then return entries else throw (.mismatches p.mismatches)

end AgentKit.Yaml
