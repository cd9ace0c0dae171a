import AgentKit.Patch.Search
/-!
# Edits

An edit replaces the characters from `start` up to `stop` of a text by others.  The edits between
two texts are read off an alignment: they are the gaps between its blocks.  Since a patch speaks of
whole lines, edits are then widened to line ends; edits with no newline between them become one.
-/

namespace AgentKit.Patch

/-- Replaces the characters from `start` up to `stop`. -/
structure Edit where
  start : Nat
  stop : Nat
  text : List Char
  deriving DecidableEq, Repr

/-- The characters of `t` from `i` up to `j`. -/
def slice (t : List Char) (i j : Nat) : List Char := (t.take j).drop i

/-- The gaps between the blocks of an alignment, from the offsets `i` and `j` on. -/
def gaps (old new : List Char) : Nat → Nat → List Block → List Edit
  | i, j, [] =>
    if i < old.length ∨ j < new.length then [⟨i, old.length, slice new j new.length⟩] else []
  | i, j, d :: ds =>
    let x := d.x.toNat
    let y := d.y.toNat
    let rest := gaps old new (x + d.len.toNat) (y + d.len.toNat) ds
    if i < x ∨ j < y then ⟨i, x, slice new j y⟩ :: rest else rest

/-- The edits that turn one text into another, character by character. -/
def edits (old new : List Char) : List Edit :=
  if old = new then [] else gaps old new 0 0 (align old.toArray new.toArray)

/-! ## 1. Whole lines -/

/-- The character before offset `i` ends a line, or there is none. -/
def atLineStart (t : List Char) (i : Nat) : Bool := i = 0 || t[i - 1]? = some '\n'

/-- A replacement that leaves no part of a line behind. -/
def endsLine (text : List Char) : Bool := text.isEmpty || text.getLast? = some '\n'

/-- The edit replaces whole lines as it is. -/
def Edit.isAligned (old : List Char) (e : Edit) : Bool :=
  e.start < old.length && atLineStart old e.start && atLineStart old e.stop && endsLine e.text

/-- The part of the line of `i` that stands before it. -/
def lineBefore (t : List Char) (i : Nat) : List Char :=
  ((t.take i).reverse.takeWhile (· ≠ '\n')).reverse

/-- The rest of the line from `i` on, with its newline. -/
def lineBehind (t : List Char) (i : Nat) : List Char :=
  let rest := t.drop i
  rest.takeWhile (· ≠ '\n') ++ (rest.dropWhile (· ≠ '\n')).take 1

/-- The edit widened to whole lines. -/
def Edit.widen (old : List Char) (e : Edit) : Edit :=
  let before := lineBefore old e.start
  let text := before ++ e.text
  let behind := if atLineStart old e.stop && endsLine text then [] else lineBehind old e.stop
  ⟨e.start - before.length, e.stop + behind.length, text ++ behind⟩

/-- Joins edits that have no newline between them and widens the results; `e` is the edit being
joined. -/
def widenAll (old : List Char) (e : Edit) : List Edit → List Edit
  | [] => [e.widen old]
  | f :: rest =>
    let between := slice old e.stop f.start
    if between.contains '\n' then e.widen old :: widenAll old f rest
    else widenAll old ⟨e.start, f.stop, e.text ++ between ++ f.text⟩ rest

/-- The edits as replacements of whole lines. -/
def lineEdits (old : List Char) : List Edit → List Edit
  | [] => []
  | e :: rest =>
    if (e :: rest).all (Edit.isAligned old) then e :: rest else widenAll old e rest

end AgentKit.Patch
