import AgentKit.Patch.Edit
import AgentKit.Text.Utf8
/-!
# Unified patches

A patch shows the edits between two texts as hunks: runs of lines that are removed, added or kept
for context, under a head that gives their line numbers on both sides.  Hunks are joined when few
lines lie between them.
-/

namespace AgentKit.Patch

/-- A line of a hunk, with its newline if it has one. -/
inductive Line where
  | keep (text : List Char)
  | remove (text : List Char)
  | add (text : List Char)
  deriving DecidableEq, Repr

/-- Lines under one head; the numbers are those of the first line on each side. -/
structure Hunk where
  fromLine : Int
  toLine : Int
  lines : List Line
  deriving DecidableEq, Repr

/-- The number of unchanged lines shown around an edit. -/
def context : Nat := 3

/-- The lines of a text, each with its newline; the last one may lack it. -/
def splitLines : List Char → List (List Char)
  | [] => []
  | c :: t =>
    if c = '\n' then [c] :: splitLines t
    else
      match splitLines t with
      | [] => [[c]]
      | l :: ls => (c :: l) :: ls

/-- The lines from number `i` up to `j`, both counted from 0, as context. -/
def kept (lines : Array (List Char)) (i j : Nat) : List Line :=
  ((lines.extract i j).map Line.keep).toList

/-! ## 1. Hunks -/

/-- The hunks so far: the finished ones, the open one, and how many lines of each side are
behind. -/
structure Layout where
  done : List Hunk := []
  current : Option Hunk := none
  last : Nat := 0
  toLine : Int := 0

/-- The number of the line at offset `i`. -/
def lineNumber (old : List Char) (i : Nat) : Nat := (old.take i).count '\n'

/-- The number of the line behind an edit's end.  A last line without newline counts as ended. -/
def lineNumberBehind (old : List Char) (stop : Nat) : Nat :=
  lineNumber old stop +
    if stop = old.length ∧ old ≠ [] ∧ old.getLast? ≠ some '\n' then 1 else 0

/-- The finished hunks and the open one with its context. -/
def Layout.close (lines : Array (List Char)) (s : Layout) : List Hunk :=
  match s.current with
  | none => s.done
  | some h => s.done ++ [{ h with lines := h.lines ++ kept lines s.last (s.last + context) }]

/-- The hunk into which an edit at line `start` goes, and the layout for it. -/
def Layout.openAt (lines : Array (List Char)) (s : Layout) (start : Nat) : Hunk × Layout :=
  match s.current with
  | some h =>
    if start = s.last then (h, s)
    else if start ≤ s.last + 2 * context then
      ({ h with lines := h.lines ++ kept lines s.last start }, s)
    else fresh s
  | none => fresh s
where
  fresh (s : Layout) : Hunk × Layout :=
    let toLine := s.toLine + (start - s.last)
    let front := kept lines (start - context) start
    (⟨start + 1 - front.length, toLine + 1 - front.length, front⟩,
      { s with done := s.close lines, toLine := toLine })

/-- Adds an edit of whole lines. -/
def Layout.add (old : List Char) (lines : Array (List Char)) (s : Layout) (e : Edit) : Layout :=
  let start := lineNumber old e.start
  let stop := lineNumberBehind old e.stop
  let (h, s) := s.openAt lines start
  let removed := ((lines.extract start stop).map Line.remove).toList
  let added := (splitLines e.text).map Line.add
  { s with
    current := some { h with lines := h.lines ++ removed ++ added }
    last := start + removed.length
    toLine := s.toLine + added.length }

/-- The hunks for edits of whole lines. -/
def hunks (old : List Char) (es : List Edit) : List Hunk :=
  let lines := (splitLines old).toArray
  (es.foldl (Layout.add old lines) {}).close lines

/-! ## 2. Text -/

/-- The number of lines a hunk has in the old text. -/
def Hunk.fromCount (h : Hunk) : Nat :=
  h.lines.countP fun
    | .add _ => false
    | _ => true

def Hunk.toCount (h : Hunk) : Nat :=
  h.lines.countP fun
    | .remove _ => false
    | _ => true

/-- A range of lines: a single line has no count, and no line at the top is line 0. -/
def range (first : Int) (count : Nat) : Bytes :=
  if count > 1 then Bytes.ofInt first ++ "," ++ Bytes.ofNat count
  else if first = 1 ∧ count = 0 then "0,0"
  else Bytes.ofInt first

/-- A line behind its sign. -/
def signed (sign : Char) (text : List Char) : Bytes :=
  byte sign :: Utf8.encodeAll text ++
    (if text.getLast? = some '\n' then [] else Bytes.ofString "\n\\ No newline at end of file\n")

/-- A line of a hunk as text. -/
def Line.render : Line → Bytes
  | .keep t => signed ' ' t
  | .remove t => signed '-' t
  | .add t => signed '+' t

def Hunk.render (h : Hunk) : Bytes :=
  "@@ -" ++ range h.fromLine h.fromCount ++ " +" ++ range h.toLine h.toCount ++ " @@\n" ++
    h.lines.flatMap Line.render

/-- Hunks under the names of the two sides; nothing if there are none. -/
def render (oldName newName : Bytes) : List Hunk → Bytes
  | [] => []
  | hs => "--- " ++ oldName ++ "\n+++ " ++ newName ++ "\n" ++ hs.flatMap Hunk.render

/-- The patch from `old` to `new`. -/
def unified (oldName newName old new : Bytes) : Bytes :=
  let a := Utf8.chars old
  let b := Utf8.chars new
  render oldName newName (hunks a (lineEdits a (edits a b)))

end AgentKit.Patch
