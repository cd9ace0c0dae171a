import AgentKit.Yaml.Print
import AgentKit.Proofs.Characters
import AgentKit.Proofs.Base64
import AgentKit.Proofs.Yaml.Block
import Mathlib.Tactic
/-!
# How a text is written

The printer looks at the traits of a text and picks a style.  Here the traits are turned into what the readers of
scalars ask for.  All eight are gathered in one pass, and each is that some character, seen with the one before it
and those behind it, is of a certain kind; `traitsFrom_eq` says so for all at once, and what a style needs is then
read off (`traits_plain`, `traits_single`, `traits_special`).

Bytes are compared with characters here and nowhere else: `Form` and `Written` say in characters what is written,
and `scalar_written` that the printer's bytes spell it.

One style can go wrong.  A block says where its lines start by the spaces before the first of them, which does not
work if the text starts with a space, a tab or a line end; the number that is then written serves a space at the
left edge only.  `legible` leaves these texts out.  A line end that such a block starts with at the left edge is lost,
and `recalled` is the text without it.

1. Traits.
2. Characters in quotes (`escaped_doublePiece`).
3. **A legible text is written in a style that suits it** (`styled_writes`).
4. **What is written for a legible text is an item that says it** (`scalar_written`), base 64 included, and at the
   left edge **one that says what is recalled** (`scalar_recalled`).
-/

namespace AgentKit.Yaml.Print

open Utf8

variable {cs : List Char} {x : Char} {n : Nat}

/-! ## 1. Traits

A trait is gathered with the character before and the characters behind at hand, since a colon or a hash is
harmless in some places only.  That a text lacks a trait then says something about every way of cutting it into a
front, a character and a rest (`of_nowhere`), which is the form in which the readers of scalars ask for it. -/

/-- The condition holds of a character, the one before it and all behind it. -/
def somewhere (p : Option Char → Char → List Char → Bool) : Option Char → List Char → Bool
  | _, [] => false
  | before, c :: t => p before c t || somewhere p (some c) t

/-- What holds nowhere does not hold of any character, wherever it stands. -/
theorem of_nowhere {p : Option Char → Char → List Char → Bool} {before : Option Char}
    (h : somewhere p before cs = false) {a b : List Char} (hcs : cs = a ++ x :: b) :
    p (a.getLast?.or before) x b = false := by
  induction a generalizing before cs with
  | nil =>
    rw [hcs, List.nil_append, somewhere, Bool.or_eq_false_iff] at h
    exact h.1
  | cons y a ih =>
    rw [hcs, List.cons_append, somewhere, Bool.or_eq_false_iff] at h
    have hrest := ih h.2 rfl
    -- the character before is the last of the front, or the one before the whole text
    cases a with
    | nil => exact hrest
    | cons z a => rwa [List.getLast?_cons_cons]

/-- A text that could be taken for something else, at one of its characters. -/
def isIndicator (before : Option Char) (c : Char) (t : List Char) : Bool :=
  match before with
  | none => isStartIndicator c (t.isEmpty || isBlank t.head?)
  | some b => isInnerIndicator c (isBlankOrEnd (some b) || b.toNat == 0) (t.isEmpty || isBlank t.head?)

/-- Each trait but the first is that of some character. -/
theorem traitsFrom_eq (before : Option Char) (cs : List Char) (r : Traits) : traitsFrom before cs r =
    { indicators := r.indicators || somewhere isIndicator before cs
      breaks := r.breaks || somewhere (fun _ c _ => isBreakChar c) before cs
      tab := r.tab || somewhere (fun _ c _ => c = '\t') before cs
      special := r.special || somewhere (fun _ c _ => c ≠ '\t' && !isPrintable c) before cs
      ragged := r.ragged ||
        somewhere (fun b c t => (b.isNone || t.isEmpty) && (c = ' ' || isBreakChar c)) before cs
      trailingSpace := r.trailingSpace || somewhere (fun _ c t => c = ' ' && t.isEmpty) before cs
      breakThenSpace := r.breakThenSpace || somewhere (fun b c _ => c = ' ' && b.any isBreakChar) before cs
      spaceThenBreak := r.spaceThenBreak || somewhere (fun b c _ => isBreakChar c && b = some ' ') before cs } := by
  induction cs generalizing before r with
  | nil => simp [traitsFrom, somewhere]
  | cons c t ih =>
    unfold traitsFrom
    rw [ih]
    simp only [somewhere, Bool.or_assoc]
    rfl

/-- A text without special characters is printable but for its tabs. -/
theorem traits_special (h : (traits cs).special = false) : ∀ x ∈ cs, x = '\t' ∨ isPrintable x = true := by
  intro x hx
  obtain ⟨a, b, hcs⟩ := List.append_of_mem hx
  rw [traits, traitsFrom_eq, Bool.or_eq_false_iff] at h
  have := of_nowhere h.2 hcs
  by_cases htab : x = '\t'
  · exact Or.inl htab
  · exact Or.inr (by simpa [htab] using this)

/-- A text that can be written in single quotes. -/
theorem traits_single (h : (traits cs).single = true) :
    (∀ x ∈ cs, isPrintable x = true) ∧ (∀ a x b, cs = a ++ ' ' :: x :: b → isBreakChar x = false) ∧
      ∀ a x b, cs = a ++ x :: ' ' :: b → isBreakChar x = false := by
  simp only [Traits.single, Bool.not_eq_true', Bool.or_eq_false_iff] at h
  obtain ⟨⟨⟨htab, hspecial⟩, hbreakSpace⟩, hspaceBreak⟩ := h
  rw [traits, traitsFrom_eq] at htab hbreakSpace hspaceBreak
  rw [Bool.or_eq_false_iff] at htab hbreakSpace hspaceBreak
  refine ⟨?_, ?_, ?_⟩
  · intro x hx
    obtain ⟨a, b, hcs⟩ := List.append_of_mem hx
    have hx' := of_nowhere htab.2 hcs
    exact (traits_special hspecial x hx).resolve_left (by simpa using hx')
  · intro a x b hcs
    have := of_nowhere hspaceBreak.2 (hcs.trans (by simp : a ++ ' ' :: x :: b = (a ++ [' ']) ++ x :: b))
    simpa using this
  · intro a x b hcs
    have := of_nowhere hbreakSpace.2 (hcs.trans (by simp : a ++ x :: ' ' :: b = (a ++ [x]) ++ ' ' :: b))
    simpa using this

/-- A text that can be written plain. -/
theorem traits_plain (h : (traits cs).plain = true) :
    (∀ x ∈ cs, isPrintable x = true ∧ isBreakChar x = false) ∧ cs.head? ≠ some ' ' ∧ cs.getLast? ≠ some ' ' ∧
      ∀ a x b, cs = a ++ x :: b → isIndicator a.getLast? x b = false := by
  simp only [Traits.plain, Bool.not_eq_true', Bool.or_eq_false_iff] at h
  obtain ⟨⟨⟨⟨⟨hind, hbreak⟩, htab⟩, hspecial⟩, hragged⟩, _⟩ := h
  rw [traits, traitsFrom_eq] at hind hbreak htab hragged
  rw [Bool.or_eq_false_iff] at hind hbreak htab hragged
  refine ⟨?_, ?_, ?_, ?_⟩
  · intro x hx
    obtain ⟨a, b, hcs⟩ := List.append_of_mem hx
    have hx' := of_nowhere htab.2 hcs
    exact ⟨(traits_special hspecial x hx).resolve_left (by simpa using hx'), of_nowhere hbreak.2 hcs⟩
  · -- a space at either edge makes the text ragged
    intro hhead
    obtain ⟨t, rfl⟩ := exists_cons_of_head? hhead
    have := of_nowhere hragged.2 (List.nil_append (' ' :: t)).symm
    simp at this
  · intro hlast
    obtain ⟨a, rfl⟩ := List.getLast?_eq_some_iff.mp hlast
    have := of_nowhere hragged.2 (rfl : a ++ [' '] = a ++ ' ' :: [])
    simp at this
  · intro a x b hcs
    have := of_nowhere hind.2 hcs
    rwa [Option.or_none] at this

/-! ## 2. Characters

The characters that the printer takes for printable may all stand in a document, and are ink but for the space
and the line ends.  In double quotes every character that is not printable is written by a letter or by its
number, so that there is no text that double quotes cannot hold. -/

/-- What is printed as it is may be read. -/
theorem allowed_of_isPrintable (h : isPrintable x = true) : Input.allowed x.toNat = true := by
  have hv := toNat_valid x
  simp only [isPrintable, Bool.or_eq_true, Bool.and_eq_true, beq_iff_eq, bne_iff_ne, decide_eq_true_eq] at h
  simp only [Input.allowed, Bool.or_eq_true, Bool.and_eq_true, beq_iff_eq, decide_eq_true_eq]
  omega

theorem isInk_of_isPrintable (h : isPrintable x = true) (hspace : x ≠ ' ') (hbreak : isBreakChar x = false) :
    isInk x = true := by
  refine isInk_iff.mpr ⟨hspace, ?_, hbreak⟩
  rintro rfl
  exact absurd h (by decide)

/-- A printable line end is one that reading does not change. -/
theorem isKept_of_isPrintable (h : isPrintable x = true) (hbreak : isBreakChar x = true) : isKept x = true := by
  simp only [isBreakChar, Bool.or_eq_true, decide_eq_true_eq] at hbreak
  simp only [isKept, Bool.or_eq_true, decide_eq_true_eq]
  -- the carriage return and the next line are not printable
  rcases hbreak with (((rfl | rfl) | hx) | hx) | hx
  · exact Or.inl (Or.inl rfl)
  · exact absurd h (by decide)
  · simp [isPrintable, hx] at h
  · exact Or.inl (Or.inr hx)
  · exact Or.inr hx

/-- A character in single quotes. -/
def singlePiece (x : Char) : List Char := if x = '\x27' then ['\x27', '\x27'] else [x]

/-- A capital hexadecimal digit. -/
def upperDigit (d : Nat) : Char := Char.ofNat (if d < 10 then 48 + d else 55 + d)

/-- A digit is read as it is written, and is one byte. -/
theorem upperDigit_spec : ∀ d < 16, hexValue? (upperDigit d) = some d ∧ Input.allowed (upperDigit d).toNat = true ∧
    (if byte 'a' ≤ Quoted.hexDigit d ∧ Quoted.hexDigit d ≤ byte 'f' then Quoted.hexDigit d - 32
      else Quoted.hexDigit d) = byte (upperDigit d) ∧ encode (upperDigit d) = [byte (upperDigit d)] := by
  decide +kernel

/-- The characters of a number in capital hexadecimal digits. -/
def upperDigits : Nat → Nat → List Char
  | 0, _ => []
  | width + 1, n => upperDigits width (n / 16) ++ [upperDigit (n % 16)]

theorem length_upperDigits (width n : Nat) : (upperDigits width n).length = width := by
  induction width generalizing n with
  | zero => rfl
  | succ width ih => rw [upperDigits, List.length_append, ih, List.length_singleton]

theorem allowed_upperDigits (width n : Nat) : ∀ x ∈ upperDigits width n, Input.allowed x.toNat = true := by
  induction width generalizing n with
  | zero => simp [upperDigits]
  | succ width ih =>
    rw [upperDigits, List.forall_mem_append]
    refine ⟨ih _, ?_⟩
    rw [List.forall_mem_singleton]
    exact (upperDigit_spec _ (Nat.mod_lt _ (by decide))).2.1

theorem upperHex_eq (width n : Nat) : upperHex width n = encodeAll (upperDigits width n) := by
  induction width generalizing n with
  | zero => rfl
  | succ width ih =>
    obtain ⟨_, _, hbyte, henc⟩ := upperDigit_spec (n % 16) (Nat.mod_lt _ (by decide))
    rw [upperHex, Quoted.hex, List.map_append, ← upperHex, ih, upperDigits, encodeAll_append]
    simp only [encodeAll, List.map_cons, List.map_nil, List.flatMap_cons, List.flatMap_nil, List.append_nil, henc,
      hbyte]

/-- A number that has room is read from its digits. -/
theorem hexNumber?_upperDigits (width n : Nat) (h : n < 16 ^ width) :
    hexNumber? (upperDigits width n) = some n := by
  induction width generalizing n with
  | zero =>
    obtain rfl : n = 0 := by simpa using h
    rfl
  | succ width ih =>
    have hdigit := (upperDigit_spec (n % 16) (Nat.mod_lt _ (by decide))).1
    have hrest := ih (n / 16) (by rw [pow_succ] at h; omega)
    rw [hexNumber?] at hrest
    -- the digits are read from the left, and written from the right
    rw [upperDigits, hexNumber?, List.foldlM_append, hrest]
    simp only [List.foldlM_cons, List.foldlM_nil, hdigit, Option.map_some, bind, Option.bind, pure]
    rw [Nat.mul_comm, Nat.div_add_mod]

/-- The letters behind a backslash are read as they are written. -/
theorem escapeLetters_spec : ∀ e ∈ escapeLetters, escapes.lookup e.2 = some (Char.ofNat e.1) ∧
    isBreakChar e.2 = false ∧ Input.allowed e.2.toNat = true ∧ encodeAll ['\\', e.2] = [byte '\\', byte e.2] := by
  decide +kernel

/-- What is written for a character in double quotes. -/
structure Escaped (x : Char) (p : List Char) : Prop where
  bytes : doubleQuotedChar x = encodeAll p
  allowed : ∀ y ∈ p, Input.allowed y.toNat = true
  space : x = ' ' → p = [' ']
  piece : x ≠ ' ' → Piece false x p

theorem escaped_letter {l : Char} (hlook : escapeLetters.lookup x.toNat = some l)
    (hbytes : doubleQuotedChar x = [byte '\\', byte l]) : Escaped x ['\\', l] := by
  obtain ⟨hread, hbreak, hallowed, hencode⟩ := escapeLetters_spec (x.toNat, l) (by
    obtain ⟨a, b, hmem, _⟩ := List.lookup_eq_some_iff.mp hlook
    simp [hmem])
  rw [Char.ofNat_toNat] at hread
  refine ⟨hbytes.trans hencode.symm, ?_, ?_, fun _ => piece_letter hread hbreak⟩
  · intro y hy
    rcases List.mem_cons.mp hy with rfl | hy
    · decide
    · rwa [List.mem_singleton.mp hy]
  · rintro rfl
    cases hlook

/-- A character by its number, where it has room in the digits that follow the letter. -/
theorem escaped_number (l : Char) (width : Nat)
    (hbytes : doubleQuotedChar x = encodeAll ['\\', l] ++ encodeAll (upperDigits width x.toNat))
    (hl : escapes.lookup l = none ∧ escapeDigits l = some width ∧ isBreakChar l = false ∧ Input.allowed l.toNat = true)
    (hroom : x.toNat < 16 ^ width) (hspace : x ≠ ' ') : Escaped x ('\\' :: l :: upperDigits width x.toNat) := by
  obtain ⟨hnone, hdigits, hbreak, hallowed⟩ := hl
  refine ⟨hbytes.trans (encodeAll_append _ _).symm, ?_, fun h => absurd h hspace, fun _ => ?_⟩
  · rw [List.forall_mem_cons, List.forall_mem_cons]
    exact ⟨by decide, hallowed, allowed_upperDigits _ _⟩
  · refine piece_number hnone ?_ (hexNumber?_upperDigits _ _ hroom) hbreak
    rw [length_upperDigits, hdigits]

/-- **There is no character that cannot be written in double quotes.** -/
theorem exists_escaped (x : Char) : ∃ p, Escaped x p := by
  -- the characters that are written with a backslash, and those that are written as they are
  by_cases h : (!isPrintable x || isBreakChar x || x = '"' || x = '\\') = true
  · have hspace : x ≠ ' ' := by
      rintro rfl
      exact absurd h (by decide)
    have hv := toNat_valid x
    cases hlook : escapeLetters.lookup x.toNat with
    | some l =>
      refine ⟨_, escaped_letter hlook ?_⟩
      rw [doubleQuotedChar, if_pos h, hlook]
    | none =>
      -- two, four or eight digits, of which eight are enough for every character
      have hbytes : doubleQuotedChar x = if x.toNat ≤ 0xFF then "\\x" ++ upperHex 2 x.toNat
          else if x.toNat ≤ 0xFFFF then "\\u" ++ upperHex 4 x.toNat else "\\U" ++ upperHex 8 x.toNat := by
        rw [doubleQuotedChar, if_pos h, hlook]
      simp only [upperHex_eq] at hbytes
      split at hbytes
      · exact ⟨_, escaped_number 'x' 2 hbytes (by decide) (by omega) hspace⟩
      · split at hbytes
        · exact ⟨_, escaped_number 'u' 4 hbytes (by decide) (by omega) hspace⟩
        · exact ⟨_, escaped_number 'U' 8 hbytes (by decide) (by omega) hspace⟩
  · have hbytes : doubleQuotedChar x = encodeAll [x] := by
      rw [doubleQuotedChar, if_neg h]
      simp [encodeAll]
    simp only [Bool.or_eq_true, Bool.not_eq_true', decide_eq_true_eq, not_or, Bool.not_eq_false,
      Bool.not_eq_true] at h
    obtain ⟨⟨⟨hprint, hbreak⟩, hquote⟩, hslash⟩ := h
    refine ⟨[x], hbytes, ?_, ?_, ?_⟩
    · rw [List.forall_mem_singleton]
      exact allowed_of_isPrintable hprint
    · rintro rfl
      rfl
    · intro hspace
      exact piece_self (isInk_of_isPrintable hprint hspace hbreak) hquote fun _ => hslash

/-- A character in double quotes. -/
def doublePiece (x : Char) : List Char := chars (doubleQuotedChar x)

theorem escaped_doublePiece (x : Char) : Escaped x (doublePiece x) := by
  obtain ⟨p, hp⟩ := exists_escaped x
  rw [doublePiece, hp.bytes, chars_encodeAll]
  exact hp

/-! ## 3. Styles

For each style there is a predicate on texts that the reader's theorem asks for: `PlainText`, `QuotedText` and
`BlockText`.  They are derived from the traits in turn.  Double quotes ask for nothing. -/

/-- A text that is taken for a plain one from its first character on. -/
structure StandsPlain (cs : List Char) : Prop extends PlainText cs where
  start : ∀ x t, cs = x :: t → isStartIndicator x (t.isEmpty || isBlank t.head?) = false
  noMark : cs.head? ≠ some '\ufeff'

/-- The characters that a text is read from, with their line end, where further lines start at column `n`. -/
inductive Form (n : Nat) : List Char → Style → List Char → Prop
  | plain {cs : List Char} (h : StandsPlain cs) : Form n cs .plain (cs ++ ['\n'])
  | single {cs : List Char} (h : QuotedText true isBreakChar singlePiece cs) :
      Form n cs .singleQuoted ('\x27' :: (spelled isBreakChar singlePiece n false cs ++ ['\x27', '\n']))
  | double {cs : List Char} (h : QuotedText false (fun _ => false) doublePiece cs) :
      Form n cs .doubleQuoted ('"' :: (spelled (fun _ => false) doublePiece n false cs ++ ['"', '\n']))
  | block {x : Char} {cs : List Char} (h : BlockText (x :: cs)) (hblank : isBlank x = false)
      (hbreak : isBreakChar x = false) :
      Form n (x :: cs) .literal
        ('|' :: ((chompOf (x :: cs)).sign ++ '\n' :: (List.replicate n ' ' ++ blockBody n false (x :: cs))))
  | spaced {cs : List Char} (h : BlockText (' ' :: cs)) (hn : n = 4) :
      Form n (' ' :: cs) .literal
        ('|' :: '4' :: ((chompOf (' ' :: cs)).sign ++ '\n' :: (List.replicate n ' ' ++ blockBody n false (' ' :: cs))))
  | shortened {b : Char} {cs : List Char} (h : BlockText cs) (hb : isKept b = true) (hn : n = 4) :
      Form n cs .literal ('|' :: '4' :: ((chompOf (b :: cs)).sign ++ b :: blockBody n true cs))

/-- A plain text. -/
theorem standsPlain_of_traits (h : (traits cs).plain = true) (hne : cs ≠ []) : StandsPlain cs := by
  obtain ⟨hchars, hhead, hlast, hind⟩ := traits_plain h
  -- a colon may be the first character or an inner one, and in both places it must not be followed by a blank
  have hcolon : ∀ a b, cs = a ++ ':' :: b → (b.isEmpty || isBlank b.head?) = false := by
    intro a b hab
    have := hind a ':' b hab
    cases hl : a.getLast? with
    | none => simpa [hl, isIndicator, isStartIndicator] using this
    | some y => simpa [hl, isIndicator, isInnerIndicator] using this
  refine ⟨⟨hne, ?_, hhead, hlast, ?_, ?_, ?_⟩, ?_, ?_⟩
  · intro x hx
    by_cases hspace : x = ' '
    · exact Or.inl hspace
    · exact Or.inr (isInk_of_isPrintable (hchars x hx).1 hspace (hchars x hx).2)
  · intro a b hab
    have hb := hcolon a b hab
    cases b with
    | nil => simp at hb
    | cons y b =>
      refine ⟨y, rfl, ?_⟩
      rintro rfl
      simp [isBlank] at hb
  · intro hhash
    obtain ⟨t, rfl⟩ := exists_cons_of_head? hhash
    have := hind [] '#' t rfl
    simp [isIndicator, isStartIndicator] at this
  · intro a b hab
    have := hind (a ++ [' ']) '#' b (by simp [hab])
    simp [isIndicator, isInnerIndicator, isBlankOrEnd, isBlank] at this
  · intro x t hxt
    exact hind [] x t hxt
  · intro hmark
    obtain ⟨t, rfl⟩ := exists_cons_of_head? hmark
    exact absurd (hchars _ List.mem_cons_self).1 (by decide)

/-- In single quotes a line end must not be a line feed, which reading would turn into a space. -/
theorem quotedText_single (h : (traits cs).single = true) (hline : '\n' ∉ cs) :
    QuotedText true isBreakChar singlePiece cs := by
  obtain ⟨hchars, hspaceBreak, hbreakSpace⟩ := traits_single h
  refine ⟨?_, ?_, hspaceBreak, hbreakSpace⟩
  · intro x hx hspace hbreak
    rw [singlePiece]
    split
    · rename_i hquote
      rw [hquote]
      exact piece_quote
    · rename_i hquote
      exact piece_self (isInk_of_isPrintable (hchars x hx) hspace hbreak) hquote (by simp)
  · intro x hx hbreak
    refine ⟨isKept_of_isPrintable (hchars x hx) hbreak, ?_⟩
    rintro rfl
    exact hline hx

/-- **Double quotes hold every text**: no line end is written as such, so nothing is folded. -/
theorem quotedText_double (cs : List Char) : QuotedText false (fun _ => false) doublePiece cs where
  pieces x _ hspace _ := (escaped_doublePiece x).piece hspace
  breaks _ _ h := absurd h (by decide)
  spaceThenBreak _ _ _ _ := rfl
  breakThenSpace _ _ _ _ := rfl

/-- The line ends of a block are those that reading keeps. -/
theorem blockText_of_traits (h : (traits cs).block = true) : BlockText cs := by
  simp only [Traits.block, Bool.not_eq_true', Bool.or_eq_false_iff] at h
  intro x hx hbreak
  rcases traits_special h.1.1 x hx with rfl | hprint
  · exact absurd hbreak (by decide)
  · exact isKept_of_isPrintable hprint hbreak

/-! ### The bytes of each style

The printer writes bytes, and writes a character's bytes without decoding them again.  Here each of its functions
is shown to spell the characters that the readers are given. -/

theorem encodeAll_spaces (n : Nat) : encodeAll (List.replicate n ' ') = List.replicate n (byte ' ') := by
  induction n with
  | zero => rfl
  | succ n ih => rw [List.replicate_succ, encodeAll_cons, ih]; rfl

theorem singleQuoted_eq (n : Nat) (afterBreak : Bool) (cs : List Char) :
    singleQuoted n afterBreak cs = encodeAll (spelled isBreakChar singlePiece n afterBreak cs ++ ['\x27']) := by
  induction cs generalizing afterBreak with
  | nil => rfl
  | cons x cs ih =>
    rw [singleQuoted, spelled]
    split
    · rw [ih, List.cons_append, encodeAll_cons]
      rfl
    · split
      · rw [ih, List.cons_append, encodeAll_cons]
      · have hpiece : (if x = '\x27' then [byte '\x27', byte '\x27'] else encode x) = encodeAll (singlePiece x) := by
          rw [singlePiece]
          split
          · rfl
          · exact (List.append_nil _).symm
        rw [ih, hpiece, encodeAll_append, encodeAll_append, encodeAll_append, encodeAll_append, List.append_assoc,
          List.append_assoc]
        cases afterBreak with
        | false => rfl
        | true => rw [if_pos rfl, if_pos rfl, encodeAll_spaces, List.append_assoc]

theorem doubleQuoted_eq (n : Nat) (cs : List Char) :
    doubleQuoted cs = encodeAll ('"' :: (spelled (fun _ => false) doublePiece n false cs ++ ['"'])) := by
  -- the column plays no part, for no line end is written as such
  have hbody : cs.flatMap doubleQuotedChar = encodeAll (spelled (fun _ => false) doublePiece n false cs) := by
    induction cs with
    | nil => rfl
    | cons x cs ih =>
      have hx := escaped_doublePiece x
      rw [List.flatMap_cons, spelled, ih, hx.bytes]
      split
      · rename_i hspace
        rw [hx.space hspace]
        rfl
      · exact (encodeAll_append _ _).symm
  rw [doubleQuoted, hbody, encodeAll_cons, encodeAll_append]
  rfl

/-- Behind the first line, a line is fresh exactly when the next character starts it. -/
theorem blockLines_eq_body (n : Nat) (fresh : Bool) (cs : List Char) :
    blockLines n fresh fresh cs = encodeAll (blockBody n fresh cs) := by
  induction cs generalizing fresh with
  | nil => cases fresh <;> rfl
  | cons x cs ih =>
    rw [blockLines, blockBody]
    split
    · rw [ih, encodeAll_cons]
    · rw [ih, encodeAll_append, encodeAll_cons]
      cases fresh with
      | false => rfl
      | true => simp [encodeAll_spaces]

/-- What the first line of a block says. -/
def hints (cs : List Char) : List Char :=
  (if cs.head? = some ' ' ∨ isBreak cs.head? then ['4'] else []) ++ (chompOf cs).sign

/-- The first line of a block. -/
theorem blockHints_eq (cs : List Char) : blockHints cs = encodeAll (hints cs) := by
  unfold blockHints hints chompOf
  rw [encodeAll_append]
  refine congrArg₂ _ ?_ ?_
  · split <;> rfl
  · cases cs.reverse with
    | nil => rfl
    | cons c rest =>
      dsimp only
      split
      · rfl
      · split <;> rfl

/-- A block whose first line has something on it. -/
theorem literalBlock_eq (cs : List Char) (hbreak : isBreakChar x = false) :
    literalBlock n (x :: cs) = encodeAll ('|' :: (hints (x :: cs) ++ '\n' ::
      (List.replicate n ' ' ++ blockBody n false (x :: cs)))) := by
  have hlines : blockLines n true false (x :: cs) =
      byte '\n' :: (List.replicate n (byte ' ') ++ (encode x ++ blockLines n false false cs)) := by
    simp [blockLines, hbreak]
  rw [literalBlock, blockHints_eq, hlines, blockBody_cons hbreak, blockLines_eq_body, encodeAll_cons,
    encodeAll_append, encodeAll_cons,
    encodeAll_append, encodeAll_cons, encodeAll_spaces]
  rfl

/-- A block whose first line is empty: its line end is at once the one behind the hints. -/
theorem literalBlock_break (cs : List Char) (hbreak : isBreakChar x = true) :
    literalBlock n (x :: cs) = encodeAll ('|' :: '4' :: ((chompOf (x :: cs)).sign ++ x :: blockBody n true cs)) := by
  have hlines : blockLines n true false (x :: cs) = encode x ++ blockLines n true true cs := by
    simp [blockLines, hbreak]
  have hhints : hints (x :: cs) = '4' :: (chompOf (x :: cs)).sign := by
    simp [hints, isBreak, hbreak]
  rw [literalBlock, blockHints_eq, hlines, blockLines_eq_body, hhints, encodeAll_cons '|', ← List.cons_append,
    encodeAll_append, encodeAll_cons x]
  rfl

/-! ### Texts that are read back

Whether a text is read back is decided by its first character, and only if the text is written as a block.  The
conditions are functions into `Bool`, so that they can be evaluated for a text at hand. -/

/-- A block that starts with this character shows where its lines start. -/
def opensBlock (n : Nat) (x : Char) : Bool := !isBreakChar x && x ≠ '\t' && (x ≠ ' ' || n = 4)

/-- The text is written as a block. -/
def asBlock (t : Bytes) : Bool := isValid t && (chars t).contains '\n' && (traits (chars t)).block

/-- If the text is written as a block, its first character is one that shows where the lines start. -/
def legible (n : Nat) (t : Bytes) : Bool := !asBlock t || (chars t).head?.any (opensBlock n)

/-- If the text is written as a block, it does not start with a tab. -/
def recallable (t : Bytes) : Bool := !(asBlock t && (chars t).head? = some '\t')

/-- The text that is read back at the left edge: a line end at the start of a block is lost. -/
def recalled (t : Bytes) : Bytes := if asBlock t && isBreak (chars t).head? then encodeAll (chars t).tail else t

/-- A legible text loses nothing. -/
theorem recalled_of_legible {t : Bytes} (h : legible n t = true) : recalled t = t := by
  rw [recalled, if_neg]
  intro hlost
  rw [Bool.and_eq_true] at hlost
  cases hcs : chars t with
  | nil => simp [legible, hlost.1, hcs] at h
  | cons x cs =>
    rw [hcs] at hlost
    simp [legible, hlost.1, hcs, opensBlock, show isBreakChar x = true from hlost.2] at h

/-- **At the left edge the legible texts are those that are read back as they are.** -/
theorem legible_iff {t : Bytes} : legible 4 t = true ↔ recallable t = true ∧ recalled t = t := by
  constructor
  · intro h
    refine ⟨?_, recalled_of_legible h⟩
    cases hcs : (chars t).head? with
    | none => simp [recallable, hcs]
    | some x =>
      by_cases hx : x = '\t'
      · cases hblock : asBlock t <;> simp_all [recallable, legible, opensBlock]
      · simp [recallable, hcs, hx]
  · rintro ⟨hread, hsame⟩
    cases hblock : asBlock t with
    | false => simp [legible, hblock]
    | true =>
      cases hcs : chars t with
      | nil => simp [asBlock, hcs] at hblock
      | cons x cs =>
        have htab : x ≠ '\t' := by simpa [recallable, hblock, hcs] using hread
        -- a text that has lost its first character is shorter
        have hbreak : isBreakChar x = false := by
          by_contra hbreak
          rw [Bool.not_eq_false] at hbreak
          have hlost := congrArg chars hsame
          rw [recalled, hblock, hcs, if_pos (by simpa [isBreak] using hbreak), chars_encodeAll, List.tail_cons] at hlost
          simpa using congrArg List.length hlost
        simp [legible, hcs, opensBlock, hbreak, htab]

/-- A block adds nothing but spaces and line ends. -/
theorem mem_blockBody {fresh : Bool} {y : Char} (h : y ∈ blockBody n fresh cs) : y = ' ' ∨ y = '\n' ∨ y ∈ cs := by
  induction cs generalizing fresh with
  | nil => cases fresh <;> simp_all [blockBody]
  | cons x cs ih =>
    rw [blockBody] at h
    split at h
    · rcases List.mem_cons.mp h with rfl | hy
      · exact Or.inr (Or.inr List.mem_cons_self)
      · have := ih hy
        grind
    · rcases List.mem_append.mp h with hy | hy
      · split at hy
        · exact Or.inl (List.eq_of_mem_replicate hy)
        · simp at hy
      · have := List.mem_cons.mp hy
        grind

/-- The characters may stand in a document. -/
def Allowed (cs : List Char) : Prop := ∀ y ∈ cs, Input.allowed y.toNat = true

@[simp] theorem allowed_nil : Allowed [] := by
  intro y hy
  simp at hy

@[simp] theorem allowed_cons : Allowed (x :: cs) ↔ Input.allowed x.toNat = true ∧ Allowed cs := List.forall_mem_cons

@[simp] theorem allowed_append {ds : List Char} : Allowed (cs ++ ds) ↔ Allowed cs ∧ Allowed ds :=
  List.forall_mem_append

theorem allowed_of_all (h : cs.all (fun y => Input.allowed y.toNat) = true) : Allowed cs := List.all_eq_true.mp h

/-- What is written is a text in one of the styles, in characters that may stand in a document. -/
structure Writes (n : Nat) (bytes : Bytes) (cs : List Char) (style : Style) (out : List Char) : Prop where
  bytes : bytes = encodeAll out
  form : Form n cs style out
  allowed : Allowed out

theorem encodeAll_line (cs : List Char) : encodeAll cs ++ [byte '\n'] = encodeAll (cs ++ ['\n']) :=
  (encodeAll_append cs ['\n']).symm

theorem allowed_spaces (n : Nat) : Allowed (List.replicate n ' ') := by
  intro y hy
  rw [List.eq_of_mem_replicate hy]
  decide

/-- A text in quotes may stand in a document if the spelling of each of its characters may. -/
theorem allowed_spelled {brk : Char → Bool} {piece : Char → List Char} {afterBreak : Bool}
    (hpieces : ∀ x ∈ cs, x ≠ ' ' → Allowed (piece x))
    (hbreaks : ∀ x ∈ cs, brk x = true → Input.allowed x.toNat = true) :
    Allowed (spelled brk piece n afterBreak cs) := by
  induction cs generalizing afterBreak with
  | nil => exact allowed_nil
  | cons x cs ih =>
    have hrest : ∀ b, Allowed (spelled brk piece n b cs) := fun b =>
      ih (fun y hy => hpieces y (List.mem_cons_of_mem _ hy)) fun y hy => hbreaks y (List.mem_cons_of_mem _ hy)
    rw [spelled]
    split
    · exact allowed_cons.mpr ⟨by decide, hrest _⟩
    · rename_i hspace
      split
      · rename_i hbreak
        exact allowed_cons.mpr ⟨hbreaks x List.mem_cons_self hbreak, hrest _⟩
      · refine allowed_append.mpr ⟨allowed_append.mpr ⟨?_, hpieces x List.mem_cons_self hspace⟩, hrest _⟩
        split
        · exact allowed_spaces n
        · exact allowed_nil

/-- Every text can be written in double quotes. -/
theorem writes_double (n : Nat) (cs : List Char) :
    ∃ out, Writes n (doubleQuoted cs ++ [byte '\n']) cs .doubleQuoted out := by
  have hspelled : Allowed (spelled (fun _ => false) doublePiece n false cs) :=
    allowed_spelled (fun x _ _ => (escaped_doublePiece x).allowed) (by simp)
  refine ⟨_, ?_, .double (quotedText_double cs), ?_⟩
  · rw [doubleQuoted_eq n, encodeAll_line]
    simp
  · simp only [allowed_cons, allowed_append]
    exact ⟨by decide, hspelled, by decide, by decide, allowed_nil⟩

theorem writes_single (h : (traits cs).single = true) (hline : '\n' ∉ cs) :
    ∃ out, Writes n (byte '\x27' :: singleQuoted n false cs ++ [byte '\n']) cs .singleQuoted out := by
  have hchars : Allowed cs := fun x hx => allowed_of_isPrintable ((traits_single h).1 x hx)
  have hspelled : Allowed (spelled isBreakChar singlePiece n false cs) := by
    refine allowed_spelled (fun x hx _ => ?_) fun x hx _ => hchars x hx
    rw [singlePiece]
    split
    · exact allowed_cons.mpr ⟨by decide, allowed_cons.mpr ⟨by decide, allowed_nil⟩⟩
    · exact allowed_cons.mpr ⟨hchars x hx, allowed_nil⟩
  refine ⟨_, ?_, .single (quotedText_single h hline), ?_⟩
  · rw [singleQuoted_eq, List.cons_append, encodeAll_line, encodeAll_cons]
    simp
    rfl
  · simp only [allowed_cons, allowed_append]
    exact ⟨by decide, hspelled, by decide, by decide, allowed_nil⟩

theorem writes_plain {t : Bytes} (h : (traits (chars t)).plain = true) (hvalid : isValid t = true) (hne : t ≠ []) :
    ∃ out, Writes n (t ++ [byte '\n']) (chars t) .plain out := by
  have hchars := encodeAll_chars t hvalid
  have hne' : chars t ≠ [] := by
    intro hnil
    rw [hnil] at hchars
    exact hne hchars.symm
  refine ⟨_, ?_, .plain (standsPlain_of_traits h hne'), ?_⟩
  · rw [← encodeAll_line, hchars]
  · refine allowed_append.mpr ⟨fun x hx => allowed_of_isPrintable ((traits_plain h).1 x hx).1, ?_⟩
    exact allowed_cons.mpr ⟨by decide, allowed_nil⟩

theorem hints_of_ne (hspace : x ≠ ' ') (hbreak : isBreakChar x = false) (cs : List Char) :
    hints (x :: cs) = (chompOf (x :: cs)).sign := by
  simp [hints, hspace, isBreak, hbreak]

/-- A text that is written as a block may stand in a document as it is. -/
theorem allowed_of_block (h : (traits cs).block = true) : Allowed cs := by
  simp only [Traits.block, Bool.not_eq_true', Bool.or_eq_false_iff] at h
  intro x hx
  rcases traits_special h.1.1 x hx with rfl | hprint
  · decide
  · exact allowed_of_isPrintable hprint

theorem allowed_blockBody {fresh : Bool} (h : Allowed cs) : Allowed (blockBody n fresh cs) := by
  intro y hy
  rcases mem_blockBody hy with rfl | rfl | hy
  · decide
  · decide
  · exact h y hy

theorem allowed_sign (chomp : Chomping) : Allowed chomp.sign := by
  cases chomp <;> simp [Chomping.sign] <;> decide

theorem allowed_block {head : List Char} (h : (traits cs).block = true) (hhead : Allowed head) :
    Allowed ('|' :: (head ++ (chompOf cs).sign ++ '\n' :: (List.replicate n ' ' ++ blockBody n false cs))) := by
  simp only [allowed_cons, allowed_append]
  exact ⟨by decide, ⟨hhead, allowed_sign _⟩, by decide, allowed_spaces n, allowed_blockBody (allowed_of_block h)⟩

/-- **A block that shows where its lines start.** -/
theorem writes_block (h : (traits (x :: cs)).block = true) (hopens : opensBlock n x = true) :
    ∃ out, Writes n (literalBlock n (x :: cs)) (x :: cs) .literal out := by
  have htext := blockText_of_traits h
  simp only [opensBlock, Bool.and_eq_true, Bool.not_eq_true', decide_eq_true_eq, Bool.or_eq_true] at hopens
  obtain ⟨⟨hbreak, htab⟩, hspace⟩ := hopens
  -- before a space the number is written, and it is the right one at the left edge; before another character
  -- none is
  by_cases hx : x = ' '
  · subst hx
    refine ⟨_, ?_, .spaced htext (by simpa using hspace), ?_⟩
    · rw [literalBlock_eq cs hbreak]
      rfl
    · exact allowed_block h (allowed_cons.mpr ⟨by decide, allowed_nil⟩ : Allowed ['4'])
  · have hblank : isBlank x = false := by simp [isBlank, hx, htab]
    refine ⟨_, ?_, .block htext hblank hbreak, ?_⟩
    · rw [literalBlock_eq cs hbreak, hints_of_ne hx hbreak]
    · exact allowed_block h (allowed_nil : Allowed [])

/-- A block that starts with a line end is written as one that has lost it. -/
theorem writes_shortened (h : (traits (x :: cs)).block = true) (hbreak : isBreakChar x = true) :
    ∃ out, Writes 4 (literalBlock 4 (x :: cs)) cs .literal out := by
  have htext := blockText_of_traits h
  have hkept := htext x List.mem_cons_self hbreak
  obtain ⟨hx, hcs⟩ := allowed_cons.mp (allowed_of_block h)
  refine ⟨_, literalBlock_break cs hbreak, .shortened (fun y hy => htext y (List.mem_cons_of_mem _ hy)) hkept rfl, ?_⟩
  simp only [allowed_cons, allowed_append]
  exact ⟨by decide, by decide, allowed_sign _, hx, allowed_blockBody hcs⟩

/-- **A legible text is written in a style that suits it.** -/
theorem styled_writes {t : Bytes} {plainAllowed : Bool} (hvalid : isValid t = true) (hlegible : legible n t = true)
    (hne : plainAllowed = true → t ≠ []) :
    ∃ style out, Writes n (styled n plainAllowed t) (chars t) style out ∧ (style = .plain → plainAllowed = true) := by
  rw [styled]
  split
  · -- a text of several lines: a block, or double quotes
    rename_i hline
    split
    · rename_i hblock
      have hopens : (chars t).head?.any (opensBlock n) = true := by
        rw [legible, asBlock, hvalid, hline, hblock] at hlegible
        exact hlegible
      cases hcs : chars t with
      | nil => simp [hcs] at hline
      | cons x cs =>
        rw [hcs] at hblock hopens
        obtain ⟨out, hout⟩ := writes_block hblock hopens
        exact ⟨_, out, hout, by simp⟩
    · obtain ⟨out, hout⟩ := writes_double n (chars t)
      exact ⟨_, out, hout, by simp⟩
  · -- a text of one line: plain, in single quotes or in double quotes
    rename_i hline
    obtain ⟨out, hdouble⟩ := writes_double n (chars t)
    split
    · exact ⟨_, out, hdouble, by simp⟩
    · rename_i hallowed
      have hallowed : plainAllowed = true := by simpa using hallowed
      split
      · rename_i hplain
        obtain ⟨out, hout⟩ := writes_plain hplain hvalid (hne hallowed)
        exact ⟨_, out, hout, fun _ => hallowed⟩
      · split
        · rename_i hsingle
          obtain ⟨out, hout⟩ := writes_single hsingle (by simpa using hline)
          exact ⟨_, out, hout, by simp⟩
        · exact ⟨_, out, hdouble, by simp⟩

/-! ## 4. Items

A text that is not valid is written in base 64, behind a tag.  What follows the tag is again a text, in one of
the styles, so that an item is a text with a mark. -/

/-- A scalar with its tokens: a text, or the base 64 of one. -/
structure Item where
  binary : Bool
  text : List Char
  style : Style

/-- The tokens of an item. -/
def Item.kinds (i : Item) : List TokenKind :=
  (if i.binary then [.tag "!!" "binary"] else []) ++ [.scalar i.text i.style]

/-- The tag of an item. -/
def Item.tag (i : Item) : Bytes := if i.binary then "tag:yaml.org,2002:binary" else []

/-- The text that an item stands for. -/
def Item.Says (i : Item) (t : Bytes) : Prop := scalarValue i.tag (encodeAll i.text) i.style = .ok (.text t)

/-- The sign before base 64, with the space behind it. -/
def binarySign : List Char := ['!', '!', 'b', 'i', 'n', 'a', 'r', 'y', ' ']

/-- The characters of an item. -/
inductive Written (n : Nat) : Item → List Char → Prop
  | text {cs out : List Char} {style : Style} (h : Form n cs style out) : Written n ⟨false, cs, style⟩ out
  | code {cs out : List Char} {style : Style} (h : Form n cs style out) :
      Written n ⟨true, cs, style⟩ (binarySign ++ out)

/-- A text says itself, unless it is plain and would be taken for something else. -/
theorem says_text {t : Bytes} {style : Style} (hvalid : isValid t = true) (h : style = .plain → looksOther t = false) :
    Item.Says ⟨false, chars t, style⟩ t := by
  rw [Item.Says, encodeAll_chars t hvalid]
  show scalarValue [] t style = _
  have hempty : ¬ ((!([] : Bytes).isEmpty) = true ∧ ([] : Bytes) ≠ "!") := by decide
  have htext : scalarTag [] t style = "!!str" → scalarValue [] t style = .ok (.text t) := by
    intro htag
    rw [scalarValue, htag]
    rfl
  by_cases hstyle : style = .plain
  · subst hstyle
    by_cases hmerge : t = "<<"
    · -- the sign for merging has a tag of its own, but stands for itself
      subst hmerge
      rfl
    · have hother := h rfl
      simp only [looksOther, Bool.or_eq_false_iff, decide_eq_false_iff_not, not_not] at hother
      refine htext ?_
      rw [scalarTag, if_neg hempty, if_neg (not_not.mpr rfl), if_neg hmerge, hother.1.1]
  · refine htext ?_
    rw [scalarTag, if_neg hempty, if_pos hstyle]

/-- Base 64 behind its tag says what it encodes. -/
theorem says_code {code t : Bytes} {style : Style} (hvalid : isValid code = true) (h : Base64.decode? code = some t) :
    Item.Says ⟨true, chars code, style⟩ t := by
  have htag : scalarTag "tag:yaml.org,2002:binary" code style = "!!binary" := by
    rw [scalarTag, if_pos (by decide)]
    decide
  have hresolve : resolve "!!binary" code = .ok ("!!binary", .text code) := by
    rw [resolve]
    exact if_pos (by decide)
  rw [Item.Says, encodeAll_chars code hvalid]
  show scalarValue "tag:yaml.org,2002:binary" code style = _
  rw [scalarValue, htag, hresolve]
  simp only [bind, Except.bind]
  rw [if_neg (by decide), if_pos trivial, h]
  rfl

/-- Base 64 is in ASCII, with or without line ends. -/
theorem ascii_of_armored {t : Bytes} : ∀ b ∈ armored t, b.toNat < 0x80 := by
  have halphabet : ∀ b ∈ Base64.alphabet, b.toNat < 0x80 := by decide +kernel
  intro b hb
  rcases mem_armored b hb with hb | rfl
  · exact halphabet b hb
  · decide

/-- Base 64 is legible at every column: it starts with a letter of its alphabet, never with a blank. -/
theorem legible_armored {t : Bytes} (ht : t ≠ []) : legible n (armored t) = true := by
  have halphabet : ∀ b ∈ Base64.alphabet, isBreakChar (Char.ofNat b.toNat) = false ∧
      Char.ofNat b.toNat ≠ '\t' ∧ Char.ofNat b.toNat ≠ ' ' := by decide +kernel
  obtain ⟨b, hb, hhead⟩ := head?_armored ht
  obtain ⟨hbreak, htab, hspace⟩ := halphabet b hb
  have hchars : chars (armored t) = (armored t).map fun b => Char.ofNat b.toNat := by
    conv_lhs => rw [← encodeAll_ascii (armored t) ascii_of_armored]
    exact chars_encodeAll _
  rw [legible, Bool.or_eq_true]
  refine Or.inr ?_
  rw [hchars, List.head?_map, hhead]
  simp [opensBlock, hbreak, htab, hspace]

/-- **What is written for a legible text is an item that says it.** -/
theorem scalar_written {t : Bytes} (h : legible n t = true) :
    ∃ i out, scalar n t = encodeAll out ∧ Written n i out ∧ Allowed out ∧ i.Says t := by
  rw [scalar]
  split
  · -- the text itself, plain only if it cannot be taken for something else; the empty text can
    rename_i hvalid
    have hne : (!looksOther t) = true → t ≠ [] := by
      rintro hother rfl
      exact absurd hother (by decide)
    obtain ⟨style, out, hout, hplain⟩ := styled_writes hvalid h hne
    exact ⟨_, out, hout.bytes, .text hout.form, hout.allowed, says_text hvalid fun hs => by simpa using hplain hs⟩
  · -- base 64, in one line or in several, which is a legible text of its own
    rename_i hvalid
    have ht : t ≠ [] := by
      rintro rfl
      exact hvalid rfl
    have hcode : isValid (armored t) = true := by
      rw [← encodeAll_ascii (armored t) ascii_of_armored]
      exact isValid_encodeAll _
    have hne : true = true → armored t ≠ [] := by
      intro _ hnil
      obtain ⟨b, _, hhead⟩ := head?_armored ht
      rw [hnil] at hhead
      cases hhead
    obtain ⟨style, out, hout, _⟩ := styled_writes hcode (legible_armored ht) hne
    refine ⟨_, _, ?_, .code hout.form, allowed_append.mpr ⟨?_, hout.allowed⟩, says_code hcode (decode?_armored t)⟩
    · rw [encodeAll_append, ← hout.bytes]
      rfl
    · exact allowed_of_all (by decide)

/-- **At the left edge, what is written is an item that says what is read back.** -/
theorem scalar_recalled {t : Bytes} (h : recallable t = true) :
    ∃ i out, scalar 4 t = encodeAll out ∧ Written 4 i out ∧ Allowed out ∧ i.Says (recalled t) := by
  -- a block that starts with a line end says its tail, and all other texts are legible
  by_cases hlost : (asBlock t && isBreak (chars t).head?) = true
  · have hsame : recalled t = encodeAll (chars t).tail := if_pos hlost
    simp only [Bool.and_eq_true, asBlock] at hlost
    obtain ⟨⟨⟨hvalid, hline⟩, hblock⟩, hbreak⟩ := hlost
    have hscalar : scalar 4 t = literalBlock 4 (chars t) := by
      rw [scalar, if_pos hvalid, styled, if_pos hline, if_pos hblock]
    cases hcs : chars t with
    | nil => simp [hcs] at hline
    | cons x cs =>
      rw [hcs] at hblock hbreak
      obtain ⟨out, hout⟩ := writes_shortened hblock hbreak
      refine ⟨_, out, (hscalar.trans (congrArg _ hcs)).trans hout.bytes, .text hout.form, hout.allowed, ?_⟩
      rw [hsame, hcs, List.tail_cons]
      have hsay : Item.Says ⟨false, chars (encodeAll cs), .literal⟩ (encodeAll cs) :=
        says_text (isValid_encodeAll cs) (by simp)
      rwa [chars_encodeAll] at hsay
  · have hsame : recalled t = t := if_neg hlost
    rw [hsame]
    exact scalar_written (legible_iff.mpr ⟨h, hsame⟩)

end AgentKit.Yaml.Print
