import AgentKit.Text.Utf8
import AgentKit.Yaml.Input
import Mathlib.Tactic
/-!
# Characters and their bytes

A character is spelled by one to four bytes, in the shortest form that has room for its number.  `Spells` says
so with numbers only, without the order in which a reader looks at the bytes.  Three functions know these
forms: the encoder, the reader that finds the first character of any text, and the decoder of documents.  All
three are compared with `Spells` and never with each other.

1. One character (`spells_encode`, `first_of_spells`, `spells_of_first`).
2. **A text without stray bytes is that of its characters** (`chars_encodeAll`, `encodeAll_chars`).
3. **A document reads as the characters it was written from** (`Input.ofBytes_encodeAll`).

Not every number is that of a character: those from `0xD800` to `0xDFFF` are left out, and there is an end at
`0x110000`.  The two readers take care of this differently.  The reader of texts has narrower bounds for the
second byte behind some first bytes, so that no wrong number can come up; the decoder of documents computes the
number and then looks at it.  The rules of `Spells` need neither, because `c` is a character to begin with.
-/

namespace AgentKit.Utf8

variable {c : Char} {b x y z : UInt8} {rest t : Bytes} {n : Nat}

/-! ## 1. One character

The bounds are stated about the numbers of bytes and characters, so that `omega` can settle them.  The divisions
and remainders in the formulas are the shifts and masks of the usual description. -/

/-- A byte behind the first one of a character.  Six bits of the number are in it. -/
def Tail (x : UInt8) : Prop := 0x80 ≤ x.toNat ∧ x.toNat < 0xC0

/-- The bytes that spell a character: the shortest of the four forms that has room for its number. -/
inductive Spells (c : Char) : Bytes → Prop
  | one {b : UInt8} : b.toNat < 0x80 → c.toNat = b.toNat → Spells c [b]
  | two {b x : UInt8} : 0xC2 ≤ b.toNat → b.toNat < 0xE0 → Tail x →
      c.toNat = b.toNat % 32 * 64 + x.toNat % 64 → Spells c [b, x]
  | three {b x y : UInt8} : 0xE0 ≤ b.toNat → b.toNat < 0xF0 → Tail x → Tail y → 0x800 ≤ c.toNat →
      c.toNat = b.toNat % 16 * 4096 + x.toNat % 64 * 64 + y.toNat % 64 → Spells c [b, x, y]
  | four {b x y z : UInt8} : 0xF0 ≤ b.toNat → b.toNat < 0xF5 → Tail x → Tail y → Tail z → 0x10000 ≤ c.toNat →
      c.toNat = b.toNat % 8 * 262144 + x.toNat % 64 * 4096 + y.toNat % 64 * 64 + z.toNat % 64 →
      Spells c [b, x, y, z]

theorem toNat_valid (c : Char) : c.toNat < 0xD800 ∨ 0xDFFF < c.toNat ∧ c.toNat < 0x110000 := c.valid

theorem toNat_ofNat_small {n : Nat} (h : n < 256) : (UInt8.ofNat n).toNat = n := by
  rw [UInt8.toNat_ofNat', Nat.mod_eq_of_lt h]

theorem encode_def (c : Char) : encode c =
    if c.toNat ≤ 0x7F then [UInt8.ofNat c.toNat]
    else if c.toNat ≤ 0x7FF then
      [UInt8.ofNat (c.toNat / 64 % 32 + 0xC0), UInt8.ofNat (c.toNat % 64 + 0x80)]
    else if c.toNat ≤ 0xFFFF then
      [UInt8.ofNat (c.toNat / 4096 % 16 + 0xE0), UInt8.ofNat (c.toNat / 64 % 64 + 0x80),
        UInt8.ofNat (c.toNat % 64 + 0x80)]
    else
      [UInt8.ofNat (c.toNat / 262144 % 8 + 0xF0), UInt8.ofNat (c.toNat / 4096 % 64 + 0x80),
        UInt8.ofNat (c.toNat / 64 % 64 + 0x80), UInt8.ofNat (c.toNat % 64 + 0x80)] := rfl

/-- The encoder chooses the form by the number of the character, and the number fits. -/
theorem spells_encode (c : Char) : Spells c (encode c) := by
  have hv := toNat_valid c
  rw [encode_def]
  split
  · exact .one (by rw [toNat_ofNat_small] <;> omega) (by rw [toNat_ofNat_small]; omega)
  · split
    · refine .two ?_ ?_ ⟨?_, ?_⟩ ?_ <;> simp only [UInt8.toNat_ofNat'] <;> omega
    · split
      · refine .three ?_ ?_ ⟨?_, ?_⟩ ⟨?_, ?_⟩ (by omega) ?_ <;> simp only [UInt8.toNat_ofNat'] <;> omega
      · refine .four ?_ ?_ ⟨?_, ?_⟩ ⟨?_, ?_⟩ ⟨?_, ?_⟩ (by omega) ?_ <;> simp only [UInt8.toNat_ofNat'] <;> omega

theorem ofNat_eq_of_toNat {n : Nat} (h : n = b.toNat) : UInt8.ofNat n = b := by
  rw [h, UInt8.ofNat_toNat]

/-- **There is no other way to spell a character.**  A longer form would be one for larger numbers. -/
theorem Spells.eq (h : Spells c t) : t = encode c := by
  rw [encode_def]
  cases h with
  | one hb hc => rw [if_pos (by omega), ofNat_eq_of_toNat hc]
  | two hlo hhi hx hc =>
    obtain ⟨hx, hx'⟩ := hx
    rw [if_neg (by omega), if_pos (by omega), ofNat_eq_of_toNat, ofNat_eq_of_toNat]
    all_goals omega
  | three hlo hhi hx hy hlow hc =>
    obtain ⟨hx, hx'⟩ := hx
    obtain ⟨hy, hy'⟩ := hy
    rw [if_neg (by omega), if_neg (by omega), if_pos (by omega), ofNat_eq_of_toNat, ofNat_eq_of_toNat,
      ofNat_eq_of_toNat]
    all_goals omega
  | four hlo hhi hx hy hz hlow hc =>
    obtain ⟨hx, hx'⟩ := hx
    obtain ⟨hy, hy'⟩ := hy
    obtain ⟨hz, hz'⟩ := hz
    rw [if_neg (by omega), if_neg (by omega), if_neg (by omega), ofNat_eq_of_toNat, ofNat_eq_of_toNat,
      ofNat_eq_of_toNat, ofNat_eq_of_toNat]
    all_goals omega

theorem tail_iff {lo hi : UInt8} : tail lo hi x = true ↔ lo.toNat ≤ x.toNat ∧ x.toNat ≤ hi.toNat := by
  simp [tail, UInt8.le_iff_toNat_le]

/-- The usual bounds are those of any byte behind the first. -/
theorem tail_plain : tail 0x80 0xBF x = true ↔ Tail x := by
  rw [tail_iff, Tail]
  exact and_congr_right fun _ => Nat.lt_succ_iff.symm

/-- The second byte has narrower bounds behind the first and the last of the leading bytes. -/
theorem tail_narrow {first lo last hi : UInt8} (hlo : 0x80 ≤ lo.toNat) (hhi : hi.toNat ≤ 0xBF) :
    tail (if b = first then lo else 0x80) (if b = last then hi else 0xBF) x = true ↔
      Tail x ∧ (b.toNat = first.toNat → lo.toNat ≤ x.toNat) ∧ (b.toNat = last.toNat → x.toNat ≤ hi.toNat) := by
  have h80 : (0x80 : UInt8).toNat = 0x80 := rfl
  have hBF : (0xBF : UInt8).toNat = 0xBF := rfl
  rw [tail_iff, Tail, UInt8.toNat_inj, UInt8.toNat_inj, apply_ite UInt8.toNat, apply_ite UInt8.toNat, h80, hBF]
  constructor
  · rintro ⟨hmin, hmax⟩
    refine ⟨⟨?_, ?_⟩, ?_, ?_⟩
    · split at hmin <;> omega
    · split at hmax <;> omega
    · intro hb
      rwa [if_pos hb] at hmin
    · intro hb
      rwa [if_pos hb] at hmax
  · rintro ⟨⟨hmin, hmax⟩, hfirst, hlast⟩
    constructor
    · split
      · exact hfirst ‹_›
      · exact hmin
    · split
      · exact hlast ‹_›
      · exact Nat.le_of_lt_succ hmax

/-! The four forms are told apart by the first byte. -/

theorem ofNat_toNat_eq {n : Nat} (h : c.toNat = n) : Char.ofNat n = c := by
  rw [← h, Char.ofNat_toNat]

theorem toNat_ofNat_valid {n : Nat} (h : n < 0xD800 ∨ 0xDFFF < n ∧ n < 0x110000) : (Char.ofNat n).toNat = n := by
  rw [Char.ofNat, dif_pos h]
  rfl

theorem first_one (h : b.toNat < 0x80) (rest : Bytes) : first b rest = some (Char.ofNat b.toNat, 0) := by
  have h1 : b < 0x80 := h
  unfold first
  rw [if_pos h1]

theorem first_two (h : 0xC2 ≤ b.toNat) (h' : b.toNat < 0xE0) (x : UInt8) (rest : Bytes) :
    first b (x :: rest) =
      if tail 0x80 0xBF x then some (Char.ofNat (b.toNat % 32 * 64 + payload x), 1) else none := by
  have h1 : ¬ b < 0x80 := fun hb => absurd (Nat.lt_of_le_of_lt h hb) (by decide)
  have h2 : 0xC2 ≤ b ∧ b ≤ 0xDF := ⟨h, Nat.le_of_lt_succ h'⟩
  rw [first, if_neg h1, if_pos h2]

theorem first_three (h : 0xE0 ≤ b.toNat) (h' : b.toNat < 0xF0) (x y : UInt8) (rest : Bytes) :
    first b (x :: y :: rest) =
      if tail (if b = 0xE0 then 0xA0 else 0x80) (if b = 0xED then 0x9F else 0xBF) x && tail 0x80 0xBF y then
        some (Char.ofNat (b.toNat % 16 * 4096 + payload x * 64 + payload y), 2)
      else none := by
  have h1 : ¬ b < 0x80 := fun hb => absurd (Nat.lt_of_le_of_lt h hb) (by decide)
  have h2 : ¬ (0xC2 ≤ b ∧ b ≤ 0xDF) := fun hb => absurd (Nat.le_trans h hb.2) (by decide)
  have h3 : 0xE0 ≤ b ∧ b ≤ 0xEF := ⟨h, Nat.le_of_lt_succ h'⟩
  rw [first, if_neg h1, if_neg h2, if_pos h3]

theorem first_four (h : 0xF0 ≤ b.toNat) (h' : b.toNat < 0xF5) (x y z : UInt8) (rest : Bytes) :
    first b (x :: y :: z :: rest) =
      if tail (if b = 0xF0 then 0x90 else 0x80) (if b = 0xF4 then 0x8F else 0xBF) x && tail 0x80 0xBF y &&
          tail 0x80 0xBF z then
        some (Char.ofNat (b.toNat % 8 * 262144 + payload x * 4096 + payload y * 64 + payload z), 3)
      else none := by
  have h1 : ¬ b < 0x80 := fun hb => absurd (Nat.lt_of_le_of_lt h hb) (by decide)
  have h2 : ¬ (0xC2 ≤ b ∧ b ≤ 0xDF) := fun hb => absurd (Nat.le_trans h hb.2) (by decide)
  have h3 : ¬ (0xE0 ≤ b ∧ b ≤ 0xEF) := fun hb => absurd (Nat.le_trans h hb.2) (by decide)
  have h4 : 0xF0 ≤ b ∧ b ≤ 0xF4 := ⟨h, Nat.le_of_lt_succ h'⟩
  rw [first, if_neg h1, if_neg h2, if_neg h3, if_pos h4]

/-- A spelled character is found at the start of a text. -/
theorem first_of_spells (h : Spells c (b :: t)) (rest : Bytes) : first b (t ++ rest) = some (c, t.length) := by
  have hv := toNat_valid c
  cases h with
  | one hb hc =>
    rw [first_one hb, ofNat_toNat_eq hc]
    rfl
  | @two _ x hlo hhi hx hc =>
    rw [List.cons_append, first_two hlo hhi, if_pos (tail_plain.mpr hx), payload, ofNat_toNat_eq hc]
    rfl
  | @three _ x y hlo hhi hx hy hlow hc =>
    -- Behind `0xE0` the number must not fit into two bytes, and behind `0xED` it must not be in the gap.
    have hnarrow : tail (if b = 0xE0 then 0xA0 else 0x80) (if b = 0xED then 0x9F else 0xBF) x = true := by
      refine (tail_narrow (by decide) (by decide)).mpr ⟨hx, ?_, ?_⟩
      · intro (hb : b.toNat = 0xE0)
        show 0xA0 ≤ x.toNat
        obtain ⟨hx, hx'⟩ := hx
        omega
      · intro (hb : b.toNat = 0xED)
        show x.toNat ≤ 0x9F
        obtain ⟨hx, hx'⟩ := hx
        omega
    rw [List.cons_append, List.cons_append, first_three hlo hhi, hnarrow, tail_plain.mpr hy, payload, payload,
      ofNat_toNat_eq hc]
    rfl
  | @four _ x y z hlo hhi hx hy hz hlow hc =>
    -- Behind `0xF0` the number must not fit into three bytes, and behind `0xF4` it must not be beyond the last.
    have hnarrow : tail (if b = 0xF0 then 0x90 else 0x80) (if b = 0xF4 then 0x8F else 0xBF) x = true := by
      refine (tail_narrow (by decide) (by decide)).mpr ⟨hx, ?_, ?_⟩
      · intro (hb : b.toNat = 0xF0)
        show 0x90 ≤ x.toNat
        obtain ⟨hx, hx'⟩ := hx
        omega
      · intro (hb : b.toNat = 0xF4)
        show x.toNat ≤ 0x8F
        obtain ⟨hx, hx'⟩ := hx
        omega
    rw [List.cons_append, List.cons_append, List.cons_append, first_four hlo hhi, hnarrow, tail_plain.mpr hy,
      tail_plain.mpr hz, payload, payload, payload, ofNat_toNat_eq hc]
    rfl

/-- The first byte of a character says how many bytes are behind it. -/
theorem first_cases (h : first b rest = some (c, n)) :
    b.toNat < 0x80 ∨ (0xC2 ≤ b.toNat ∧ b.toNat < 0xE0 ∧ ∃ x r, rest = x :: r) ∨
    (0xE0 ≤ b.toNat ∧ b.toNat < 0xF0 ∧ ∃ x y r, rest = x :: y :: r) ∨
    (0xF0 ≤ b.toNat ∧ b.toNat < 0xF5 ∧ ∃ x y z r, rest = x :: y :: z :: r) := by
  unfold first at h
  split at h
  · rename_i hb
    exact Or.inl hb
  split at h
  · rename_i hb
    split at h
    · exact Or.inr (Or.inl ⟨hb.1, Nat.lt_succ_of_le hb.2, _, _, rfl⟩)
    · cases h
  split at h
  · rename_i hb
    split at h
    · exact Or.inr (Or.inr (Or.inl ⟨hb.1, Nat.lt_succ_of_le hb.2, _, _, _, rfl⟩))
    · cases h
  split at h
  · rename_i hb
    split at h
    · exact Or.inr (Or.inr (Or.inr ⟨hb.1, Nat.lt_succ_of_le hb.2, _, _, _, _, rfl⟩))
    · cases h
  · cases h

/-- A character found at the start of a text is spelled there. -/
theorem spells_of_first (h : first b rest = some (c, n)) : n ≤ rest.length ∧ Spells c (b :: rest.take n) := by
  rcases first_cases h with hb | ⟨hlo, hhi, x, r, rfl⟩ | ⟨hlo, hhi, x, y, r, rfl⟩ | ⟨hlo, hhi, x, y, z, r, rfl⟩
  · rw [first_one hb] at h
    cases h
    exact ⟨Nat.zero_le _, .one hb (toNat_ofNat_valid (by omega))⟩
  · rw [first_two hlo hhi] at h
    obtain ⟨hx, heq⟩ := Option.ite_none_right_eq_some.mp h
    cases heq
    refine ⟨by simp, .two hlo hhi (tail_plain.mp hx) (toNat_ofNat_valid ?_)⟩
    rw [payload]
    omega
  · rw [first_three hlo hhi] at h
    obtain ⟨hxy, heq⟩ := Option.ite_none_right_eq_some.mp h
    rw [Bool.and_eq_true] at hxy
    -- The narrow bounds are what makes the number that of a character.
    obtain ⟨⟨hx, hx'⟩, hlow, hgap⟩ := (tail_narrow (by decide) (by decide)).mp hxy.1
    have hlow : b.toNat = 0xE0 → 0xA0 ≤ x.toNat := hlow
    have hgap : b.toNat = 0xED → x.toNat ≤ 0x9F := hgap
    obtain ⟨hy, hy'⟩ := tail_plain.mp hxy.2
    cases heq
    have hvalue : (Char.ofNat (b.toNat % 16 * 4096 + payload x * 64 + payload y)).toNat =
        b.toNat % 16 * 4096 + payload x * 64 + payload y := by
      refine toNat_ofNat_valid ?_
      rw [payload, payload]
      omega
    refine ⟨by simp, .three hlo hhi ⟨hx, hx'⟩ ⟨hy, hy'⟩ ?_ hvalue⟩
    rw [hvalue, payload, payload]
    omega
  · rw [first_four hlo hhi] at h
    obtain ⟨hxyz, heq⟩ := Option.ite_none_right_eq_some.mp h
    rw [Bool.and_eq_true, Bool.and_eq_true] at hxyz
    obtain ⟨⟨hx, hx'⟩, hlow, hhigh⟩ := (tail_narrow (by decide) (by decide)).mp hxyz.1.1
    have hlow : b.toNat = 0xF0 → 0x90 ≤ x.toNat := hlow
    have hhigh : b.toNat = 0xF4 → x.toNat ≤ 0x8F := hhigh
    obtain ⟨hy, hy'⟩ := tail_plain.mp hxyz.1.2
    obtain ⟨hz, hz'⟩ := tail_plain.mp hxyz.2
    cases heq
    have hvalue : (Char.ofNat (b.toNat % 8 * 262144 + payload x * 4096 + payload y * 64 + payload z)).toNat =
        b.toNat % 8 * 262144 + payload x * 4096 + payload y * 64 + payload z := by
      refine toNat_ofNat_valid ?_
      rw [payload, payload, payload]
      omega
    refine ⟨by simp, .four hlo hhi ⟨hx, hx'⟩ ⟨hy, hy'⟩ ⟨hz, hz'⟩ ?_ hvalue⟩
    rw [hvalue, payload, payload, payload]
    omega

/-! ## 2. Texts

A text may have stray bytes, which belong to no character; they are kept as such when it is read.  Reading goes
on behind each character or stray byte, and the function that does it counts the bytes it still has to pass over. -/

/-- Bytes that belong to a character are passed over, whatever they are. -/
theorem runesFrom_drop (t rest : Bytes) : runesFrom t.length (t ++ rest) = runesFrom 0 rest := by
  induction t with
  | nil => rfl
  | cons b t ih => rw [List.length_cons, List.cons_append, runesFrom, ih]

/-- Behind the first character the rest of the text is read on its own. -/
theorem runesFrom_of_first (h : first b t = some (c, n)) : runesFrom n t = runes (t.drop n) := by
  have hdrop := runesFrom_drop (t.take n) (t.drop n)
  rwa [List.take_append_drop, List.length_take_of_le (spells_of_first h).1] at hdrop

theorem encode_eq_cons (c : Char) : ∃ b t, encode c = b :: t := by
  cases h : encode c with
  | nil => exact absurd h String.utf8EncodeChar_ne_nil
  | cons b t => exact ⟨b, t, rfl⟩

/-- An encoded character is read, and then the rest of the text. -/
theorem runes_encode (c : Char) (rest : Bytes) : runes (encode c ++ rest) = .char c :: runes rest := by
  obtain ⟨b, t, heq⟩ := encode_eq_cons c
  have hspells := spells_encode c
  rw [heq] at hspells ⊢
  rw [runes, List.cons_append, runesFrom, first_of_spells hspells]
  dsimp only
  rw [runesFrom_drop, runes]

theorem runes_encodeAll (cs : List Char) : runes (encodeAll cs) = cs.map .char := by
  induction cs with
  | nil => rfl
  | cons c cs ih => rw [encodeAll, List.flatMap_cons, runes_encode, List.map_cons, ← encodeAll, ih]

/-- **What was encoded is read back**, by the last lemma for each character. -/
theorem chars_encodeAll (cs : List Char) : chars (encodeAll cs) = cs := by
  rw [chars, runes_encodeAll, List.map_map]
  exact List.map_id cs

theorem isValid_encodeAll (cs : List Char) : isValid (encodeAll cs) = true := by
  rw [isValid, runes_encodeAll, List.all_map]
  simp

theorem encodeAll_cons (c : Char) (cs : List Char) : encodeAll (c :: cs) = encode c ++ encodeAll cs :=
  List.flatMap_cons

theorem encodeAll_append (a b : List Char) : encodeAll (a ++ b) = encodeAll a ++ encodeAll b :=
  List.flatMap_append

/-- There are at least as many bytes as characters, which is the bound that decoding needs for its fuel. -/
theorem length_le_encodeAll (cs : List Char) : cs.length ≤ (encodeAll cs).length := by
  induction cs with
  | nil => exact Nat.le_refl _
  | cons c cs ih =>
    obtain ⟨b, t, heq⟩ := encode_eq_cons c
    rw [encodeAll, List.flatMap_cons, ← encodeAll, heq]
    simp only [List.length_cons, List.length_append]
    omega

/-! Behind its first byte a character has tail bytes only.  So where a text goes on with an ASCII byte, no
character reaches beyond that byte, and the text may be cut there.  Padding a cell of a table relies on it, and
so do path names, whose parts stand between slashes. -/

theorem Spells.tail (h : Spells c (x :: t)) : ∀ y ∈ t, 0x80 ≤ y.toNat := by
  cases h with
  | one => simp
  | two _ _ hx => simpa using hx.1
  | three _ _ hx hy => simpa using ⟨hx.1, hy.1⟩
  | four _ _ hx hy hz => simpa using ⟨hx.1, hy.1, hz.1⟩

/-- No character goes on over an ASCII byte, so what follows does not matter. -/
theorem first_append_ascii (hb : b.toNat < 0x80) : first x (t ++ b :: rest) = first x t := by
  cases hlong : first x (t ++ b :: rest) with
  | some r =>
    obtain ⟨c, n⟩ := r
    obtain ⟨hn, hspells⟩ := spells_of_first hlong
    -- The character would have the ASCII byte among its tail bytes.
    have hle : n ≤ t.length := by
      by_contra hlt
      have hmem : b ∈ (t ++ b :: rest).take n := by
        obtain ⟨k, rfl⟩ := Nat.exists_eq_add_of_lt (Nat.lt_of_not_le hlt)
        rw [Nat.add_assoc, List.take_length_add_append]
        exact List.mem_append_right _ List.mem_cons_self
      exact absurd (hspells.tail b hmem) (by omega)
    rw [List.take_append_of_le_length hle] at hspells
    have hshort := first_of_spells hspells (t.drop n)
    rw [List.take_append_drop, List.length_take_of_le hle] at hshort
    exact hshort.symm
  -- Nothing longer is found, so nothing shorter either, for that would be found in the longer text as well.
  | none =>
    cases hshort : first x t with
    | none => rfl
    | some r =>
      obtain ⟨c, n⟩ := r
      obtain ⟨hn, hspells⟩ := spells_of_first hshort
      have hsome := first_of_spells hspells (t.drop n ++ b :: rest)
      rw [← List.append_assoc, List.take_append_drop, hlong] at hsome
      cases hsome

/-- The induction for the next theorem, at any place within the text.  The bytes to be passed over are all before
the ASCII one. -/
theorem runesFrom_append_ascii (hb : b.toNat < 0x80) (rest : Bytes) : ∀ (t : Bytes) {skip : Nat},
    skip ≤ t.length → runesFrom skip (t ++ b :: rest) = runesFrom skip t ++ runes (b :: rest)
  | [], skip, h => by
    obtain rfl : skip = 0 := Nat.le_zero.mp h
    rfl
  | x :: t, skip + 1, h => runesFrom_append_ascii hb rest t (Nat.le_of_succ_le_succ h)
  | x :: t, 0, _ => by
    rw [List.cons_append, runesFrom, runesFrom, first_append_ascii hb]
    cases hf : first x t with
    | none =>
      dsimp only
      rw [runesFrom_append_ascii hb rest t (Nat.zero_le _), List.cons_append]
    | some r =>
      dsimp only
      rw [runesFrom_append_ascii hb rest t (spells_of_first hf).1, List.cons_append]

/-- **The characters before an ASCII byte are those of the text before it**, stray bytes included. -/
theorem runes_append_ascii (hb : b.toNat < 0x80) (t rest : Bytes) :
    runes (t ++ b :: rest) = runes t ++ runes (b :: rest) :=
  runesFrom_append_ascii hb rest t (Nat.zero_le _)

theorem runes_cons_ascii (hb : b.toNat < 0x80) (rest : Bytes) :
    runes (b :: rest) = .char (Char.ofNat b.toNat) :: runes rest := by
  rw [runes, runesFrom, first_one hb]
  rfl

/-- **A text may be cut at an ASCII byte**: it has no stray bytes if neither part has. -/
theorem isValid_append_ascii (hb : b.toNat < 0x80) (t rest : Bytes) :
    isValid (t ++ b :: rest) = true ↔ isValid t = true ∧ isValid rest = true := by
  rw [isValid, runes_append_ascii hb, runes_cons_ascii hb]
  simp [isValid]

/-- Each of the first 128 bytes is a character on its own. -/
theorem encodeAll_ascii (t : Bytes) (h : ∀ b ∈ t, b.toNat < 0x80) :
    encodeAll (t.map fun b => Char.ofNat b.toNat) = t := by
  induction t with
  | nil => rfl
  | cons b t ih =>
    have hb : b.toNat < 0x80 := h b List.mem_cons_self
    have hnat : (Char.ofNat b.toNat).toNat = b.toNat := toNat_ofNat_valid (by omega)
    rw [List.map_cons, encodeAll_cons, ih fun x hx => h x (List.mem_cons_of_mem _ hx), encode_def, hnat,
      if_pos (by omega), UInt8.ofNat_toNat]
    rfl

/-- **A text without stray bytes is that of its characters.** -/
theorem encodeAll_chars (t : Bytes) (h : isValid t = true) : encodeAll (chars t) = t := by
  -- By induction on the length: behind the first character the text is shorter.
  induction hn : t.length using Nat.strong_induction_on generalizing t with
  | _ n ih =>
    cases t with
    | nil => rfl
    | cons b t =>
      rw [isValid, runes, runesFrom] at h
      rw [chars, runes, runesFrom]
      cases hf : first b t with
      | none =>
        rw [hf] at h
        cases h
      | some r =>
        obtain ⟨c, k⟩ := r
        obtain ⟨hk, hspells⟩ := spells_of_first hf
        rw [hf] at h
        dsimp only at h ⊢
        rw [runesFrom_of_first hf] at h ⊢
        have ih' := ih (t.drop k).length (by simp at hn ⊢; omega) (t.drop k) h rfl
        rw [List.map_cons, encodeAll, List.flatMap_cons, ← encodeAll, ← chars, ih', Rune.value, ← hspells.eq,
          List.cons_append, List.take_append_drop]

end AgentKit.Utf8

/-! ## 3. Characters of a document

Documents are decoded with their own code, in blocks, and what is wrong with the bytes is reported with its
position.  Of this only the good case is needed: a document that was encoded from allowed characters.  It must
start with an ASCII character, since the first bytes decide which of the encodings is taken. -/

namespace AgentKit.Yaml.Input

open Utf8

variable {c : Char} {b : UInt8} {t : Bytes} {w : Nat}

/-- One more byte brings six more bits. -/
theorem joinTail_of_tail {x : UInt8} (hx : Tail x) (n : Nat) (t : Bytes) :
    joinTail n (x :: t) = joinTail (n * 64 + x.toNat % 64) t := by
  obtain ⟨hx, hx'⟩ := hx
  rw [joinTail, if_pos (by omega)]

theorem width_one (h : b.toNat < 0x80) : width b = some 1 := by
  have h1 : b < 0x80 := h
  rw [width, if_pos h1]

/-- The number of leading ones in the first byte is the number of bytes. -/
theorem width_more (h : 0x80 ≤ b.toNat) : width b =
    if b.toNat / 32 = 6 then some 2 else if b.toNat / 16 = 14 then some 3
    else if b.toNat / 8 = 30 then some 4 else none := by
  have h1 : ¬ b < 0x80 := Nat.not_lt.mpr h
  rw [width, if_neg h1]

/-- A sequence that is neither too long for its character nor too short is read. -/
theorem nextUtf8_ok (hw : width b = some w) (hlen : t.length + 1 = w)
    (hjoin : joinTail (if w = 1 then b.toNat else b.toNat % Nat.pow 2 (7 - w)) t = .ok c.toNat)
    (hlong : ¬ ((w = 2 ∧ c.toNat < 0x80) ∨ (w = 3 ∧ c.toNat < 0x800) ∨ (w = 4 ∧ c.toNat < 0x10000)))
    (rest : Bytes) : nextUtf8 b (t ++ rest) = some (.ok (c.toNat, w)) := by
  have hv := toNat_valid c
  have htake : (t ++ rest).take (w - 1) = t := List.take_left' (by omega)
  -- The number is that of a character, so it is in neither of the forbidden ranges.
  have hvalid : ¬ ((0xD800 ≤ c.toNat ∧ c.toNat ≤ 0xDFFF) ∨ c.toNat > 0x10FFFF) := by omega
  unfold nextUtf8
  rw [hw]
  dsimp only
  rw [htake, if_neg (by omega), hjoin]
  simp only [bind, Except.bind]
  rw [if_neg hlong, if_neg hvalid]
  rfl

/-- What the bytes of one character give. -/
theorem nextUtf8_of_spells (h : Spells c (b :: t)) (rest : Bytes) :
    nextUtf8 b (t ++ rest) = some (.ok (c.toNat, t.length + 1)) := by
  cases h with
  | one hb hc => exact nextUtf8_ok (width_one hb) rfl (by rw [hc]; rfl) (by omega) rest
  | two hlo hhi hx hc =>
    refine nextUtf8_ok (w := 2) ?_ rfl ?_ (by omega) rest
    · rw [width_more (by omega), if_pos (by omega)]
    · rw [joinTail_of_tail hx, hc]
      rfl
  | three hlo hhi hx hy hlow hc =>
    refine nextUtf8_ok (w := 3) ?_ rfl ?_ (by omega) rest
    · rw [width_more (by omega), if_neg (by omega), if_pos (by omega)]
    · rw [joinTail_of_tail hx, joinTail_of_tail hy, hc, joinTail, if_neg (by decide)]
      simp only [Except.ok.injEq, Nat.pow_eq, Nat.reducePow, Nat.reduceSub]
      omega
  | four hlo hhi hx hy hz hlow hc =>
    refine nextUtf8_ok (w := 4) ?_ rfl ?_ (by omega) rest
    · rw [width_more (by omega), if_neg (by omega), if_neg (by omega), if_pos (by omega)]
    · rw [joinTail_of_tail hx, joinTail_of_tail hy, joinTail_of_tail hz, hc, joinTail, if_neg (by decide)]
      simp only [Except.ok.injEq, Nat.pow_eq, Nat.reducePow, Nat.reduceSub]
      omega

/-- Decoding gives back the characters, whatever blocks they stand in. -/
theorem decodeFrom_encodeAll (cs : List Char) (hallowed : ∀ c ∈ cs, allowed c.toNat = true)
    (fuel blockLeft before count : Nat) (hfuel : cs.length < fuel) :
    decodeFrom .utf8 fuel blockLeft before count (encodeAll cs) = (cs, none) := by
  induction cs generalizing fuel blockLeft before count with
  | nil =>
    cases fuel with
    | zero => rfl
    | succ fuel => rfl
  | cons c cs ih =>
    cases fuel with
    | zero => omega
    | succ fuel =>
      obtain ⟨b, t, heq⟩ := encode_eq_cons c
      have hnext := nextUtf8_of_spells (heq ▸ spells_encode c) (encodeAll cs)
      rw [encodeAll, List.flatMap_cons, ← encodeAll, heq, List.cons_append, decodeFrom, next, if_pos rfl, hnext]
      dsimp only
      rw [if_pos (hallowed c List.mem_cons_self), Nat.add_sub_cancel, List.drop_left,
        ih (fun c' hc' => hallowed c' (List.mem_cons_of_mem _ hc')) _ _ _ _ (by simpa using hfuel),
        Char.ofNat_toNat]

/-- No byte order mark starts with an ASCII byte. -/
theorem encodingOf_ascii (h : b.toNat < 0x80) (t : Bytes) : encodingOf (b :: t) = (.utf8, 0) := by
  unfold encodingOf
  split
  · rename_i heq
    cases heq
    exact absurd h (by decide)
  · rename_i heq
    cases heq
    exact absurd h (by decide)
  · rename_i heq
    cases heq
    exact absurd h (by decide)
  · rfl

/-- **A document of allowed characters reads as these characters**, if it starts with an ASCII one. -/
theorem ofBytes_encodeAll (c : Char) (cs : List Char) (hc : c.toNat < 0x80)
    (hallowed : ∀ x ∈ c :: cs, allowed x.toNat = true) : ofBytes (encodeAll (c :: cs)) = ⟨c :: cs, none⟩ := by
  have henc : encodingOf (encodeAll (c :: cs)) = (.utf8, 0) := by
    have hone : encode c = [UInt8.ofNat c.toNat] := by
      rw [encode_def, if_pos (by omega)]
    rw [encodeAll, List.flatMap_cons, hone]
    exact encodingOf_ascii (by rw [toNat_ofNat_small] <;> omega) _
  rw [ofBytes, henc]
  dsimp only
  rw [List.drop_zero, decodeFrom_encodeAll _ hallowed]
  exact Nat.lt_succ_of_le (length_le_encodeAll _)

end AgentKit.Yaml.Input
