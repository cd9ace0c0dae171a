import AgentKit.Text.Base64
import AgentKit.Yaml.Print
import Mathlib.Tactic
/-!
# Base 64

A text that is no valid UTF-8 cannot be printed as it is, so settings print it in base 64.  That it can be read
back is a step in the round trip of settings.

Three bytes are written as four characters, so a text is read back group by group (`decodeGroups_cons`); the
last group may be short and is filled up with `=`, which is no digit.  Line ends between the characters are
passed over, and the characters themselves are none, so a text that was cut into lines reads as the same text
(`filter_base64Lines`).

The arithmetic is all in two places: `decodeGroups_encode`, where a byte is found again from the digits it was
spread over, and the bounds on digits, which follow from the bounds on bytes.
-/

namespace AgentKit.Base64

/-- The characters base 64 is written with. -/
def alphabet : Bytes := "ABCDEFGHIJKLMNOPQRSTUVWXYZabcdefghijklmnopqrstuvwxyz0123456789+/="

/-- Each digit is read as the number it stands for.  There are 64 of them, so they can be tried. -/
theorem value?_digit : ∀ n < 64, value? (digit n) = some n := by decide

theorem digit_mem : ∀ n < 64, digit n ∈ alphabet := by decide +kernel

/-- The character that fills up a group is no digit, so a short group is not taken for a full one. -/
theorem value?_equals : value? (byte '=') = none := by decide

theorem toUInt8_eq {n : Nat} {a : UInt8} (h : n = a.toNat) : n.toUInt8 = a := by
  subst h
  exact UInt8.ofNat_toNat

/-- All that is written is of the alphabet.  The cases are those of the encoding: nothing, one byte or two bytes
left over, and three bytes with more behind. -/
theorem mem_alphabet_of_encode (t : Bytes) : ∀ b ∈ encode t, b ∈ alphabet := by
  fun_induction encode t with
  | case1 => simp
  -- A byte is less than 256, so what it is divided into is less than 64.
  | case2 a =>
    have := a.toNat_lt
    simp only [List.mem_cons, List.not_mem_nil, or_false]
    rintro b (rfl | rfl | rfl | rfl)
    · exact digit_mem _ (by omega)
    · exact digit_mem _ (by omega)
    · decide
    · decide
  | case3 a b =>
    have := a.toNat_lt
    have := b.toNat_lt
    simp only [List.mem_cons, List.not_mem_nil, or_false]
    rintro x (rfl | rfl | rfl | rfl)
    · exact digit_mem _ (by omega)
    · exact digit_mem _ (by omega)
    · exact digit_mem _ (by omega)
    · decide
  | case4 a b c t ih =>
    have := a.toNat_lt
    have := b.toNat_lt
    have := c.toNat_lt
    simp only [List.mem_cons]
    rintro x (rfl | rfl | rfl | rfl | h)
    · exact digit_mem _ (by omega)
    · exact digit_mem _ (by omega)
    · exact digit_mem _ (by omega)
    · exact digit_mem _ (by omega)
    · exact ih x h

/-- A full group in front of others. -/
theorem decodeGroups_cons {w x y z : Nat} (hw : w < 64) (hx : x < 64) (hy : y < 64) (hz : z < 64) (t : Bytes) :
    decodeGroups (digit w :: digit x :: digit y :: digit z :: t) =
      (decodeGroups t).map fun rest =>
        (w * 4 + x / 16).toUInt8 :: (x % 16 * 16 + y / 4).toUInt8 :: (y % 4 * 64 + z).toUInt8 :: rest := by
  cases t with
  -- The reader looks at what is behind the group to know whether it is the last, so the two cases are read
  -- differently.
  | nil =>
    conv_lhs => rw [decodeGroups, value?_digit w hw, value?_digit x hx, value?_digit y hy, value?_digit z hz]
    rfl
  | cons b t =>
    rw [decodeGroups, value?_digit w hw, value?_digit x hx, value?_digit y hy, value?_digit z hz]
    intro h
    cases h

/-- **Groups are read as they were written.**  The cases are those of the encoding, and in each the bytes are put
together again from quotients and remainders of the same byte. -/
theorem decodeGroups_encode (t : Bytes) : decodeGroups (encode t) = some t := by
  fun_induction encode t with
  | case1 => rfl
  | case2 a =>
    have := a.toNat_lt
    rw [decodeGroups, value?_digit _ (by omega), value?_digit _ (by omega), value?_equals]
    dsimp only
    rw [if_pos ⟨rfl, rfl⟩, toUInt8_eq (a := a) (by omega)]
  | case3 a b =>
    have := a.toNat_lt
    have := b.toNat_lt
    rw [decodeGroups, value?_digit _ (by omega), value?_digit _ (by omega), value?_digit _ (by omega), value?_equals]
    dsimp only
    rw [if_pos rfl, toUInt8_eq (a := a) (by omega), toUInt8_eq (a := b) (by omega)]
  | case4 a b c t ih =>
    have := a.toNat_lt
    have := b.toNat_lt
    have := c.toNat_lt
    rw [decodeGroups_cons (by omega) (by omega) (by omega) (by omega), ih, toUInt8_eq (a := a) (by omega),
      toUInt8_eq (a := b) (by omega), toUInt8_eq (a := c) (by omega)]
    rfl

/-- No character of the alphabet is a line end, so leaving line ends out does not touch the code. -/
theorem alphabet_plain : ∀ b ∈ alphabet, b ≠ byte '\n' ∧ b ≠ byte '\r' := by decide +kernel

/-- **What was written in base 64 is read back.** -/
theorem decode?_encode (t : Bytes) : decode? (encode t) = some t := by
  rw [decode?, List.filter_eq_self.mpr, decodeGroups_encode]
  intro b hb
  simpa using alphabet_plain b (mem_alphabet_of_encode t b hb)

end AgentKit.Base64

namespace AgentKit.Yaml.Print

/-- Line ends do not count.  The fuel is the length of the text, and each line takes some of both. -/
theorem filter_base64Lines (fuel : Nat) (t : Bytes) (hfuel : t.length ≤ fuel)
    (hplain : ∀ b ∈ t, b ≠ byte '\n' ∧ b ≠ byte '\r') :
    (base64Lines fuel t).filter (fun b => b ≠ byte '\n' ∧ b ≠ byte '\r') = t := by
  induction fuel generalizing t with
  | zero =>
    rw [List.eq_nil_of_length_eq_zero (Nat.le_zero.mp hfuel)]
    rfl
  | succ fuel ih =>
    rw [base64Lines]
    cases t with
    | nil => rfl
    | cons b t =>
      rw [if_neg (by simp), List.filter_append, List.filter_cons_of_neg (by simp),
        ih ((b :: t).drop 70) (by simp at hfuel ⊢; omega) fun x hx => hplain x (List.mem_of_mem_drop hx),
        List.filter_eq_self.mpr, List.take_append_drop]
      intro x hx
      simpa using hplain x (List.mem_of_mem_take hx)

theorem mem_base64Lines {b : UInt8} (fuel : Nat) (t : Bytes) (h : b ∈ base64Lines fuel t) : b ∈ t ∨ b = byte '\n' := by
  induction fuel generalizing t with
  | zero => simp [base64Lines] at h
  | succ fuel ih =>
    rw [base64Lines] at h
    split at h
    · simp at h
    · rcases List.mem_append.mp h with hb | hb
      · exact Or.inl (List.mem_of_mem_take hb)
      · rcases List.mem_cons.mp hb with hb | hb
        · exact Or.inr hb
        · rcases ih _ hb with hb | hb
          · exact Or.inl (List.mem_of_mem_drop hb)
          · exact Or.inr hb

theorem head?_base64Lines (fuel : Nat) (t : Bytes) : (base64Lines (fuel + 1) t).head? = t.head? := by
  cases t with
  | nil => rfl
  | cons b t => rfl

/-- The base 64 of a text, cut into lines if it is long. -/
def armored (t : Bytes) : Bytes :=
  let code := Base64.encode t
  if code.length < 70 then code else base64Lines code.length code

/-- **What was written is read back**, cut into lines or not. -/
theorem decode?_armored (t : Bytes) : Base64.decode? (armored t) = some t := by
  have hplain := fun b hb => Base64.alphabet_plain b (Base64.mem_alphabet_of_encode t b hb)
  rw [armored]
  split
  · exact Base64.decode?_encode t
  · rw [Base64.decode?, filter_base64Lines _ _ (Nat.le_refl _) hplain, Base64.decodeGroups_encode]

/-- What can be in the code, for those who have to know that it needs no quotes. -/
theorem mem_armored {t : Bytes} : ∀ b ∈ armored t, b ∈ Base64.alphabet ∨ b = byte '\n' := by
  intro b hb
  rw [armored] at hb
  split at hb
  · exact Or.inl (Base64.mem_alphabet_of_encode t b hb)
  · exact (mem_base64Lines _ _ hb).imp_left (Base64.mem_alphabet_of_encode t b)

/-- It starts with a character of the alphabet and not with a line end, so as a block it shows its indentation. -/
theorem head?_armored {t : Bytes} (ht : t ≠ []) : ∃ b ∈ Base64.alphabet, (armored t).head? = some b := by
  have hdecode := Base64.decodeGroups_encode t
  have hmem := Base64.mem_alphabet_of_encode t
  rw [armored]
  cases hcode : Base64.encode t with
  | nil =>
    rw [hcode] at hdecode
    cases hdecode
    exact absurd rfl ht
  | cons b code =>
    refine ⟨b, hmem b (by rw [hcode]; exact List.mem_cons_self), ?_⟩
    split
    · rfl
    · exact head?_base64Lines _ _

end AgentKit.Yaml.Print
