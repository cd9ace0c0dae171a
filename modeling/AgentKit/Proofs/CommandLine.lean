import AgentKit.Flags
import AgentKit.Proofs.Places
import Mathlib.Tactic
/-!
# Reading command lines

A command line gives flags their texts, in order, and has other words besides.  `Reads` says which flags a
command line gives, with which texts, without saying what the texts do to the flags.  The program does both at
once, from left to right.  The two agree: whatever can be read is read in one way only, and what comes of it
is what the texts do to the flags one after the other (`parse_eq`, `reads_of_parse`).

1. Letters and command lines (`Cluster`, `Reads`).
2. Parsing is reading.
3. **What a flag says in the end**: of a text the last, of lists all of them (`text_assignAll`,
   `list_assignAll`).

The difficulty of a command line is that the same word can be several things.  `-v` may be a switch, a flag whose
value is the next argument, or itself the value of the flag before it; `-abc` may be three switches or one flag with
the value `bc`.  Which one it is depends on the kinds of the flags, and so on what the command knows.  The rules of
`Reads` make these choices visible, one rule for each form, and each rule has as premises what rules out the others.

Errors are left out of the grammar: a switch with a strange value, or a list that is no record, is read like any other
and refused when it is assigned.  So a command line that cannot be read at all is one with an unknown flag, a name that
is none, or a missing value, and `parse` fails on it (`reads_of_parse`).
-/

namespace AgentKit

namespace Bytes

/-- Every text has the separator or has not, and if it has there is a first one. -/
theorem eq_append_or_notMem (sep : UInt8) : ∀ t : Bytes,
    (∃ a b, t = a ++ sep :: b ∧ sep ∉ a) ∨ sep ∉ t
  | [] => Or.inr (by simp)
  | x :: t => by
    by_cases hx : x = sep
    · exact Or.inl ⟨[], t, by simp [hx], by simp⟩
    · rcases eq_append_or_notMem sep t with ⟨a, b, rfl, ha⟩ | ht
      · exact Or.inl ⟨x :: a, b, rfl, by simp [ha, Ne.symm hx]⟩
      · exact Or.inr (by simp [ht, Ne.symm hx])

end Bytes

namespace Flag

variable {flags : List Flag} {f : Flag} {c : UInt8} {t arg name value cs : Bytes}
  {args more more' ws : List Bytes} {gs : List (Flag × Bytes)} {a b : Arguments} {fuel : Nat}

/-! ## 1. The grammar

The flags that a command knows are a parameter.  A flag is found by its letter or by its name, and the first one
that fits is taken. -/

/-- A letter that stands for a flag, with the text behind it.  Letters that begin with `test.` are passed over
without being looked up, which has to be ruled out here. -/
structure Letter (flags : List Flag) (c : UInt8) (t : Bytes) (f : Flag) : Prop where
  known : flags.find? (·.letter = some c) = some f
  noTest : ("test." : Bytes).isPrefixOf (c :: t) = false

/-- The text behind a letter is a value with an equals sign before it.  A sign with nothing behind it is not
taken for one. -/
def Equated (t : Bytes) : Prop := ∃ v value, t = byte '=' :: v :: value

/-- Letters behind a dash, which may take the next argument for a value, and the flags they give. -/
inductive Cluster (flags : List Flag) :
    Bytes → List Bytes → List (Flag × Bytes) → List Bytes → Prop
  | none {more : List Bytes} : Cluster flags [] more [] more
  | test {cs : Bytes} {more : List Bytes} : ("test." : Bytes).isPrefixOf cs = true →
      Cluster flags cs more [] more
  | equals {c v : UInt8} {value : Bytes} {f : Flag} {more : List Bytes} :
      Letter flags c (byte '=' :: v :: value) f →
      Cluster flags (c :: byte '=' :: v :: value) more [(f, v :: value)] more
  | switch {c : UInt8} {t : Bytes} {f : Flag} {more more' : List Bytes} {gs : List (Flag × Bytes)} :
      Letter flags c t f → f.kind = .switch → ¬ Equated t → Cluster flags t more gs more' →
      Cluster flags (c :: t) more ((f, "true") :: gs) more'
  | joined {c v : UInt8} {value : Bytes} {f : Flag} {more : List Bytes} :
      Letter flags c (v :: value) f → f.kind ≠ .switch → ¬ Equated (v :: value) →
      Cluster flags (c :: v :: value) more [(f, v :: value)] more
  | next {c : UInt8} {value : Bytes} {f : Flag} {more : List Bytes} :
      Letter flags c [] f → f.kind ≠ .switch → Cluster flags [c] (value :: more) [(f, value)] more

/-- A name behind two dashes that is that of a flag. -/
structure Named (flags : List Flag) (name : Bytes) (f : Flag) : Prop where
  ne_nil : name ≠ []
  noDash : name.head? ≠ some (byte '-')
  noEquals : byte '=' ∉ name
  known : flags.find? (·.name = name) = some f

/-- A command line, the flags it gives with their texts, and its other words. -/
inductive Reads (flags : List Flag) : List Bytes → List (Flag × Bytes) → List Bytes → Prop
  | done : Reads flags [] [] []
  | stop {more : List Bytes} : Reads flags ([byte '-', byte '-'] :: more) [] more
  | word {arg : Bytes} {args ws : List Bytes} {gs : List (Flag × Bytes)} :
      (∀ c t, arg ≠ byte '-' :: c :: t) → Reads flags args gs ws →
      Reads flags (arg :: args) gs (arg :: ws)
  | equals {name value : Bytes} {f : Flag} {args ws : List Bytes} {gs : List (Flag × Bytes)} :
      Named flags name f → Reads flags args gs ws →
      Reads flags ((byte '-' :: byte '-' :: (name ++ byte '=' :: value)) :: args) ((f, value) :: gs) ws
  | switch {name : Bytes} {f : Flag} {args ws : List Bytes} {gs : List (Flag × Bytes)} :
      Named flags name f → f.kind = .switch → Reads flags args gs ws →
      Reads flags ((byte '-' :: byte '-' :: name) :: args) ((f, "true") :: gs) ws
  | next {name value : Bytes} {f : Flag} {args ws : List Bytes} {gs : List (Flag × Bytes)} :
      Named flags name f → f.kind ≠ .switch → Reads flags args gs ws →
      Reads flags ((byte '-' :: byte '-' :: name) :: value :: args) ((f, value) :: gs) ws
  | letters {c : UInt8} {t : Bytes} {more args ws : List Bytes} {gs hs : List (Flag × Bytes)} :
      c ≠ byte '-' → Cluster flags (c :: t) more gs args → Reads flags args hs ws →
      Reads flags ((byte '-' :: c :: t) :: more) (gs ++ hs) ws

/-- The flag stands on the command line, as itself and not as the value of another. -/
def Occurs (flags : List Flag) (args : List Bytes) (name : Bytes) : Prop :=
  ∃ gs ws, Reads flags args gs ws ∧ ∃ g ∈ gs, g.1.name = name

/-! ## 2. Parsing

The parser keeps the flags given so far and the words that are left.  Read the other way around, it gives a list
of pairs to `assignAll`, which knows nothing of dashes.  For each form there is an equation that says what the
parser does, and the two directions are inductions: over the rules (`parseFrom_eq`), and over the fuel that
bounds the parser (`reads_of_parseFrom`). -/

/-- Gives flags their texts one after the other. -/
def assignAll : List (Flag × Bytes) → Arguments → Except FlagFault Arguments
  | [], a => .ok a
  | g :: gs, a => (g.1.assign g.2 a).bind (assignAll gs)

/-- Texts that are given later find what the earlier ones have left. -/
theorem assignAll_append (gs hs : List (Flag × Bytes)) (a : Arguments) :
    assignAll (gs ++ hs) a = (assignAll gs a).bind (assignAll hs) := by
  induction gs generalizing a with
  | nil => rfl
  | cons g gs ih =>
    rw [List.cons_append, assignAll, assignAll]
    cases g.1.assign g.2 a with
    | error e => rfl
    | ok a' => exact ih a'

theorem equals_eq : byte '=' = 0x3D := rfl

/-- What comes behind an equals sign is the value, whatever the kind of the flag. -/
theorem letters_equals {v : UInt8} (hl : Letter flags c (byte '=' :: v :: value) f) (more : List Bytes)
    (a : Arguments) :
    letters flags more (c :: byte '=' :: v :: value) a = (f.assign (v :: value) a).map (·, more) := by
  rw [letters, if_neg (by simp [hl.noTest]), hl.known]
  dsimp only
  split
  · rename_i heq
    cases heq
    rfl
  · rename_i hne
    exact (hne v value rfl).elim
  · rename_i hne heq _
    cases heq
    exact (hne v value rfl rfl).elim
  all_goals
    rename_i heq _
    cases heq

/-- A switch takes no value, so the letters go on behind it. -/
theorem letters_switch (hl : Letter flags c t f) (hk : f.kind = .switch) (ht : ¬ Equated t)
    (more : List Bytes) (a : Arguments) :
    letters flags more (c :: t) a = (f.assign "true" a).bind (letters flags more t) := by
  rw [letters, if_neg (by simp [hl.noTest]), hl.known]
  dsimp only
  split
  · exact absurd ⟨_, _, rfl⟩ ht
  · rfl
  all_goals contradiction

/-- A flag that takes a value takes all that is left of the argument. -/
theorem letters_joined {v : UInt8} (hl : Letter flags c (v :: value) f) (hk : f.kind ≠ .switch)
    (ht : ¬ Equated (v :: value)) (more : List Bytes) (a : Arguments) :
    letters flags more (c :: v :: value) a = (f.assign (v :: value) a).map (·, more) := by
  rw [letters, if_neg (by simp [hl.noTest]), hl.known]
  dsimp only
  split <;> simp_all [Equated, equals_eq]

/-- If nothing is left of it, then the next argument. -/
theorem letters_next (hl : Letter flags c [] f) (hk : f.kind ≠ .switch) (more : List Bytes)
    (a : Arguments) :
    letters flags (value :: more) [c] a = (f.assign value a).map (·, more) := by
  rw [letters, if_neg (by simp [hl.noTest]), hl.known]
  dsimp only
  split <;> simp_all

/-- And if there is none, that is an error. -/
theorem letters_nothing (hl : Letter flags c [] f) (hk : f.kind ≠ .switch) (a : Arguments) :
    letters flags [] [c] a = .error (.letterNeedsValue c [c]) := by
  rw [letters, if_neg (by simp [hl.noTest]), hl.known]
  dsimp only
  split <;> simp_all

theorem assignAll_single (f : Flag) (v : Bytes) (a : Arguments) : assignAll [(f, v)] a = f.assign v a := by
  rw [assignAll]
  cases f.assign v a <;> rfl

/-- What letters do is what their flags do. -/
theorem letters_eq (h : Cluster flags cs more gs more') (a : Arguments) :
    letters flags more cs a = (assignAll gs a).map (·, more') := by
  induction h generalizing a with
  | none => rfl
  | @test cs more htest =>
    cases cs with
    | nil => rfl
    | cons c t =>
      rw [letters, if_pos htest]
      rfl
  | equals hl => rw [letters_equals hl, assignAll_single]
  | @switch c t f more more' gs hl hk ht _ ih =>
    rw [letters_switch hl hk ht, assignAll]
    cases f.assign "true" a with
    | error e => rfl
    | ok a' => exact ih a'
  | joined hl hk ht => rw [letters_joined hl hk ht, assignAll_single]
  | next hl hk => rw [letters_next hl hk, assignAll_single]

/-- The words left over are those that were handed on. -/
theorem more_of_map {e : Except FlagFault Arguments} (h : e.map (·, more) = .ok (b, more')) :
    more' = more := by
  cases e with
  | error f => cases h
  | ok a =>
    cases h
    rfl

/-- Letters that are accepted can be read. -/
theorem cluster_of_letters (cs : Bytes) (a : Arguments) (h : letters flags more cs a = .ok (b, more')) :
    ∃ gs, Cluster flags cs more gs more' := by
  induction cs generalizing a with
  | nil =>
    cases h
    exact ⟨[], .none⟩
  | cons c t ih =>
    cases htest : ("test." : Bytes).isPrefixOf (c :: t) with
    | true =>
      rw [letters, if_pos htest] at h
      cases h
      exact ⟨[], .test htest⟩
    | false =>
      cases hf : flags.find? (·.letter = some c) with
      | none =>
        rw [letters, if_neg (by simp [htest]), hf] at h
        cases h
      | some f =>
        have hl : Letter flags c t f := ⟨hf, htest⟩
        -- The order of these questions is that of the program: the equals sign first, then the kind, then what
        -- is left.
        by_cases ht : Equated t
        · obtain ⟨v, value, rfl⟩ := ht
          rw [letters_equals hl] at h
          cases more_of_map h
          exact ⟨_, .equals hl⟩
        · by_cases hk : f.kind = .switch
          · rw [letters_switch hl hk ht] at h
            cases ha : f.assign "true" a with
            | error e =>
              rw [ha] at h
              cases h
            | ok a' =>
              rw [ha] at h
              obtain ⟨gs, hgs⟩ := ih a' h
              exact ⟨_, .switch hl hk ht hgs⟩
          · cases t with
            | cons v value =>
              rw [letters_joined hl hk ht] at h
              cases more_of_map h
              exact ⟨_, .joined hl hk ht⟩
            | nil =>
              cases more with
              | nil =>
                rw [letters_nothing hl hk] at h
                cases h
              | cons value more =>
                rw [letters_next hl hk] at h
                cases more_of_map h
                exact ⟨_, .next hl hk⟩

/-- Letters at most take arguments away, so the fuel that was enough stays enough. -/
theorem Cluster.length_le (h : Cluster flags cs more gs more') : more'.length ≤ more.length := by
  induction h with
  | switch _ _ _ _ ih => exact ih
  | next => simp
  | none | test | equals | joined => exact Nat.le_refl _

theorem takeWhile_noEquals (h : byte '=' ∉ name) (t : Bytes) :
    (name ++ t).takeWhile (· ≠ byte '=') = name ++ t.takeWhile (· ≠ byte '=') := by
  rw [List.takeWhile_append_of_pos]
  intro x hx
  rw [decide_eq_true_eq]
  rintro rfl
  exact h hx

/-- The name before the first equals sign. -/
theorem takeWhile_name (h : byte '=' ∉ name) (t : Bytes) :
    (name ++ byte '=' :: t).takeWhile (· ≠ byte '=') = name := by
  rw [takeWhile_noEquals h, List.takeWhile_cons_of_neg (by simp), List.append_nil]

theorem takeWhile_whole (h : byte '=' ∉ name) : name.takeWhile (· ≠ byte '=') = name := by
  have hname := takeWhile_noEquals h []
  rwa [List.append_nil, List.takeWhile_nil, List.append_nil] at hname

/-- A name of a flag does not start as a name that is refused does. -/
theorem Named.head (hn : Named flags name f) (t : Bytes) :
    ¬ ((name ++ t).head? = some (byte '-') ∨ (name ++ t).head? = some (byte '=')) := by
  cases name with
  | nil => exact absurd rfl hn.ne_nil
  | cons x name =>
    rintro (h | h) <;> cases h
    · exact hn.noDash rfl
    · exact hn.noEquals (by simp)

theorem Named.head_whole (hn : Named flags name f) :
    ¬ (name.head? = some (byte '-') ∨ name.head? = some (byte '=')) := by
  have hhead := hn.head []
  rwa [List.append_nil] at hhead

theorem long_equals (hn : Named flags name f) (value : Bytes) (more : List Bytes) (a : Arguments) :
    long flags (byte '-' :: byte '-' :: (name ++ byte '=' :: value)) more a =
      (f.assign value a).map (·, more) := by
  unfold long
  dsimp only [List.drop]
  rw [if_neg (hn.head _), takeWhile_name hn.noEquals, hn.known, Bytes.cut_append name value hn.noEquals]

section

variable (hn : Named flags name f) (a : Arguments)
include hn

theorem long_switch (hk : f.kind = .switch) (more : List Bytes) :
    long flags (byte '-' :: byte '-' :: name) more a = (f.assign "true" a).map (·, more) := by
  unfold long
  dsimp only [List.drop]
  rw [if_neg hn.head_whole, takeWhile_whole hn.noEquals, hn.known, Bytes.cut_of_notMem hn.noEquals]
  dsimp only
  rw [hk]

theorem long_next (hk : f.kind ≠ .switch) (value : Bytes) (more : List Bytes) :
    long flags (byte '-' :: byte '-' :: name) (value :: more) a = (f.assign value a).map (·, more) := by
  unfold long
  dsimp only [List.drop]
  rw [if_neg hn.head_whole, takeWhile_whole hn.noEquals, hn.known, Bytes.cut_of_notMem hn.noEquals]
  dsimp only
  cases hkind : f.kind with
  | switch => exact absurd hkind hk
  | text => rfl
  | list => rfl

theorem long_nothing (hk : f.kind ≠ .switch) :
    long flags (byte '-' :: byte '-' :: name) [] a = .error (.needsValue (byte '-' :: byte '-' :: name)) := by
  unfold long
  dsimp only [List.drop]
  rw [if_neg hn.head_whole, takeWhile_whole hn.noEquals, hn.known, Bytes.cut_of_notMem hn.noEquals]
  dsimp only
  cases hkind : f.kind with
  | switch => exact absurd hkind hk
  | text => rfl
  | list => rfl

end

/-- Only names of flags are accepted behind two dashes. -/
theorem named_of_long {body : Bytes} {r : Arguments × List Bytes} (hne : body ≠ [])
    (h : long flags (byte '-' :: byte '-' :: body) more a = .ok r) :
    ∃ name f, Named flags name f ∧ (body = name ∨ ∃ value, body = name ++ byte '=' :: value) := by
  unfold long at h
  dsimp only [List.drop] at h
  by_cases hhead : body.head? = some (byte '-') ∨ body.head? = some (byte '=')
  · rw [if_pos hhead] at h
    cases h
  · rw [if_neg hhead] at h
    obtain ⟨hdash, hequals⟩ := not_or.mp hhead
    cases hf : flags.find? (·.name = body.takeWhile (· ≠ byte '=')) with
    | none =>
      rw [hf] at h
      cases h
    | some f =>
      rcases Bytes.eq_append_or_notMem (byte '=') body with ⟨name, value, rfl, hname⟩ | hnone
      · rw [takeWhile_name hname] at hf
        have hempty : name ≠ [] := by
          rintro rfl
          exact hequals rfl
        refine ⟨name, f, ⟨hempty, ?_, hname, hf⟩, Or.inr ⟨value, rfl⟩⟩
        cases name with
        | nil => exact absurd rfl hempty
        | cons x name => exact hdash
      · rw [takeWhile_whole hnone] at hf
        exact ⟨body, f, ⟨hne, hdash, hnone, hf⟩, Or.inl rfl⟩

/-- An argument with two dashes that is accepted can be read, if what is behind it can. -/
theorem reads_of_long {body : Bytes} (hne : body ≠ [])
    (h : long flags (byte '-' :: byte '-' :: body) more a = .ok (b, more')) :
    more'.length ≤ more.length ∧ ∀ gs ws, Reads flags more' gs ws →
      ∃ gs', Reads flags ((byte '-' :: byte '-' :: body) :: more) gs' ws := by
  obtain ⟨name, f, hn, rfl | ⟨value, rfl⟩⟩ := named_of_long hne h
  · by_cases hk : f.kind = .switch
    · rw [long_switch hn a hk] at h
      cases more_of_map h
      exact ⟨Nat.le_refl _, fun gs ws hgs => ⟨_, .switch hn hk hgs⟩⟩
    · cases more with
      | nil =>
        rw [long_nothing hn a hk] at h
        cases h
      | cons value more =>
        rw [long_next hn a hk] at h
        cases more_of_map h
        exact ⟨Nat.le_succ _, fun gs ws hgs => ⟨_, .next hn hk hgs⟩⟩
  · rw [long_equals hn] at h
    cases more_of_map h
    exact ⟨Nat.le_refl _, fun gs ws hgs => ⟨_, .equals hn hgs⟩⟩

/-- Texts do nothing to the other words. -/
theorem assign_rest (f : Flag) (v : Bytes) (a : Arguments) (ws : List Bytes) :
    f.assign v { a with rest := ws } = (f.assign v a).map ({ · with rest := ws }) := by
  unfold assign
  cases f.kind with
  | text => rfl
  | switch => cases truth? v <;> rfl
  | list =>
    dsimp only
    cases Csv.read v with
    | error e => rfl
    | ok ts =>
      have hget : ({ a with rest := ws } : Arguments).get? f.name = a.get? f.name := rfl
      dsimp only
      rw [hget]
      cases a.get? f.name with
      | none => rfl
      | some x => cases x <;> rfl

/-- So the other words can be added before or after. -/
theorem assignAll_rest (gs : List (Flag × Bytes)) (a : Arguments) (ws : List Bytes) :
    assignAll gs { a with rest := ws } = (assignAll gs a).map ({ · with rest := ws }) := by
  induction gs generalizing a with
  | nil => rfl
  | cons g gs ih =>
    rw [assignAll, assignAll, assign_rest]
    cases g.1.assign g.2 a with
    | error e => rfl
    | ok a' => exact ih a'

theorem rest_of_assignAll {gs : List (Flag × Bytes)} (h : assignAll gs a = .ok b) : b.rest = a.rest := by
  have hrest : assignAll gs a = (assignAll gs a).map ({ · with rest := a.rest }) :=
    assignAll_rest gs a a.rest
  rw [h] at hrest
  cases b
  cases hrest
  rfl

theorem parseFrom_word (h : ∀ c t, arg ≠ byte '-' :: c :: t) (fuel : Nat) (a : Arguments) :
    parseFrom flags (fuel + 1) a (arg :: more) =
      parseFrom flags fuel { a with rest := a.rest ++ [arg] } more := by
  conv_lhs => unfold parseFrom
  split
  · exact absurd rfl (h _ _)
  · exact absurd rfl (h _ _)
  · exact absurd rfl (h _ _)
  · rfl

theorem parseFrom_long {body : Bytes} (h : body ≠ []) (fuel : Nat) (a : Arguments) :
    parseFrom flags (fuel + 1) a ((byte '-' :: byte '-' :: body) :: more) =
      (long flags (byte '-' :: byte '-' :: body) more a).bind fun r => parseFrom flags fuel r.1 r.2 := by
  cases body with
  | nil => exact absurd rfl h
  | cons x body => rfl

theorem parseFrom_letters (h : c ≠ byte '-') (fuel : Nat) (a : Arguments) :
    parseFrom flags (fuel + 1) a ((byte '-' :: c :: t) :: more) =
      (letters flags more (c :: t) a).bind fun r => parseFrom flags fuel r.1 r.2 := by
  conv_lhs => unfold parseFrom
  split
  · rename_i heq
    cases heq
    exact absurd rfl h
  · rename_i heq
    cases heq
    exact absurd rfl h
  · rename_i heq
    cases heq
    rfl
  · rename_i hne
    exact (hne _ _ rfl).elim

/-- What comes of flags when the rest of the command line is read behind them. -/
theorem bind_parseFrom {gs hs : List (Flag × Bytes)}
    (ih : ∀ a, parseFrom flags fuel a more = (assignAll hs a).map ({ · with rest := a.rest ++ ws }))
    (a : Arguments) :
    ((assignAll gs a).map (·, more)).bind (fun r => parseFrom flags fuel r.1 r.2) =
      (assignAll (gs ++ hs) a).map ({ · with rest := a.rest ++ ws }) := by
  rw [assignAll_append]
  cases ha : assignAll gs a with
  | error e => rfl
  | ok a' =>
    rw [← rest_of_assignAll ha]
    exact ih a'

/-- **Parsing a command line is giving its flags their texts.** -/
theorem parseFrom_eq (h : Reads flags args gs ws) (hfuel : args.length ≤ fuel) (a : Arguments) :
    parseFrom flags fuel a args = (assignAll gs a).map ({ · with rest := a.rest ++ ws }) := by
  induction h generalizing fuel a with
  | done => cases fuel <;> simp [parseFrom, assignAll, Except.map]
  | stop =>
    cases fuel with
    | zero => simp at hfuel
    | succ fuel => rfl
  -- The word is kept at once, before the flags behind it are given their texts.
  | @word arg args ws gs hword _ ih =>
    cases fuel with
    | zero => simp at hfuel
    | succ fuel =>
      rw [parseFrom_word hword, ih (Nat.le_of_succ_le_succ hfuel), assignAll_rest]
      cases ha : assignAll gs a with
      | error e => rfl
      | ok b => simp [Except.map, List.append_assoc]
  | @equals name value f args ws gs hn _ ih =>
    cases fuel with
    | zero => simp at hfuel
    | succ fuel =>
      rw [parseFrom_long (by simp), long_equals hn, ← assignAll_single]
      exact bind_parseFrom (fun a => ih (Nat.le_of_succ_le_succ hfuel) a) a
  | switch hn hk _ ih =>
    cases fuel with
    | zero => simp at hfuel
    | succ fuel =>
      rw [parseFrom_long hn.ne_nil, long_switch hn a hk, ← assignAll_single]
      exact bind_parseFrom (fun a => ih (Nat.le_of_succ_le_succ hfuel) a) a
  | next hn hk _ ih =>
    cases fuel with
    | zero => simp at hfuel
    | succ fuel =>
      rw [parseFrom_long hn.ne_nil, long_next hn a hk, ← assignAll_single]
      refine bind_parseFrom (fun a => ih ?_ a) a
      simp only [List.length_cons] at hfuel
      omega
  | @letters c t more args ws gs hs hc hcl _ ih =>
    cases fuel with
    | zero => simp at hfuel
    | succ fuel =>
      rw [parseFrom_letters hc, letters_eq hcl]
      refine bind_parseFrom (fun a => ih ?_ a) a
      have hle := hcl.length_le
      simp only [List.length_cons] at hfuel
      omega

/-- Whatever is accepted can be read. -/
theorem reads_of_parseFrom (hfuel : args.length ≤ fuel) (h : parseFrom flags fuel a args = .ok b) :
    ∃ gs ws, Reads flags args gs ws := by
  induction fuel generalizing a args with
  | zero =>
    cases args with
    | nil => exact ⟨_, _, .done⟩
    | cons arg more => simp at hfuel
  | succ fuel ih =>
    cases args with
    | nil => exact ⟨_, _, .done⟩
    | cons arg more =>
      have hmore : more.length ≤ fuel := Nat.le_of_succ_le_succ hfuel
      -- What is accepted in two steps is accepted in both.
      have hbind : ∀ {e : Except FlagFault (Arguments × List Bytes)},
          (e.bind fun r => parseFrom flags fuel r.1 r.2) = .ok b →
          ∃ a' more', e = .ok (a', more') ∧ parseFrom flags fuel a' more' = .ok b := by
        intro e he
        cases e with
        | error f => cases he
        | ok r => exact ⟨r.1, r.2, rfl, he⟩
      by_cases hdash : ∃ c t, arg = byte '-' :: c :: t
      · obtain ⟨c, t, rfl⟩ := hdash
        by_cases hc : c = byte '-'
        · subst hc
          by_cases ht : t = []
          · subst ht
            exact ⟨_, _, .stop⟩
          · rw [parseFrom_long ht] at h
            obtain ⟨a', more', hlong, hrest⟩ := hbind h
            obtain ⟨hle, hback⟩ := reads_of_long ht hlong
            obtain ⟨gs, ws, hreads⟩ := ih (hle.trans hmore) hrest
            obtain ⟨gs', hgs'⟩ := hback gs ws hreads
            exact ⟨gs', ws, hgs'⟩
        · rw [parseFrom_letters hc] at h
          obtain ⟨a', more', hlet, hrest⟩ := hbind h
          obtain ⟨gs, hcl⟩ := cluster_of_letters (c :: t) a hlet
          obtain ⟨hs, ws, hreads⟩ := ih (hcl.length_le.trans hmore) hrest
          exact ⟨_, _, .letters hc hcl hreads⟩
      · have hword : ∀ c t, arg ≠ byte '-' :: c :: t := fun c t heq => hdash ⟨c, t, heq⟩
        rw [parseFrom_word hword] at h
        obtain ⟨gs, ws, hreads⟩ := ih hmore h
        exact ⟨_, _, .word hword hreads⟩

/-- **Parsing a command line that can be read.** -/
theorem parse_eq (h : Reads flags args gs ws) :
    parse flags args = (assignAll gs {}).map ({ · with rest := ws }) :=
  parseFrom_eq h (Nat.le_refl _) {}

/-- **Only what can be read is parsed.**  With the last theorem: parsing succeeds if the command line can be read
and all texts are accepted by their flags. -/
theorem reads_of_parse (h : parse flags args = .ok a) : ∃ gs ws, Reads flags args gs ws :=
  reads_of_parseFrom (Nat.le_refl _) h

/-- The flags that were given are those that a command line gives. -/
theorem assignAll_of_reads (h : parse flags args = .ok a) (hr : Reads flags args gs ws) :
    ∃ b, assignAll gs {} = .ok b ∧ ∀ name, a.get? name = b.get? name := by
  rw [parse_eq hr] at h
  cases hb : assignAll gs {} with
  | error e =>
    rw [hb] at h
    cases h
  | ok b =>
    rw [hb] at h
    cases h
    exact ⟨b, rfl, fun _ => rfl⟩

/-! ## 3. What flags say

From here on there are no dashes any more, only the list of pairs.  The values are found by name, and a value
that is put replaces the one before. -/

theorem get?_put (a : Arguments) (x : FlagValue) (n m : Bytes) :
    (a.put n x).get? m = if m = n then some x else a.get? m := by
  rw [Arguments.get?, Arguments.put, lookup_cons_if, lookup_filter_ne]
  by_cases h : m = n
  · rw [if_pos h, if_pos h]
  · rw [if_neg h, if_neg h, if_neg h]
    rfl

/-- What a text makes of a flag, given what it was before.  Only lists look at that, and they grow. -/
inductive Takes : FlagKind → Option FlagValue → Bytes → FlagValue → Prop
  | text {old : Option FlagValue} {v : Bytes} : Takes .text old v (.text v)
  | switch {old : Option FlagValue} {v : Bytes} {b : Bool} : truth? v = some b →
      Takes .switch old v (.switch b)
  | first {old : Option FlagValue} {v : Bytes} {ts : List Bytes} : Csv.read v = .ok ts →
      (∀ before, old ≠ some (.list before)) → Takes .list old v (.list ts)
  | more {before ts : List Bytes} {v : Bytes} : Csv.read v = .ok ts →
      Takes .list (some (.list before)) v (.list (before ++ ts))

theorem assign_ok {v : Bytes} (h : f.assign v a = .ok b) :
    ∃ x, b = a.put f.name x ∧ Takes f.kind (a.get? f.name) v x := by
  unfold assign at h
  cases hk : f.kind with
  | text =>
    rw [hk] at h
    cases h
    exact ⟨_, rfl, .text⟩
  | switch =>
    rw [hk] at h
    cases ht : truth? v with
    | none =>
      simp only [ht] at h
      cases h
    | some x =>
      simp only [ht] at h
      cases h
      exact ⟨_, rfl, .switch ht⟩
  | list =>
    rw [hk] at h
    dsimp only at h
    cases hr : Csv.read v with
    | error e =>
      rw [hr] at h
      cases h
    | ok ts =>
      rw [hr] at h
      dsimp only at h
      split at h
      · rename_i before hget
        cases h
        exact ⟨_, rfl, hget ▸ .more hr⟩
      · rename_i hget
        cases h
        exact ⟨_, rfl, .first hr fun before heq => hget before heq⟩

/-- The texts a flag was given, in order. -/
def texts (gs : List (Flag × Bytes)) (name : Bytes) : List Bytes :=
  (gs.filter (·.1.name = name)).map (·.2)

theorem texts_cons (g : Flag × Bytes) (gs : List (Flag × Bytes)) (name : Bytes) :
    texts (g :: gs) name = if g.1.name = name then g.2 :: texts gs name else texts gs name := by
  by_cases h : g.1.name = name <;> simp [texts, h]

theorem texts_ne_nil_iff : texts gs name ≠ [] ↔ ∃ g ∈ gs, g.1.name = name := by
  rw [texts, Ne, List.map_eq_nil_iff, List.filter_eq_nil_iff]
  simp

/-- A step of `assignAll`: what it does to the flag of a name. -/
theorem assignAll_cons {g : Flag × Bytes} (h : assignAll (g :: gs) a = .ok b) :
    ∃ a' x, assignAll gs a' = .ok b ∧ Takes g.1.kind (a.get? g.1.name) g.2 x ∧
      ∀ m, a'.get? m = if m = g.1.name then some x else a.get? m := by
  rw [assignAll] at h
  cases ha : g.1.assign g.2 a with
  | error e =>
    rw [ha] at h
    cases h
  | ok a' =>
    rw [ha] at h
    obtain ⟨x, rfl, hx⟩ := assign_ok ha
    exact ⟨_, x, h, hx, get?_put a x g.1.name⟩

/-- A flag is there if it was there before or was given. -/
theorem has_assignAll (h : assignAll gs a = .ok b) :
    b.has name = true ↔ a.has name = true ∨ texts gs name ≠ [] := by
  induction gs generalizing a with
  | nil =>
    cases h
    simp [texts]
  | cons g gs ih =>
    obtain ⟨a', x, hrest, _, hget⟩ := assignAll_cons h
    rw [ih hrest, texts_cons, Arguments.has, Arguments.has, hget name]
    by_cases hg : name = g.1.name
    · simp [hg]
    · rw [if_neg hg, if_neg (Ne.symm hg)]

/-- **Of the texts a flag is given the last counts.** -/
theorem text_assignAll (h : assignAll gs a = .ok b)
    (hkind : ∀ g ∈ gs, g.1.name = name → g.1.kind = .text) :
    b.get? name = ((texts gs name).getLast?.map .text).or (a.get? name) := by
  induction gs generalizing a with
  | nil =>
    cases h
    simp [texts]
  | cons g gs ih =>
    obtain ⟨a', x, hrest, hx, hget⟩ := assignAll_cons h
    rw [ih hrest fun g' hg' => hkind g' (List.mem_cons_of_mem _ hg'), texts_cons, hget name]
    by_cases hg : name = g.1.name
    · rw [if_pos hg, if_pos hg.symm]
      rw [hkind g List.mem_cons_self hg.symm] at hx
      cases hx
      cases texts gs name <;> simp [List.getLast?_cons]
    · rw [if_neg hg, if_neg (Ne.symm hg)]

/-- What comes to a list that is there already. -/
theorem list_assignAll_more {before : List Bytes} (h : assignAll gs a = .ok b)
    (hkind : ∀ g ∈ gs, g.1.name = name → g.1.kind = .list) (ha : a.get? name = some (.list before)) :
    ∃ rs, List.Forall₂ (fun v r => Csv.read v = .ok r) (texts gs name) rs ∧
      b.get? name = some (.list (before ++ rs.flatten)) := by
  induction gs generalizing a before with
  | nil =>
    cases h
    exact ⟨[], .nil, by rw [ha, List.flatten_nil, List.append_nil]⟩
  | cons g gs ih =>
    obtain ⟨a', x, hrest, hx, hget⟩ := assignAll_cons h
    have hkind' := fun g' hg' => hkind g' (List.mem_cons_of_mem _ hg')
    rw [texts_cons]
    by_cases hg : name = g.1.name
    · subst hg
      rw [hkind g List.mem_cons_self rfl, ha] at hx
      cases hx with
      | first _ hnot => exact absurd rfl (hnot before)
      | @more _ ts _ hread =>
        obtain ⟨rs, hrs, hb⟩ := ih hrest hkind' (by rw [hget, if_pos rfl])
        exact ⟨ts :: rs, by rw [if_pos rfl]; exact .cons hread hrs, by
          rw [hb, List.flatten_cons, List.append_assoc]⟩
    · rw [if_neg (Ne.symm hg)]
      exact ih hrest hkind' (by rw [hget, if_neg hg, ha])

/-- **The records a list is given stand in it one behind the other.** -/
theorem list_assignAll (h : assignAll gs a = .ok b)
    (hkind : ∀ g ∈ gs, g.1.name = name → g.1.kind = .list) (ha : a.get? name = none)
    (hne : texts gs name ≠ []) :
    ∃ rs, List.Forall₂ (fun v r => Csv.read v = .ok r) (texts gs name) rs ∧
      b.get? name = some (.list rs.flatten) := by
  -- Up to the first text the flag is not there.  From then on `list_assignAll_more` says how it grows.
  induction gs generalizing a with
  | nil => exact absurd rfl hne
  | cons g gs ih =>
    obtain ⟨a', x, hrest, hx, hget⟩ := assignAll_cons h
    have hkind' := fun g' hg' => hkind g' (List.mem_cons_of_mem _ hg')
    rw [texts_cons] at hne ⊢
    by_cases hg : name = g.1.name
    · subst hg
      rw [hkind g List.mem_cons_self rfl, ha] at hx
      cases hx with
      | @first _ _ ts hread _ =>
        obtain ⟨rs, hrs, hb⟩ := list_assignAll_more hrest hkind' (by rw [hget, if_pos rfl])
        exact ⟨ts :: rs, by rw [if_pos rfl]; exact .cons hread hrs, by rw [hb, List.flatten_cons]⟩
    · rw [if_neg (Ne.symm hg)] at hne ⊢
      exact ih hrest hkind' (by rw [hget, if_neg hg, ha]) hne

/-! The flags that are given are flags the command knows. -/

theorem Cluster.mem (h : Cluster flags cs more gs more') : ∀ g ∈ gs, g.1 ∈ flags := by
  induction h with
  | none | test => simp
  | equals hl | joined hl | next hl => simpa using List.mem_of_find?_eq_some hl.known
  | switch hl _ _ _ ih =>
    intro g hg
    rcases List.mem_cons.mp hg with rfl | hg
    · exact List.mem_of_find?_eq_some hl.known
    · exact ih g hg

theorem Reads.mem (h : Reads flags args gs ws) : ∀ g ∈ gs, g.1 ∈ flags := by
  induction h with
  | done | stop => simp
  | word _ _ ih => exact ih
  | equals hn _ ih | switch hn _ _ ih | next hn _ _ ih =>
    intro g hg
    rcases List.mem_cons.mp hg with rfl | hg
    · exact List.mem_of_find?_eq_some hn.known
    · exact ih g hg
  | letters _ hc _ ih =>
    intro g hg
    rcases List.mem_append.mp hg with hg | hg
    · exact hc.mem g hg
    · exact ih g hg

/-- **A flag is there exactly if the command line gives it.** -/
theorem has_iff_of_reads (h : parse flags args = .ok a) (hr : Reads flags args gs ws) :
    a.has name = true ↔ ∃ g ∈ gs, g.1.name = name := by
  obtain ⟨b, hb, hget⟩ := assignAll_of_reads h hr
  rw [← texts_ne_nil_iff, Arguments.has, hget, ← Arguments.has, has_assignAll hb]
  simp [Arguments.has, Arguments.get?]

/-- A flag was given if it stands on the command line. -/
theorem has_iff_occurs (h : parse flags args = .ok a) : a.has name = true ↔ Occurs flags args name := by
  constructor
  · intro hhas
    obtain ⟨gs, ws, hr⟩ := reads_of_parse h
    exact ⟨gs, ws, hr, (has_iff_of_reads h hr).mp hhas⟩
  · rintro ⟨gs, ws, hr, hg⟩
    exact (has_iff_of_reads h hr).mpr hg

end Flag

end AgentKit
