import AgentKit.Command.Run
import AgentKit.Proofs.Installing
/-!
# What a printed match is worth

A comparison of the kit in a project with its source ends with one line if it found nothing to report: the
kit matches, and so many files were compared.  The line is chosen by the parts of the report alone.  What
could not be read is no part of the report, it is a failure, and failures decide the exit code only.  So
the line can stand above an error, and the number in it can be too small.

1. All the ways a run can go (`Course`), and what a display writes.
2. The line, which is printed for a clean report and for no other (`Report.line_iff`).
3. The comparison that a run makes (`Compares`).
4. **What the line means** (`run_verdict`).  Together with exit code 0 it means what it says: every file of
   the source was read on both sides with the same bytes, and their number is the one printed
   (`Verified`).  With exit code 1 it only means that no difference was seen in what could be read
   (`NoDifference`, `match_printed_with_error`).

The statement starts from what is printed.  So it has to be shown that the line cannot come from anything else: not from a
report with differences, not from a help text, and not with another number.  For the first two the first byte of the
output is enough.  For the number the digits have to be read back, up to the space behind them.
-/

namespace AgentKit

/-! ## 1. Runs and what they print

`Course` has one constructor for each way out of a run, in the order of the program.  Later modules take their
cases from it. -/

/-- Everything a display writes to the first stream. -/
theorem Display.writeAll_out (p : Display) (ms : List Message) :
    (p.writeAll ms).out = ms.flatMap fun m => (p.write m).out := by
  have hfold : ∀ (o : Output), (ms.foldl (fun o m => o.append (p.write m)) o).out =
      o.out ++ ms.flatMap fun m => (p.write m).out := by
    induction ms with
    | nil => simp
    | cons m ms ih =>
      intro o
      rw [List.foldl_cons, ih, List.flatMap_cons, ← List.append_assoc]
      rfl
  exact hfold {}

namespace Command

variable {env : Environment} {args rest : List Bytes} {c : Command} {a : Arguments} {s : Setup}
  {r : Report} {n m : Nat} {color : Bool} {w : Walk.Scope} {dest : Bytes}

/-- **How a run can go**, and the report it makes.  Up to the settings nothing is done: a run that is refused,
explained or misused reports the disk it started from. -/
inductive Course (env : Environment) (args : List Bytes) : Report → Prop
  | unknown {u : Unknown} : find args = .error u →
      Course env args { disk := env.disk, fault := some (.unknown u) }
  | refused {c : Command} {rest : List Bytes} {f : FlagFault} : find args = .ok (c, rest) →
      c.read rest = .error f → Course env args { disk := env.disk, fault := some (.flags f) }
  | explained {c : Command} {rest : List Bytes} {a : Arguments} : find args = .ok (c, rest) →
      c.read rest = .ok a → a.switch "help" = true ∨ c.runs = false →
      Course env args { disk := env.disk, printed := c.explanation env.library }
  | misused {c : Command} {rest : List Bytes} {a : Arguments} {f : Fault} : find args = .ok (c, rest) →
      c.read rest = .ok a → c.argumentFault? a.rest = some f →
      Course env args { disk := env.disk, fault := some f }
  | unsettled {c : Command} {rest : List Bytes} {a : Arguments} {f : Fault} :
      find args = .ok (c, rest) → c.read rest = .ok a → setup c env.disk a = .error f →
      Course env args { disk := env.disk, fault := some f }
  | worked {c : Command} {rest : List Bytes} {a : Arguments} {s : Setup} {log : List Log.Record} :
      find args = .ok (c, rest) → c.read rest = .ok a → a.switch "help" = false → c.runs = true →
      c.argumentFault? a.rest = none → setup c env.disk a = .ok s →
      Course env args { c.work env s a with settings := s.settings, log := log }

theorem course (env : Environment) (args : List Bytes) : Course env args (report env args) := by
  unfold report
  cases hf : find args with
  | error u => exact .unknown hf
  | ok cr =>
    obtain ⟨c, rest⟩ := cr
    dsimp only
    cases hp : c.read rest with
    | error f => exact .refused hf hp
    | ok a =>
      dsimp only
      by_cases hhelp : (a.switch "help" || !c.runs) = true
      · rw [if_pos hhelp]
        rw [Bool.or_eq_true, Bool.not_eq_true'] at hhelp
        exact .explained hf hp hhelp
      · rw [if_neg hhelp]
        rw [Bool.or_eq_true, Bool.not_eq_true', not_or, Bool.not_eq_true, Bool.not_eq_false] at hhelp
        cases hwords : c.argumentFault? a.rest with
        | some f => exact .misused hf hp hwords
        | none =>
          dsimp only
          unfold start
          cases hs : setup c env.disk a with
          | error f => exact .unsettled hf hp hs
          | ok s => exact .worked hf hp hhelp.1 hhelp.2 hwords hs

/-! The commands of the program proper all do something, read their flags, and take nothing else. -/

theorem runs_of_worker (hc : c ∈ workers) : c.runs = true := by
  revert c
  decide

theorem read_of_worker (hc : c ∈ workers) (args : List Bytes) : c.read args = Flag.parse c.flags args := by
  cases c with
  | request described => simp [workers] at hc
  | _ => rfl

theorem argumentFault?_of_worker (hc : c ∈ workers) (words : List Bytes) :
    c.argumentFault? words = words.head?.map (.unexpected c) := by
  cases c with
  | help => simp [workers] at hc
  | request described => simp [workers] at hc
  | _ => cases words <;> rfl

/-- A command with arguments it takes is started. -/
theorem report_start (hf : find args = .ok (c, rest)) (hp : Flag.parse c.flags rest = .ok a)
    (hhelp : a.switch "help" = false) (hc : c ∈ workers) (hrest : a.rest = []) :
    report env args = c.start env a := by
  rw [← read_of_worker hc] at hp
  simp [report, hf, hp, hhelp, runs_of_worker hc, argumentFault?_of_worker hc, hrest]

/-! ## 2. The line

A match is printed with a mark in front, and in color if the display has it. -/

/-- What is said of a kit that matches its source in `n` files. -/
def matchText (n : Nat) : Bytes :=
  "Installed kit matches the bundled kit (" ++ Bytes.ofNat n ++ " files)"

/-- The line that says it, in color or not. -/
def matchLine (color : Bool) (n : Nat) : Bytes := ((Message.success (matchText n)).output color).out

theorem digit_of_mem_toDigits {x : Char} (h : x ∈ Nat.toDigits 10 n) : 48 ≤ x.toNat ∧ x.toNat ≤ 57 :=
  Char.isDigit_iff_toNat.mp (Nat.isDigit_of_mem_toDigits (by decide) (by decide) h)

theorem space_notMem_ofNat (n : Nat) : byte ' ' ∉ Bytes.ofNat n := by
  intro h
  obtain ⟨x, hx, hbyte⟩ := List.mem_map.mp h
  have hdigit := digit_of_mem_toDigits hx
  have hval : x.toNat % 256 = 32 := congrArg UInt8.toNat hbyte
  omega

theorem ofNat_injective : Function.Injective Bytes.ofNat := by
  have hback : ∀ k, (Bytes.ofNat k).map (fun b => Char.ofNat b.toNat) = Nat.toDigits 10 k := by
    intro k
    rw [Bytes.ofNat, List.map_map]
    refine (List.map_congr_left fun x hx => ?_).trans (List.map_id _)
    have hdigit := digit_of_mem_toDigits hx
    have hval : (byte x).toNat = x.toNat :=
      Nat.mod_eq_of_lt (Nat.lt_of_le_of_lt hdigit.2 (by decide))
    rw [Function.comp_apply, hval, Char.ofNat_toNat, id]
  intro n m h
  have hdigits : Nat.toDigits 10 n = Nat.toDigits 10 m := by rw [← hback n, ← hback m, h]
  rw [← @Nat.ofDigitChars_toDigits 10 n (by decide) (by decide), hdigits,
    Nat.ofDigitChars_toDigits (by decide) (by decide)]

/-- The first byte of the line, which is the beginning of the mark or of its color. -/
theorem head?_matchLine (color : Bool) (n : Nat) :
    (matchLine color n).head? = some (if color then 0x1B else 0xE2) := by
  cases color <;> rfl

/-- The line shows whether it is in color, and its number. -/
theorem matchLine_prefix {color' : Bool} (h : matchLine color n <+: matchLine color' m) :
    color = color' ∧ n = m := by
  obtain ⟨t, ht⟩ := h
  have hcolor : color = color' := by
    have hhead := congrArg List.head? ht
    rw [List.head?_append, head?_matchLine, head?_matchLine] at hhead
    cases color <;> cases color' <;> first | rfl | cases hhead
  subst hcolor
  have hspace : (" files)" : Bytes) = byte ' ' :: ("files)" : Bytes) := by decide
  have hnumbers : ∃ u v, Bytes.ofNat n ++ byte ' ' :: u = Bytes.ofNat m ++ byte ' ' :: v := by
    cases color <;>
      simp only [matchLine, Message.output, Message.painted, matchText, hspace, Bool.false_eq_true,
        if_false, if_true, List.append_assoc, List.append_cancel_left_eq, List.cons_append] at ht <;>
      exact ⟨_, _, ht⟩
  obtain ⟨u, v, huv⟩ := hnumbers
  -- The number is what stands before the next space.
  have hcut : ∀ k t, (Bytes.ofNat k ++ byte ' ' :: t).takeWhile (· != byte ' ') = Bytes.ofNat k := by
    intro k t
    rw [List.takeWhile_append_of_pos, List.takeWhile_cons_of_neg (by simp), List.append_nil]
    intro b hb
    rw [bne_iff_ne]
    rintro rfl
    exact space_notMem_ofNat k hb
  exact ⟨rfl, ofNat_injective (by rw [← hcut n u, huv, hcut])⟩

theorem driftMessages_clean {drift : Drift} (patch : Bool) (h : drift.clean = true) :
    driftMessages drift patch = [.success (matchText drift.unchanged)] := if_pos h

/-- A report with something in it starts with an indented line. -/
theorem driftMessages_drifted {drift : Drift} (patch : Bool) (h : drift.clean = false) :
    ∃ t ms, driftMessages drift patch = .info (byte ' ' :: t) :: ms := by
  unfold driftMessages
  rw [if_neg (by simp [h])]
  rcases drift with ⟨missing, modified, extra, unchanged⟩
  cases missing with
  | cons f fs => exact ⟨_, _, rfl⟩
  | nil =>
    cases modified with
    | cons f fs => exact ⟨_, _, rfl⟩
    | nil =>
      cases extra with
      | cons f fs => exact ⟨_, _, rfl⟩
      | nil => cases h

/-- The display that a report is shown on. -/
def Report.display (env : Environment) (r : Report) : Display :=
  { color := r.color.apply false && !env.noColor, quiet := r.quiet }

/-- What a run prints: what is shown, and behind it what is printed as it is. -/
theorem Report.ending_out (env : Environment) (r : Report) :
    (r.ending env).output.out =
      (r.shown.flatMap fun m => ((r.display env).write m).out) ++ r.printed := by
  rw [← Display.writeAll_out]
  unfold Report.ending
  cases r.fault with
  | none => rfl
  | some f => simp [Output.append, Report.display, Display.write, Message.output, Message.isUrgent]

/-- The exit code says whether there was a fault. -/
theorem Report.ending_exit (env : Environment) (r : Report) :
    (r.ending env).exit = if r.fault.isSome then 1 else 0 := by
  unfold Report.ending
  cases r.fault <;> rfl

section

variable {drift : Drift} {patch : Bool} (hshown : r.shown = driftMessages drift patch)
  (hprinted : r.printed = []) (hquiet : r.quiet = false)
include hshown hprinted hquiet

theorem Report.out_of_clean (hclean : drift.clean = true) :
    (r.ending env).output.out = matchLine (r.display env).color drift.unchanged := by
  rw [Report.ending_out, hshown, hprinted, driftMessages_clean patch hclean, List.flatMap_singleton,
    List.append_nil]
  simp [Display.write, Report.display, hquiet, matchLine]

/-- **The line is printed for a clean report and for no other.** -/
theorem Report.line_iff : matchLine color n <+: (r.ending env).output.out ↔
    drift.clean = true ∧ n = drift.unchanged ∧ (r.ending env).output.out = matchLine color n := by
  cases hclean : drift.clean with
  | true =>
    rw [Report.out_of_clean hshown hprinted hquiet hclean]
    constructor
    · intro h
      obtain ⟨rfl, rfl⟩ := matchLine_prefix h
      exact ⟨rfl, rfl, rfl⟩
    · rintro ⟨-, -, h⟩
      exact ⟨[], by rw [List.append_nil, h]⟩
  | false =>
    obtain ⟨t, ms, hms⟩ := driftMessages_drifted patch hclean
    constructor
    · rintro ⟨u, hu⟩
      have hhead := congrArg List.head? hu
      rw [List.head?_append, head?_matchLine, Report.ending_out, hshown, hms, List.flatMap_cons,
        Display.write, Report.display, hquiet] at hhead
      cases color <;> cases hhead
    · rintro ⟨h, -⟩
      cases h

end

/-! ## 3. The comparison

The command compares if it is run with arguments that it takes, has settings, and finds source and project. -/

/-- A run compares what the walk `w` visits with the directory `dest`. -/
inductive Compares (env : Environment) (args : List Bytes) : Walk.Scope → Bytes → Prop
  | intro {rest : List Bytes} {a : Arguments} {s : Setup} {t : Tree} {root : Bytes} :
      find args = .ok (.diff, rest) → Flag.parse Command.diff.flags rest = .ok a →
      a.switch "help" = false → a.rest = [] → setup .diff env.disk a = .ok s →
      (kitSource s.config env.disk).check env.disk = .ok t →
      Project.resolve env.disk (a.text "path" ".") = .ok root →
      Compares env args ⟨t, (kitSource s.config env.disk).root, s.config.exclude⟩ (Project.kitPath root)

/-- What a comparison reports. -/
theorem Compares.reports (h : Compares env args w dest) : ∃ patch,
    (report env args).shown =
        ((Compare.run w dest patch env.disk).drift.map (driftMessages · patch)).getD [] ∧
      (report env args).printed = [] ∧ (report env args).quiet = false ∧
      (report env args).fault = (Compare.run w dest patch env.disk).failure.map .failed := by
  obtain ⟨hfind, hparse, hhelp, hrest, hsetup, hsource, hroot⟩ := h
  rename_i rest a s t root
  have hreport : ∃ log, report env args =
      { runDiff s a env.disk with settings := s.settings, log := log } := by
    rw [report_start hfind hparse hhelp (by decide) hrest, start, hsetup]
    exact ⟨_, rfl⟩
  obtain ⟨log, hreport⟩ := hreport
  rw [hreport]
  refine ⟨a.switch "patch", ?_, rfl, rfl, ?_⟩
  · dsimp only [runDiff]
    rw [Install.diff_eq hsource hroot]
    cases (Compare.run _ _ _ env.disk).drift <;> rfl
  · dsimp only [runDiff]
    rw [Install.diff_eq hsource hroot]

/-- A run that compares nothing prints nothing, or how the command is used. -/
theorem compares_or_silent (hfind : find args = .ok (.diff, rest)) :
    (∃ w dest, Compares env args w dest) ∨
      (report env args).shown = [] ∧
        ((report env args).printed = [] ∨ (report env args).printed = Command.diff.helpText) := by
  have hcourse := course env args
  generalize report env args = r at hcourse
  cases hcourse with
  | unknown h => cases hfind.symm.trans h
  | refused h => exact Or.inr ⟨rfl, Or.inl rfl⟩
  | explained h =>
    -- The command was asked for help.
    cases hfind.symm.trans h
    exact Or.inr ⟨rfl, Or.inr rfl⟩
  | misused h => exact Or.inr ⟨rfl, Or.inl rfl⟩
  | unsettled h => exact Or.inr ⟨rfl, Or.inl rfl⟩
  | @worked _ _ a s _ h hparse hhelp _ hwords hsetup =>
    cases hfind.symm.trans h
    have hrest : a.rest = [] := by simpa [argumentFault?_of_worker (c := .diff) (by decide)] using hwords
    dsimp only [work, runDiff, Install.diff]
    cases hsource : (kitSource s.config env.disk).check env.disk with
    | error f => exact Or.inr ⟨rfl, Or.inl rfl⟩
    | ok t =>
      cases hresolve : Project.resolve env.disk (a.text "path" ".") with
      | error f => exact Or.inr ⟨rfl, Or.inl rfl⟩
      | ok root => exact Or.inl ⟨_, _, .intro hfind hparse hhelp hrest hsetup hsource hresolve⟩

end Command

/-! ## 4. What was seen

A file is the same, or different, or could not be read, and the report counts each kind.  The line is printed if
there are none of the second kind. -/

namespace Compare

variable {w : Walk.Scope} {dest : Bytes} {d : Disk} {n : Nat} {patch : Bool}

/-- No difference was seen: what could be read on both sides is the same, and it is `n` files. -/
structure NoDifference (w : Walk.Scope) (dest : Bytes) (d : Disk) (n : Nat) : Prop where
  walked : (Count.files w d).2 = none
  compared : ∀ x ∈ files w d, Found w dest d x .unchanged ∨ ∃ f, Found w dest d x (.failed f)
  known : ∀ x ∈ installed w.exclude dest d, ∃ y ∈ files w d, y.rel = x.rel
  number : n = ((files w d).filter fun x => Found w dest d x .unchanged).length

/-- All `n` files were read on both sides with the same content, and the destination was searched for
others and has none. -/
structure Verified (w : Walk.Scope) (dest : Bytes) (d : Disk) (n : Nat) : Prop where
  counted : Count.files w d = (n, none)
  same : ∀ x ∈ files w d, Found w dest d x .unchanged
  known : ∀ x ∈ installed w.exclude dest d, ∃ y ∈ files w d, y.rel = x.rel
  searched : searchFailure? w.exclude dest d = none

/-- Something could not be read. -/
def Unread (w : Walk.Scope) (dest : Bytes) (d : Disk) : Prop :=
  (∃ x ∈ files w d, ∃ f, Found w dest d x (.failed f)) ∨ ∃ f, searchFailure? w.exclude dest d = some f

/-- A walk that comes to its end, said by counting. -/
theorem count_complete : (Count.files w d).2 = none ↔
    Walk.checkPatterns w.exclude = .ok () ∧ (Walk.visits w d).2 = none := by
  unfold Count.files
  cases Walk.checkPatterns w.exclude with
  | error f => simp
  | ok u => simp [Walk.run_observer, Walk.visits_eq_trace]

/-- The clean reports. -/
theorem noDifference_iff : NoDifference w dest d n ↔
    ∃ drift, (run w dest patch d).drift = some drift ∧ drift.clean = true ∧ n = drift.unchanged := by
  have hnumber := (gathered_sorts w dest patch d).unchanged
  constructor
  · intro h
    obtain ⟨hp, hok⟩ := count_complete.mp h.walked
    exact ⟨_, run_drift.mpr ⟨hp, hok, rfl⟩, clean_iff_compared.mpr ⟨h.compared, h.known⟩,
      h.number.trans hnumber.symm⟩
  · rintro ⟨drift, hdrift, hclean, rfl⟩
    obtain ⟨hp, hok, rfl⟩ := run_drift.mp hdrift
    obtain ⟨hcompared, hknown⟩ := clean_iff_compared.mp hclean
    exact ⟨count_complete.mpr ⟨hp, hok⟩, hcompared, hknown, hnumber⟩

theorem Verified.noDifference (h : Verified w dest d n) : NoDifference w dest d n := by
  have hwalked : (Count.files w d).2 = none := congrArg Prod.snd h.counted
  refine ⟨hwalked, fun x hx => Or.inl (h.same x hx), h.known, ?_⟩
  rw [List.filter_eq_self.mpr fun x hx => decide_eq_true (h.same x hx),
    ← count_files (count_complete.mp hwalked).1, h.counted]

/-- Where no difference was seen, all is verified or something could not be read. -/
theorem NoDifference.verified_iff (h : NoDifference w dest d n) :
    Verified w dest d n ↔ ¬ Unread w dest d := by
  constructor
  · rintro hv (⟨x, hx, f, hf⟩ | ⟨f, hf⟩)
    · cases (hv.same x hx).eq hf
    · cases hv.searched.symm.trans hf
  · intro hread
    obtain ⟨hfiles, hsearch⟩ := not_or.mp hread
    have hsame : ∀ x ∈ files w d, Found w dest d x .unchanged := by
      intro x hx
      rcases h.compared x hx with hun | hfail
      · exact hun
      · exact absurd ⟨x, hx, hfail⟩ hfiles
    have hcount : (Count.files w d).1 = n := by
      rw [count_files (count_complete.mp h.walked).1, h.number,
        List.filter_eq_self.mpr fun x hx => decide_eq_true (hsame x hx)]
    exact ⟨Prod.ext hcount h.walked, hsame, h.known,
      Option.eq_none_iff_forall_ne_some.mpr fun f hf => hsearch ⟨f, hf⟩⟩

/-- A comparison that sees no difference fails just if something could not be read. -/
theorem failure_iff_unread (h : NoDifference w dest d n) :
    (run w dest patch d).failure.isSome = true ↔ Unread w dest d := by
  obtain ⟨hp, hok⟩ := count_complete.mp h.walked
  rw [← not_iff_not, Bool.not_eq_true, Option.isSome_eq_false_iff, Option.isNone_iff_eq_none,
    failure_eq_none hp hok, fileFailures_eq_nil, Unread, not_or,
    Option.eq_none_iff_forall_ne_some, not_exists]
  simp only [not_exists, not_and]

end Compare

namespace Command

open Compare

variable {env : Environment} {args rest : List Bytes} {w : Walk.Scope} {dest : Bytes} {n : Nat}
  {color : Bool}

/-- The line is printed where no difference was seen. -/
theorem Compares.line_iff (h : Compares env args w dest) :
    matchLine color n <+: (run env args).output.out ↔
      NoDifference w dest env.disk n ∧ (run env args).output.out = matchLine color n := by
  obtain ⟨patch, hshown, hprinted, hquiet, -⟩ := h.reports
  rw [@noDifference_iff w dest env.disk n patch]
  cases hdrift : (Compare.run w dest patch env.disk).drift with
  | none =>
    rw [hdrift] at hshown
    have hout : (run env args).output.out = [] := by
      rw [run, Report.ending_out, hshown, hprinted]
      rfl
    constructor
    · intro hline
      rw [hout] at hline
      cases color <;> cases List.prefix_nil.mp hline
    · rintro ⟨⟨drift, h, -⟩, -⟩
      cases h
  | some drift =>
    rw [hdrift] at hshown
    rw [run, Report.line_iff hshown hprinted hquiet]
    constructor
    · rintro ⟨hclean, hn, hout⟩
      exact ⟨⟨drift, rfl, hclean, hn⟩, hout⟩
    · rintro ⟨⟨_, hsome, hclean, hn⟩, hout⟩
      cases hsome
      exact ⟨hclean, hn, hout⟩

/-- If no difference is seen, the line is printed. -/
theorem Compares.out_eq (h : Compares env args w dest) (hno : NoDifference w dest env.disk n) :
    ∃ color, (run env args).output.out = matchLine color n := by
  obtain ⟨patch, hshown, hprinted, hquiet, -⟩ := h.reports
  obtain ⟨drift, hdrift, hclean, rfl⟩ := (@noDifference_iff w dest env.disk n patch).mp hno
  rw [hdrift] at hshown
  exact ⟨_, Report.out_of_clean hshown hprinted hquiet hclean⟩

theorem Compares.exit_cases (h : Compares env args w dest) (hno : NoDifference w dest env.disk n) :
    (run env args).exit = 0 ∧ Verified w dest env.disk n ∨
      (run env args).exit = 1 ∧ Unread w dest env.disk := by
  obtain ⟨patch, -, -, -, hfault⟩ := h.reports
  have hexit := Report.ending_exit env (report env args)
  rw [hfault, Option.isSome_map] at hexit
  by_cases hunread : Unread w dest env.disk
  · rw [if_pos ((failure_iff_unread hno).mpr hunread)] at hexit
    exact Or.inr ⟨hexit, hunread⟩
  · rw [if_neg (mt (failure_iff_unread hno).mp hunread)] at hexit
    exact Or.inl ⟨hexit, hno.verified_iff.mpr hunread⟩

/-- **What a printed match is worth.**  The line is printed by a run that compares and sees no difference,
and it gives the number of files that are the same.  With exit code 0 these are all the files of the source
and the destination has no others; with exit code 1 something could not be read.  Where everything is
verified, the line is printed and the exit code is 0. -/
theorem run_verdict (hfind : find args = .ok (.diff, rest)) :
    (∀ color n, matchLine color n <+: (run env args).output.out →
      ∃ w dest, Compares env args w dest ∧ NoDifference w dest env.disk n ∧
        (run env args).output.out = matchLine color n ∧
        ((run env args).exit = 0 ∧ Verified w dest env.disk n ∨
          (run env args).exit = 1 ∧ Unread w dest env.disk)) ∧
    ∀ w dest n, Compares env args w dest → Verified w dest env.disk n →
      (run env args).exit = 0 ∧ ∃ color, (run env args).output.out = matchLine color n := by
  constructor
  · intro color n hline
    rcases @compares_or_silent env args rest hfind with ⟨w, dest, hcomp⟩ | ⟨hshown, hprinted⟩
    · obtain ⟨hno, hout⟩ := hcomp.line_iff.mp hline
      exact ⟨w, dest, hcomp, hno, hout, hcomp.exit_cases hno⟩
    · -- Neither nothing nor a help text starts as the line does.
      obtain ⟨t, ht⟩ := hline
      have hhead := congrArg List.head? ht
      rw [List.head?_append, head?_matchLine, run, Report.ending_out, hshown, List.flatMap_nil,
        List.nil_append] at hhead
      rcases hprinted with hnone | hhelp
      · rw [hnone] at hhead
        cases hhead
      · rw [hhelp] at hhead
        cases color <;> cases hhead
  · intro w dest n hcomp hverified
    refine ⟨?_, hcomp.out_eq hverified.noDifference⟩
    rcases hcomp.exit_cases hverified.noDifference with ⟨hexit, -⟩ | ⟨-, hunread⟩
    · exact hexit
    · exact absurd hunread (hverified.noDifference.verified_iff.mp hverified)

/-- A kit of two files, the second with the given mode, and a project with the same files. -/
def kitAndCopy (mode : Nat) : Environment :=
  { disk :=
      { entries :=
          [([("kit" : Bytes)], .dir 0o755),
            ([("kit" : Bytes), ("a" : Bytes)], .file 0o644 "1"),
            ([("kit" : Bytes), ("b" : Bytes)], .file mode "2"),
            ([("project" : Bytes)], .dir 0o755),
            ([("project" : Bytes), Kit.marker], .dir 0o755),
            ([("project" : Bytes), Kit.marker, ("a" : Bytes)], .file 0o644 "1"),
            ([("project" : Bytes), Kit.marker, ("b" : Bytes)], .file 0o644 "2")] }
    time := ""
    version := { toolchain := "" } }

/-- Compares the project with the kit. -/
def diffWithKit : List Bytes := ["diff", "--source", "/kit", "--path", "/project"]

/-- The two files are the same on both sides. -/
theorem run_verdict_kitAndCopy : find diffWithKit = .ok (.diff, diffWithKit.tail) ∧
    (run (kitAndCopy 0o644) diffWithKit).output.out = matchLine false 2 ∧
    ∃ w dest, Compares (kitAndCopy 0o644) diffWithKit w dest ∧ Verified w dest (kitAndCopy 0o644).disk 2 := by
  have hfind : find diffWithKit = .ok (.diff, diffWithKit.tail) := by rfl
  have hout : (run (kitAndCopy 0o644) diffWithKit).output.out = matchLine false 2 := by decide +kernel
  have hexit : (run (kitAndCopy 0o644) diffWithKit).exit ≠ 1 := by decide +kernel
  obtain ⟨w, dest, hcomp, -, -, h⟩ :=
    (@run_verdict (kitAndCopy 0o644) diffWithKit diffWithKit.tail hfind).1 false 2 (hout ▸ List.prefix_refl _)
  rcases h with ⟨-, hverified⟩ | ⟨hone, -⟩
  · exact ⟨hfind, hout, w, dest, hcomp, hverified⟩
  · exact absurd hone hexit

/-- The line stands above an error: a file of the kit may not be read, and one of its two files is said to
match. -/
theorem match_printed_with_error :
    (run (kitAndCopy 0o200) diffWithKit).output.out = matchLine false 1 ∧
      (run (kitAndCopy 0o200) diffWithKit).exit = 1 ∧
      (Count.files ⟨.onDisk "/kit", ".", []⟩ (kitAndCopy 0o200).disk).1 = 2 := by
  decide +kernel

end Command

end AgentKit
