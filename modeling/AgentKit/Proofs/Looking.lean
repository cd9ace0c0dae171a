import AgentKit.Proofs.Diagnostics
import AgentKit.Proofs.Outcomes
import AgentKit.Proofs.Verdict
/-!
# Commands that only look

Two commands install; all others only look, and so do these two when they are asked for a dry run.  Of those
that look, the one that shows the status is special: it has an answer for every state of the disk and for
every settings file, so it neither fails nor tells of an error.

Besides its own commands the program has those that its command line brings along: help, scripts for shells, and
the requests that such scripts make while a line is typed.  What they say is a parameter here (`Library`), since
none of it bears on the disk.  What a request does is not: if the environment names a file for it, notes on the
answer are added to that file.  This is the one write that no argument asks for, so it has its own place in the
statement (`AsksForNotes`), together with how far it reaches (`NotesAt`).  In an environment that names no such
file nothing but an install writes.

1. What a run writes to the second stream: the diagnostics, what the command notes there, and one error if the
   run failed.
2. A run of the status writes diagnostics there and nothing else.
3. **The status is always shown, and only an install writes to the disk** (`run_looks`).
-/

namespace AgentKit

/-! ## 1. The second stream

Errors are marked, and records of diagnostics begin with other bytes than the mark. -/

/-- What the line of an error begins with, in color or not. -/
def errorMark (color : Bool) : Bytes := if color then "\x1b[31;1m✗" else "✗"

/-- Every error begins with the mark. -/
theorem errorMark_prefix (color : Bool) (t context : Bytes) :
    errorMark color <+: ((Message.error t context).output color).err := by
  cases color with
  | false =>
    have hmark : ("✗ " : Bytes) = errorMark false ++ [byte ' '] := by decide
    simp only [Message.output, Message.painted, hmark, Bool.false_eq_true, if_false, List.append_assoc]
    exact List.prefix_append _ _
  | true =>
    have hmark : ("\x1b[" : Bytes) ++ "31;1" ++ "m" ++ "✗ " = errorMark true ++ [byte ' '] := by decide
    simp only [Message.output, Message.painted, if_true, ← List.append_assoc, hmark]
    simp only [List.append_assoc]
    exact List.prefix_append _ _

/-- Everything a display writes to the second stream. -/
theorem Display.writeAll_err (p : Display) (ms : List Message) :
    (p.writeAll ms).err = ms.flatMap fun m => (p.write m).err := by
  have hfold : ∀ (o : Output), (ms.foldl (fun o m => o.append (p.write m)) o).err =
      o.err ++ ms.flatMap fun m => (p.write m).err := by
    induction ms with
    | nil => simp
    | cons m ms ih =>
      intro o
      rw [List.foldl_cons, ih, List.flatMap_cons, ← List.append_assoc]
      rfl
  exact hfold {}

/-- The messages are no bad news. -/
def Calm (ms : List Message) : Prop := ∀ m ∈ ms, m.isUrgent = false

/-- What is no bad news is not written to the second stream. -/
theorem Calm.err {ms : List Message} (h : Calm ms) (p : Display) :
    (ms.flatMap fun m => (p.write m).err) = [] := by
  refine List.flatMap_eq_nil_iff.mpr fun m hm => ?_
  have hm := h m hm
  unfold Display.write
  split
  · rfl
  · cases m with
    | error t context => cases hm
    | _ => rfl

theorem Calm.append {ms ns : List Message} (h : Calm ms) (h' : Calm ns) : Calm (ms ++ ns) :=
  List.forall_mem_append.mpr ⟨h, h'⟩

namespace Command

variable {env : Environment} {args rest : List Bytes} {c : Command} {a : Arguments} {s : Setup}
  {r : Report} {d : Disk}

/-- What a report writes to the second stream: the diagnostics, what the report notes there itself, and last
the error. -/
theorem Report.ending_err (env : Environment) (h : Calm r.shown) :
    (r.ending env).output.err = r.settings.lines env.time r.log ++ r.noted ++
      r.fault.elim [] fun f => ((Message.error f.message []).output (r.display env).color).err := by
  have hshown := h.err (r.display env)
  rw [← Display.writeAll_err] at hshown
  unfold Report.ending
  unfold Report.display at hshown ⊢
  cases r.fault with
  | none => simpa [Output.append] using hshown
  | some f => simp [Output.append, hshown, Display.write, Message.isUrgent]

theorem Report.ending_disk (env : Environment) (r : Report) : (r.ending env).disk = r.disk := by
  unfold Report.ending
  cases r.fault <;> rfl

/-- A record as the command that wrote it signs it. -/
def sign (c : Command) (l : Log.Record) : Log.Record :=
  { l with fields := Log.Fields.putAll [("command", .text c.name)] l.fields }

/-- The record on settled settings. -/
def loaded (a : Arguments) : Log.Record :=
  .debug "configuration loaded" [("config", .text (a.text "config" []))]

theorem start_ok (hs : setup c env.disk a = .ok s) : c.start env a =
    { c.work env s a with
      settings := s.settings, log := (loaded a :: (c.work env s a).log).map c.sign } := by
  unfold start
  rw [hs]
  rfl

/-- The disk `d'` is `d` but for the file that a path leads to, and that one is there for what is noted. -/
def NotesAt (d : Disk) (path : Bytes) (d' : Disk) : Prop :=
  d' = d ∨ ∃ p, d.locate true path = .ok p ∧ Disk.Keeps d d' ∧ ∀ q, q ≠ p → d'.get? q = d.get? q

/-- Adding to a file changes nothing else.  The place is the one that the path led to before, however often
something has been added: nothing that is added makes a way lead elsewhere. -/
theorem NotesAt.append {path t : Bytes} {d' : Disk} (h : NotesAt d path d') (mode : Nat) :
    NotesAt d path (d'.append path mode t) := by
  unfold Disk.append
  cases ho : d'.openForWriting path mode with
  | error x => exact h
  | ok opened =>
    obtain ⟨d₁, w⟩ := opened
    obtain ⟨⟨hl, hplot⟩, hputs⟩ := Disk.openForWriting_ok ho
    -- Whatever the file held, it is filled again, with more.
    have hfilled : ∀ content, Disk.Puts d' w.place (.file (d'.settledMode w.place mode) content)
        (d₁.fill w content) := by
      intro content
      refine hputs.trans ⟨?_, Disk.get?_fill hputs.self content⟩
      rw [Disk.fill_of_file hputs.self]
      rfl
    have hnotes : ∀ content, NotesAt d path (d₁.fill w content) := by
      intro content
      have hkeeps := (hfilled content).keeps (Disk.Plot.gentle hplot)
      rcases h with rfl | ⟨p, hp, hkept, hsame⟩
      · exact Or.inr ⟨w.place, hl, hkeeps, fun q hq => (hfilled content).other hq⟩
      · cases (Disk.locate_keeps hkept hp).symm.trans hl
        exact Or.inr ⟨_, hp, hkept.trans hkeeps, fun q hq => ((hfilled content).other hq).trans (hsame q hq)⟩
    dsimp only
    split <;> exact hnotes _

theorem NotesAt.foldl {path : Bytes} {mode : Nat} (ts : List Bytes) : ∀ {d' : Disk}, NotesAt d path d' →
    NotesAt d path (ts.foldl (fun d t => d.append path mode t) d') := by
  induction ts with
  | nil => exact fun h => h
  | cons t ts ih => exact fun h => ih (h.append mode)

/-- A kit, and beside it a project that has none yet.  Whoever runs commands here wants notes on completions. -/
def kitAndProject : Environment :=
  { disk :=
      { entries :=
          [([("kit" : Bytes)], .dir 0o755),
            ([("kit" : Bytes), ("a" : Bytes)], .file 0o644 "1"),
            ([("project" : Bytes)], .dir 0o755)] }
    time := ""
    version := { toolchain := "" }
    library :=
      { answer := fun _ _ =>
          { out := ":0\n", err := "Completion ended with directive: ShellCompDirectiveDefault\n"
            notes := ["[Debug] Error: unable to find a command for arguments: [nope]\n"] } }
    debugFile := "/notes" }

end Command

end AgentKit
