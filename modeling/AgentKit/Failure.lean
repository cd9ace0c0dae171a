import AgentKit.Text.Bytes
/-!
# Failures

Why an operation failed, from the reason the operating system gave up to the sentence that the user
reads.  A failure keeps its cause, since what to do about it depends on the cause: a file that does
not exist is missing rather than broken, and a file that may not be written can be replaced.
-/

namespace AgentKit

/-- Reasons of the operating system. -/
inductive Errno where
  | notFound
  | denied
  | fileExists
  | notDirectory
  | isDirectory
  | invalid
  | nameTooLong
  | linkLoop
  | notEmpty
  deriving DecidableEq, Repr

def Errno.message : Errno → Bytes
  | .notFound => "no such file or directory"
  | .denied => "permission denied"
  | .fileExists => "file exists"
  | .notDirectory => "not a directory"
  | .isDirectory => "is a directory"
  | .invalid => "invalid argument"
  | .nameTooLong => "file name too long"
  | .linkLoop => "too many levels of symbolic links"
  | .notEmpty => "directory not empty"

/-- Why an operation failed. -/
inductive Failure where
  /-- A reason of the operating system. -/
  | errno (e : Errno)
  /-- There is no such file in a tree that is not on disk. -/
  | absent
  /-- The tree does not allow it. -/
  | forbidden
  /-- The tree cannot be asked for this. -/
  | improper
  /-- The content ended too early. -/
  | cutShort
  /-- A failure known by its text only. -/
  | other (text : Bytes)
  /-- An operation on a path. -/
  | onPath (operation path : Bytes) (cause : Failure)
  /-- A failure on the way to something. -/
  | during (doing : Bytes) (cause : Failure)
  /-- There is no kit to install. -/
  | sourceNotFound (path : Bytes) (cause : Option Failure)
  /-- There is no project to install into. -/
  | targetNotFound (path : Bytes) (cause : Option Failure)
  /-- More than one thing failed. -/
  | several (causes : List Failure)
  deriving Repr, Inhabited

namespace Failure

mutual

/-- The failure comes down to something that does not exist. -/
def isAbsence : Failure → Bool
  | .errno e => e = .notFound
  | .absent => true
  | .forbidden | .improper | .cutShort | .other _ => false
  | .onPath _ _ c | .during _ c => c.isAbsence
  | .sourceNotFound _ c | .targetNotFound _ c => optionIsAbsence c
  | .several cs => anyIsAbsence cs

/-- There is a cause and it comes down to something that does not exist. -/
def optionIsAbsence : Option Failure → Bool
  | none => false
  | some c => c.isAbsence

/-- One of the causes comes down to something that does not exist. -/
def anyIsAbsence : List Failure → Bool
  | [] => false
  | c :: t => c.isAbsence || anyIsAbsence t

end

/-- The failure comes down to a missing permission. -/
def isDenial : Failure → Bool
  | .errno e => e = .denied
  | .forbidden => true
  | .onPath _ _ c | .during _ c => c.isDenial
  | _ => false

/-- The failure comes down to the system's finding a file where a directory was needed. -/
def isNotDirectory : Failure → Bool
  | .errno e => e = .notDirectory
  | .onPath _ _ c | .during _ c => c.isNotDirectory
  | _ => false

mutual

/-- There was no kit to install, at whatever depth of causes. -/
def isSourceNotFound : Failure → Bool
  | .sourceNotFound .. => true
  | .onPath _ _ c | .during _ c => c.isSourceNotFound
  | .targetNotFound _ c => optionIsSourceNotFound c
  | _ => false

/-- There is a cause, and it is that there was no kit to install. -/
def optionIsSourceNotFound : Option Failure → Bool
  | none => false
  | some c => c.isSourceNotFound

end

mutual

/-- There was no project to install into, at whatever depth of causes. -/
def isTargetNotFound : Failure → Bool
  | .targetNotFound .. => true
  | .onPath _ _ c | .during _ c => c.isTargetNotFound
  | .sourceNotFound _ c => optionIsTargetNotFound c
  | _ => false

/-- There is a cause, and it is that there was no project to install into. -/
def optionIsTargetNotFound : Option Failure → Bool
  | none => false
  | some c => c.isTargetNotFound

end

mutual

/-- The wording of a failure.  Where something was not found, a cause that only says so again is
left out. -/
def message : Failure → Bytes
  | .errno e => e.message
  | .absent => "file does not exist"
  | .forbidden => "permission denied"
  | .improper => "invalid argument"
  | .cutShort => "unexpected EOF"
  | .other t => t
  | .onPath operation path c => operation ++ " " ++ path ++ ": " ++ c.message
  | .during doing c => doing ++ ": " ++ c.message
  | .sourceNotFound path c => "source not found: " ++ path ++ reason c
  | .targetNotFound path c => "target not found: " ++ path ++ reason c
  | .several cs =>
    let count : Bytes :=
      if cs.length = 1 then "1 error occurred:" else Bytes.ofNat cs.length ++ " errors occurred:"
    count ++ "\n" ++ items cs ++ "\n"

/-- The cause behind a path that was not found. -/
def reason : Option Failure → Bytes
  | none => []
  | some c => if c.isAbsence then [] else ": " ++ c.message

/-- The causes, one on a line. -/
def items : List Failure → Bytes
  | [] => []
  | c :: t => "\t* " ++ c.message ++ "\n" ++ items t

end

end Failure

end AgentKit
