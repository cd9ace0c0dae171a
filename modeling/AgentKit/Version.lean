import AgentKit.Text.Json
/-!
# Versions

What the program knows about how it was built.
-/

namespace AgentKit

/-- What is known about a build. -/
structure Version where
  version : Bytes := "dev"
  gitCommit : Bytes := "unknown"
  buildTime : Bytes := "unknown"
  /-- The version of the tools it was built with. -/
  toolchain : Bytes
  deriving DecidableEq, Repr

namespace Version

/-- The build on a line. -/
def line (v : Version) : Bytes :=
  "Version: " ++ v.version ++ ", GitCommit: " ++ v.gitCommit ++ ", BuildTime: " ++ v.buildTime ++
    ", GoVersion: " ++ v.toolchain

/-- A member of a JSON object on a line of its own. -/
def member (name value : Bytes) : Bytes := "  " ++ Json.text name ++ ": " ++ Json.text value

def json (v : Version) : Bytes :=
  "\x7b\n" ++
    Bytes.joinWith ",\n" [member "version" v.version, member "gitCommit" v.gitCommit,
      member "buildTime" v.buildTime, member "goVersion" v.toolchain] ++
    "\n\x7d"

end Version

end AgentKit
