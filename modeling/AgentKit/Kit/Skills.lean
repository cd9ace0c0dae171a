import AgentKit.Kit.Document
/-!
# Skills of the kit

What an assistant should know before it writes code.
-/

namespace AgentKit.Kit.Skills

/-- Rules for clean code. -/
def cleanCode : Bytes := document [
  "---",
  "name: clean-code",
  "description: Naming, function size and error handling conventions.",
  "---",
  "",
  "# Clean Code",
  "",
  "- Names say what a value is, not how it is computed.",
  "- One level of abstraction per function.",
  "- Never swallow an error."]

end AgentKit.Kit.Skills
