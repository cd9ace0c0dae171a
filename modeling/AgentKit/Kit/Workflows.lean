import AgentKit.Kit.Document
/-!
# Workflows of the kit

What to do, step by step.
-/

namespace AgentKit.Kit.Workflows

/-- The steps of an audit. -/
def audit : Bytes := document [
  "---",
  "description: Run the full project audit.",
  "---",
  "",
  "# /audit",
  "",
  "Run `python .agent/scripts/verify_all.py .` and summarise every failing check."]

def plan : Bytes := document [
  "---",
  "description: Produce an implementation plan before writing code.",
  "---",
  "",
  "# /plan",
  "",
  "1. Restate the goal in one sentence.",
  "2. List the files that will change.",
  "3. List the checks that prove the change works."]

end AgentKit.Kit.Workflows
