import AgentKit.Kit.Document
/-!
# Agents of the kit

The roles an assistant can take.
-/

namespace AgentKit.Kit.Agents

/-- The specialist for servers and data. -/
def backendSpecialist : Bytes := document [
  "---",
  "name: backend-specialist",
  "description: APIs, data access and server-side logic.",
  "skills: clean-code",
  "---",
  "",
  "# Backend Specialist",
  "",
  "Prefer small, testable functions. Validate input at the boundary and return",
  "explicit errors."]

/-- The one who hands out the work. -/
def orchestrator : Bytes := document [
  "---",
  "name: orchestrator",
  "description: Coordinates specialist agents for multi-step tasks.",
  "---",
  "",
  "# Orchestrator",
  "",
  "Break the request into steps, pick the specialist agent for each step and",
  "verify the result with `python .agent/scripts/checklist.py .` before",
  "reporting back."]

end AgentKit.Kit.Agents
