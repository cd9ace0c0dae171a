import AgentKit.Kit.Agents
import AgentKit.Kit.Scripts.AutoPreview
import AgentKit.Kit.Scripts.BundleAnalyzer
import AgentKit.Kit.Scripts.Checklist
import AgentKit.Kit.Scripts.DependencyAnalyzer
import AgentKit.Kit.Scripts.LintRunner
import AgentKit.Kit.Scripts.SchemaValidator
import AgentKit.Kit.Scripts.SecurityScan
import AgentKit.Kit.Scripts.SessionManager
import AgentKit.Kit.Scripts.TestRunner
import AgentKit.Kit.Scripts.VerifyAll
import AgentKit.Kit.Skills
import AgentKit.Kit.Workflows
import AgentKit.Tree
/-!
# The bundled kit

The tree that is installed into projects, under the name `.agent`.  Files are read-only, as far as the
tree knows; helper scripts may be run.
-/

namespace AgentKit.Kit

/-- The name of the kit's directory, in the bundle as in a project. -/
def marker : Bytes := ".agent"

/-- The name belongs to a helper script. -/
def isScript (name : Bytes) : Bool :=
  (marker ++ "/scripts/").isPrefixOf name && Path.ending name ∈ ([".py", ".sh"] : List Bytes)

/-- The files of the kit. -/
def files : List (Bytes × Bytes) := [
  (".agent/agents/backend-specialist.md", Agents.backendSpecialist),
  (".agent/agents/orchestrator.md", Agents.orchestrator),
  (".agent/scripts/auto_preview.py", Scripts.autoPreview),
  (".agent/scripts/bundle_analyzer.py", Scripts.bundleAnalyzer),
  (".agent/scripts/checklist.py", Scripts.checklist),
  (".agent/scripts/dependency_analyzer.py", Scripts.dependencyAnalyzer),
  (".agent/scripts/lint_runner.py", Scripts.lintRunner),
  (".agent/scripts/schema_validator.py", Scripts.schemaValidator),
  (".agent/scripts/security_scan.py", Scripts.securityScan),
  (".agent/scripts/session_manager.py", Scripts.sessionManager),
  (".agent/scripts/test_runner.py", Scripts.testRunner),
  (".agent/scripts/verify_all.py", Scripts.verifyAll),
  (".agent/skills/clean-code/SKILL.md", Skills.cleanCode),
  (".agent/workflows/audit.md", Workflows.audit),
  (".agent/workflows/plan.md", Workflows.plan)]

/-- The mode of a file. -/
def mode (name : Bytes) : Nat := if isScript name then 0o555 else 0o444

/-- The kit as a tree in memory. -/
def memory : Memory :=
  { entries := files.map fun (name, content) => (name, .file (mode name) content) }

/-- The kit as a tree. -/
def tree : Tree := .inMemory memory

end AgentKit.Kit
