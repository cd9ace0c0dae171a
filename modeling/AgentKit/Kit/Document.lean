import AgentKit.Text.Bytes
/-!
# Documents of the kit
-/

namespace AgentKit.Kit

/-- A text of lines, each of which ends with a newline. -/
def document (lines : List String) : Bytes := lines.flatMap fun l => Bytes.ofString l ++ [byte '\n']

end AgentKit.Kit
