import AgentKit.Kit.Document
/-!
# The session script

A helper script of the kit; it is installed and never run from here.
-/

namespace AgentKit.Kit.Scripts

/-- Sums up a project. -/
def sessionManager : Bytes := document [
  "#!/usr/bin/env python3",
  "\"\"\"",
  "session_manager.py — Agent session state tracking for multi-conversation work.",
  "",
  "Usage:",
  "  python .agent/scripts/session_manager.py save \"working on auth\"",
  "  python .agent/scripts/session_manager.py load",
  "  python .agent/scripts/session_manager.py show",
  "  python .agent/scripts/session_manager.py clear",
  "\"\"\"",
  "",
  "import os",
  "import sys",
  "import json",
  "from pathlib import Path",
  "from datetime import datetime",
  "",
  "STATE_FILE = \".agent_session.json\"",
  "",
  "GREEN  = \"\\033[92m\"",
  "YELLOW = \"\\033[93m\"",
  "BLUE   = \"\\033[94m\"",
  "RED    = \"\\033[91m\"",
  "BOLD   = \"\\033[1m\"",
  "RESET  = \"\\033[0m\"",
  "",
  "VALID_COMMANDS = \x7b\"save\", \"load\", \"show\", \"clear\"\x7d",
  "",
  "",
  "def load_state() -> dict:",
  "    path = Path(STATE_FILE)",
  "    if not path.exists():",
  "        return \x7b\x7d",
  "    try:",
  "        with open(path) as f:",
  "            return json.load(f)",
  "    except (json.JSONDecodeError, IOError):",
  "        return \x7b\x7d",
  "",
  "",
  "def save_state(state: dict) -> None:",
  "    with open(STATE_FILE, \"w\") as f:",
  "        json.dump(state, f, indent=2)",
  "",
  "",
  "def cmd_save(note: str) -> None:",
  "    state = load_state()",
  "    entry = \x7b",
  "        \"timestamp\": datetime.now().isoformat(),",
  "        \"note\": note,",
  "        \"session\": len(state.get(\"history\", [])) + 1,",
  "    \x7d",
  "    state.setdefault(\"history\", []).append(entry)",
  "    state[\"current\"] = entry",
  "    save_state(state)",
  "    print(f\"\x7bGREEN\x7d✅ Session saved:\x7bRESET\x7d \x7bnote\x7d\")",
  "    print(f\"   Time:    \x7bentry['timestamp']\x7d\")",
  "    print(f\"   Session: #\x7bentry['session']\x7d\")",
  "",
  "",
  "def cmd_load() -> None:",
  "    state = load_state()",
  "    current = state.get(\"current\")",
  "    if not current:",
  "        print(f\"\x7bYELLOW\x7dNo active session — use 'save' first.\x7bRESET\x7d\")",
  "        return",
  "    print(f\"\x7bBOLD\x7dCurrent session:\x7bRESET\x7d\")",
  "    print(f\"  Session: #\x7bcurrent['session']\x7d\")",
  "    print(f\"  Time:    \x7bcurrent['timestamp']\x7d\")",
  "    print(f\"  Note:    \x7bcurrent['note']\x7d\")",
  "",
  "",
  "def cmd_show() -> None:",
  "    state = load_state()",
  "    history = state.get(\"history\", [])",
  "    if not history:",
  "        print(f\"\x7bYELLOW\x7dNo session history.\x7bRESET\x7d\")",
  "        return",
  "    print(f\"\x7bBOLD\x7dSession History (\x7blen(history)\x7d total):\x7bRESET\x7d\")",
  "    for entry in reversed(history[-10:]):",
  "        print(f\"\\n  \x7bBLUE\x7d#\x7bentry['session']\x7d\x7bRESET\x7d — \x7bentry['timestamp'][:16]\x7d\")",
  "        print(f\"  \x7bentry['note']\x7d\")",
  "",
  "",
  "def cmd_clear() -> None:",
  "    path = Path(STATE_FILE)",
  "    if path.exists():",
  "        path.unlink()",
  "        print(f\"\x7bGREEN\x7d✅ Session state cleared.\x7bRESET\x7d\")",
  "    else:",
  "        print(f\"\x7bYELLOW\x7dNo session file found — nothing to clear.\x7bRESET\x7d\")",
  "",
  "",
  "def main() -> None:",
  "    if len(sys.argv) < 2:",
  "        print(f\"Usage: session_manager.py [save <note>|load|show|clear]\")",
  "        sys.exit(1)",
  "",
  "    cmd = sys.argv[1].lower()",
  "",
  "    if cmd not in VALID_COMMANDS:",
  "        print(f\"\x7bRED\x7dUnknown command: '\x7bcmd\x7d'\x7bRESET\x7d\")",
  "        print(f\"Valid commands: \x7b', '.join(sorted(VALID_COMMANDS))\x7d\")",
  "        sys.exit(1)",
  "",
  "    if cmd == \"save\":",
  "        note = \" \".join(sys.argv[2:]).strip()",
  "        if not note:",
  "            note = f\"session \x7bdatetime.now().strftime('%Y-%m-%d %H:%M')\x7d\"",
  "        cmd_save(note)",
  "    elif cmd == \"load\":",
  "        cmd_load()",
  "    elif cmd == \"show\":",
  "        cmd_show()",
  "    elif cmd == \"clear\":",
  "        cmd_clear()",
  "",
  "",
  "if __name__ == \"__main__\":",
  "    main()"]

end AgentKit.Kit.Scripts
