import TapeInterpreter.Settings
import TapeInterpreter.Limits.Resolve

/-!
The help text.
-/
namespace TapeInterpreter
set_option autoImplicit false

/-- How `program` is called, line by line. -/
def usageLines (program : String) : List String := [
  "Usage:",
  "  " ++ program ++ " [OPTIONS] [EXPRESSIONS...]",
  "  " ++ program ++ " [OPTIONS] --file <PATH>",
  "",
  "Options:",
  "  --file,  -f <PATH>  Evaluate the contents of PATH instead of positional expressions",
  "  --max-steps <N>     Abort an expression after N steps (fallback " ++ Limits.maxStepsVariable ++
    "; default unlimited)",
  "  --timeout <MS>      Abort after MS milliseconds of wall-clock time (fallback " ++
    Limits.timeoutVariable ++ "; default unlimited)",
  "  --help,  -h         Show this help",
  "",
  "Notes:",
  "- Each expression runs on a fresh tape of 32768 cells; evaluation stops at the first error.",
  "- Loops may nest at most " ++ toString defaultMaxDepth ++ " levels deep.",
  "- Input (`,`) reads a single byte from stdin; reading past end of input is an error.",
  "- Whitespace is ignored and `#` starts a comment that runs to the end of the line.",
  "- Any other characters outside of ><+-.,[] will result in an error.",
  "- Limits may also be set in the [limits] section of $XDG_CONFIG_HOME/tapebf.toml.",
  "",
  "Examples:",
  "- Print '@':",
  "    " ++ program ++ " \"++++++++[>++++++++<-]>.\"",
  "- Echo stdin until a zero byte:",
  "    " ++ program ++ " \",[.,]\" < input.txt"]

/-- The help text, without a final line feed. -/
def usage (program : String) : String := "\n".intercalate (usageLines program)

end TapeInterpreter
