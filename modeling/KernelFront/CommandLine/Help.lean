/-! # Help

The texts that the program prints about itself.
-/

namespace KernelFront.CommandLine

/-- The name of the program. -/
def programName : String := "numjitc"

/-- The version of the program. -/
def version : String := "0.1.0"

/-- Lines of text, each with its end. -/
def lines (texts : List String) : String := String.join (texts.map (· ++ "\n"))

/-- Help for the program as a whole. -/
def helpText : String := lines
  ["The numjit front end",
    "",
    "Usage: numjitc [OPTIONS] <COMMAND>",
    "",
    "Commands:",
    "  compile  Compile one function for concrete argument types",
    "  help     Print this message or the help of the given subcommand(s)",
    "",
    "Options:",
    "  -v, --verbose...  Log more on stderr (-v info, -vv debug, -vvv trace)",
    "  -h, --help        Print help",
    "  -V, --version     Print version"]

/-- Help for asking for help. -/
def helpHelpText : String := lines
  ["Print this message or the help of the given subcommand(s)",
    "",
    "Usage: numjitc help [COMMAND]...",
    "",
    "Arguments:",
    "  [COMMAND]...  Print help for the subcommand(s)"]

/-- Help for compiling, one line on each option. -/
def compileHelpText : String := lines
  ["Compile one function for concrete argument types",
    "",
    "Usage: numjitc compile [OPTIONS] <TREE>",
    "",
    "Arguments:",
    "  <TREE>  JSON tree: one function or a list of functions",
    "",
    "Options:",
    "      --arg <TYPE>       Argument type, once per parameter (e.g. `float64[:, :]`)",
    "  -v, --verbose...       Log more on stderr (-v info, -vv debug, -vvv trace)",
    "      --ret <TYPE>       Declared return type",
    "      --entry <ENTRY>    Function to compile (defaults to the first in the tree)",
    "      --config <CONFIG>  Path to a numjit.toml",
    "      --source <SOURCE>  Source file the tree's spans refer to",
    "      --emit <EMIT>      What to print on success [default: tree] [possible values: tree, " ++
      "signature, json]",
    "      --json             Output diagnostics as JSON (one object per line)",
    "  -h, --help             Print help (see more with '--help')"]

/-- Help for compiling, with the meaning of every value. -/
def compileLongHelpText : String := lines
  ["Compile one function for concrete argument types",
    "",
    "Usage: numjitc compile [OPTIONS] <TREE>",
    "",
    "Arguments:",
    "  <TREE>",
    "          JSON tree: one function or a list of functions",
    "",
    "Options:",
    "      --arg <TYPE>",
    "          Argument type, once per parameter (e.g. `float64[:, :]`)",
    "",
    "  -v, --verbose...",
    "          Log more on stderr (-v info, -vv debug, -vvv trace)",
    "",
    "      --ret <TYPE>",
    "          Declared return type",
    "",
    "      --entry <ENTRY>",
    "          Function to compile (defaults to the first in the tree)",
    "",
    "      --config <CONFIG>",
    "          Path to a numjit.toml",
    "",
    "      --source <SOURCE>",
    "          Source file the tree's spans refer to",
    "",
    "      --emit <EMIT>",
    "          What to print on success",
    "",
    "          Possible values:",
    "          - tree:      The lowered function",
    "          - signature: `name: (args) -> ret`",
    "          - json:      The lowered function as JSON",
    "          ",
    "          [default: tree]",
    "",
    "      --json",
    "          Output diagnostics as JSON (one object per line)",
    "",
    "  -h, --help",
    "          Print help (see a summary with '-h')"]

end KernelFront.CommandLine
