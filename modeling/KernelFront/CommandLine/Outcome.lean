import KernelFront.Cache.Session
import KernelFront.CommandLine.Arguments
import KernelFront.CommandLine.Help
import KernelFront.Config
import KernelFront.Diagnostic
import KernelFront.Format.Tree
import KernelFront.Json.Parser
import KernelFront.Json.Printer
import KernelFront.Text.Space
import KernelFront.Tree.Printer

/-! # What a command does

A command reads at most three files, registers the functions of the tree file in a cache and
compiles one of them. Its outcome is the text for the standard output, the notices for the standard
error and the exit code: zero for success, one for a failure, two for a command line that cannot be
read.
-/

namespace KernelFront.CommandLine

/-- Something written to the standard error. -/
inductive Notice where
  | message (message : Message)
  /-- An error for people. -/
  | error (text : String)
  /-- An error for tools. -/
  | json (value : Json)
  /-- A type error for people. -/
  | report (report : Report)

/-- A notice as it is written. -/
def Notice.text : Notice → String
  | .message m => m.line ++ "\n"
  | .error reason => "error: " ++ reason ++ "\n"
  | .json value => value.compact ++ "\n"
  | .report shown => shown.text

/-- The effect of a command. -/
structure Outcome where
  code : Nat
  output : String := ""
  notices : List Notice := []

/-- The content of a file, or why it cannot be read. -/
abbrev FileReader := String → Except String String

/-- Why a command failed. -/
inductive Failure where
  /-- The function to compile has a type error. -/
  | type (error : TypeError)
  | other (text : String)

/-- The description of a failure for tools when there is no place to refer to. -/
def plainDiagnostic (text : String) : Json :=
  .obj [("code", .str "C0001"), ("file", .str ""), ("fix", .null), ("message", .str text),
    ("severity", .str "error"), ("spans", .arr [])]

/-- How a failure is told. A source file that cannot be read counts as empty. -/
def Failure.notice (read : FileReader) (command : CompileCommand) : Failure → Notice
  | .type error =>
      let (text, file) := match command.source with
        | some path => ((read path).toOption.getD "", path)
        | none => ("", "<tree>")
      if command.json then .json (error.diagnostic text file)
      else .report (.ofError error text file)
  | .other text => if command.json then .json (plainDiagnostic text) else .error text

/-- Read the configuration. -/
def readConfig (read : FileReader) : Option String → Except Failure Config
  | none => .ok {}
  | some path =>
      match read path with
      | .error reason => .error (.other ("Failed to read " ++ path ++ ": " ++ reason))
      | .ok text =>
          match Config.parse? text with
          | some config => .ok config
          | none => .error (.other "Failed to parse config: not a configuration")

/-- Read the functions of the tree file. -/
def readTrees (read : FileReader) (path : String) : Except Failure (List FunctionDef) :=
  match read path with
  | .error reason => .error (.other ("Failed to read '" ++ path ++ "': " ++ reason))
  | .ok text =>
      match (Json.parse? text).bind FunctionDef.listOfJson? with
      | some functions => .ok functions
      | none => .error (.other ("Failed to parse '" ++ path ++ "': not a tree"))

/-- The name of the function to compile: the one asked for, or the first. -/
def entryName (command : CompileCommand) (functions : List FunctionDef) : Except Failure String :=
  match command.entry, functions with
  | some name, _ => .ok name
  | none, func :: _ => .ok func.name
  | none, [] => .error (.other ("'" ++ command.tree ++ "' contains no functions"))

/-- The requests a command makes of a cache: every function is registered, then one is compiled. -/
def requests (command : CompileCommand) (functions : List FunctionDef) (name : String) :
    List Cache.Request :=
  let compile : Cache.Request := match command.ret with
    | some ret => .compileDeclared name ⟨command.args, some ret⟩
    | none => .compile ⟨name, command.args⟩
  functions.map .register ++ [compile]

/-- The number of steps that each request may take. -/
def stepLimit : Nat := 1000000000000

/-- Serve requests one after the other; the result is that of the last one. -/
def serveAll (setting : Inference.Setting) :
    Cache.Shared → List Cache.Request → List Message × Except Failure Compiled
  | _, [] => ([], .error (.other "nothing to compile"))
  | shared, request :: requests =>
      match Cache.serve setting stepLimit shared request with
      | none => ([], .error (.other "the compilation does not end"))
      | some (shared, answer) =>
          match answer.reply with
          | .registered =>
              let (messages, result) := serveAll setting shared requests
              (answer.messages ++ messages, result)
          | .compiled artifact => (answer.messages, .ok artifact.compiled)
          | .declared compiled => (answer.messages, .ok compiled)
          | .failed (.type error) => (answer.messages, .error (.type error))
          | .failed error => (answer.messages, .error (.other error.message))

/-- Compile the function that a command asks for. -/
def compile (read : FileReader) (command : CompileCommand) :
    List Message × Except Failure Compiled :=
  let prepared : Except Failure (Inference.Setting × List Cache.Request) := do
    let config ← readConfig read command.config
    let functions ← readTrees read command.tree
    let name ← entryName command functions
    match config.options with
    | .ok options =>
        pure (⟨config.imports.toNamespace, options⟩, requests command functions name)
    | .error text => throw (.other text)
  match prepared with
  | .ok (setting, requests) => serveAll setting .empty requests
  | .error failure => ([], .error failure)

/-- A compiled function as it is printed. -/
def render (emit : Emit) (compiled : Compiled) : String :=
  match emit with
  | .tree => String.ofList (Text.trimEnd compiled.func.text.toList)
  | .signature => compiled.func.name ++ ": " ++ compiled.signature.text
  | .json => compiled.func.toJson.pretty 0

/-- The effect of compiling. -/
def runCompile (read : FileReader) (command : CompileCommand) : Outcome :=
  let (messages, result) := compile read command
  let shown := messages.filter fun message => message.level.rank ≤ command.level.rank
  let logged := shown.map Notice.message
  match result with
  | .ok compiled => ⟨0, render command.emit compiled ++ "\n", logged⟩
  | .error failure => ⟨1, "", logged ++ [failure.notice read command]⟩

/-- The effect of a command line. -/
def run (read : FileReader) (words : List String) : Outcome :=
  match parse? words with
  | none => ⟨2, "", [.error "the command line cannot be read; try '--help'"]⟩
  | some .version => ⟨0, programName ++ " " ++ version ++ "\n", []⟩
  | some .help => ⟨0, helpText, []⟩
  | some .helpHelp => ⟨0, helpHelpText, []⟩
  | some (.compileHelp false) => ⟨0, compileHelpText, []⟩
  | some (.compileHelp true) => ⟨0, compileLongHelpText, []⟩
  | some (.compile command) => runCompile read command

/-- The files that a command line may read. -/
def paths (words : List String) : List String :=
  match parse? words with
  | some (.compile command) =>
      command.tree :: (command.config.toList ++ command.source.toList)
  | _ => []

end KernelFront.CommandLine
