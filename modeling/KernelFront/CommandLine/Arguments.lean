import KernelFront.Dialogue
import KernelFront.Ty.Parser

/-! # Arguments

The words of a command line are read from left to right. A request for help or for the version is
served as soon as it is read; anything that cannot be read is refused. An option is given at most
once unless it is a list, its value is the next word or follows an equals sign, and a word that
begins with a dash is never taken for a value. How much is reported may be said before or after the
command; what is said after it counts.
-/

namespace KernelFront.CommandLine

/-- What is printed when a function was compiled. -/
inductive Emit where
  /-- The function as text. -/
  | tree
  /-- Its name and type. -/
  | signature
  /-- The function as JSON. -/
  | json
  deriving DecidableEq, Repr

/-- What to compile and how. -/
structure CompileCommand where
  /-- The file with the trees. -/
  tree : String
  args : List Ty := []
  ret : Option Ty := none
  entry : Option String := none
  /-- The file with the configuration. -/
  config : Option String := none
  /-- The file with the source text. -/
  source : Option String := none
  emit : Emit := .tree
  /-- Write errors as JSON. -/
  json : Bool := false
  /-- The level of the messages that are shown. -/
  level : Level := .warn
  deriving Repr

/-- What a command line asks for. -/
inductive Invocation where
  | version
  /-- Help for the program as a whole. -/
  | help
  /-- Help for asking for help. -/
  | helpHelp
  /-- Help for compiling; `long` asks for more than one line on each option. -/
  | compileHelp (long : Bool)
  | compile (command : CompileCommand)
  deriving Repr

/-- The level of the messages shown when more was asked for a number of times. -/
def levelOfCount : Nat → Level
  | 0 => .warn
  | 1 => .info
  | 2 => .debug
  | _ => .trace

/-- The options of the command as far as they were read. -/
structure Draft where
  tree : Option String := none
  args : List Ty := []
  ret : Option Ty := none
  entry : Option String := none
  config : Option String := none
  source : Option String := none
  emit : Option Emit := none
  json : Bool := false
  /-- How often more messages were asked for, if they were. -/
  verbose : Option Nat := none

namespace Draft

/-- Give an option a value, unless it has one. -/
def once {α : Type} (old : Option α) (value : α) (store : Option α → Draft) : Option Draft :=
  if old.isSome then none else some (store (some value))

/-- The name of a file, which is not empty. -/
def path? (value : String) : Option String := if value.isEmpty then none else some value

/-- The type that a word names. -/
def type? (value : String) : Option Ty := (Ty.parse value).toOption

/-- What to print. -/
def emit? : String → Option Emit
  | "tree" => some .tree
  | "signature" => some .signature
  | "json" => some .json
  | _ => none

/-- Take a word that is no option. -/
def addWord (draft : Draft) (word : String) : Option Draft := do
  let path ← path? word
  once draft.tree path fun tree => { draft with tree }

/-- The names of the options with a value. -/
def valued : List String := ["arg", "ret", "entry", "config", "source", "emit"]

/-- Take an option with its value. -/
def addOption (draft : Draft) (name value : String) : Option Draft :=
  match name with
  | "arg" => do
      let ty ← type? value
      some { draft with args := draft.args ++ [ty] }
  | "ret" => do
      let ty ← type? value
      once draft.ret ty fun ret => { draft with ret }
  | "entry" => once draft.entry value fun entry => { draft with entry }
  | "config" => do
      let path ← path? value
      once draft.config path fun config => { draft with config }
  | "source" => do
      let path ← path? value
      once draft.source path fun source => { draft with source }
  | "emit" => do
      let emit ← emit? value
      once draft.emit emit fun emit => { draft with emit }
  | _ => none

/-- Ask for more messages. -/
def addVerbose (draft : Draft) (count : Nat) : Draft :=
  { draft with verbose := some (draft.verbose.getD 0 + count) }

/-- The command of a complete draft; `before` says how often more messages were asked for before the
command. -/
def finish (before : Nat) (draft : Draft) : Option Invocation := do
  let tree ← draft.tree
  some (.compile {
    tree
    args := draft.args
    ret := draft.ret
    entry := draft.entry
    config := draft.config
    source := draft.source
    emit := draft.emit.getD .tree
    json := draft.json
    level := levelOfCount (draft.verbose.getD before) })

end Draft

/-- A word of a command line. -/
inductive Word where
  /-- A word that is no option. -/
  | plain (text : String)
  /-- The mark after which no word is an option. -/
  | separator
  /-- An option of several letters, with the value that is attached to it. -/
  | long (name : String) (value : Option String)
  /-- Options of one letter each. -/
  | short (letters : List Char)

/-- Tell what kind of word a text is. -/
def Word.ofString (text : String) : Word :=
  match text.toList with
  | ['-', '-'] => .separator
  | '-' :: '-' :: rest =>
      let name := rest.takeWhile (· ≠ '=')
      let value := match rest.dropWhile (· ≠ '=') with
        | [] => none
        | _ :: value => some (String.ofList value)
      .long (String.ofList name) value
  | '-' :: c :: rest => .short (c :: rest)
  | _ => .plain text

/-- The value of an option that is the next word. -/
def plainWord? (word : String) : Option String :=
  match Word.ofString word with
  | .plain text => some text
  | _ => none

/-- What letters ask for: a number of requests for more messages, and whether a letter among `stops`
comes after them. -/
def readLetters (stops : List Char) : List Char → Option (Nat × Option Char)
  | [] => some (0, none)
  | 'v' :: letters => (readLetters stops letters).map fun (count, stop) => (count + 1, stop)
  | c :: _ => if c ∈ stops then some (0, some c) else none

/-- Read the words after the command. -/
def readCommand (before : Nat) : Draft → List String → Option Invocation
  | draft, [] => draft.finish before
  | draft, word :: words =>
      match Word.ofString word with
      | .plain text => do readCommand before (← draft.addWord text) words
      | .separator => do (← words.foldlM Draft.addWord draft).finish before
      | .short letters =>
          match readLetters ['h'] letters with
          | some (count, none) => readCommand before (draft.addVerbose count) words
          | some (_, some _) => some (.compileHelp false)
          | none => none
      | .long "verbose" none => readCommand before (draft.addVerbose 1) words
      | .long "help" none => some (.compileHelp true)
      | .long "json" none =>
          if draft.json then none else readCommand before { draft with json := true } words
      | .long name (some value) => do readCommand before (← draft.addOption name value) words
      | .long name none =>
          if name ∈ Draft.valued then
            match words with
            | value :: words => do
                readCommand before (← draft.addOption name (← plainWord? value)) words
            | [] => none
          else none

/-- Read the words before the command. -/
def readWords (before : Nat) : List String → Option Invocation
  | [] => none
  | word :: words =>
      match Word.ofString word with
      | .plain "compile" => readCommand before {} words
      | .plain "help" =>
          match words with
          | [] => some .help
          | ["help"] => some .helpHelp
          | ["compile"] => some (.compileHelp true)
          | _ => none
      | .plain _ | .separator => none
      | .short letters =>
          match readLetters ['h', 'V'] letters with
          | some (count, none) => readWords (before + count) words
          | some (_, some 'V') => some .version
          | some (_, some _) => some .help
          | none => none
      | .long "verbose" none => readWords (before + 1) words
      | .long "help" none => some .help
      | .long "version" none => some .version
      | .long _ _ => none

/-- Read a command line, without the name of the program. -/
def parse? (words : List String) : Option Invocation := readWords 0 words

end KernelFront.CommandLine
