import KernelFront.Boxing
import KernelFront.Inference.Function
import KernelFront.Loops
import KernelFront.Typing

/-! # Compilation

A function is compiled for one signature by four passes: inference binds its expressions, types are
fixed, loops are counted, and boxed values are owned. The result names the symbol under which
callers link it.
-/

namespace KernelFront

/-- A function after every pass. -/
structure Compiled where
  signature : FunctionType
  symbols : SymbolTable
  func : FunctionDef
  deriving Repr, Inhabited

namespace Compiled

/-- The symbol of a compiled function; it records the types of the arguments. -/
def symbol (compiled : Compiled) : String :=
  mangle compiled.func.name compiled.signature.args

/-- How other compiled functions call it. -/
def entryPoint (compiled : Compiled) : EntryPoint := ⟨compiled.symbol, compiled.signature⟩

end Compiled

/-- Compile a function for a signature. -/
def FunctionDef.compile (setting : Inference.Setting) (func : FunctionDef) (signature : Signature) :
    Pass Compiled := do
  Pass.report .debug
    ("[pipeline] compiling `" ++ func.name ++ "` for (" ++ Ty.commaText signature.args ++ ")")
  let inferred ← Inference.inferFunction setting func signature
  let typed ← inferred.func.typed inferred.symbols
  let counted ← typed.counted inferred.symbols setting.options.indexType
  let boxed ← counted.boxed inferred.symbols inferred.signature
  Pass.report .info
    ("[pipeline] compiled `" ++ func.name ++ "` as " ++ inferred.signature.text)
  pure { signature := inferred.signature, symbols := inferred.symbols, func := boxed }

end KernelFront
