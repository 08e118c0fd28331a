import KernelFront.CommandLine.Outcome

/-! # The program

The files that the command line names are read first; everything else is decided by
`CommandLine.run`.
-/

namespace KernelFront

/-- Try to read a file. -/
def readFile (path : String) : IO (String × Except String String) := do
  try
    let text ← IO.FS.readFile path
    pure (path, .ok text)
  catch e => pure (path, .error (toString e))

end KernelFront

/-- Compile a function as the command line says. -/
def main (words : List String) : IO UInt32 := do
  let files ← (KernelFront.CommandLine.paths words).mapM KernelFront.readFile
  let read (path : String) : Except String String :=
    (files.lookup path).getD (.error "not read")
  let outcome := KernelFront.CommandLine.run read words
  (← IO.getStdout).putStr outcome.output
  let stderr ← IO.getStderr
  for notice in outcome.notices do
    stderr.putStr notice.text
  pure (UInt32.ofNat outcome.code)
