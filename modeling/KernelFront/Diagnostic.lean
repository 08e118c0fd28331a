import KernelFront.Error
import KernelFront.Json.Value
import KernelFront.Text.Lines

/-! # Diagnostics

A type error is shown against the source text in one of two ways: as a JSON object for tools, which
keeps the span as it is and places it by its start, or as a report for people, whose span is first
brought inside the text and made at least one byte wide where the text allows.
-/

namespace KernelFront

/-- The span of a report: inside a text of the given length, and not empty unless it stands at the
end of the text. -/
def Span.clamp (span : Span) (length : Nat) : Span :=
  let start := min span.start length
  let stop := max (min span.stop length) start
  if start = stop then ⟨start, min (stop + 1) length⟩ else ⟨start, stop⟩

/-- An error as people see it. -/
structure Report where
  header : String
  line : Nat
  column : Nat
  label : String
  help : Option String
  note : String
  deriving DecidableEq, Repr

namespace Report

/-- The report of an error in a file. -/
def ofError (e : TypeError) (source file : String) : Report :=
  let (line, column) := Text.pageLineCol source (e.span.clamp source.utf8ByteSize).start
  { header := "[" ++ e.cause.code ++ "] Error: " ++ e.message
    line, column
    label := e.cause.label
    help := e.cause.help
    note := "in " ++ file }

/-- A report as lines of text. -/
def text (r : Report) : String :=
  let help := match r.help with
    | some help => "  help: " ++ help ++ "\n"
    | none => ""
  r.header ++ "\n  at " ++ toString r.line ++ ":" ++ toString r.column ++ ": " ++ r.label ++ "\n" ++
    help ++ "  note: " ++ r.note ++ "\n"

end Report

namespace TypeError

/-- The JSON object that describes an error in a file. -/
def diagnostic (e : TypeError) (source file : String) : Json :=
  let (line, column) := Text.lineCol source (min e.span.start source.utf8ByteSize)
  .obj [("code", .str e.cause.code), ("column", .nat column), ("file", .str file),
    ("fix", .option .str e.cause.help), ("line", .nat line), ("message", .str e.message),
    ("severity", .str "error"),
    ("spans", .arr [.obj [("end", .nat e.span.stop), ("label", .str e.cause.label),
      ("start", .nat e.span.start)]])]

end TypeError

end KernelFront
