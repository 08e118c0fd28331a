import KernelFront.Tree.Basic
import KernelFront.Ty.Printer

/-! # Printing trees

A function is printed as indented source text. The forms that passes introduce have a compact
notation of their own: conversions show the target type, native calls start with `@`, host calls
with `py:`, temporaries with `$t`, and owned objects with `obj`.
-/

namespace KernelFront

/-- The sign of an arithmetic or bitwise operator. -/
def BinOp.sign : BinOp → String
  | .add => "+"
  | .sub => "-"
  | .mult => "*"
  | .div => "/"
  | .floorDiv => "//"
  | .mod => "%"
  | .pow => "**"
  | .lShift => "<<"
  | .rShift => ">>"
  | .bitOr => "|"
  | .bitXor => "^"
  | .bitAnd => "&"

/-- The sign of a comparison. -/
def CmpOp.sign : CmpOp → String
  | .eq => "=="
  | .notEq => "!="
  | .lt => "<"
  | .ltE => "<="
  | .gt => ">"
  | .gtE => ">="
  | .is => "is"
  | .isNot => "is not"
  | .isIn => "in"
  | .notIn => "not in"

/-- What separates the operands of a short-circuiting operator. -/
def BoolOp.separator : BoolOp → String
  | .and => " and "
  | .or => " or "

/-- What stands before the operand of a unary operator. -/
def UnaryOp.sign : UnaryOp → String
  | .not => "not "
  | .neg => "-"
  | .pos => "+"
  | .invert => "~"

/-- What a temporary is for, in a word. -/
def TempKind.word : TempKind → String
  | .index => "index"
  | .array => "array"
  | .object => "object"

namespace Expr

/-- Comparison signs with the operands after them; what has no partner is left out. -/
def comparisons : List CmpOp → List String → String
  | op :: ops, rhs :: rest => " " ++ op.sign ++ " " ++ rhs ++ comparisons ops rest
  | _, _ => ""

/-- Dictionary entries; what has no partner is left out. -/
def entries : List String → List String → List String
  | key :: keys, value :: values => (key ++ ": " ++ value) :: entries keys values
  | _, _ => []

mutual

/-- An expression as it is printed. -/
def text : Expr → String
  | .name _ id _ => id
  | .const _ value => value.text
  | .binOp _ left op right => "(" ++ left.text ++ " " ++ op.sign ++ " " ++ right.text ++ ")"
  | .boolOp _ op values => "(" ++ Text.joinWith op.separator (textAll values) ++ ")"
  | .unaryOp _ op operand => op.sign ++ operand.text
  | .compare _ left ops comparators =>
      "(" ++ left.text ++ comparisons ops (textAll comparators) ++ ")"
  | .call _ func args keywords =>
      func.text ++ "(" ++ Text.joinWith ", " (textAll args ++ textKeywords keywords) ++ ")"
  | .attribute _ value attr _ => value.text ++ "." ++ attr
  | .subscript _ value selector _ => value.text ++ "[" ++ selector.text ++ "]"
  | .index _ value => value.text
  | .slice _ lower upper step =>
      textPart "" lower ++ ":" ++ textPart "" upper ++ textPart ":" step
  | .extSlice _ dims => Text.joinWith ", " (textAll dims)
  | .ellipsis _ => "..."
  | .tuple _ elts _ =>
      "(" ++ Text.joinWith ", " (textAll elts) ++ (if elts.length = 1 then ",)" else ")")
  | .list _ elts _ => "[" ++ Text.joinWith ", " (textAll elts) ++ "]"
  | .dict _ keys values =>
      "\x7b" ++ Text.joinWith ", " (entries (textAll keys) (textAll values)) ++ "\x7d"
  | .coercion _ node target => "coerce<" ++ target.text ++ ">(" ++ node.text ++ ")"
  | .deferredCoercion _ node slot =>
      "coerce<$" ++ toString slot.index ++ ">(" ++ node.text ++ ")"
  | .range _ start stop step =>
      "range(" ++ start.text ++ ", " ++ stop.text ++ ", " ++ step.text ++ ")"
  | .nativeCall _ symbol _ args =>
      "@" ++ symbol ++ "(" ++ Text.joinWith ", " (textAll args) ++ ")"
  | .objectCall _ func args keywords =>
      "py:" ++ func.text ++ "(" ++ Text.joinWith ", " (textAll args ++ textKeywords keywords) ++ ")"
  | .arrayAttribute _ attr array _ => array.text ++ "." ++ attr.name
  | .dataPointer _ array => "data(" ++ array.text ++ ")"
  | .objectTemp _ node id =>
      "obj" ++ (match id with | some id => "#" ++ toString id.index | none => "") ++
        "(" ++ node.text ++ ")"
  | .temp _ id _ => "$t" ++ toString id.index

/-- Each expression as it is printed. -/
def textAll : List Expr → List String
  | [] => []
  | e :: es => e.text :: textAll es

/-- Keyword arguments as they are printed. -/
def textKeywords : List (String × Expr) → List String
  | [] => []
  | (arg, e) :: kws => (arg ++ "=" ++ e.text) :: textKeywords kws

/-- An optional part after a mark, or nothing. -/
def textPart (mark : String) : Option Expr → String
  | none => ""
  | some e => mark ++ e.text

end

end Expr

/-- The indentation of a nesting depth. -/
def indentation : Nat → String
  | 0 => ""
  | depth + 1 => "    " ++ indentation depth

namespace Stmt

/-- The values of a print statement after its destination. -/
def printText (values : List Expr) (dest : Option Expr) (newline : Bool) : String :=
  let target := match dest with
    | some dest => " >>" ++ dest.text ++ (if values.isEmpty then "" else ",")
    | none => ""
  let shown := if values.isEmpty then "" else " " ++ Text.joinWith ", " (Expr.textAll values)
  "print" ++ target ++ shown ++ (if newline then "" else ",")

mutual

/-- A statement as lines of text at a nesting depth. -/
def text (depth : Nat) : Stmt → String
  | .assign _ targets value =>
      indentation depth ++ String.join ((Expr.textAll targets).map (· ++ " = ")) ++ value.text ++
        "\n"
  | .augAssign _ target op value =>
      indentation depth ++ target.text ++ " " ++ op.sign ++ "= " ++ value.text ++ "\n"
  | .forIn _ target iter body orelse index =>
      indentation depth ++ "for " ++ target.text ++ " in " ++ iter.text ++ ":" ++
        Expr.textPart "  # index " index ++ "\n" ++ bodyText (depth + 1) body ++
        elseText depth orelse
  | .whileLoop _ test body orelse =>
      indentation depth ++ "while " ++ test.text ++ ":\n" ++ bodyText (depth + 1) body ++
        elseText depth orelse
  | .branch _ test body orelse =>
      indentation depth ++ "if " ++ test.text ++ ":\n" ++ bodyText (depth + 1) body ++
        elseText depth orelse
  | .ret _ value => indentation depth ++ "return" ++ Expr.textPart " " value ++ "\n"
  | .expr _ value => indentation depth ++ value.text ++ "\n"
  | .print _ values dest newline => indentation depth ++ printText values dest newline ++ "\n"
  | .global _ names => indentation depth ++ "global " ++ Text.joinWith ", " names ++ "\n"
  | .pass _ => indentation depth ++ "pass\n"
  | .break _ => indentation depth ++ "break\n"
  | .continue _ => indentation depth ++ "continue\n"

/-- A body as lines of text; an empty body is a `pass`. -/
def bodyText (depth : Nat) : List Stmt → String
  | [] => indentation depth ++ "pass\n"
  | stmt :: body => text depth stmt ++ linesText depth body

/-- The lines of some statements. -/
def linesText (depth : Nat) : List Stmt → String
  | [] => ""
  | stmt :: body => text depth stmt ++ linesText depth body

/-- The alternative of a statement, or nothing if there is none. -/
def elseText (depth : Nat) : List Stmt → String
  | [] => ""
  | stmt :: body =>
      indentation depth ++ "else:\n" ++ text (depth + 1) stmt ++ linesText (depth + 1) body

end

end Stmt

namespace FunctionDef

/-- The declaration of a temporary as it is printed. -/
def tempText (decl : TempDecl) : String :=
  "    # $t" ++ toString decl.id.index ++ ": " ++ decl.ty.text ++ " (" ++ decl.kind.word ++ ")\n"

/-- The value returned on errors as it is printed. -/
def errorReturnText : Option ErrorReturn → String
  | none => ""
  | some ⟨value⟩ => "    # on error: return" ++ Expr.textPart " " value ++ "\n"

/-- A function as it is printed, with its temporaries and its value returned on errors. -/
def text (func : FunctionDef) : String :=
  "def " ++ func.name ++ "(" ++ Text.joinWith ", " func.args ++ "):\n" ++
    String.join (func.temps.map tempText) ++ errorReturnText func.errorReturn ++
    Stmt.bodyText 1 func.body

end FunctionDef

end KernelFront
