import KernelFront.Number.Shortest
import KernelFront.Text.Pieces
import KernelFront.Text.Quoted

/-! # Constants

A constant is a value known when a function is compiled: a literal of the source, or a value that a
pass supplies, such as a loop bound or the value returned after a failure. Constants are compared
structurally, floating-point ones by their bits.
-/

namespace KernelFront

/-- A value known at compile time. -/
inductive Constant where
  /-- The host's `None`. -/
  | nothing
  | bool (value : Bool)
  | int (value : Int)
  | float (value : Binary64)
  | complex (re im : Binary64)
  | str (text : String)
  | ellipsis
  /-- The null object pointer. -/
  | null
  /-- The standard output handle of the host process. -/
  | stdout
  | tuple (items : List Constant)
  deriving Repr, Inhabited

namespace Constant

mutual

/-- Structural equality as a test. -/
def same : Constant → Constant → Bool
  | .nothing, .nothing => true
  | .bool a, .bool b => a == b
  | .int a, .int b => a == b
  | .float a, .float b => a == b
  | .complex re im, .complex re' im' => re == re' && im == im'
  | .str a, .str b => a == b
  | .ellipsis, .ellipsis => true
  | .null, .null => true
  | .stdout, .stdout => true
  | .tuple as, .tuple bs => sameAll as bs
  | _, _ => false

/-- Structural equality of lists as a test. -/
def sameAll : List Constant → List Constant → Bool
  | [], [] => true
  | a :: as, b :: bs => same a b && sameAll as bs
  | _, _ => false

end

mutual

theorem same_iff : ∀ a b : Constant, same a b = true ↔ a = b
  | .nothing, b | .ellipsis, b | .null, b | .stdout, b => by cases b <;> simp [same]
  | .bool _, b | .int _, b | .float _, b | .str _, b | .complex _ _, b => by
      cases b <;> simp [same]
  | .tuple as, b => by
      cases b
      case tuple bs => simpa [same] using sameAll_iff as bs
      all_goals simp [same]

theorem sameAll_iff : ∀ as bs : List Constant, sameAll as bs = true ↔ as = bs
  | [], bs => by cases bs <;> simp [sameAll]
  | a :: as, [] => by simp [sameAll]
  | a :: as, b :: bs => by simp [sameAll, same_iff a b, sameAll_iff as bs]

end

instance : DecidableEq Constant := fun a b => decidable_of_iff _ (same_iff a b)

/-- Whether this is the host's `None`. -/
def isNothing : Constant → Bool
  | .nothing => true
  | _ => false

/-- The integer a constant stands for; a truth value stands for zero or one. -/
def asInt : Constant → Option Int
  | .int n => some n
  | .bool b => some (if b then 1 else 0)
  | _ => none

mutual

/-- A constant as it is printed. -/
def text : Constant → String
  | .nothing => "None"
  | .bool true => "True"
  | .bool false => "False"
  | .int n => toString n
  | .float x => x.text
  | .complex re im => "(" ++ re.text ++ "+" ++ im.text ++ "j)"
  | .str s => Text.quoted s
  | .ellipsis => "..."
  | .null => "NULL"
  | .stdout => "stdout"
  | .tuple items =>
      "(" ++ Text.joinWith ", " (textAll items) ++ (if items.length = 1 then ",)" else ")")

/-- Each constant as it is printed. -/
def textAll : List Constant → List String
  | [] => []
  | c :: cs => text c :: textAll cs

end

end Constant

end KernelFront
