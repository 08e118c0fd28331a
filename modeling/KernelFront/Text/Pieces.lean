/-! # Pieces of text

Cutting a text at a separator and putting pieces together with one.
-/

namespace KernelFront.Text

/-- Cut a list at every occurrence of a separator; there is always one piece more than
separators. -/
def splitAt (sep : Char) : List Char → List (List Char)
  | [] => [[]]
  | c :: cs =>
      match splitAt sep cs with
      | [] => [[c]]
      | piece :: pieces => if c = sep then [] :: piece :: pieces else (c :: piece) :: pieces

/-- The texts with a separator between neighbours. -/
def joinWith (sep : String) (texts : List String) : String := sep.intercalate texts

end KernelFront.Text
