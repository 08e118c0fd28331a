import KernelFront.Tree.Basic

/-! # Temporaries

Passes that need a place of their own for a value take the next temporary of the function. Its
number is its position in the list of temporaries.
-/

namespace KernelFront

/-- Make the next temporary. -/
def TempDecl.next (ty : Ty) (kind : TempKind) (temps : List TempDecl) : TempId × List TempDecl :=
  let id : TempId := ⟨temps.length⟩
  (id, temps ++ [⟨id, ty, kind⟩])

/-- Make a temporary while the list of temporaries is threaded through. -/
def allocate {m : Type → Type} [Monad m] (ty : Ty) (kind : TempKind) :
    StateT (List TempDecl) m TempId := do
  let (id, temps) := TempDecl.next ty kind (← get)
  set temps
  pure id

end KernelFront
