import KernelFront.Error
import KernelFront.Signature

/-! # Dialogues

A pass talks to its surroundings in two ways: it reports messages, and it asks how another function
is to be called. A dialogue is a computation in which these are the only effects, laid open as data.
Whoever holds one decides what answers it gets and when: `answer` replies at once from a fixed rule,
and the cache suspends a dialogue while the function it asked for is being compiled.
-/

namespace KernelFront

/-- How much detail a message carries, the most urgent first. -/
inductive Level where
  | warn | info | debug | trace
  deriving DecidableEq, Repr, Inhabited

namespace Level

/-- The name of a level. -/
def name : Level → String
  | .warn => "warn"
  | .info => "info"
  | .debug => "debug"
  | .trace => "trace"

/-- The level of a name. -/
def ofName? : String → Option Level
  | "warn" => some .warn
  | "info" => some .info
  | "debug" => some .debug
  | "trace" => some .trace
  | _ => none

/-- The position of a level, counted from the most urgent. -/
def rank : Level → Nat
  | .warn => 0
  | .info => 1
  | .debug => 2
  | .trace => 3

end Level

/-- A report about the progress of a compilation. -/
structure Message where
  level : Level
  text : String
  deriving DecidableEq, Repr, Inhabited

namespace Message

/-- A message as one line of a log. -/
def line (message : Message) : String := message.level.name ++ ": " ++ message.text

/-- The lines of the messages that are at least as urgent as a level. -/
def linesAt (level : Level) (messages : List Message) : List String :=
  (messages.filter fun message => message.level.rank ≤ level.rank).map line

end Message

/-- A computation that reports messages and asks how functions are called. -/
inductive Dialogue (α : Type) where
  | done (value : α)
  | report (message : Message) (next : Dialogue α)
  /-- Ask how `callee` is called with arguments of the given types. -/
  | ask (callee : String) (args : List Ty) (next : Resolution → Dialogue α)

namespace Dialogue

variable {α β γ : Type}

/-- Continue a dialogue with one that depends on its result. -/
def bind : Dialogue α → (α → Dialogue β) → Dialogue β
  | .done value, f => f value
  | .report message next, f => .report message (next.bind f)
  | .ask callee args next, f => .ask callee args fun answer => (next answer).bind f

instance : Monad Dialogue where
  pure := .done
  bind := Dialogue.bind

theorem bind_done (d : Dialogue α) : d.bind .done = d := by
  induction d with
  | done => rfl
  | report message next ih => simp [Dialogue.bind, ih]
  | ask callee args next ih => simp [Dialogue.bind, ih]

theorem bind_assoc (d : Dialogue α) (f : α → Dialogue β) (g : β → Dialogue γ) :
    (d.bind f).bind g = d.bind fun a => (f a).bind g := by
  induction d with
  | done => rfl
  | report message next ih => simp [Dialogue.bind, ih]
  | ask callee args next ih => simp [Dialogue.bind, ih]

instance : LawfulMonad Dialogue :=
  LawfulMonad.mk' Dialogue bind_done (fun _ _ => rfl) bind_assoc

/-- The messages and the result of a dialogue whose questions are answered by a fixed rule. -/
def answer (resolve : String → List Ty → Resolution) : Dialogue α → List Message × α
  | .done value => ([], value)
  | .report message next =>
      let (messages, value) := next.answer resolve
      (message :: messages, value)
  | .ask callee args next => (next (resolve callee args)).answer resolve

end Dialogue

/-- A pass over a function: a dialogue that may end in a refusal. -/
abbrev Pass := ExceptT TypeError Dialogue

namespace Pass

/-- Report a message. -/
def report (level : Level) (text : String) : Pass Unit :=
  ExceptT.mk (.report ⟨level, text⟩ (.done (.ok ())))

/-- Ask how a function is called. -/
def ask (callee : String) (args : List Ty) : Pass Resolution :=
  ExceptT.mk (.ask callee args fun answer => .done (.ok answer))

/-- A pass that neither reports nor asks. -/
def ofExcept {α : Type} (result : Except TypeError α) : Pass α := ExceptT.mk (.done result)

end Pass

end KernelFront
