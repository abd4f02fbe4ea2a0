/-!
# Faults

The ways in which a handler of the program does not return: a failed `assert`,
an access that the language leaves undefined, a mutex locked twice by one
thread, or an exception of the archive library.
-/
namespace ActiveBsp

set_option autoImplicit false

/-- The `assert` statements of the management thread, by their place. -/
inductive Assertion where
  | storePartMessage
  | storePartVector
  | preparePartVector
  | findDataBuf
  | addDataPart
  | addDataBuf
  | addDataRange
  | addDataRemaining
  | removePart
  | handleFetchMessage
  | fetchDv
  deriving DecidableEq, Repr

inductive Fault where
  | assertion (site : Assertion)
  | undefined
  | deadlock
  | exception
  /-- The input is not one that the process waits for. -/
  | blocked
  deriving DecidableEq, Repr

/-- C's `assert`. -/
def assert (site : Assertion) (cond : Prop) [Decidable cond] : Except Fault Unit :=
  if cond then .ok () else .error (.assertion site)

/-- An access that the language leaves undefined when there is nothing there. -/
def orUndefined {α : Type} : Option α → Except Fault α
  | none => .error .undefined
  | some a => .ok a

theorem ok_bind {α β : Type} (a : α) (f : α → Except Fault β) :
    ((.ok a : Except Fault α) >>= f) = f a := rfl

end ActiveBsp
