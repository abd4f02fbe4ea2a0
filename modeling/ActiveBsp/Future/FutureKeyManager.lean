import ActiveBsp.Library.MachineInt

/-!
# Keys of futures and of results

One counter for each process, shared by its two threads.
-/
namespace ActiveBsp

open Library.MachineInt

set_option autoImplicit false

structure FutureKeyManager where
  next : Int := 0
  deriving DecidableEq, Repr

namespace FutureKeyManager

/-- `takeKey`: the key, and the manager that will give the next one. -/
def takeKey (manager : FutureKeyManager) : Int × FutureKeyManager :=
  (manager.next, ⟨toInt32 (manager.next + 1)⟩)

end FutureKeyManager

end ActiveBsp
