import Persistent.Map.Basic

/-!
A key with its value, as a map yields them.
-/

set_option autoImplicit false

namespace Persistent

structure Entry (K V : Type) where
  key : K
  value : V
deriving BEq

namespace Entry

variable {K V : Type}

def text (key : K → String) (value : V → String) (e : Entry K V) : String :=
  Text.enclosed "[" " " "]" [key e.key, value e.value]

end Entry

end Persistent
