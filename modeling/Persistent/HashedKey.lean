/-!
Keys whose hash is chosen with the key, so that collisions of any kind can be built. The tag has no
part in equality: it tells which of two equal keys is stored.
-/

set_option autoImplicit false

namespace Persistent

structure HashedKey where
  id : Int
  code : UInt64
  tag : String := ""

namespace HashedKey

instance : BEq HashedKey where
  beq a b := a.id == b.id && a.code == b.code

instance : Hashable HashedKey where
  hash a := a.code

end HashedKey

end Persistent
