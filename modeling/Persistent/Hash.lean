/-!
Hashing by words: a value is written as a list of words, and the digest of the words is its hash.
Ordered parts are written in order, followed by their number. Unordered parts are written as their
number and the sum of their digests. How a list of words is digested is left open.
-/

set_option autoImplicit false

namespace Persistent

/-- The hash of what was written. Any function on lists of words will do. -/
class Hasher where
  digest : List UInt64 → UInt64

/-- The sum of the words. -/
@[reducible] def Hasher.sum : Hasher where
  digest words := words.foldl (· + ·) 0

namespace Hash

def ordered (parts : List (List UInt64)) : List UInt64 :=
  parts.flatten ++ [UInt64.ofNat parts.length]

def unordered [Hasher] (parts : List (List UInt64)) : List UInt64 :=
  [UInt64.ofNat parts.length, (parts.map Hasher.digest).foldl (· + ·) 0]

/-- The code points of a text, ended by a word that is none. -/
def text (s : String) : List UInt64 :=
  s.toList.map (fun c => UInt64.ofNat c.toNat) ++ [0xffffffff]

def optionalText : Option String → List UInt64
  | none => [0]
  | some s => 1 :: text s

end Hash

end Persistent
