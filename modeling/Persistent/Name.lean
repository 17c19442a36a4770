import Persistent.Hash

/-!
Names, each with or without a namespace, and the keywords and symbols they make. The empty
namespace differs from none. A symbol carries metadata, which has no part in its equality or hash.
-/

set_option autoImplicit false

namespace Persistent

structure QualifiedName where
  ns : Option String
  name : String
deriving DecidableEq

namespace QualifiedName

/-- What a name feeds to a hash. The spelling stands for the name, whether a hasher takes it as such
or as a number that it keeps for it. -/
def words (n : QualifiedName) : List UInt64 :=
  Hash.optionalText n.ns ++ Hash.text n.name

def text (n : QualifiedName) : String :=
  match n.ns with
  | none => n.name
  | some ns => ns ++ "/" ++ n.name

end QualifiedName

structure Keyword extends QualifiedName
deriving DecidableEq

def Keyword.text (k : Keyword) : String :=
  ":" ++ k.toQualifiedName.text

structure Symbol (μ : Type) extends QualifiedName where
  metadata : Option μ := none

namespace Symbol

variable {μ : Type}

instance : BEq (Symbol μ) where
  beq a b := a.toQualifiedName == b.toQualifiedName

instance [Hasher] : Hashable (Symbol μ) where
  hash a := Hasher.digest a.words

/-- The same symbol without its namespace. -/
def unqualified (a : Symbol μ) : Symbol μ :=
  { a with ns := none }

/-- A text that tells a symbol from other values of the same spelling. -/
def tagged (a : Symbol μ) : String :=
  "Symbol(" ++ a.text ++ ")"

end Symbol

end Persistent
