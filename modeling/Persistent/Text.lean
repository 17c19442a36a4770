/-!
Pieces of printed text: enclosed and separated items, and quoted strings.
-/

set_option autoImplicit false

namespace Persistent

namespace Text

/-- The items between brackets, with the separator between neighbours. -/
def enclosed (left separator right : String) (items : List String) : String :=
  left ++ separator.intercalate items ++ right

/-- The items of an ordered collection as a comma-separated listing. -/
def listing (items : List String) : String :=
  enclosed "[" ", " "]" items

/-- The items of an unordered collection as a comma-separated listing. -/
def braced (items : List String) : String :=
  enclosed "\x7b" ", " "\x7d" items

def escapeChar : Char → List Char
  | '\n' => ['\\', 'n']
  | '\t' => ['\\', 't']
  | '\r' => ['\\', 'r']
  | '\\' => ['\\', '\\']
  | '"' => ['\\', '"']
  | c => [c]

def escape (s : String) : String :=
  String.ofList (s.toList.flatMap escapeChar)

def quoted (s : String) : String :=
  "\"" ++ escape s ++ "\""

end Text

end Persistent
