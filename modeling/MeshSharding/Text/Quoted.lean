namespace MeshSharding.Text

-- A character of a quoted name.
def escapeChar (c : Char) : List Char :=
  if c = '\\' ∨ c = '"' then ['\\', c] else [c]

-- A quote or a backslash inside a name is written with a backslash before it, so a quoted name ends
-- at the first quote that has none.
def escape (s : String) : String :=
  String.ofList (s.toList.flatMap escapeChar)

def quoted (s : String) : String :=
  "\"" ++ escape s ++ "\""

-- The items with a comma and a space between them.
def commaSeparated (items : List String) : String :=
  ", ".intercalate items

def inBraces (items : List String) : String :=
  "\x7b" ++ commaSeparated items ++ "\x7d"

def inBrackets (items : List String) : String :=
  "[" ++ commaSeparated items ++ "]"

end MeshSharding.Text
