/-!
JSON values as far as a reader needs to tell them apart, and the written form of strings.
-/

namespace FormulaCalculus

/-- The contents of a JSON string: its characters, or nothing if an escape stands for half of a
surrogate pair, which is no character. -/
abbrev JsonText := Option (List Char)

inductive Json where
  | null
  | bool (b : Bool)
  /-- A number, whose value is not kept. -/
  | number
  | text (t : JsonText)
  | array (items : List Json)
  | object (members : List (JsonText × Json))

namespace Json

/-- The hexadecimal digit of a number below sixteen. -/
def hexDigit (n : Nat) : Char := (Nat.digitChar n)

/-- A character inside a JSON string. Quotes, backslashes and control characters are escaped. -/
def escapeChar (c : Char) : List Char :=
  if c = '"' then ['\\', '"']
  else if c = '\\' then ['\\', '\\']
  else if c = '\x08' then ['\\', 'b']
  else if c = '\x0c' then ['\\', 'f']
  else if c = '\n' then ['\\', 'n']
  else if c = '\r' then ['\\', 'r']
  else if c = '\t' then ['\\', 't']
  else if c.toNat < 32 then
    ['\\', 'u', '0', '0', hexDigit (c.toNat / 16), hexDigit (c.toNat % 16)]
  else [c]

/-- A JSON string with its quotes. -/
def quote (cs : List Char) : List Char := '"' :: (cs.flatMap escapeChar ++ ['"'])

end Json

end FormulaCalculus
