import FormulaCalculus.Json.Basic

/-!
A reader of JSON texts. It refuses whatever the grammar refuses: trailing commas, leading zeros,
control characters inside strings, and text behind the value.
-/

namespace FormulaCalculus

namespace Json

/-- Drops blanks, line ends and tabs. -/
def skipBlanks (cs : List Char) : List Char :=
  cs.dropWhile fun c => c == ' ' || c == '\n' || c == '\t' || c == '\r'

/-- The value of a hexadecimal digit. -/
def hexValue? (c : Char) : Option Nat :=
  if '0' ≤ c ∧ c ≤ '9' then some (c.toNat - 48)
  else if 'a' ≤ c ∧ c ≤ 'f' then some (c.toNat - 87)
  else if 'A' ≤ c ∧ c ≤ 'F' then some (c.toNat - 55)
  else none

/-- Reads four hexadecimal digits. -/
def hexCode? : List Char → Option (Nat × List Char)
  | a :: b :: c :: d :: rest => do
    let w ← hexValue? a
    let x ← hexValue? b
    let y ← hexValue? c
    let z ← hexValue? d
    return (((w * 16 + x) * 16 + y) * 16 + z, rest)
  | _ => none

def isHighSurrogate (n : Nat) : Bool := 0xD800 ≤ n && n < 0xDC00

def isLowSurrogate (n : Nat) : Bool := 0xDC00 ≤ n && n < 0xE000

/-- The character a backslash and a letter stand for. -/
def simpleEscape? : Char → Option Char
  | '"' => some '"'
  | '\\' => some '\\'
  | '/' => some '/'
  | 'b' => some '\x08'
  | 'f' => some '\x0c'
  | 'n' => some '\n'
  | 'r' => some '\r'
  | 't' => some '\t'
  | _ => none

/-- A character in front of the contents of a string. -/
def consChar (c : Char) (t : JsonText) : JsonText := t.map (c :: ·)

/-- Reads the contents of a string up to its closing quote. The number bounds the characters that
are read. -/
def readText : Nat → List Char → Option (JsonText × List Char)
  | 0, _ => none
  | _ + 1, '"' :: rest => some (some [], rest)
  | fuel + 1, '\\' :: 'u' :: rest => do
    let (n, rest) ← hexCode? rest
    if isHighSurrogate n then
      match rest with
      | '\\' :: 'u' :: after => do
        let (k, after) ← hexCode? after
        if isLowSurrogate k then do
          let (t, rest) ← readText fuel after
          return (consChar (Char.ofNat (0x10000 + (n - 0xD800) * 0x400 + (k - 0xDC00))) t, rest)
        else do
          let (_, rest) ← readText fuel rest
          return (none, rest)
      | _ => do
        let (_, rest) ← readText fuel rest
        return (none, rest)
    else do
      let (t, rest) ← readText fuel rest
      return (if isLowSurrogate n then none else consChar (Char.ofNat n) t, rest)
  | fuel + 1, '\\' :: c :: rest => do
    let d ← simpleEscape? c
    let (t, rest) ← readText fuel rest
    return (consChar d t, rest)
  | fuel + 1, c :: rest =>
    if c.toNat < 32 || c == '\\' then none
    else do
      let (t, rest) ← readText fuel rest
      return (consChar c t, rest)
  | _ + 1, [] => none

/-- Drops a run of at least one digit. -/
def skipDigits? (cs : List Char) : Option (List Char) :=
  if (cs.takeWhile Char.isDigit).isEmpty then none else some (cs.dropWhile Char.isDigit)

/-- Drops the whole part of a number: zero, or digits that do not start with zero. -/
def skipWhole? : List Char → Option (List Char)
  | '0' :: c :: rest => if c.isDigit then none else some (c :: rest)
  | cs => skipDigits? cs

/-- Drops a fraction, if there is one. -/
def skipFraction? : List Char → Option (List Char)
  | '.' :: rest => skipDigits? rest
  | cs => some cs

/-- Drops an exponent, if there is one. -/
def skipExponent? : List Char → Option (List Char)
  | c :: rest =>
    if c == 'e' || c == 'E' then
      match rest with
      | '+' :: rest => skipDigits? rest
      | '-' :: rest => skipDigits? rest
      | rest => skipDigits? rest
    else some (c :: rest)
  | [] => some []

/-- Drops a number. -/
def skipNumber? (cs : List Char) : Option (List Char) := do
  let whole ← skipWhole? (match cs with
    | '-' :: rest => rest
    | cs => cs)
  let fraction ← skipFraction? whole
  skipExponent? fraction

/-- Drops the given characters. -/
def skipWord? (word cs : List Char) : Option (List Char) :=
  if word.isPrefixOf cs then some (cs.drop word.length) else none

mutual

/-- Reads a value. The number bounds the steps that are taken. -/
def readValue : Nat → List Char → Option (Json × List Char)
  | 0, _ => none
  | fuel + 1, cs =>
    match skipBlanks cs with
    | '"' :: rest => do
      let (t, rest) ← readText (rest.length + 1) rest
      return (text t, rest)
    | '[' :: rest =>
      match skipBlanks rest with
      | ']' :: rest => some (array [], rest)
      | rest => do
        let (items, rest) ← readItems fuel rest
        return (array items, rest)
    | '{' :: rest =>
      match skipBlanks rest with
      | '}' :: rest => some (object [], rest)
      | rest => do
        let (members, rest) ← readMembers fuel rest
        return (object members, rest)
    | 'n' :: rest => do return (null, ← skipWord? ['u', 'l', 'l'] rest)
    | 't' :: rest => do return (bool true, ← skipWord? ['r', 'u', 'e'] rest)
    | 'f' :: rest => do return (bool false, ← skipWord? ['a', 'l', 's', 'e'] rest)
    | rest => do return (number, ← skipNumber? rest)

/-- Reads the items of an array and its closing bracket. -/
def readItems : Nat → List Char → Option (List Json × List Char)
  | 0, _ => none
  | fuel + 1, cs => do
    let (item, rest) ← readValue fuel cs
    match skipBlanks rest with
    | ']' :: rest => return ([item], rest)
    | ',' :: rest => do
      let (items, rest) ← readItems fuel rest
      return (item :: items, rest)
    | _ => none

/-- Reads the members of an object and its closing brace. -/
def readMembers : Nat → List Char → Option (List (JsonText × Json) × List Char)
  | 0, _ => none
  | fuel + 1, cs =>
    match skipBlanks cs with
    | '"' :: rest => do
      let (key, rest) ← readText (rest.length + 1) rest
      match skipBlanks rest with
      | ':' :: rest => do
        let (value, rest) ← readValue fuel rest
        match skipBlanks rest with
        | '}' :: rest => return ([(key, value)], rest)
        | ',' :: rest => do
          let (members, rest) ← readMembers fuel rest
          return ((key, value) :: members, rest)
        | _ => none
      | _ => none
    | _ => none

end

/-- Reads a text that holds one value and nothing else but blanks. -/
def parse? (cs : List Char) : Option Json := do
  let (j, rest) ← readValue (2 * cs.length + 2) cs
  if (skipBlanks rest).isEmpty then some j else none

end Json

end FormulaCalculus
