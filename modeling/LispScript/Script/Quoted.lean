/-!
String literals of scripts.
-/

namespace LispScript.Script

/-- The lower-case hexadecimal digits of a code below `0x10000`, four of them. -/
def fourHexDigits (code : Nat) : List Char :=
  let digit (place : Nat) : Char := Nat.digitChar (code / Nat.pow 16 place % 16)
  [digit 3, digit 2, digit 1, digit 0]

/-- One character inside a string literal. The two separators U+2028 and U+2029 would end a line
of a script, and so are escaped like control characters. -/
def quoteChar (c : Char) : List Char :=
  if c = '"' then ['\\', '"']
  else if c = '\\' then ['\\', '\\']
  else if c = '\n' then ['\\', 'n']
  else if c = '\r' then ['\\', 'r']
  else if c = '\t' then ['\\', 't']
  else if c.toNat < 0x20 || c.toNat = 0x2028 || c.toNat = 0x2029 then
    '\\' :: 'u' :: fourHexDigits c.toNat
  else [c]

def quoteChars (cs : List Char) : List Char := cs.flatMap quoteChar

/-- The literal that denotes a text. -/
def quote (text : String) : String :=
  String.ofList ('"' :: (quoteChars text.toList ++ ['"']))

end LispScript.Script
