import LispScript.Image
import LispScript.Number.Text
import LispScript.Text.Blank
import LispScript.Text.Lowercase

/-!
The text of values, either as data that can be read again or for people.
-/

namespace LispScript

structure PrintOptions where
  /-- Print so that the text reads back: strings and characters escaped, symbols qualified. -/
  escape : Bool := true
  /-- How deep values may nest before an ellipsis stands for them. -/
  maxDepth : Nat := 200
deriving Repr

namespace Printer

def named? : Char → Option String
  | ' ' => some "Space"
  | '\n' => some "Newline"
  | '\t' => some "Tab"
  | '\r' => some "Return"
  | '\x0c' => some "Page"
  | '\x7f' => some "Rubout"
  | '\x08' => some "Backspace"
  | '\x00' => some "Null"
  | _ => none

def characterText (escape : Bool) (c : Char) : String :=
  if escape then "#\\" ++ (named? c).getD (String.singleton c) else String.singleton c

/-- The text with a backslash before each of the characters that `special` picks. -/
def escaped (special : Char → Bool) (text : String) : String :=
  String.ofList (text.toList.flatMap fun c => if special c then ['\\', c] else [c])

def stringText (escape : Bool) (text : String) : String :=
  if escape then "\"" ++ escaped (fun c => c == '"' || c == '\\') text ++ "\"" else text

/-- The characters besides blanks and lower-case letters that a bare symbol name cannot hold. -/
def isDelimiter (c : Char) : Bool :=
  c == '(' || c == ')' || c == '\'' || c == '"' || c == ';' || c == '\x60' || c == ',' || c == ':' ||
    c == '|' || c == '\\' || c == '#'

/-- Whether a name consists of digits, points and exponent marks after its signs. -/
def looksNumeric (name : List Char) : Bool :=
  match name.dropWhile fun c => c == '+' || c == '-' with
  | [] => false
  | c :: rest =>
      (c.isDigit || c == '.') && (c :: rest).all fun c => c.isDigit || c == '.' || c == 'E'

/-- Whether a symbol's name must stand between bars to be read back. -/
def needsBars (name : String) : Bool :=
  name.toList.all (· == '.') || looksNumeric name.toList ||
    name.toList.any fun c => Text.isLowercase c || Text.isBlank c || isDelimiter c

def nameText (name : String) : String :=
  if needsBars name then "|" ++ escaped (fun c => c == '|' || c == '\\') name ++ "|" else name

/-- What stands before a symbol's name: nothing where the name alone finds the symbol, otherwise
the home package and one colon or two. -/
def qualifier (symbols : SymbolTable) (id : SymbolId) : String :=
  let symbol := symbols.symbol id
  match symbol.home with
  | none => "#:"
  | some home =>
      if home = PackageId.keyword then ":"
      else if (symbols.findSymbol? symbol.name symbols.current).map (·.1) = some id then ""
      else
        let exported := (symbols.findSymbol? symbol.name home).map (·.2) = some .exported
        symbols.packageName home ++ if exported then ":" else "::"

def symbolText (symbols : SymbolTable) (escape : Bool) (id : SymbolId) : String :=
  if escape then qualifier symbols id ++ nameText (symbols.symbolName id)
  else symbols.symbolName id

/-- The name of a function: the one it was given, or else the one it was built with. -/
def functionName? (heap : Heap) (address : Address) : Option String :=
  match heap.property address "fname" with
  | .string _ text => some text
  | _ =>
      match (heap.function address).callable with
      | .closure _ _ _ => none
      | .native n => some n.name
      | .primitive p => some p.name

def functionText (heap : Heap) (address : Address) : String :=
  let name := match (heap.function address).callable with
    | .native n => some ("internals." ++ n.name)
    | _ => functionName? heap address
  "#<FUNCTION " ++ name.getD "(LAMBDA)" ++ ">"

def transferText (transfer : Transfer) : String :=
  "#<TRANSFER " ++ transfer.kind.name ++ (match transfer.label with
    | some label => " " ++ label
    | none => "") ++ ">"

def spaced (texts : List String) : String := String.intercalate " " texts

/-- The text of a value that may nest `budget` deep. -/
def print (image : Image) (escape : Bool) : Nat → Value → String
  | 0, _ => "..."
  | budget + 1, value =>
      match value with
      | .nil => "NIL"
      | .number n => Number.text n
      | .character c => characterText escape c
      | .string _ text => stringText escape text
      | .symbol id => symbolText image.symbols escape id
      | .cons _ =>
          let (items, tail) := image.heap.splitDotted value
          "(" ++ spaced (items.map (print image escape budget)) ++
            (if tail.isNil then "" else " . " ++ print image escape budget tail) ++ ")"
      | .vector address =>
          "#(" ++ spaced ((image.heap.vector address).toList.map (print image escape budget)) ++ ")"
      | .function address => functionText image.heap address
      | .package id => "#<PACKAGE \"" ++ image.symbols.packageName id ++ "\">"
      | .bool b => if b then "#<HOST true>" else "#<HOST false>"
      | .undefined => "#<HOST undefined>"
      | .bundle address =>
          "#<VALUES" ++ String.join ((image.heap.bundle address).map fun v =>
            " " ++ print image escape budget v) ++ ">"
      | .transfer address => transferText (image.heap.transfer address)

end Printer

namespace Image

def printWith (image : Image) (options : PrintOptions) (value : Value) : String :=
  Printer.print image options.escape (options.maxDepth + 1) value

/-- The text of a value as data. -/
def print (image : Image) (value : Value) : String := image.printWith {} value

/-- The text of a value for people. -/
def princ (image : Image) (value : Value) : String := image.printWith { escape := false } value

end Image

end LispScript
