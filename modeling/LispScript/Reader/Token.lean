import LispScript.SymbolTable
import LispScript.Text.Blank
import LispScript.Text.Uppercase

/-!
The lexical level of the reader: blanks, comments, strings, character names and tokens, each as a
function on the characters that are left. Whatever fails also says what is left.
-/

namespace LispScript

/-- Why a text cannot be read. -/
inductive ReadError where
  | unexpectedEnd
  | unexpectedChar (c : Char)
  | unterminatedList
  | unterminatedString
  | unknownDispatch (c : Char)
  | invalidCharacterName (name : String)
  | invalidToken (text : String)
  | package (cause : PackageError)
deriving DecidableEq, Repr

def ReadError.message : ReadError → String
  | unexpectedEnd => "unexpected end of input"
  | unexpectedChar c => "unexpected character: '" ++ String.singleton c ++ "'"
  | unterminatedList => "unterminated list"
  | unterminatedString => "unterminated string"
  | unknownDispatch c => "unknown dispatch character: #" ++ String.singleton c
  | invalidCharacterName name => "invalid character name: " ++ name
  | invalidToken text => "invalid token: " ++ text
  | package cause => cause.message

namespace Reader

/-- The characters that end a token. -/
def isTerminating (c : Char) : Bool :=
  Text.isBlank c || c == '(' || c == ')' || c == '\'' || c == '"' || c == ';' || c == '\x60' ||
    c == ','

/-- What follows blanks and line comments; `inComment` tells whether a comment is open. -/
def skipBlanksFrom (inComment : Bool) : List Char → List Char
  | [] => []
  | c :: rest =>
      if inComment then skipBlanksFrom (c != '\n') rest
      else if Text.isBlank c then skipBlanksFrom false rest
      else if c = ';' then skipBlanksFrom true rest
      else c :: rest

def skipBlanks (text : List Char) : List Char := skipBlanksFrom false text

/-- What follows a block comment of which `inner` further levels than the outermost are open;
nothing when it does not end. -/
def skipBlockComment (inner : Nat) : List Char → Option (List Char)
  | '#' :: '|' :: rest => skipBlockComment (inner + 1) rest
  | '|' :: '#' :: rest =>
      match inner with
      | 0 => some rest
      | inner + 1 => skipBlockComment inner rest
  | _ :: rest => skipBlockComment inner rest
  | [] => none

/-- The text of a string after its opening quote, and what follows it; `seen` stands in reverse. A
backslash takes the next character as it is. -/
def scanString (seen : List Char) : List Char → Option (String × List Char)
  | [] => none
  | '"' :: rest => some (String.ofList seen.reverse, rest)
  | '\\' :: rest =>
      match rest with
      | [] => none
      | c :: rest => scanString (c :: seen) rest
  | c :: rest => scanString (c :: seen) rest

/-- The characters that have names. -/
def characterNamed? : String → Option Char
  | "SPACE" => some ' '
  | "NEWLINE" => some '\n'
  | "LINEFEED" => some '\n'
  | "TAB" => some '\t'
  | "RETURN" => some '\r'
  | "PAGE" => some '\x0c'
  | "RUBOUT" => some '\x7f'
  | "BACKSPACE" => some '\x08'
  | "NULL" => some '\x00'
  | _ => none

/-- A character literal after its backslash. The first character belongs to it whatever it is. -/
def scanCharacter : List Char → Except ReadError Char × List Char
  | [] => (.error .unexpectedEnd, [])
  | c :: rest =>
      let more := rest.takeWhile (!isTerminating ·)
      let left := rest.dropWhile (!isTerminating ·)
      if more.isEmpty then (.ok c, left)
      else
        let name := String.ofList (c :: more)
        match characterNamed? (Text.upcaseText name) with
        | some c => (.ok c, left)
        | none => (.error (.invalidCharacterName name), left)

/-- A token. The qualifier is the text before the first colon that is not escaped, with whether
the colon is doubled. -/
structure Token where
  qualifier : Option (String × Bool)
  name : String
  escaped : Bool
deriving DecidableEq, Repr

namespace Token

def text (token : Token) : String :=
  match token.qualifier with
  | some (before, _) => before ++ token.name
  | none => token.name

/-- A token without any escape or package marker, which may spell a number. -/
def isPlain (token : Token) : Bool := !token.escaped && token.qualifier.isNone

end Token

/-- The part of a token that was scanned so far; `seen` stands in reverse. -/
structure PartialToken where
  qualifier : Option (List Char × Bool) := none
  seen : List Char := []
  escaped : Bool := false

namespace PartialToken

def add (token : PartialToken) (cs : List Char) : PartialToken :=
  { token with seen := cs.reverse ++ token.seen }

def escape (token : PartialToken) : PartialToken := { token with escaped := true }

def mark (token : PartialToken) (doubled : Bool) : PartialToken :=
  { token with qualifier := some (token.seen.reverse, doubled), seen := [] }

def finish (token : PartialToken) : Token :=
  { qualifier := token.qualifier.map fun (before, doubled) => (String.ofList before, doubled)
    name := String.ofList token.seen.reverse
    escaped := token.escaped }

end PartialToken

/-- The rest of a token and what follows it. Characters that are not escaped are upper-cased; only
the first colon marks a package. -/
def scanTokenFrom (inBars : Bool) (token : PartialToken) :
    List Char → Except ReadError Token × List Char
  | [] => if inBars then (.error .unexpectedEnd, []) else (.ok token.finish, [])
  | '\\' :: rest =>
      match rest with
      | [] => (.error .unexpectedEnd, [])
      | c :: rest => scanTokenFrom inBars (token.escape.add [c]) rest
  | '|' :: rest => scanTokenFrom (!inBars) token.escape rest
  | ':' :: rest =>
      if inBars || token.qualifier.isSome then scanTokenFrom inBars (token.add [':']) rest
      else match rest with
        | ':' :: rest => scanTokenFrom inBars (token.mark true) rest
        | rest => scanTokenFrom inBars (token.mark false) rest
  | c :: rest =>
      if inBars then scanTokenFrom inBars (token.add [c]) rest
      else if isTerminating c then (.ok token.finish, c :: rest)
      else scanTokenFrom inBars (token.add (Text.upcase c)) rest

def scanToken (text : List Char) : Except ReadError Token × List Char :=
  scanTokenFrom false {} text

end Reader

end LispScript
