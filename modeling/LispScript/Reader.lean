import LispScript.Image
import LispScript.Number.Literal
import LispScript.Reader.Token

/-!
The reader: text to data, interning symbols on the way. A reading that fails keeps the symbols it
interned and its place in the text.
-/

namespace LispScript

structure ReadState where
  rest : List Char
  image : Image

/-- Reading steps. -/
abbrev Read := EStateM ReadError ReadState

namespace Reader

def peek : Read (Option Char) := fun s => .ok s.rest.head? s

def advance (count : Nat) : Read Unit := modify fun s => { s with rest := s.rest.drop count }

def skip : Read Unit := modify fun s => { s with rest := skipBlanks s.rest }

/-- Consumes what a scanner takes from the front of the text. -/
def lex (scan : List Char → Except ReadError α × List Char) : Read α := fun s =>
  match scan s.rest with
  | (.ok a, rest) => .ok a { s with rest }
  | (.error e, rest) => .error e { s with rest }

/-- A change of the symbol table. -/
def onSymbols (f : SymbolTable → α × SymbolTable) : Read α := fun s =>
  let (a, symbols) := f s.image.symbols
  .ok a { s with image := { s.image with symbols } }

/-- The making of an object. -/
def onHeap (f : Heap → α × Heap) : Read α := fun s =>
  let (a, heap) := f s.image.heap
  .ok a { s with image := { s.image with heap } }

def currentPackage : Read PackageId := fun s => .ok s.image.symbols.current s

/-- Runs a step with another package current, which is undone however the step ends. -/
def withPackage (package : PackageId) (step : Read α) : Read α := fun s =>
  let saved := s.image.symbols.current
  let within (s : ReadState) (package : PackageId) : ReadState :=
    { s with image := { s.image with symbols := s.image.symbols.setCurrent package } }
  match step (within s package) with
  | .ok a s => .ok a (within s saved)
  | .error e s => .error e (within s saved)

/-- The symbol that a token names. An empty qualifier stands for the keyword package; after a
single colon the symbol must be external in the package named. -/
def symbolOfToken (token : Token) : Read SymbolId :=
  match token.qualifier with
  | none => do
      let package ← currentPackage
      onSymbols (·.intern token.name package)
  | some ("", _) => onSymbols (·.internKeyword token.name)
  | some (packageName, doubled) => do
      let symbols := (← get).image.symbols
      match symbols.requirePackage packageName with
      | .error e => throw (.package e)
      | .ok package =>
          if doubled || package = PackageId.keyword then onSymbols (·.intern token.name package)
          else match symbols.findSymbol? token.name package with
            | some (id, .exported) => pure id
            | _ => throw (.package (.notExternal token.name packageName))

/-- The number or symbol that a token spells. -/
def atomOfToken (token : Token) : Read Value := do
  if token.isPlain then
    if !token.name.isEmpty && token.name.toList.all (· == '.') then
      throw (.invalidToken token.name)
    if let some n := Number.ofToken? token.name.toList then
      return .number n
  return Value.ofSymbol (← symbolOfToken token)

/-- Whether a feature expression holds, looking into it down to the given depth. -/
def featureHolds (features : List String) (image : Image) : Nat → Value → Bool
  | depth + 1, value =>
      match value with
      | .symbol id => features.contains (image.symbols.symbolName id)
      | .cons address =>
          let cell := image.heap.cell address
          let args := (image.heap.listItems? cell.cdr).getD []
          match cell.car with
          | .symbol id =>
              match image.symbols.symbolName id with
              | "NOT" => !(args.head?.map (featureHolds features image depth)).getD false
              | "AND" => args.all (featureHolds features image depth)
              | "OR" => args.any (featureHolds features image depth)
              | _ => false
          | _ => false
      | _ => false
  | 0, _ => false

/-- Whether the character ahead is a point that stands alone. -/
def atLonePoint (text : List Char) : Bool :=
  match text with
  | ['.'] => true
  | '.' :: c :: _ => isTerminating c
  | _ => false

/-- A datum after the standard operator of the given name. -/
def wrapIn (operator : String) (datum : Value) : Read Value := do
  let id ← onSymbols (·.internStandard operator)
  onHeap (·.allocList [.symbol id, datum])

variable (features : List String)

mutual

/-- One syntactic item, where a token or a bracket begins. A block comment and a form that its
feature guard excludes yield nothing. -/
def readItem : Nat → Read (Option Value)
  | 0 => throw .unexpectedEnd
  | fuel + 1 => do
      match ← peek with
      | none => throw .unexpectedEnd
      | some '(' => do
          advance 1
          let (items, tail) ← readElements fuel []
          some <$> onHeap (·.allocListWithTail items tail)
      | some ')' => throw (.unexpectedChar ')')
      | some '\'' => do
          advance 1
          some <$> (wrapIn "QUOTE" =<< readDatum fuel)
      | some '\x60' => do
          advance 1
          some <$> (wrapIn "BACKQUOTE" =<< readDatum fuel)
      | some ',' => do
          advance 1
          if (← peek) = some '@' then
            advance 1
            some <$> (wrapIn "UNQUOTE-SPLICING" =<< readDatum fuel)
          else
            some <$> (wrapIn "UNQUOTE" =<< readDatum fuel)
      | some '"' => do
          advance 1
          let text ← lex fun cs => match scanString [] cs with
            | some (text, rest) => (.ok text, rest)
            | none => (.error .unterminatedString, [])
          some <$> onHeap (·.allocString text)
      | some '#' => do
          advance 1
          readDispatch fuel
      | some _ => do
          let token ← lex scanToken
          some <$> atomOfToken token

/-- What follows a sharp sign. -/
def readDispatch : Nat → Read (Option Value)
  | 0 => throw .unexpectedEnd
  | fuel + 1 => do
      let some c ← peek | throw .unexpectedEnd
      advance 1
      match c with
      | '\'' => some <$> (wrapIn "FUNCTION" =<< readDatum fuel)
      | '(' => do
          let (items, tail) ← readElements fuel []
          let list ← onHeap (·.allocListWithTail items tail)
          let (items, _) := (← get).image.heap.splitDotted list
          some <$> onHeap (·.allocVector items.toArray)
      | ':' => do
          let token ← lex scanToken
          let id ← onSymbols (·.makeSymbol token.text)
          return some (.symbol id)
      | '\\' => do
          let c ← lex scanCharacter
          return some (.character c)
      | '|' => do
          lex fun cs => match skipBlockComment 0 cs with
            | some rest => (.ok (), rest)
            | none => (.error .unexpectedEnd, [])
          return none
      | '+' => readGuarded fuel true
      | '-' => readGuarded fuel false
      | c => throw (.unknownDispatch c)

/-- A feature expression and the form it guards, kept when the feature's presence is as wanted. The
expression is read with the keyword package current. -/
def readGuarded : Nat → Bool → Read (Option Value)
  | 0, _ => throw .unexpectedEnd
  | fuel + 1, wanted => do
      let expression ← withPackage PackageId.keyword (readDatum fuel)
      let image := (← get).image
      let present := featureHolds features image image.heap.size expression
      let form ← readDatum fuel
      return if present = wanted then some form else none

/-- The elements of a list after its opening bracket, and its tail; `seen` stands in reverse. -/
def readElements : Nat → List Value → Read (List Value × Value)
  | 0, _ => throw .unexpectedEnd
  | fuel + 1, seen => do
      skip
      let text := (← get).rest
      match text with
      | [] => throw .unterminatedList
      | ')' :: _ => do
          advance 1
          return (seen.reverse, .nil)
      | _ =>
          if atLonePoint text then
            if seen.isEmpty then throw (.unexpectedChar '.')
            advance 1
            let tail ← readDatum fuel
            skip
            match ← peek with
            | some ')' => do
                advance 1
                return (seen.reverse, tail)
            | some c => do
                advance 1
                throw (.unexpectedChar c)
            | none => throw .unterminatedList
          else
            match ← readItem fuel with
            | some value => readElements fuel (value :: seen)
            | none => readElements fuel seen

/-- A datum that must be there. -/
def readDatum : Nat → Read Value
  | 0 => throw .unexpectedEnd
  | fuel + 1 => do
      skip
      match ← peek with
      | none => throw .unexpectedEnd
      | some ')' => throw (.unexpectedChar ')')
      | some _ =>
          match ← readItem fuel with
          | some value => return value
          | none => readDatum fuel

end

/-- The next datum of the text, if there is one. -/
def readNext : Nat → Read (Option Value)
  | 0 => throw .unexpectedEnd
  | fuel + 1 => do
      skip
      match ← peek with
      | none => return none
      | some _ =>
          match ← readItem features fuel with
          | some value => return some value
          | none => readNext fuel

/-- Enough steps for any text of the given length: each character is passed after at most four of
them. -/
def stepsFor (length : Nat) : Nat := 4 * (length + 1)

/-- The next datum, or nothing at the end of the text. -/
def read : Read (Option Value) := do
  readNext features (stepsFor (← get).rest.length)

/-- At most `count` data, in order; `seen` stands in reverse. -/
def readManyFrom : Nat → List Value → Read (List Value)
  | 0, seen => return seen.reverse
  | count + 1, seen => do
      match ← read features with
      | some value => readManyFrom count (value :: seen)
      | none => return seen.reverse

/-- All data of the text. Each takes a character at least. -/
def readAll : Read (List Value) := do
  readManyFrom features ((← get).rest.length + 1) []

end Reader

end LispScript
