import Valgen.Text.Quoted
/-!
# Name — identifiers of the generated modules

Document ids and definition names are arbitrary texts; the constants, aliases and type names of a generated module are
identifiers.  `camelCase` joins the words of an id, `safeIdentifier` turns any text into an identifier that is not
reserved.
-/
namespace Valgen
namespace Name

/-- **Words no binding may use**: the reserved words of JavaScript, and `z`, which every module binds to the validator
library. -/
def reservedWords : List String :=
  ["await", "break", "case", "catch", "class", "const", "continue", "debugger", "default", "delete", "do", "else",
   "enum", "export", "extends", "false", "finally", "for", "function", "if", "implements", "import", "in",
   "instanceof", "interface", "let", "new", "null", "package", "private", "protected", "public", "return", "static",
   "super", "switch", "this", "throw", "true", "try", "typeof", "var", "void", "while", "with", "yield", "z"]

def isReserved (s : String) : Bool := reservedWords.contains s

def isStart (c : Char) : Bool := c.isAlpha || c == '_' || c == '$'

def isContinue (c : Char) : Bool := c.isAlphanum || c == '_' || c == '$'

/-- **A plain identifier**, of ASCII characters only. -/
def isIdentifier (s : String) : Bool :=
  match s.toList with
  | [] => false
  | c :: cs => isStart c && cs.all isContinue

/-- **The text with `_` for every character that no identifier has.** -/
def replaceForeign (cs : List Char) : List Char := cs.map (fun c => if isContinue c then c else '_')

/-- **Whether a text of identifier characters still needs a `_` in front**: it is empty, starts with a digit or is
reserved. -/
def needsUnderscore (cs : List Char) : Bool := cs.isEmpty || cs.head?.any Char.isDigit || isReserved (String.ofList cs)

/-- **An identifier for any text.**  An identifier that is not reserved stays as it is. -/
def safeIdentifier (s : String) : String :=
  if isIdentifier s && !isReserved s then s
  else
    let cs := replaceForeign s.toList
    String.ofList (if needsUnderscore cs then '_' :: cs else cs)

/-- **A character of a word**; the underscore parts words. -/
def isWordChar (c : Char) : Bool := c.isAlphanum || c == '$'

/-- **The words of a text**: its longest runs of word characters. -/
def words : List Char → List (List Char)
  | [] => []
  | [c] => if isWordChar c then [[c]] else []
  | c :: d :: rest =>
    if isWordChar c then
      if isWordChar d then
        match words (d :: rest) with
        | [] => [[c]]
        | w :: ws => (c :: w) :: ws
      else [c] :: words (d :: rest)
    else words (d :: rest)

def mapFirst (f : Char → Char) : List Char → List Char
  | [] => []
  | c :: cs => f c :: cs

/-- **The words of a text as one name**: the first starts with a small letter, the others with a capital one. -/
def camelCase (s : String) : String :=
  match words s.toList with
  | [] => ""
  | w :: ws => String.ofList (mapFirst Char.toLower w ++ (ws.map (mapFirst Char.toUpper)).flatten)

end Name
end Valgen
