import TreeQuery.Json.Basic
import TreeQuery.Json.Quoted

/-! # Reading JSON

A reader takes a text and gives what it read and the rest of the text. Recursion is on the levels of nesting
that are left, and the parts of one container are read in a loop that is bounded by the length of the
text, since every part takes at least one character. -/

namespace TreeQuery.Json

/-- A reader of `α`: what it read, and the rest of the text. -/
abbrev Reader (α : Type) := List Char → Option (α × List Char)

/-- A text without the blanks in front. -/
def skipBlanks : List Char → List Char
  | ' ' :: rest | '\t' :: rest | '\n' :: rest | '\r' :: rest => skipBlanks rest
  | cs => cs

/-- A given text, and blanks before it. -/
def expect (word : List Char) (cs : List Char) : Option (List Char) :=
  let cs := skipBlanks cs
  if word.isPrefixOf cs then some (cs.drop word.length) else none

/-- The parts of a container behind the first one, up to the closing bracket, in at most `fuel` rounds. -/
def readRest {α : Type} (part : Reader α) (closing : Char) : Nat → Reader (List α)
  | 0, _ => none
  | fuel + 1, cs =>
    match skipBlanks cs with
    | c :: rest =>
      if c = closing then some ([], rest)
      else if c = ',' then do
        let (first, rest) ← part rest
        let (others, rest) ← readRest part closing fuel rest
        return (first :: others, rest)
      else none
    | [] => none

/-- The parts of a container up to its closing bracket, with commas between them. -/
def readParts {α : Type} (part : Reader α) (closing : Char) : Reader (List α) := fun cs =>
  match expect [closing] cs with
  | some rest => some ([], rest)
  | none => do
    let (first, rest) ← part cs
    let (others, rest) ← readRest part closing (rest.length + 1) rest
    return (first :: others, rest)

/-- The field of an object: a quoted name, a colon and a value. -/
def readField (value : Reader Json) : Reader (String × Json) := fun cs => do
  let cs ← expect ['"'] cs
  let (name, cs) ← Quoted.decode cs
  let cs ← expect [':'] cs
  let (v, cs) ← value cs
  return ((String.ofList name, v), cs)

/-- A value that is neither an array nor an object. -/
def readScalar : Reader Json := fun cs =>
  match cs with
  | 'n' :: 'u' :: 'l' :: 'l' :: rest => some (null, rest)
  | 't' :: 'r' :: 'u' :: 'e' :: rest => some (bool true, rest)
  | 'f' :: 'a' :: 'l' :: 's' :: 'e' :: rest => some (bool false, rest)
  | '"' :: rest => (Quoted.decode rest).map fun (text, rest) => (str (String.ofList text), rest)
  | _ => (Numeral.read cs).map fun (n, rest) => (number n, rest)

/-- A value with blanks before it, of at most this many levels of arrays and objects. -/
def readValue : Nat → Reader Json
  | 0 => fun cs => readScalar (skipBlanks cs)
  | levels + 1 => fun cs =>
    match skipBlanks cs with
    | '[' :: rest => (readParts (readValue levels) ']' rest).map fun (items, rest) => (array items, rest)
    | '\x7b' :: rest =>
      (readParts (readField (readValue levels)) '\x7d' rest).map fun (fields, rest) =>
        (object (Fields.ofList fields), rest)
    | cs => readScalar cs

/-- The tree that a whole text spells. -/
def ofChars? (cs : List Char) : Option Json :=
  match readValue (maxNesting - 1) cs with
  | some (j, rest) => if (skipBlanks rest).isEmpty then some j else none
  | none => none

/-- The tree that a whole text spells. -/
def ofText? (text : String) : Option Json := ofChars? text.toList

end TreeQuery.Json
