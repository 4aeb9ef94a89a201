import TreeQuery.Number.Decimal
import TreeQuery.Tag

/-! # Errors

An error says what went wrong and carries the data that its message names. Positions are byte offsets into
the text of a query. -/

namespace TreeQuery

/-- Why the text of a query is refused. -/
inductive ParseError where
  /-- The text is empty. -/
  | empty
  /-- A command is written twice in front of one segment. -/
  | duplicated (command : Char) (position : Nat)
  /-- A command, `#`, `[` or `>` cannot be written after `other`. -/
  | conflicting (command other : Char) (position : Nat)
  /-- A character stands where it has no meaning, or where one is missing. -/
  | unexpectedToken (token : Char) (position : Nat)
  /-- The path has this many parts separated by `>`. -/
  | unexpectedSegments (count : Nat)
  /-- A path is too long, or a bracket stands inside a bracket. -/
  | tooDeep (max : Nat)
  /-- The index that these digits spell takes more than 32 bits. -/
  | indexOverflow (digits : String)
  /-- A path that writes or moves stands where one that reads is needed, or the reverse. -/
  | notWritable (spec : String)
deriving DecidableEq, Repr

/-- Why a value cannot be built. -/
inductive MakeError where
  /-- A tag that is not valid has no empty value. -/
  | unexpectedType (tag : Tag)
  /-- A floating-point number is infinite or not a number. -/
  | notFinite (text : String)
  /-- The number spelled `text` has no decimal. -/
  | invalidNumber (text : String) (fault : NumberFault)
  /-- A query that deletes or moves is given for building. -/
  | prohibited (spec : String)
  /-- A query is given twice for building. -/
  | duplicateKey (spec : String)
  /-- The text is not JSON. -/
  | malformed
deriving DecidableEq, Repr

/-- Why a query cannot be read. -/
inductive ReadError where
  | indeterministic (spec : String)
  | notReadonly (spec : String)
  | outOfBounds (index len : Nat)
  | missingKey (name : String)
  | unexpectedType (expected found : Tag)
  | integerOverflow (value : Int)
deriving DecidableEq, Repr

/-- Why a query cannot be written. -/
inductive WriteError where
  | missingKey (name : String)
  | implicitOverwrite (query : String)
  | unsegmentedMove (spec : String)
  | unexpectedValue (spec : String)
  | typeCast (expected found : Tag)
deriving DecidableEq, Repr

/-- Why two values cannot be merged; `path` is the place where they differ. -/
inductive MergeError where
  | incompatibleTypes (path : String) (left right : Tag)
  | clashingKeys (path : String)
  | unsupportedArrayMerge (path : String)
deriving DecidableEq, Repr

/-- Why a text is no type tag. -/
inductive TagError where
  | unparseable (text : String)
deriving DecidableEq, Repr

/-- Any error of the library. -/
inductive Error where
  | parse (e : ParseError)
  | make (e : MakeError)
  | read (e : ReadError)
  | write (e : WriteError)
  | merge (e : MergeError)
  | tag (e : TagError)
deriving DecidableEq, Repr

def ParseError.message : ParseError → String
  | empty => "empty query"
  | duplicated command position => s!"duplicated command '{command}' at position {position}"
  | conflicting command other position =>
    s!"command '{command}' conflicts with '{other}' at position {position}"
  | unexpectedToken token position => s!"unexpected token '{token}' at position {position}"
  | unexpectedSegments count => s!"unexpected number of segments: {count} (expected 0 or 2)"
  | tooDeep max => s!"query nesting exceeds maximum depth of {max}"
  | indexOverflow digits => s!"index '{digits}' does not fit the value region"
  | notWritable spec => s!"query '{spec}' is not writable"

def MakeError.message : MakeError → String
  | unexpectedType tag => "unexpected type " ++ tag.text ++ " for construction"
  | notFinite text => s!"invalid source value: {text}"
  | invalidNumber text fault => "invalid source value: " ++ fault.message text
  | prohibited spec => s!"query '{spec}' is prohibited during construction"
  | duplicateKey spec => s!"duplicate key '{spec}'"
  | malformed => "unmarshal error: "

def ReadError.message : ReadError → String
  | indeterministic spec => s!"query '{spec}' is indeterministic"
  | notReadonly spec => s!"query '{spec}' is not readonly"
  | outOfBounds index len => s!"index {index} out of bounds (len {len})"
  | missingKey name => s!"missing key '{name}'"
  | unexpectedType expected found => "unexpected type: expected " ++ expected.text ++ ", found " ++ found.text
  | integerOverflow value => s!"integer overflow converting {value}"

def WriteError.message : WriteError → String
  | missingKey name => s!"missing key '{name}'"
  | implicitOverwrite query => s!"implicit overwrite of '{query}'"
  | unsegmentedMove spec => s!"query '{spec}' is not a two-segment move query"
  | unexpectedValue spec => s!"unexpected value for query '{spec}'"
  | typeCast expected found => "cannot cast " ++ found.text ++ " to " ++ expected.text

def MergeError.message : MergeError → String
  | incompatibleTypes path left right =>
    s!"incompatible types at '{path}': " ++ left.text ++ " vs " ++ right.text
  | clashingKeys path => s!"clashing keys at '{path}'"
  | unsupportedArrayMerge path => s!"merge not supported for arrays at '{path}'"

def TagError.message : TagError → String
  | unparseable text => s!"unparseable type '{text}'"

def Error.message : Error → String
  | parse e => "parse error: " ++ e.message
  | make e => "make error: " ++ e.message
  | read e => "read error: " ++ e.message
  | write e => "write error: " ++ e.message
  | merge e => "merge error: " ++ e.message
  | tag e => "type error: " ++ e.message

end TreeQuery
