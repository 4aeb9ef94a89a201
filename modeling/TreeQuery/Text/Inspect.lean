import TreeQuery.Text.Printable

/-! # Texts shown for inspection

A text is shown between double quotes on one line: quotes, backslashes and the common control characters
get a backslash, and a character that would not be visible by itself is shown by its code point. -/

namespace TreeQuery

/-- A character as it is shown between double quotes. -/
def inspectChar (c : Char) : List Char :=
  match c with
  | '"' => ['\\', '"']
  | '\\' => ['\\', '\\']
  | '\n' => ['\\', 'n']
  | '\r' => ['\\', 'r']
  | '\t' => ['\\', 't']
  | '\x00' => ['\\', '0']
  | _ => if Printable.isPrintable c then [c] else ['\\', 'u', '\x7b'] ++ Nat.toDigits 16 c.toNat ++ ['\x7d']

/-- A text as it is shown for inspection. -/
def inspect (text : String) : String := String.ofList ('"' :: text.toList.flatMap inspectChar ++ ['"'])

end TreeQuery
