import TreeQuery.Json.Basic
import TreeQuery.Json.Quoted

/-! # Written forms of JSON

The compact form has no blanks. The indented form puts every element and field on a line of its own, two
blanks deeper than its container; empty containers stay on one line. What is not a tree of JSON is written in either
form by the serializer of that form. -/

namespace TreeQuery.Json

/-- Texts with commas between them. -/
def commaSeparated : List (List Char) → List Char
  | [] => []
  | [text] => text
  | text :: rest => text ++ ',' :: commaSeparated rest

mutual

/-- The compact form. -/
def compact : Json → List Char
  | null => "null".toList
  | bool true => "true".toList
  | bool false => "false".toList
  | number n => n.text
  | str s => Quoted.encode s.toList
  | array items => '[' :: commaSeparated (compactItems items) ++ [']']
  | object fields => '\x7b' :: commaSeparated (compactFields fields) ++ ['\x7d']

def compactItems : List Json → List (List Char)
  | [] => []
  | item :: rest => compact item :: compactItems rest

def compactFields : List (String × Json) → List (List Char)
  | [] => []
  | (name, value) :: rest => (Quoted.encode name.toList ++ ':' :: compact value) :: compactFields rest

end

/-- A line break and the indentation of a depth. -/
def lineBreak (depth : Nat) : List Char := '\n' :: List.replicate (2 * depth) ' '

/-- The texts of the parts of a container at a depth, between its brackets. -/
def block (opening closing : Char) (depth : Nat) : List (List Char) → List Char
  | [] => [opening, closing]
  | parts =>
    opening :: commaSeparated (parts.map (lineBreak (depth + 1) ++ ·)) ++ lineBreak depth ++ [closing]

mutual

/-- The indented form of a tree at a depth. -/
def indented (depth : Nat) : Json → List Char
  | array items => block '[' ']' depth (indentedItems (depth + 1) items)
  | object fields => block '\x7b' '\x7d' depth (indentedFields (depth + 1) fields)
  | null => compact null
  | bool b => compact (bool b)
  | number n => compact (number n)
  | str s => compact (str s)

def indentedItems (depth : Nat) : List Json → List (List Char)
  | [] => []
  | item :: rest => indented depth item :: indentedItems depth rest

def indentedFields (depth : Nat) : List (String × Json) → List (List Char)
  | [] => []
  | (name, value) :: rest =>
    (Quoted.encode name.toList ++ ':' :: ' ' :: indented depth value) :: indentedFields depth rest

end

/-- How a value of each kind is written, a container by what its parts are written as. -/
structure Serializer (α : Type) where
  unit : α
  bool : Bool → α
  number : Numeral → α
  str : String → α
  seq : List α → α
  map : List (String × α) → α

namespace Serializer

/-- Writes the compact form. -/
def compact : Serializer (List Char) where
  unit := "null".toList
  bool b := if b then "true".toList else "false".toList
  number n := n.text
  str s := Quoted.encode s.toList
  seq items := '[' :: commaSeparated items ++ [']']
  map fields := '\x7b' :: commaSeparated (fields.map fun p => Quoted.encode p.1.toList ++ ':' :: p.2) ++ ['\x7d']

/-- Writes the indented form, where a value is written at a depth. -/
def indented : Serializer (Nat → List Char) where
  unit _ := compact.unit
  bool b _ := compact.bool b
  number n _ := compact.number n
  str s _ := compact.str s
  seq items depth := block '[' ']' depth (items.map fun item => item (depth + 1))
  map fields depth := block '\x7b' '\x7d' depth
    (fields.map fun p => Quoted.encode p.1.toList ++ ':' :: ' ' :: p.2 (depth + 1))

end Serializer

end TreeQuery.Json
