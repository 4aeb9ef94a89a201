import TreeQuery.Error

/-! # Reading tags

A text that spells no tag is refused, and the error carries the whole text. -/

namespace TreeQuery.Tag

/-- The tag that a text spells, or that it spells none. -/
def parse (text : String) : Except TagError Tag :=
  match ofText? text with
  | some t => .ok t
  | none => .error (.unparseable text)

end TreeQuery.Tag
