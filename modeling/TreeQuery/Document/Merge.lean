import TreeQuery.Error
import TreeQuery.Query.Render
import TreeQuery.Value.Basic

/-! # Merging

Two values merge if they are objects whose common fields merge, or if they are equal. The error names the
first place, in the order of field names, where they do neither. -/

namespace TreeQuery.Value

/-- The text of a place that is reached through fields; `#` is the whole document. -/
def placeText (place : List String) : String :=
  if place = [] then "#" else String.ofList (dotted place)

mutual

/-- The union of two values that stand at a place. -/
def mergeAt (place : List String) (left : Value) : Value → Except MergeError Value
  | object fields =>
    match left with
    | object own => (mergeFields place own fields).map object
    | _ => .error (.incompatibleTypes (placeText place) left.tag Tag.objectTag)
  | right =>
    if left.tag ≠ right.tag then .error (.incompatibleTypes (placeText place) left.tag right.tag)
    else if left.same right then .ok left
    else if right.isArray then .error (.unsupportedArrayMerge (placeText place))
    else .error (.clashingKeys (placeText place))

def mergeFields (place : List String) (own : Fields Value) :
    List (String × Value) → Except MergeError (Fields Value)
  | [] => .ok own
  | (name, right) :: rest => do
    let merged ← match Fields.get? name own with
      | some left => mergeAt (place ++ [name]) left right
      | none => .ok right
    let others ← mergeFields place own rest
    return Fields.insert name merged others

end

/-- The union of two documents. -/
def merge (left right : Value) : Except MergeError Value := mergeAt [] left right

end TreeQuery.Value
