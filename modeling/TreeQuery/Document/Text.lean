import TreeQuery.Document.Read
import TreeQuery.Value.Json

/-! # Queries on JSON text -/

namespace TreeQuery

/-- The value at a query in a JSON text. -/
def queryText (json spec : String) : Except Error Value := do
  let root ← (Value.ofText json).mapError .make
  let q ← (Query.parse spec).mapError .parse
  (root.get q).mapError .read

end TreeQuery
