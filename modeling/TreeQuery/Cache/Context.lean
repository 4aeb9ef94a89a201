import TreeQuery.Cache.Store

/-! # Reading through a store

A context reads queries for its users. It looks each text up in a store first, if it has one, and remembers
what it had to read itself. The look-ups and insertions that contexts make are counted. -/

namespace TreeQuery

/-- A store and how often contexts have looked something up in it and inserted something. -/
structure Metered where
  store : Store := {}
  gets : Nat := 0
  sets : Nat := 0

/-- How queries are read: through a store or without, and for how long an outcome is remembered. -/
structure Context where
  stored : Bool
  ttl : Nat
deriving DecidableEq, Repr

namespace Context

/-- Outcomes are remembered for a minute. -/
def standard : Context := ⟨true, 60⟩

/-- Every query is read anew. -/
def uncached : Context := ⟨false, 0⟩

/-- Reads a query, and gives the store as it is afterwards. -/
def parse (c : Context) (now : Nat) (spec : String) (m : Metered) : Outcome × Metered :=
  if c.stored then
    match m.store.get now spec with
    | (some outcome, store) => (outcome, { m with store, gets := m.gets + 1 })
    | (none, store) =>
      let outcome := Query.parse spec
      (outcome, { store := store.set now spec outcome c.ttl, gets := m.gets + 1, sets := m.sets + 1 })
  else (Query.parse spec, m)

end Context

end TreeQuery
