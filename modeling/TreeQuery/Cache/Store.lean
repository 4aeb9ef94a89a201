import TreeQuery.Fields
import TreeQuery.Query.Basic

/-! # Remembered readings

A store keeps the outcomes of reading queries, failures included, under the texts that were read. Every entry
has a moment at which it expires. Time is an argument of each operation, so a store is a plain value.

An expired entry is never answered. It is dropped when it is looked up, when the store is purged, and at
every `sweepInterval`-th insertion, whichever comes first. -/

namespace TreeQuery

/-- What reading a query gave. -/
abbrev Outcome := Except ParseError Query

/-- A remembered outcome; from the moment `expires` on it counts no more. -/
structure Entry where
  outcome : Outcome
  expires : Nat

/-- Remembered outcomes and how many were ever inserted. -/
structure Store where
  entries : Fields Entry := []
  inserts : Nat := 0

namespace Store

/-- The number of insertions from one sweep to the next. -/
def sweepInterval : Nat := 256

/-- Whether an entry still counts at a moment. -/
def isLive (now : Nat) (e : Entry) : Bool := now < e.expires

/-- The entries that still count at a moment. -/
def sweep (now : Nat) (entries : Fields Entry) : Fields Entry := entries.filter fun e => isLive now e.2

/-- The outcome remembered for a text. -/
def get (now : Nat) (spec : String) (s : Store) : Option Outcome × Store :=
  match Fields.get? spec s.entries with
  | none => (none, s)
  | some e => if isLive now e then (some e.outcome, s) else (none, { s with entries := Fields.erase spec s.entries })

/-- Remembers an outcome for a text until `ttl` moments from now. -/
def set (now : Nat) (spec : String) (outcome : Outcome) (ttl : Nat) (s : Store) : Store :=
  let entries := Fields.insert spec ⟨outcome, now + ttl⟩ s.entries
  let inserts := s.inserts + 1
  { entries := if inserts % sweepInterval = 0 then sweep now entries else entries, inserts }

/-- Drops every expired entry, and tells how many there were. -/
def purge (now : Nat) (s : Store) : Nat × Store :=
  let live := sweep now s.entries
  (s.entries.length - live.length, { s with entries := live })

/-- Drops every entry. The insertions are still counted. -/
def clear (s : Store) : Store := { s with entries := [] }

/-- The number of entries, expired ones included. -/
def length (s : Store) : Nat := s.entries.length

end Store

end TreeQuery
