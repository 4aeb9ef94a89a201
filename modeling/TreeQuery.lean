import TreeQuery.Cache.Context
import TreeQuery.CommandLine
import TreeQuery.Document.Leaves
import TreeQuery.Document.Merge
import TreeQuery.Document.Text
import TreeQuery.Main
import TreeQuery.Number.Shortest
import TreeQuery.Query.Scan
import TreeQuery.Tag.Parse
import TreeQuery.Text.Bytes
import TreeQuery.Value.Make
import TreeQuery.Proofs.Grammar.Commands
import TreeQuery.Proofs.Outcome
import TreeQuery.Proofs.Grammar.Bodies
import TreeQuery.Proofs.Grammar.Rules
import TreeQuery.Proofs.Grammar.Tokens
import TreeQuery.Proofs.Grammar.Reading
import TreeQuery.Proofs.Grammar.Canonical
import TreeQuery.Proofs.Grammar.Display
import TreeQuery.Proofs.Grammar.Position
import TreeQuery.Proofs.Grammar.Unambiguous
import TreeQuery.Proofs.Document.Lookup
import TreeQuery.Proofs.Document.Assign
import TreeQuery.Proofs.Document.Set
import TreeQuery.Proofs.Document.Append
import TreeQuery.Proofs.Number.Decimal
import TreeQuery.Proofs.Value.Same
import TreeQuery.Proofs.Value.Ordered
import TreeQuery.Proofs.Document.Merge
import TreeQuery.Proofs.Document.Overwrite
import TreeQuery.Proofs.Document.Remove
import TreeQuery.Proofs.Query.Reachable
import TreeQuery.Proofs.Document.Move
import TreeQuery.Proofs.Query.Consistent
import TreeQuery.Proofs.Value.Reading
import TreeQuery.Proofs.Document.Built
import TreeQuery.Proofs.Document.Stage
import TreeQuery.Proofs.Document.Keep
import TreeQuery.Proofs.Document.Conserve
import TreeQuery.Proofs.Document.Leaves
import TreeQuery.Proofs.Json.Quoted
import TreeQuery.Proofs.Number.Layout
import TreeQuery.Proofs.Json.Roundtrip
import TreeQuery.Proofs.Value.Text
import TreeQuery.Proofs.Cache.Store
import TreeQuery.Proofs.Cache.Context
import TreeQuery.Proofs.Document.Equal
import TreeQuery.Proofs.Document.Graft
import TreeQuery.Proofs.Document.Undo
import TreeQuery.Proofs.Query.Concat
import TreeQuery.Proofs.Document.Concat
import TreeQuery.Proofs.Document.Accept
import TreeQuery.Proofs.Document.Extend
import TreeQuery.Proofs.Document.Clash
import TreeQuery.Proofs.Document.Listing
import TreeQuery.Proofs.Document.Plant
import TreeQuery.Proofs.Document.Spine
import TreeQuery.Proofs.Document.TakeBack
import TreeQuery.Proofs.Query.Split
import TreeQuery.Proofs.Document.Here
import TreeQuery.Proofs.Grammar.Conflict
import TreeQuery.Proofs.Query.Edit
import TreeQuery.Proofs.Document.Absence
import TreeQuery.Proofs.Tag
import TreeQuery.Proofs.Cache.Expiry
import TreeQuery.Proofs.Value.Number
import TreeQuery.Proofs.Value.Tag
import TreeQuery.Proofs.Scan.Bytes
import TreeQuery.Proofs.Scan.Resume
import TreeQuery.Proofs.Scan.Tracks
import TreeQuery.Proofs.Scan.Steps
import TreeQuery.Proofs.Scan.Close
import TreeQuery.Proofs.Scan.Reached
import TreeQuery.Proofs.Scan.Flags
import TreeQuery.Proofs.Query.Word
