import RowStore.Column
import RowStore.Engine.Access
import RowStore.Lock.Calls
import RowStore.Options.Basic
import RowStore.Store.Mutation
import RowStore.Store.Structure
import RowStore.Table.Basic
import RowStore.Value.Convert
import RowStore.Value.Hash
import RowStore.WaitGraph
import RowStore.Proofs.Action
import RowStore.Proofs.OrderedMap
import RowStore.Proofs.Sequence
import RowStore.Proofs.Numbering
import RowStore.Proofs.MultiMap
import RowStore.Proofs.Value.Order
import RowStore.Proofs.Index.Entries
import RowStore.Proofs.Engine.Sound
import RowStore.Proofs.Engine.History
import RowStore.Proofs.Engine.Keys
import RowStore.Proofs.Engine.Ordered
import RowStore.Proofs.Engine.Contents
import RowStore.Proofs.Engine.Return
import RowStore.Proofs.Store.Frame
import RowStore.Proofs.Store.Logged
import RowStore.Proofs.Store.Return
import RowStore.Proofs.Store.Replacement
import RowStore.Proofs.Store.Undo
import RowStore.Proofs.Engine.Distinct
import RowStore.Proofs.Store.Exchange
import RowStore.Proofs.WaitGraph
import RowStore.Proofs.Lock.Table
import RowStore.Proofs.Lock.Steps
import RowStore.Proofs.Lock.Deadlock
import RowStore.Proofs.Lock.Safety
import RowStore.Proofs.Store.Script
import RowStore.Proofs.Store.Stepwise
import RowStore.Proofs.Store.Scene
import RowStore.Proofs.Store.Removal
import RowStore.Proofs.Condition
import RowStore.Proofs.Store.Onward
import RowStore.Proofs.Store.Demand
import RowStore.Proofs.Store.Upholding
import RowStore.Proofs.Store.Isolation
import RowStore.Proofs.Store.Told
import RowStore.Proofs.Store.Story
import RowStore.Proofs.Store.Orderly
import RowStore.Proofs.Store.Turns
import RowStore.Proofs.Store.Recovery
import RowStore.Proofs.Store.Schedule
import RowStore.Proofs.Column
import RowStore.Proofs.Store.Typed
import RowStore.Proofs.Store.Checked
import RowStore.Proofs.Store.Identity
import RowStore.Proofs.Store.Copies
import RowStore.Proofs.Store.Serial
import RowStore.Proofs.Store.Brackets
import RowStore.Proofs.Store.Rounds
import RowStore.Proofs.Store.Storing
import RowStore.Proofs.Store.Protocol
import RowStore.Proofs.Lock.Wakeups
import RowStore.Proofs.Store.Computed
import RowStore.Proofs.ColumnSet
import RowStore.Proofs.Store.Columns
import RowStore.Proofs.Store.Teardown
import RowStore.Proofs.Outcome
import RowStore.Proofs.Engine.Refusals
import RowStore.Proofs.Store.Upkeep
import RowStore.Proofs.Store.Lifetime
import RowStore.Proofs.Store.PrimaryMarks
import RowStore.Proofs.Store.Values
import RowStore.Proofs.Store.Reach
import RowStore.Proofs.Store.Dependencies
import RowStore.Proofs.Engine.Guarded
import RowStore.Proofs.Store.Uniqueness
import RowStore.Proofs.WaitGraph.Searches
import RowStore.Proofs.Store.Refused
import RowStore.Proofs.Binary64.Integers
import RowStore.Proofs.Engine.Planning
import RowStore.Proofs.Engine.Selectivity
import RowStore.Proofs.Sequence.Numbers
import RowStore.Proofs.Engine.Filling
import RowStore.Proofs.Store.Indexing
import RowStore.Proofs.Engine.Extremes
import RowStore.Proofs.Store.ColumnUses
import RowStore.Proofs.Expr.Sums
import RowStore.Proofs.Sequence.Cycling
import RowStore.Proofs.Store.Defaults
import RowStore.Proofs.Store.Cancellation
import RowStore.Proofs.Value.Convert
import RowStore.Proofs.Value.Comparison
import RowStore.Proofs.Text.Numeral
import RowStore.Proofs.Value.Numerals
import RowStore.Proofs.Expr.Printing
import RowStore.Proofs.Options.Duration
import RowStore.Proofs.Toml.Lines
import RowStore.Proofs.Options.File
import RowStore.Proofs.Engine.Modification
import RowStore.Proofs.MultiMap.Bag
import RowStore.Proofs.Binary64.TotalOrder
import RowStore.Proofs.Value.Lawful
