import Norbital.Lib.Rounding
import Norbital.Lib.Doubles
import Norbital.Lib.Sha256
import Norbital.Lib.Keyset
import Norbital.Lib.ThreeValued
import Norbital.Lib.Walks
import Norbital.Lib.JsNumber
import Norbital.Lib.JsonText
import Norbital.Lib.JsonTree
import Norbital.Lib.JsonParse
import Norbital.Lib.Jsonb
import Norbital.Store.Physical
import Norbital.Store.Write.Inline
import Norbital.Std.Decimal
import Norbital.Std.Kind
import Norbital.Store.Errors
import Norbital.Store.Read.Paging
import Norbital.Store.Migrate
import Norbital.Store.Schema.JsonValid
import Norbital.Bolt.Live.Hub
import Norbital.Bolt.Live.Accounting
import Norbital.Lib.SqlText
import Norbital.Store.Schema.Constraints
import Norbital.Store.Schema.Names
import Norbital.Store.Schema.Violations
import Norbital.Store.Schema.Objects
import Norbital.Store.Schema.Plan
import Norbital.Store.Schema.Matched
import Norbital.Store.Schema.Naming
import Norbital.Store.Schema.Rename
import Norbital.Std.Date
import Norbital.Std.Periods
import Norbital.Std.Hash
import Norbital.Std.Sheet
import Norbital.Std.SheetRows
import Norbital.Std.Shifts
import Norbital.Std.Versioned
import Norbital.Bolt.Approvals.Machine
import Norbital.Bolt.Approvals.Lock
import Norbital.Bolt.Approvals.Requests
import Norbital.Bolt.Query.Statements
import Norbital.Bolt.Query.Engine
import Norbital.Bolt.Query.Batch
import Norbital.Bolt.Write.Attempts
import Norbital.Bolt.History.Replay
import Norbital.Bolt.History.Audit
import Norbital.Bolt.History.Rebuild
import Norbital.Bolt.History.Authored
import Norbital.Bolt.History.Prune
import Norbital.Bolt.History.Pruned
import Norbital.Bolt.Live.Patch
import Norbital.Bolt.Live.Mirror
import Norbital.Bolt.Live.MirrorRuns
import Norbital.Bolt.Identity.Codes
import Norbital.Lib.Postorder
import Norbital.Bolt.Db.Lease
import Norbital.Bolt.Db.Wire
import Norbital.Bolt.Runs.Effects
import Norbital.Bolt.Runs.Finish
import Norbital.Bolt.Runs.Deadlines
import Norbital.Bolt.Agent.Throttle
import Norbital.Bolt.Integrations.Outbound
import Norbital.Bolt.Sync.Version
import Norbital.Bolt.Sync.Read
import Norbital.Bolt.Sync.Converge
import Norbital.Bolt.Sync.Snapshot
import Norbital.Bolt.Sync.Outbox
import Norbital.Bolt.Sync.Refused
import Norbital.Bolt.Sync.Delivery
import Norbital.Bolt.Write.Admit
import Norbital.Bolt.Write.Judge
import Norbital.Bolt.Identity.Actor
import Norbital.Bolt.Identity.Fresh
import Norbital.Bolt.Write.Unchanged
import Norbital.Bolt.Write.Keyed
import Norbital.Bolt.Write.Import
import Norbital.Store.Write.States
import Norbital.Lib.Scan
import Norbital.Lib.SqlLex
import Norbital.Store.SqlTokens
import Norbital.Store.InStep
import Norbital.Store.Atomic
import Norbital.Lib.Formula
import Norbital.Store.Write.OwnPred
import Norbital.Lib.Gregorian
import Norbital.Std.Days
import Norbital.Lib.Openings
import Norbital.Std.Canonical
import Norbital.Std.Csv
import Norbital.Std.Cycles
import Norbital.Std.Zone
import Norbital.Bolt.Query.Midnight
import Norbital.Lib.Tally
import Norbital.Lib.Trim
import Norbital.Std.BusinessHours
import Norbital.Lib.Numerals
import Norbital.Lib.Prefixes
import Norbital.Bolt.Access.Address
import Norbital.Bolt.Access.RateWindows
import Norbital.Bolt.Access.Limits
import Norbital.Lib.Sweeps
import Norbital.Bolt.Write.Affected
import Norbital.Lib.Reduce
import Norbital.Bolt.Write.Nets
import Norbital.Bolt.Write.ReadGuards
import Norbital.Bolt.Write.Seed
import Norbital.Bolt.Live.Shared
import Norbital.Std.Wire
import Norbital.Std.Pricing
import Norbital.Std.Facts
import Norbital.Lib.CodeUnits
import Norbital.Lib.Utf8
