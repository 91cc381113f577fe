import CoreSql.Lib.Machine
import CoreSql.Lib.SortedMap
import CoreSql.Lib.Fallible
import CoreSql.Lib.Lists
import Mathlib.Data.List.Forall2
import CoreSql.Lib.Avl
import CoreSql.Lib.Walk
import CoreSql.Lib.Runs
import CoreSql.Lib.ThreeWay
import CoreSql.Lib.LittleEndian
import CoreSql.Lib.Decoder
import CoreSql.Lib.Merge
import CoreSql.Lib.Visit
import CoreSql.Lib.Triple
import CoreSql.Lib.Buckets
import CoreSql.Basic
import CoreSql.Data.Value
import CoreSql.Data.Expr
import CoreSql.Data.Index
import CoreSql.Data.Table
import CoreSql.Data.Scalars
import CoreSql.Data.Constraints
import CoreSql.Mutation.Program
import CoreSql.Mutation.Rows
import CoreSql.Mutation.Schema
import CoreSql.Mutation.Calls
import CoreSql.Query.Predicate
import CoreSql.Query.Ranges
import CoreSql.Query.Candidates
import CoreSql.Query.FilteredJoin
import CoreSql.Query.OrderedScan
import CoreSql.Query.Source
import CoreSql.Query.Syntax
import CoreSql.Query.EqualityJoin
import CoreSql.Query.Bound
import CoreSql.Query.PredicateReuse
import CoreSql.Query.Paging
import CoreSql.Txn.Transaction
import CoreSql.Txn.History
import CoreSql.Txn.Reference
import CoreSql.Mutation.Session
import CoreSql.Storage.Encoding
import CoreSql.Storage.IndexCache
import CoreSql.Storage.Records
import CoreSql.Proofs.Lawful
import CoreSql.Proofs.OrderedIndex
import CoreSql.Proofs.UniqueIndex
import CoreSql.Proofs.KeyIndex
import CoreSql.Proofs.Indexes
import CoreSql.Proofs.Ranges
import CoreSql.Proofs.Scans
import CoreSql.Proofs.Predicates
import CoreSql.Proofs.Candidates
import CoreSql.Proofs.Programs
import CoreSql.Proofs.Selection
import CoreSql.Proofs.FilteredJoin
import CoreSql.Proofs.OrderedWalk
import CoreSql.Proofs.OrderedScan
import CoreSql.Proofs.Reach
import CoreSql.Proofs.Serial
import CoreSql.Proofs.Chain
import CoreSql.Proofs.Savepoints
import CoreSql.Proofs.Structure
import CoreSql.Proofs.Images
import CoreSql.Proofs.IndexCache
import CoreSql.Proofs.ChangeRecords
import CoreSql.Proofs.Sources
import CoreSql.Proofs.EqualityJoin
import CoreSql.Proofs.PredicateReuse
import CoreSql.Proofs.PagedScan
import CoreSql.Lib.Related
import CoreSql.Query.Scan
import CoreSql.Query.Reduce
import CoreSql.Lib.Heap
import CoreSql.Query.TopK
import CoreSql.Proofs.TopK
import CoreSql.Lib.Stateful
import CoreSql.Lib.Traced
import CoreSql.Query.ProjectionCache
import CoreSql.Proofs.ProjectionCache
import CoreSql.Query.Membership
import CoreSql.Sql.Values
import CoreSql.Proofs.Membership
import CoreSql.Lib.Classes
import CoreSql.Query.GroupTable
import CoreSql.Proofs.GroupTable
import Mathlib.Data.List.Perm.Basic
import CoreSql.Lib.FixedPoint
import CoreSql.Addons.Decimal
import CoreSql.Proofs.Decimal
import CoreSql.Lib.Numeral
import CoreSql.Proofs.DecimalText
import CoreSql.Proofs.DecimalForms
import CoreSql.Lib.BinaryFormat
import CoreSql.Proofs.ValueOrder
import CoreSql.Sql.Lexer
import CoreSql.Proofs.Lexing
import CoreSql.Lib.Consume
import CoreSql.Lib.Utf8
import CoreSql.Addons.Json
import CoreSql.Proofs.JsonText
import CoreSql.Proofs.Json
import CoreSql.Query.IndexWalk
import CoreSql.Proofs.IndexSearch
import CoreSql.Lib.Copies
import CoreSql.Proofs.IndexCopies
import CoreSql.Lib.CopyOnWrite
import CoreSql.Query.SharedHash
import CoreSql.Proofs.HashCopies
import CoreSql.Query.SharedKeys
import CoreSql.Proofs.KeyCopies
import CoreSql.Lib.Wildcard
import CoreSql.Addons.Relational
import CoreSql.Sql.Strings
import CoreSql.Proofs.Strings
import CoreSql.Proofs.Pager
import CoreSql.Proofs.QueryBuffers
import CoreSql.Proofs.DurableStore
