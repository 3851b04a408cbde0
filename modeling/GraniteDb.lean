import GraniteDb.Recovery.CheckpointCommitRace
import GraniteDb.Sql.WhereKept
import GraniteDb.Sql.StatementAtomicity
import GraniteDb.Sql.IndexNames
import GraniteDb.Sql.WholeStatements
import GraniteDb.Concurrency.OneRollback
import GraniteDb.Storage.RepeatableReads
import GraniteDb.Concurrency.PageRetireManager
import GraniteDb.Storage.AllocatorCrashes
import GraniteDb.Buffer.FlatStore
import GraniteDb.Buffer.FramesByPage
import GraniteDb.Execution.ExhaustedPool
import GraniteDb.Recovery.MasterRepair
import GraniteDb.Optimizer.JoinChoice
import GraniteDb.Execution.GroupDefinition
import GraniteDb.Execution.MergeJoin
import GraniteDb.Access.InsertTraces
import GraniteDb.Storage.TupleReads
import GraniteDb.Access.OwnLatches
import GraniteDb.Access.VarcharTrees
import GraniteDb.Access.CompositeKeyOrder
import GraniteDb.Access.KeySizes
import GraniteDb.Execution.MemoizedJoin
import GraniteDb.Execution.TopN
import GraniteDb.Sql.BitmapPlan
import GraniteDb.Optimizer.CoveredPredicates
import GraniteDb.Execution.Arithmetic
import GraniteDb.Sql.Lexer
import GraniteDb.Catalog.CatalogFile
import GraniteDb.Concurrency.DeadlockWorker
import GraniteDb.Optimizer.CompleteSearch
