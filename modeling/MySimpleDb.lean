import MySimpleDb.Lib.Binary
import MySimpleDb.Lib.DecimalText
import MySimpleDb.Lib.Numeral
import MySimpleDb.Lib.Interval
import MySimpleDb.Lib.Bytes
import MySimpleDb.Lib.Cursor
import MySimpleDb.Lib.Bisect
import MySimpleDb.Lib.BPlusTree
import MySimpleDb.Lib.BPlusScan
import MySimpleDb.Lib.Prog
import MySimpleDb.Lib.Rounding
import MySimpleDb.Lib.ThreeWay
import MySimpleDb.Lib.Within
import MySimpleDb.Lib.Attempt
import MySimpleDb.Lib.Pull
import MySimpleDb.Lib.Chain
import MySimpleDb.Lib.SepList
import MySimpleDb.Common.Err
import MySimpleDb.Storage.Types
import MySimpleDb.Storage.Decimal
import MySimpleDb.Storage.Cast
import MySimpleDb.Storage.CastSafe
import MySimpleDb.Storage.CastTyped
import MySimpleDb.Storage.CoerceNumeric
import MySimpleDb.Storage.IntCast
import MySimpleDb.Storage.DecimalExact
import MySimpleDb.Storage.Codec
import MySimpleDb.Storage.IndexKey
import MySimpleDb.Storage.Page
import MySimpleDb.Storage.HeapFile
import MySimpleDb.Storage.HeapSlots
import MySimpleDb.Storage.HeapCompact
import MySimpleDb.Storage.HeapUpdate
import MySimpleDb.Storage.BTreePage
import MySimpleDb.Storage.BTreeLayout
import MySimpleDb.Storage.PoolView
import MySimpleDb.Storage.FileManager
import MySimpleDb.Storage.WalFormat
import MySimpleDb.Storage.WalPrefix
import MySimpleDb.Storage.Wal
import MySimpleDb.Storage.BufferPool
import MySimpleDb.Storage.PageDiff
import MySimpleDb.Storage.BTree
import MySimpleDb.Storage.BTreeInsert
import MySimpleDb.Storage.BTreeInvariant
import MySimpleDb.Storage.IndexFile
import MySimpleDb.Parser.Ast
import MySimpleDb.Parser.Token
import MySimpleDb.Parser.Grammar
import MySimpleDb.Parser.ArgList
import MySimpleDb.Analyzer.BoundExpr
import MySimpleDb.Analyzer.Bind
import MySimpleDb.Analyzer.Select
import MySimpleDb.Expr.Func
import MySimpleDb.Expr.Eval
import MySimpleDb.Expr.Typed
import MySimpleDb.Expr.FuncSafe
import MySimpleDb.Expr.DecimalFunc
import MySimpleDb.Expr.DecimalArith
import MySimpleDb.Expr.Order
import MySimpleDb.Expr.KeyOrder
import MySimpleDb.Expr.Sound
import MySimpleDb.Analyzer.BindTyped
import MySimpleDb.Analyzer.BindSound
import MySimpleDb.Planner.Fold
import MySimpleDb.Planner.FoldEqual
import MySimpleDb.Planner.FoldTyped
import MySimpleDb.Planner.FoldSound
import MySimpleDb.Planner.FoldWeak
import MySimpleDb.Planner.IndexRange
import MySimpleDb.Planner.IndexRangeExact
import MySimpleDb.Proto.Frame
import MySimpleDb.Server.ResultStream
import MySimpleDb.Server.ResultStreamExact
import MySimpleDb.Client.Render
import MySimpleDb.Catalog.Txn
import MySimpleDb.Server.Session
import MySimpleDb.Server.SessionTxn
import MySimpleDb.Catalog.Dml
import MySimpleDb.Planner.Plan
import MySimpleDb.Planner.Select
import MySimpleDb.Executor.Operator
import MySimpleDb.Executor.OperatorRows
import MySimpleDb.Executor.Sorted
import MySimpleDb.Executor.OrderBy
import MySimpleDb.Executor.TableRows
import MySimpleDb.Executor.OperatorFrame
import MySimpleDb.Executor.Execute
import MySimpleDb.Executor.UpdateRows
import MySimpleDb.Server.Snapshot
import MySimpleDb.Lib.Replay
import MySimpleDb.Storage.Recovery
import MySimpleDb.Storage.RecoveryRepeat
import MySimpleDb.Storage.PatchExact
import MySimpleDb.Storage.CodecBytes
import MySimpleDb.Analyzer.Assign
import MySimpleDb.Executor.Assignment
import MySimpleDb.Storage.PoolClock
import MySimpleDb.Storage.PoolConsistent
import MySimpleDb.Storage.PoolRun
import MySimpleDb.Storage.PoolTable
import MySimpleDb.Lib.Flex
import MySimpleDb.Parser.Modes
import MySimpleDb.Parser.Lexer
import MySimpleDb.Parser.LexMarks
import MySimpleDb.Client.Scanner
import MySimpleDb.Parser.Statements
import MySimpleDb.Client.Collect
import MySimpleDb.Client.Splitting
import MySimpleDb.Storage.BTreeScan
import MySimpleDb.Storage.PoolContent
import MySimpleDb.Storage.PoolRefine
import MySimpleDb.Storage.PoolStrict
import MySimpleDb.Storage.IndexOnPool
import MySimpleDb.Lib.UndoRedo
import MySimpleDb.Storage.EngineTxn
import MySimpleDb.Storage.TxnLog
import MySimpleDb.Storage.CrashRecovery
import MySimpleDb.Storage.PoolFlush
import MySimpleDb.Storage.CrashRun
import MySimpleDb.Storage.CrashSafe
import MySimpleDb.Storage.CrashProgram
import MySimpleDb.Storage.IndexCrash
import MySimpleDb.Storage.EngineHeap
import MySimpleDb.Storage.RowFile
import MySimpleDb.Storage.RowsOnPool
import MySimpleDb.Storage.RowScan
import MySimpleDb.Storage.TailPage
import MySimpleDb.Storage.RowsOnEngine
import MySimpleDb.Storage.RowRun
import MySimpleDb.Storage.RowStatements
import MySimpleDb.Storage.RowsSurvive
