import Ydb.TimerRuns
import Ydb.Lib.BuddyPartition
import Ydb.SmallStorageRuns
import Ydb.StringPoolCollection
import Ydb.KeyRoundTrip
import Ydb.NumberComparison
import Ydb.AdditionWords
import Ydb.Division
import Ydb.LocalTreeSearch
import Ydb.LocalTreeCollation
import Ydb.ZwriteAcceptance
import Ydb.NameRecognition
import Ydb.BlockRecords
import Ydb.HashTable
import Ydb.HashTableRuns
import Ydb.SeparatorKey
import Ydb.StringNumbers
import Ydb.ModuloExactness
import Ydb.IntegerConversion
import Ydb.JournalPoolRuns
import Ydb.JournalBufferPlaces
import Ydb.NumberJustificationResults
import Ydb.ProfilerTreeRuns
import Ydb.LocalTreeOrder
import Ydb.ZDate
import Ydb.FreeBlocks
import Ydb.LockSubscripts
import Ydb.BuddyListReuse
import Ydb.GlobalDirectorySearch
import Ydb.EventQueueRuns
import Ydb.SeqnoTableBoundary
import Ydb.ZBitPositions
import Ydb.TripleLayout
import Ydb.TransactionSortRuns
import Ydb.StringPieceDifferences
import Ydb.LockHashTableInsertion
import Ydb.LockHashing
import Ydb.SubscriptFunction
import Ydb.TranslateRuns
import Ydb.IncrementRecomputation
import Ydb.LeafInsertion
import Ydb.BlockKill
import Ydb.LeafRemoval
import Ydb.TreeLoops
import Ydb.TreeCollation
import Ydb.TreeBackwards
