import Mts.Engine.ColumnPool
import Mts.Engine.Numbering
import Mts.Engine.Crash
import Mts.Queryexec.GroupOnce
import Mts.Queryexec.IntPredicate
import Mts.Queryexec.ColumnPage
import Mts.Queryexec.GroupRows
import Mts.Queryexec.Boundary
import Mts.Catalog.Metadata
import Mts.Wal.Durable
import Mts.Wal.CrashTail
import Mts.Downsample.Agreement
import Mts.Downsample.Progress
import Mts.Engine.FailedCompaction
import Mts.User.Integrity
import Mts.User.GrantPage
import Mts.Querylang.Spec
import Mts.Queryexec.RowPages
import Mts.Queryexec.Assembly
import Mts.Queryservice.Admission
import Mts.Engine.FilterMerge
import Mts.Engine.LevelHealth
import Mts.Engine.ShardRange
import Mts.Engine.GroupByShard
import Mts.Engine.Scheduler
import Mts.Engine.RowEstimate
import Mts.Engine.MemoryBudget
