import Rstm.Memory
import Rstm.Scope
import Rstm.WriteSet.Basic
import Rstm.WriteSet.IndexLength
import Rstm.WriteSet.Index
import Rstm.WriteSet.Invariant
import Rstm.UndoLog
import Rstm.Rollback
import Rstm.LockList
import Rstm.ByteEager.Basic
import Rstm.ByteEager.Locks
import Rstm.ByteEager.Progress
import Rstm.ByteEager.Runs
import Rstm.ByteEager.Exclusion
import Rstm.ByteEager.Serial
import Rstm.Nano.Basic
import Rstm.Nano.Locks
import Rstm.Nano.Reads
import Rstm.Nano.Serial
import Rstm.Nano.Progress
