import Xxfs.AttrRuns
import Xxfs.BlockRuns
import Xxfs.CacheAliases
import Xxfs.CacheCounts
import Xxfs.CacheRemovals
import Xxfs.CrcDistance
import Xxfs.DeviceSpace
import Xxfs.DirWriteback
import Xxfs.DirectoryRoundTrip
import Xxfs.FreshMount
import Xxfs.HandleRuns
import Xxfs.HashReads
import Xxfs.IndexEffect
import Xxfs.InodeShape
import Xxfs.InodeVerify
import Xxfs.Lib.WriteLog
import Xxfs.LinkRuns
import Xxfs.ListingFailures
import Xxfs.ListingRuns
import Xxfs.LockDiscipline
import Xxfs.Mkfs
import Xxfs.MountRuns
import Xxfs.Ownership
import Xxfs.PageBounds
import Xxfs.PathParts
import Xxfs.ReadAfterWrite
import Xxfs.ReadLock
import Xxfs.RecordRoom
import Xxfs.RenameFailures
import Xxfs.ShellFiles
import Xxfs.ShellPath
import Xxfs.SplitTerminates
import Xxfs.StoredValues
import Xxfs.SuperDamage
import Xxfs.SwissGrowth
import Xxfs.SyncSteps
import Xxfs.TreeProgress
import Xxfs.UnlinkUndoes
import Xxfs.WriteBounds
