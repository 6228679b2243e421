import LocalKeyValue.FaRM.TableRun
import LocalKeyValue.FaRM.Window
import LocalKeyValue.FaRM.Requests
import LocalKeyValue.FaRM.Snapshot
import LocalKeyValue.FaRM.Failure
import LocalKeyValue.FaRM.Resize
import LocalKeyValue.FaRM.Unique
import LocalKeyValue.FaRM.System
import LocalKeyValue.Pilaf.Recv
import LocalKeyValue.Pilaf.Requests
import LocalKeyValue.Pilaf.Credits
import LocalKeyValue.Pilaf.Construct
import LocalKeyValue.Pilaf.Cycle
import LocalKeyValue.Pilaf.Values
import LocalKeyValue.Pilaf.Overlap
import LocalKeyValue.Pilaf.Checksum
import LocalKeyValue.Pilaf.Answer
import LocalKeyValue.Pilaf.Reads
import LocalKeyValue.Pilaf.Arrivals
import LocalKeyValue.HydraDB.Lease
import LocalKeyValue.HydraDB.Pool
import LocalKeyValue.HydraDB.Requests
import LocalKeyValue.HydraDB.Delete
import LocalKeyValue.HydraDB.Unique
import LocalKeyValue.HydraDB.Flags
import LocalKeyValue.HydraDB.RoundTrip
import LocalKeyValue.HydraDB.RandomText
import LocalKeyValue.HydraDB.Partition
import LocalKeyValue.HydraDB.Blocks
import LocalKeyValue.HydraDB.FreeList
import LocalKeyValue.HydraDB.BadFree
import LocalKeyValue.HydraDB.Leaks
import LocalKeyValue.HydraDB.System
import LocalKeyValue.HydraDB.Progress
import LocalKeyValue.Server.Replies
import LocalKeyValue.Server.Exchange
