import Osol.Zfs.SpaceMap.Calls
import Osol.Zfs.Metaslab.Safety
import Osol.Zfs.Txg.Safety
import Osol.Zfs.DslDir.Accounting
import Osol.Zfs.Compress.RoundTrip
import Osol.Zfs.Compress.Placement
import Osol.Zfs.Zap.Byteswap
import Osol.Zfs.Raidz.Layout
import Osol.Cyclic.SoftRun
import Osol.Dtrace.Vars
import Osol.Flock.Run
import Osol.Flock.Range
import Osol.Dtrace.RingBuffer
import Osol.Dtrace.DynvarRun
import Osol.Zfs.Checksum.Fletcher
import Osol.Bignum.Sqrt
import Osol.Rwlock.Run
import Osol.Timers.Hrtime
import Osol.Turnstile.RwlockRun
import Osol.Uconv.Convert
import Osol.Modes.CcmPrefix
import Osol.Modes.CcmFinal
import Osol.Modes.Updates
import Osol.Dtrace.Aggregate
import Osol.Dtrace.Compare
import Osol.Dtrace.Strings
import Osol.Dtrace.Glob
import Osol.Zfs.Compress.ZleSafe
import Osol.Cyclic.SoftPend
