import TcAlloc.LargeBlocks
import TcAlloc.RoundTrips
import TcAlloc.Lookups
import TcAlloc.LockSafety
import TcAlloc.PoolFailures
import TcAlloc.MapRuns
import TcAlloc.SlowStart
import TcAlloc.FreeLists
import TcAlloc.SpanLists
import TcAlloc.Stamps
import TcAlloc.CrossRuns
import TcAlloc.Gates
import TcAlloc.Census
import TcAlloc.FastPaths
import TcAlloc.Boundary
import TcAlloc.Controls
import TcAlloc.GateRuns
import TcAlloc.Registries
import TcAlloc.Returns
import TcAlloc.Tallies
