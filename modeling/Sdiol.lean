import Sdiol.StuckKeys
import Sdiol.Releases
import Sdiol.Lib.Thinning
import Sdiol.Modifiers
import Sdiol.Fifo
import Sdiol.Timeout
import Sdiol.Fallthrough
import Sdiol.Lib.Buffer
import Sdiol.Lib.Decimal
import Sdiol.Server
import Sdiol.Stream
import Sdiol.Lib.Scanf
import Sdiol.Reader
import Sdiol.LineByLine
import Sdiol.Keyboards
import Sdiol.Filter
import Sdiol.Lua
import Sdiol.NoAbort
import Sdiol.Clients
import Sdiol.Isolation
import Sdiol.Indices
import Sdiol.Rollover
import Sdiol.Delay
import Sdiol.Passthrough
import Sdiol.ReleaseMap
import Sdiol.DoubleTap
import Sdiol.Lib.Race
import Sdiol.TimeUtil
import Sdiol.Lib.LastWrite
import Sdiol.DualTable
import Sdiol.TableGraph
import Sdiol.Composition
import Sdiol.Lookup
import Sdiol.Deadline
import Sdiol.Announced
import Sdiol.Codes
import Sdiol.ReadPass
import Sdiol.Lib.Getopt
import Sdiol.Options
import Sdiol.TimedExit
import Sdiol.Khash
import Sdiol.KhashMap
import Sdiol.NameTables
import Sdiol.Output
import Sdiol.Lib.Strtol
import Sdiol.Main
import Sdiol.Capacity
import Sdiol.Devices
import Sdiol.Hotplug
import Sdiol.Remote
import Sdiol.Descriptors
