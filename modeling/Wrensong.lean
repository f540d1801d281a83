import Wrensong.Lib.Assoc
import Wrensong.Lib.Block
import Wrensong.Lib.Bytes
import Wrensong.Lib.Decimal
import Wrensong.Lib.GrowArray
import Wrensong.Lib.Heap
import Wrensong.Lib.Iterator
import Wrensong.Lib.Linked
import Wrensong.Lib.Marking
import Wrensong.Lib.Probe
import Wrensong.Lib.Transition
import Wrensong.Http.Defs
import Wrensong.Http.Rounds
import Wrensong.Http.Robust
import Wrensong.Http.Message
import Wrensong.Http.Names
import Wrensong.Http.Partial
import Wrensong.Http.Recover
import Wrensong.Http.Values
import Wrensong.Http.Cap
import Wrensong.Ini.Appending
import Wrensong.Ini.Bounds
import Wrensong.Ini.Built
import Wrensong.Ini.Callback
import Wrensong.Ini.Comment
import Wrensong.Ini.Ends
import Wrensong.Ini.Failures
import Wrensong.Ini.Grammar
import Wrensong.Ini.Lookup
import Wrensong.Ini.Reload
import Wrensong.Ini.RoundTrip
import Wrensong.Server.Channel
import Wrensong.Server.Config
import Wrensong.Server.Delivery
import Wrensong.Server.Descriptors
import Wrensong.Server.Lifetime
import Wrensong.Server.Release
import Wrensong.Server.Segments
import Wrensong.Server.Shutdown
import Wrensong.Strings.Truncation
import Wrensong.Threads.Progress
import Wrensong.Threads.Refine
import Wrensong.Wren.Inside
import Wrensong.Wren.Lifetimes
import Wrensong.Wren.Reference
import Wrensong.Wren.Sort
import Wrensong.Wren.Split
import Wrensong.Wren.Tagged
