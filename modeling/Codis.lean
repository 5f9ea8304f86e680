import Codis.Errors
import Codis.Bufio2.Reader
import Codis.Redis.Resp
import Codis.Redis.Btoi64
import Codis.Redis.Decoder
import Codis.Bufio2.Cursor
import Codis.Bufio2.Invariant
import Codis.Redis.Frame
import Codis.Redis.Complete
import Codis.Redis.RoundTrip
import Codis.Redis.Soundness
import Codis.Redis.Termination
import Codis.Redis.Request
import Codis.Bufio2.Output
import Codis.Bufio2.Refinement
import Codis.Redis.Stream
import Codis.Redis.Compose
import Codis.Redis.Reject
import Codis.Redis.Segmentation
import Codis.Bufio2.Writer
import Codis.Bufio2.WriterSpec
import Codis.Bufio2.Reuse
import Codis.Proxy.Info
import Codis.Proxy.Backend
import Codis.Proxy.Steps
import Codis.Proxy.Shape
import Codis.Proxy.Pipeline
import Codis.Proxy.Delivery
import Codis.Proxy.Shutdown
import Codis.Proxy.Pool
import Codis.Proxy.Select
import Codis.Unsafe2.Offheap
import Codis.Unsafe2.Concurrent
import Codis.Sync2.Future
