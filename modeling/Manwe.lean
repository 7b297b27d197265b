import Manwe.Soccer.DeadlineSweeper
import Manwe.Soccer.SocketSlot
import Manwe.Yarn.WakeClaim
import Manwe.Yarn.RwLock
import Manwe.Yarn.AsyncMutex
import Manwe.Yarn.AsyncSemaphore
import Manwe.Yarn.AsyncOnce
import Manwe.Yarn.AsyncBarrier
import Manwe.Wire.SelectLoop
import Manwe.Wire.BoundedChannel.Runs
import Manwe.Wire.Select.Abandoned
import Manwe.Yarn.AsyncNotify
import Manwe.Yarn.WhenAny.Runs
import Manwe.Yarn.Timeout.Runs
import Manwe.Yarn.WhenAll.Runs
import Manwe.Yarn.JoinHandle.Runs
import Manwe.Yarn.CancelHook.Runs
import Manwe.Wire.Signal.Runs
import Manwe.Embedded.FdSlot
import Manwe.Soccer.HttpExchange.Request
import Manwe.Soccer.HttpExchange.Response
import Manwe.Soccer.PooledRequest.Attempts
import Manwe.Soccer.WebSocket.Cancelled
import Manwe.Soccer.WebSocket.CloseBody
import Manwe.Soccer.WebSocket.Delivery
import Manwe.Soccer.Http2.Flush.Runs
import Manwe.Soccer.Http2.Client.Runs
import Manwe.Soccer.Http2.Exchange.RoundTrip
import Manwe.Soccer.Http2.ConnectionPool.Sharing
import Manwe.Soccer.HttpConnectionPool.Runs
import Manwe.Soccer.TlsStream.Runs
import Manwe.Yarn.MPMCQueue
import Manwe.Yarn.Histogram
import Manwe.Yarn.SignalSet
import Manwe.Yarn.SleepAwaiter
import Manwe.Yarn.Stream
import Manwe.Yarn.Trace
import Manwe.Yarn.WaitProxy
import Manwe.Soccer.IcmpEcho
