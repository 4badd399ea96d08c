import Nitrocoro.Core.NextTimeout
import Nitrocoro.Core.MutexProofs
import Nitrocoro.Core.CancelRegistration
import Nitrocoro.Core.PromiseOwners
import Nitrocoro.Core.Owners
import Nitrocoro.Core.Generator
import Nitrocoro.Io.PerformProofs
import Nitrocoro.Io.Registration
import Nitrocoro.Net.TcpServerProofs
import Nitrocoro.Net.DnsCache
import Nitrocoro.Net.Url
import Nitrocoro.Utils.Sha1
import Nitrocoro.Utils.ThreadPool
import Nitrocoro.Tls.StreamProofs
import Nitrocoro.Http.HeadLimit
import Nitrocoro.Http.ServerProofs
import Nitrocoro.Http.RouterMatch
import Nitrocoro.Http.FramingAgreement
import Nitrocoro.Http.ChunkSize
import Nitrocoro.Http.SharedBodyProofs
import Nitrocoro.Http.HeadRequest
import Nitrocoro.Http.PipelineStream
import Nitrocoro.Http.CloseAgreement
import Nitrocoro.Http.StaticFilesLength
import Nitrocoro.Http.StaticFilesRoot
import Nitrocoro.Http.Form
import Nitrocoro.Http.MethodRegistry
import Nitrocoro.Http.OutgoingMessageProofs
import Nitrocoro.Websocket.WritersProofs
import Nitrocoro.Websocket.Server
import Nitrocoro.Pg.PoolService
import Nitrocoro.Pg.TransactionProofs
import Nitrocoro.Pg.ConnectionProofs
