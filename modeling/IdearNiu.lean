import IdearNiu.Bt.Att
import IdearNiu.Bt.AttFrames
import IdearNiu.Bt.AttHistory
import IdearNiu.Bt.AttRuns
import IdearNiu.Bt.AttSteps
import IdearNiu.Crypto.Aes
import IdearNiu.Crypto.AesCbc
import IdearNiu.Crypto.AesContract
import IdearNiu.Crypto.AesInverse
import IdearNiu.Crypto.AesKeys
import IdearNiu.Crypto.AesPadding
import IdearNiu.Crypto.AesStandard
import IdearNiu.Crypto.AesTables
import IdearNiu.Crypto.Sha1
import IdearNiu.Crypto.Sha1Count
import IdearNiu.Crypto.Sha1Standard
import IdearNiu.Crypto.Sha1Stream
import IdearNiu.Dhcpc.ChecksumChain
import IdearNiu.Dhcpc.Client
import IdearNiu.Dhcpc.Exchange
import IdearNiu.Dhcpc.Message
import IdearNiu.Dhcpc.Options
import IdearNiu.Dhcpc.Packet
import IdearNiu.Dhcpc.PacketCodec
import IdearNiu.Dhcpc.PacketLength
import IdearNiu.Dm.Registry
import IdearNiu.Epoll.Dispatch
import IdearNiu.Epoll.Loop
import IdearNiu.Fifo.Concurrent
import IdearNiu.Fifo.Interleaving
import IdearNiu.Fifo.Kfifo
import IdearNiu.Fifo.Refinement
import IdearNiu.Fifo.Steady
import IdearNiu.Framework.BitTable
import IdearNiu.Framework.CellChains
import IdearNiu.Framework.Chaining
import IdearNiu.Framework.ClassMap
import IdearNiu.Framework.Cursor
import IdearNiu.Framework.Cutting
import IdearNiu.Framework.Histories
import IdearNiu.Framework.InFlight
import IdearNiu.Framework.KeyedMap
import IdearNiu.Framework.Memory
import IdearNiu.Framework.OrderedMap
import IdearNiu.Framework.Pools
import IdearNiu.Framework.Rings
import IdearNiu.Framework.SharedCell
import IdearNiu.Framework.SlotTables
import IdearNiu.Framework.Windows
import IdearNiu.Framework.Words
import IdearNiu.Hash.ForEach
import IdearNiu.Hash.Probing
import IdearNiu.Hash.Refinement
import IdearNiu.Hash.Rehash
import IdearNiu.Hash.Sizing
import IdearNiu.Hash.StringKeys
import IdearNiu.Hash.Table
import IdearNiu.Http.ContentRange
import IdearNiu.Http.Download
import IdearNiu.Http.GetHttp
import IdearNiu.Http.HeadReader
import IdearNiu.Http.Overrun
import IdearNiu.Http.Persistent
import IdearNiu.Http.Reencode
import IdearNiu.Http.Request
import IdearNiu.Http.RequestSend
import IdearNiu.Http.Response
import IdearNiu.Http.Robots
import IdearNiu.Http.RobotsText
import IdearNiu.Http.StableSort
import IdearNiu.Http.Stream
import IdearNiu.Http.Transport
import IdearNiu.Http.Url
import IdearNiu.Http.UrlSplit
import IdearNiu.Http.UrlStability
import IdearNiu.Json.Bounds
import IdearNiu.Json.CJson
import IdearNiu.Json.RoundTrip
import IdearNiu.Lists.Hlist
import IdearNiu.Lists.HlistRefinement
import IdearNiu.Lists.HlistReplace
import IdearNiu.Lists.HlistRuns
import IdearNiu.Lists.ListHead
import IdearNiu.Lists.Refinement
import IdearNiu.Lists.Runs
import IdearNiu.Lists.Sequences
import IdearNiu.Math.Cyclic
import IdearNiu.Math.Decimal
import IdearNiu.Math.Gf256
import IdearNiu.Math.OnesComplement
import IdearNiu.Math.Rijndael
import IdearNiu.Math.SecureHash
import IdearNiu.Math.WordMixing
import IdearNiu.Objthread.RefBase
import IdearNiu.Objthread.RefBaseRuns
import IdearNiu.Ping.Checksum
import IdearNiu.Ping.Ping
import IdearNiu.Ping.Statistics
import IdearNiu.Socket.Connection
import IdearNiu.Socket.Draining
import IdearNiu.Socket.EdgeTriggered
import IdearNiu.Socket.EpollServer
import IdearNiu.Socket.Sockets
import IdearNiu.Socket.TcpServer
import IdearNiu.Socket.UdpServer
import IdearNiu.Tls.SslRandom
import IdearNiu.Tls.SslRecv
import IdearNiu.Tls.SslRecvRange
import IdearNiu.Util.Allocation
import IdearNiu.Util.AndroidBase64
import IdearNiu.Util.AndroidBase64RoundTrip
import IdearNiu.Util.AndroidFastPath
import IdearNiu.Util.AndroidLength
import IdearNiu.Util.Base64
import IdearNiu.Util.Base64Acceptance
import IdearNiu.Util.Base64Allocation
import IdearNiu.Util.Base64RoundTrip
import IdearNiu.Util.HexBounds
import IdearNiu.Util.HexGrammar
import IdearNiu.Util.HexRoundTrip
import IdearNiu.Util.HexString
import IdearNiu.Util.XSplit
