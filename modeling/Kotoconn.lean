import Kotoconn.Protocol.Feedback
import Kotoconn.Protocol.StreamBufferRefine
import Kotoconn.Tun.TcpStorage.Refine
import Kotoconn.Tun.Offload.Trusted
import Kotoconn.Tun.Fragments.Accounts
import Kotoconn.Tun.Fragments.Isolation
import Kotoconn.Tun.RoutingSound
import Kotoconn.Tun.Scattered
import Kotoconn.Tun.TransmitEquiv
import Kotoconn.Tun.UdpDirectSound
import Kotoconn.Tun.UdpMoveSound
import Kotoconn.Dns.CacheFresh
import Kotoconn.Daemon.ResourcesSound
import Kotoconn.Daemon.Shutdown
import Kotoconn.Inbounds.Direct
import Kotoconn.Inbounds.SniffTransparent
import Kotoconn.Inbounds.QuicCrypto
import Kotoconn.Inbounds.QuicNumbers
import Kotoconn.Outbounds.UdpBatch
import Kotoconn.Naive.PaddingTransparent
import Kotoconn.Shadowsocks2022.Buffered
import Kotoconn.Shadowsocks2022.Replies
import Kotoconn.AnyTls.Accounting
import Kotoconn.AnyTls.Client
import Kotoconn.AnyTls.Receive
import Kotoconn.AnyTls.Wire
import Kotoconn.Hysteria2.Associations
import Kotoconn.Hysteria2.Classify
import Kotoconn.Hysteria2.Manager
import Kotoconn.Hysteria2.Progress
