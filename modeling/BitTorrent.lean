import BitTorrent.BencodeCanonical
import BitTorrent.DhtTableChurn
import BitTorrent.DhtBootstrapEnd
import BitTorrent.PeerFrames
import BitTorrent.PeerDispatch
import BitTorrent.PeerCodec
import BitTorrent.PeerManagerZombies
import BitTorrent.DiskPath
import BitTorrent.DiskAddSafe
import BitTorrent.DiskVerdicts
import BitTorrent.DiskManager
import BitTorrent.MetainfoHashingResult
import BitTorrent.HandshakePipeline
import BitTorrent.DhtCompact
import BitTorrent.DhtSecurity
import BitTorrent.DhtNumbers
import BitTorrent.DhtSortedNodes
import BitTorrent.SelectHostile
import BitTorrent.SelectServe
import BitTorrent.PeerRoundTrip
import BitTorrent.SelectAnnounced
import BitTorrent.PeerTimeout
import BitTorrent.DiskBlocks
import BitTorrent.ShaBits
import BitTorrent.DiskPending
import BitTorrent.HandshakeClosed
import BitTorrent.HandshakeSend
