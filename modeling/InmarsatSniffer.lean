import InmarsatSniffer.Proof.Multiframe
import InmarsatSniffer.Proof.Access
import InmarsatSniffer.Proof.EgcComplete
import InmarsatSniffer.Proof.EgcInterleave
import InmarsatSniffer.Proof.RoundTrip
import InmarsatSniffer.Proof.Acars
import InmarsatSniffer.Proof.IsuInterleave
import InmarsatSniffer.Proof.ChanRing
import InmarsatSniffer.Proof.Channelize
import InmarsatSniffer.Proof.Framing
import InmarsatSniffer.Proof.Sinks
import InmarsatSniffer.Proof.FeedJson
import InmarsatSniffer.Proof.Dcd
import InmarsatSniffer.Proof.Lifetime
import InmarsatSniffer.Proof.BandRoom
import InmarsatSniffer.Proof.EgcStandalone
import InmarsatSniffer.Proof.EgcTimeout
import InmarsatSniffer.Proof.ChanWorker
import InmarsatSniffer.Proof.FeedWriter
import InmarsatSniffer.Proof.Likelihood
import InmarsatSniffer.Proof.Vita49
import InmarsatSniffer.Proof.Polarity
import InmarsatSniffer.Proof.FrameRecovery
import InmarsatSniffer.Proof.ChannelMem
import InmarsatSniffer.Proof.Checksum
import InmarsatSniffer.Proof.Crc
import InmarsatSniffer.Proof.Hilbert
import InmarsatSniffer.Proof.Ingest
import InmarsatSniffer.Proof.CompactScan
import InmarsatSniffer.Proof.OnGlobe
import InmarsatSniffer.Proof.Tagged
import InmarsatSniffer.Proof.Fpn
import InmarsatSniffer.Proof.Idents
import InmarsatSniffer.Proof.Interleaver
import InmarsatSniffer.Proof.Escape
import InmarsatSniffer.Proof.RIsu
import InmarsatSniffer.Proof.WebState
import InmarsatSniffer.Proof.BuildJson
import InmarsatSniffer.Proof.AircraftDb
import InmarsatSniffer.Proof.SbsLine
import InmarsatSniffer.Proof.Simd
import InmarsatSniffer.Proof.FastFir
import InmarsatSniffer.Proof.RealFft
import InmarsatSniffer.Proof.CondQueue
import InmarsatSniffer.Proof.BlockingQueue
