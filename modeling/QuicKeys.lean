import QuicKeys.Lib.Runs
import QuicKeys.Lib.Registers
import QuicKeys.Lib.Blocks
import QuicKeys.Lib.Words
import QuicKeys.Lib.Pattern
import QuicKeys.Lib.Numerals
import QuicKeys.Lib.OrderStatistics
import QuicKeys.Lib.Stamps
import QuicKeys.Lib.Sweep
import QuicKeys.Lib.Bitmap
import QuicKeys.Lib.Brackets
import QuicKeys.Daemon.Commuting
import QuicKeys.Daemon.Convergence
import QuicKeys.Daemon.Report
import QuicKeys.Daemon.Snapshot
import QuicKeys.Daemon.Watchdog
import QuicKeys.Daemon.Datagrams
import QuicKeys.Daemon.Handlers
import QuicKeys.Daemon.HealMarkers
import QuicKeys.Daemon.History
import QuicKeys.Daemon.HidSocket
import QuicKeys.Daemon.Interleavings
import QuicKeys.Daemon.LastReport
import QuicKeys.Daemon.LogCounts
import QuicKeys.Daemon.LogText
import QuicKeys.Daemon.Resync
import QuicKeys.Daemon.Options
import QuicKeys.Daemon.Rollover
import QuicKeys.Daemon.StuckLines
import QuicKeys.Daemon.UsageRange
import QuicKeys.Daemon.Threads
import QuicKeys.Daemon.WatchdogEffect
import QuicKeys.Daemon.WatchdogRace
import QuicKeys.Daemon.WatchdogTiming
import QuicKeys.Daemon.WellFormed
import QuicKeys.Qemu.GuestReads
import QuicKeys.Qemu.KbdSocket
import QuicKeys.Qemu.Polls
import QuicKeys.Quic.Lifecycle
import QuicKeys.Quic.Records
import QuicKeys.Quic.StartStop
import QuicKeys.Link.Framing
import QuicKeys.Link.RoundTrip
import QuicKeys.Link.EndToEnd
import QuicKeys.Link.ClientToDevice
import QuicKeys.Link.ClientToGuest
import QuicKeys.Link.GuestView
import QuicKeys.Link.SnapshotStream
import QuicKeys.Client.Hybrid
import QuicKeys.Client.DatagramText
import QuicKeys.Client.Deadlines
import QuicKeys.Client.Decoding
import QuicKeys.Client.Divergence
import QuicKeys.Client.DroppedKeyups
import QuicKeys.Client.EdgeChannels
import QuicKeys.Client.EdgeStream
import QuicKeys.Client.Healing
import QuicKeys.Client.Newest
import QuicKeys.Client.OutboxBounds
import QuicKeys.Client.OutboxTiming
import QuicKeys.Client.PlainUdp
import QuicKeys.Client.Repeats
import QuicKeys.Client.SnapshotCodec
import QuicKeys.Client.Workload
import QuicKeys.Scripts.Latencies
import QuicKeys.Scripts.Percentile
import QuicKeys.Scripts.RunLog
import QuicKeys.Scripts.RunMetrics
import QuicKeys.Scripts.Workloads
