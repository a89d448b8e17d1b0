import McpSsh.Base.Trace
import McpSsh.JumpGraph
import McpSsh.JumpRuns
import McpSsh.RoundTripExact
import McpSsh.HostScan
import McpSsh.PoolFresh
import McpSsh.PoolLeak
import McpSsh.ProxyPins
import McpSsh.Coherence
import McpSsh.Sync
import McpSsh.SyncContainment
import McpSsh.SyncSource
import McpSsh.Teardown
import McpSsh.SessionTeardown
import McpSsh.ProcessAgree
import McpSsh.LogReads
import McpSsh.LaunchUnit
import McpSsh.PtyCap
import McpSsh.PtyWrites
import McpSsh.HopText
import McpSsh.JumpAtomic
import McpSsh.ConfigEdits
import McpSsh.Watch
import McpSsh.StateLoad
import McpSsh.TopologyPath
import McpSsh.DiscoveryCompleteness
import McpSsh.ConfigWrite
import McpSsh.JumpTunnel
import McpSsh.SyncDirs
import McpSsh.TransferAudit
import McpSsh.AuditTrail
import McpSsh.ScanVerdicts
import McpSsh.DiscoverySeeds
import McpSsh.DiscoveryCaps
import McpSsh.SyncAgain
import McpSsh.PtyQueue
import McpSsh.CandidateExpansion
import McpSsh.DiscoveryNames
import McpSsh.CappedRead
import McpSsh.AnsiSequences
import McpSsh.Breadcrumbs
import McpSsh.WindowsAddrs
import McpSsh.DiscoveryBounds
import McpSsh.DiscoveryLevels
import McpSsh.LinuxAddrs
import McpSsh.Harvest
import McpSsh.DiscoveryRegistry
import McpSsh.JumpRoute
import McpSsh.StateCrash
import McpSsh.SyncMirror
import McpSsh.ProcessExit
import McpSsh.AuditJournal
import McpSsh.RemoteLines
import McpSsh.GapReport
import McpSsh.Deregister
import McpSsh.Shutdown
