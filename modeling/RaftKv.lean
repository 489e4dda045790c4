import RaftKv.Cluster
import RaftKv.Lib.Consensus
import RaftKv.Lib.Replication
import RaftKv.Lib.Commitment
import RaftKv.Refinement.Store
import RaftKv.Refinement.Merge
import RaftKv.Moves
import RaftKv.Runs
import RaftKv.Refinement.Node
import RaftKv.Threads
import RaftKv.Conditions
import RaftKv.Refinement.Simulation
import RaftKv.Refinement.Elections
import RaftKv.Refinement.Replication
import RaftKv.Refinement.Crash
import RaftKv.Safety.Elections
import RaftKv.Safety.Logs
import RaftKv.Refinement.Applying
import RaftKv.Refinement.Retention
import RaftKv.Safety.StateMachine
import RaftKv.Safety.Clients
import RaftKv.Safety.Reads
import RaftKv.Lib.ByteOrder
import RaftKv.Lib.Decoder
import RaftKv.Wire.Command
import RaftKv.Wire.LogEntry
import RaftKv.Wire.Recovery
import RaftKv.Wire.RPC
import RaftKv.Wire.TCPServer
import RaftKv.Wire.Framing
import RaftKv.Wire.Persistence
import RaftKv.Wire.RoundTrip
import RaftKv.Wire.Truncation
import RaftKv.Wire.Malformed
import RaftKv.Replication.Merging
import RaftKv.Replication.Acknowledged
import RaftKv.Replication.CatchUp
import RaftKv.Replication.CommitRule
import RaftKv.Replication.Heartbeat
import RaftKv.Safety.StepDown
import RaftKv.Lib.Crc
import RaftKv.Wire.Checksum
import RaftKv.Wire.Damage
import RaftKv.Safety.LeaderHint
import RaftKv.Lib.Linearizability
import RaftKv.Safety.AppendOnly
import RaftKv.Safety.Committed
import RaftKv.Safety.Linearizability
import RaftKv.Timing
import RaftKv.Safety.Timers
import RaftKv.Safety.Stability
import RaftKv.Lib.Decimal
import RaftKv.Wire.Client
import RaftKv.Wire.Redirects
import RaftKv.Lib.Calls
import RaftKv.Wire.CommandLine
import RaftKv.Wire.Exchange
import RaftKv.Wire.Node
import RaftKv.Wire.Refinement
import RaftKv.Wire.Cluster
import RaftKv.Wire.Simulation
import RaftKv.Wire.Agreement
