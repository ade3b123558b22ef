import PacketPlan.Plan.Json
import PacketPlan.Config.Reader
import PacketPlan.Search.Run
import PacketPlan.Proofs.Bindings
import PacketPlan.Proofs.Expr
import PacketPlan.Proofs.Plan.Execution
import PacketPlan.Proofs.Search.Soundness
import PacketPlan.Proofs.Search.FirstSolution
import PacketPlan.Proofs.Search.Termination
import PacketPlan.Proofs.Pipeline.Conservation
import PacketPlan.Proofs.Pipeline.Permanence
import PacketPlan.Proofs.Pipeline.Earliest
import PacketPlan.Proofs.Pipeline.Load
import PacketPlan.Proofs.Pipeline.Footprint
import PacketPlan.Proofs.Proposal.Keys
import PacketPlan.Proofs.Plan.Reconstruction
import PacketPlan.Proofs.Plan.Passes
import PacketPlan.Proofs.Pipeline.Probe
import PacketPlan.Proofs.Plan.Recirculation
import PacketPlan.Proofs.Plan.Consistency
import PacketPlan.Proofs.Plan.Reservation
import PacketPlan.Proofs.Search.Faultless
import PacketPlan.Proofs.Search.Freshness
import PacketPlan.Proofs.Search.Accounting
import PacketPlan.Proofs.Plan.Throughput
import PacketPlan.Proofs.Graph.Acceptance
import PacketPlan.Proofs.Search.Ancestry
import PacketPlan.Proofs.Search.Ranking
import PacketPlan.Proofs.Plan.Backing
import PacketPlan.Proofs.Pipeline.Repetition
import PacketPlan.Proofs.Search.Speculation
import PacketPlan.Proofs.Search.Exclusion
import PacketPlan.Proofs.Plan.Extension
import PacketPlan.Proofs.Plan.Bookkeeping
import PacketPlan.Proofs.Plan.Partition
import PacketPlan.Proofs.Plan.Verdict
import PacketPlan.Proofs.Plan.FreshPass
import PacketPlan.Proofs.Search.Arrivals
import PacketPlan.Proofs.Search.Misjudgement
import PacketPlan.Proofs.Search.HostOnly
import PacketPlan.Proofs.Search.Minting
