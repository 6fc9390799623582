import ServingSim.Timing.ExpertDemand
import ServingSim.Sim.SimulationLedger
import ServingSim.Kv.PrefixEviction
import ServingSim.Timing.FoldOrder
import ServingSim.Timing.ExpertApportion
import ServingSim.Timing.GridExtrapolation
import ServingSim.Timing.GridVolume
import ServingSim.Analyzer.WorkConservation
import ServingSim.Kv.PeakExact
import ServingSim.Kv.LargestFitting
import ServingSim.Admission.LongestPrefix
import ServingSim.Worker.LinkExclusivity
import ServingSim.Admission.PrefillBookkeeping
import ServingSim.Admission.PipelineRuns
import ServingSim.Admission.AcceptanceRuns
import ServingSim.Analyzer.LaunchOverlaps
import ServingSim.Analyzer.BarrierTiling
import ServingSim.Analyzer.RequestPopulations
import ServingSim.Analyzer.PlacementNesting
import ServingSim.Analyzer.ShapeAccounting
import ServingSim.Op.StageAccounting
import ServingSim.Analyzer.RootShares
import ServingSim.Tools.SplitSearch
import ServingSim.Optimality.ScopedFloors
import ServingSim.Kv.PartBreakdown
import ServingSim.Work.SparseAttention
import ServingSim.Work.StageSums
import ServingSim.Timing.CausalRows
import ServingSim.Log.KvSampler
import ServingSim.Log.CostRows
import ServingSim.Profiling.KeyedMerge
import ServingSim.Profiling.KeyedTable
import ServingSim.Orchestrator.PdSafety
