import MinCostFlow.EdgeList
import MinCostFlow.Labelled.Flow
import MinCostFlow.Network.History
import MinCostFlow.Network.Text
import MinCostFlow.Network.Walk
import MinCostFlow.Proofs.Flow.Balance
import MinCostFlow.Proofs.Flow.Duality
import MinCostFlow.Proofs.Flow.Marginal
import MinCostFlow.Proofs.Flow.Plan
import MinCostFlow.Proofs.Flow.Push
import MinCostFlow.Proofs.Flow.Verdict
import MinCostFlow.Proofs.History.Pairing
import MinCostFlow.Proofs.History.Reset
import MinCostFlow.Proofs.History.Slots
import MinCostFlow.Proofs.Input.Columns
import MinCostFlow.Proofs.Input.Labels
import MinCostFlow.Proofs.Relaxation.Cycle
import MinCostFlow.Proofs.Relaxation.Detection
import MinCostFlow.Proofs.Relaxation.Distances
import MinCostFlow.Proofs.Relaxation.Rounds
import MinCostFlow.Proofs.Relaxation.Seed
import MinCostFlow.Proofs.Search.Certificate
import MinCostFlow.Proofs.Search.Cutoff
import MinCostFlow.Proofs.Search.Exact
import MinCostFlow.Proofs.Search.Finite
import MinCostFlow.Proofs.Search.Links
import MinCostFlow.Proofs.Search.Prices
import MinCostFlow.Proofs.Search.Route
import MinCostFlow.Proofs.Search.Step
import MinCostFlow.Proofs.Search.Termination
import MinCostFlow.Proofs.Solve.Again
import MinCostFlow.Proofs.Solve.Capped
import MinCostFlow.Proofs.Solve.Conservation
import MinCostFlow.Proofs.Solve.CostCurve
import MinCostFlow.Proofs.Solve.Course
import MinCostFlow.Proofs.Solve.FairPrices
import MinCostFlow.Proofs.Solve.FirstUnits
import MinCostFlow.Proofs.Solve.Horizon
import MinCostFlow.Proofs.Solve.Journal
import MinCostFlow.Proofs.Solve.Ledger
import MinCostFlow.Proofs.Solve.NegativeCycle
import MinCostFlow.Proofs.Solve.Optimum
import MinCostFlow.Proofs.Solve.Outcome
import MinCostFlow.Proofs.Solve.Seeded
import MinCostFlow.Proofs.Solve.Verified
import MinCostFlow.Proofs.Walk.Cost
import MinCostFlow.Release
import MinCostFlow.Sample.Grid
import MinCostFlow.Sample.Labels
import MinCostFlow.Sample.Networks
