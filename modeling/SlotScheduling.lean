import SlotScheduling.Graph.Listing
import SlotScheduling.Region
import SlotScheduling.Proofs.Difference.Relaxation
import SlotScheduling.Proofs.Difference.LongestPaths
import SlotScheduling.Proofs.Difference.Rounding
import SlotScheduling.Proofs.Difference.Solutions
import SlotScheduling.Proofs.Difference.Requests
import SlotScheduling.Proofs.Difference.Extremes
import SlotScheduling.Proofs.Difference.Latest
import SlotScheduling.Proofs.Graph.Changes
import SlotScheduling.Proofs.Steps
import SlotScheduling.Proofs.Journals
import SlotScheduling.Proofs.Messages
import SlotScheduling.Proofs.Reports
import SlotScheduling.Proofs.Tables
import SlotScheduling.Proofs.Graph.WellFormed
import SlotScheduling.Proofs.Graph.Blocks
import SlotScheduling.Proofs.Placement.Variables
import SlotScheduling.Proofs.Placement.LookThrough
import SlotScheduling.Proofs.Placement.ControlSystem
import SlotScheduling.Proofs.Placement.Placed
import SlotScheduling.Proofs.Graph.Resets
import SlotScheduling.Proofs.Placement.ControlPath
import SlotScheduling.Proofs.Graph.Dangling
import SlotScheduling.Proofs.Placement.DataSystem
import SlotScheduling.Proofs.Placement.DataPath
import SlotScheduling.Proofs.Pipeline.Skeletons
import SlotScheduling.Proofs.Placement.Dependencies
import SlotScheduling.Proofs.StraightLine
import SlotScheduling.Proofs.Graph.Delays
import SlotScheduling.Proofs.Pipeline.Found
import SlotScheduling.Proofs.Pipelined
import SlotScheduling.Proofs.Legality
import SlotScheduling.Proofs.FunctionUnits
import SlotScheduling.Proofs.Graph.Edges
import SlotScheduling.Proofs.Placement.Reanchored
import SlotScheduling.Proofs.Placement.Arranged
import SlotScheduling.Proofs.Placement.DataFitting
import SlotScheduling.Proofs.Graph.Growth
import SlotScheduling.Proofs.Graph.Created
import SlotScheduling.Proofs.Graph.Lowered
import SlotScheduling.Proofs.Graph.Closed
import SlotScheduling.Proofs.Graph.Built
import SlotScheduling.Proofs.Freezing.Frozen
import SlotScheduling.Proofs.Freezing.Absorbed
import SlotScheduling.Proofs.Freezing.Merged
import SlotScheduling.Proofs.Placement.Kept
import SlotScheduling.Proofs.Placement.Classes
import SlotScheduling.Proofs.Region.Settled
import SlotScheduling.Proofs.Region.Alone
import SlotScheduling.Proofs.Region.Grown
import SlotScheduling.Proofs.Region.Embedded
import SlotScheduling.Proofs.Region.Assembled
import SlotScheduling.Proofs.Region.FrozenLoops
import SlotScheduling.Proofs.Region.Legality
import SlotScheduling.Proofs.ControlPath
import SlotScheduling.Proofs.Graph.Coherent
import SlotScheduling.Proofs.Freezing.Coherent
import SlotScheduling.Proofs.Reachable
import SlotScheduling.Proofs.DataPath
import SlotScheduling.Proofs.Paths
import SlotScheduling.Proofs.Pipeline.Recurrence
import SlotScheduling.Proofs.Pipeline.MinInterval
import SlotScheduling.Proofs.Pipeline.Components
import SlotScheduling.Proofs.Pipeline.IntervalBounds
import SlotScheduling.Proofs.Difference.Potentials
import SlotScheduling.Proofs.Graph.Tidy
import SlotScheduling.Proofs.Placement.Spanned
import SlotScheduling.Proofs.Placement.Admitted
import SlotScheduling.Proofs.Placement.Chains
import SlotScheduling.Proofs.Pipeline.Restarts
import SlotScheduling.Proofs.Pipeline.Fitting
import SlotScheduling.Proofs.Pipeline.Climbs
import SlotScheduling.Proofs.Pipeline.Feasible
import SlotScheduling.Proofs.Pipeline.Shared
import SlotScheduling.Proofs.Pipeline.Attempts
import SlotScheduling.Proofs.Pipeline.Started
import SlotScheduling.Proofs.Pipeline.Finding
import SlotScheduling.Proofs.Pipelinable
import SlotScheduling.Proofs.Graph.Entered
import SlotScheduling.Proofs.Region.Chained
import SlotScheduling.Proofs.Region.BlockStarts
import SlotScheduling.Proofs.Region.FunctionUnits
import SlotScheduling.Proofs.BlockEnds
import SlotScheduling.Proofs.Failures
import SlotScheduling.Proofs.Pipeline.Rested
import SlotScheduling.Proofs.Pipeline.Fallback
import SlotScheduling.Proofs.Totality
import SlotScheduling.Proofs.Reruns
import SlotScheduling.Proofs.Graph.ControlSide
import SlotScheduling.Proofs.Graph.Needed
import SlotScheduling.Proofs.Graph.Verified
import SlotScheduling.Proofs.Placement.ControlSide
import SlotScheduling.Proofs.Placement.Unclassed
import SlotScheduling.Proofs.Pipeline.Parallel
import SlotScheduling.Proofs.Pipeline.ControlSide
import SlotScheduling.Proofs.Rescheduling
import SlotScheduling.Proofs.Intervals
import SlotScheduling.Proofs.Graph.Forward
import SlotScheduling.Proofs.Acyclic.Assignments
import SlotScheduling.Proofs.Acyclic.Settled
import SlotScheduling.Proofs.Acyclic.Rounds
import SlotScheduling.Proofs.Earliest
import SlotScheduling.Proofs.Pipeline.CycleRatios
import SlotScheduling.Proofs.Freezing.Ties
import SlotScheduling.Proofs.Freezing.Relative
import SlotScheduling.Proofs.Freezing.Refused
import SlotScheduling.Proofs.Placement.Overflows
import SlotScheduling.Proofs.Pipeline.Outcomes
import SlotScheduling.Proofs.Graph.Checks
import SlotScheduling.Proofs.Graph.Knit
import SlotScheduling.Proofs.Graph.Sound
import SlotScheduling.Proofs.Freezing.Knit
import SlotScheduling.Proofs.Region.Sequences
import SlotScheduling.Proofs.Placement.Anchored
import SlotScheduling.Proofs.Dangling
import SlotScheduling.Proofs.Lookups
import SlotScheduling.Proofs.Pipeline.Interrupted
import SlotScheduling.Proofs.Graph.Exits
import SlotScheduling.Proofs.FinalResults
import SlotScheduling.Proofs.Graph.Ordered
import SlotScheduling.Proofs.Graph.Buildable
import SlotScheduling.Proofs.Bundles
import SlotScheduling.Proofs.OptionStrings
import SlotScheduling.Proofs.Pipeline.Budget
import SlotScheduling.Proofs.Ensured
import SlotScheduling.Proofs.Graph.Faultless
import SlotScheduling.Proofs.Graph.Loads
import SlotScheduling.Proofs.Placement.Relayed
import SlotScheduling.Proofs.Placement.Squeezed
import SlotScheduling.Proofs.Placement.Compressed
import SlotScheduling.Proofs.Placement.Sized
import SlotScheduling.Proofs.Placement.Timed
import SlotScheduling.Proofs.Pipeline.Bounded
import SlotScheduling.Proofs.InTime
import SlotScheduling.Proofs.Placement.Spacious
import SlotScheduling.Proofs.Placement.Surrounded
import SlotScheduling.Proofs.Arithmetic
import SlotScheduling.Proofs.Placement.Fitted
import SlotScheduling.Proofs.Placement.Seated
import SlotScheduling.Proofs.Schedulable
import SlotScheduling.Proofs.Pipeline.Spaced
import SlotScheduling.Proofs.SchedulableLoops
import SlotScheduling.Proofs.Region.Singletons
