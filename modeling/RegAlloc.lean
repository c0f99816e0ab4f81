import RegAlloc.Edit
import RegAlloc.Example.Build
import RegAlloc.Example.Reader
import RegAlloc.Example.Writer
import RegAlloc.Interval.Bench
import RegAlloc.Report
import RegAlloc.Session
import RegAlloc.Proofs.Sweep.Registers
import RegAlloc.Proofs.Allocation.Preservation
import RegAlloc.Proofs.Allocation.Operands
import RegAlloc.Proofs.Allocation.Freshness
import RegAlloc.Proofs.Order.Finishing
import RegAlloc.Proofs.Order.Correct
import RegAlloc.Proofs.Order.Numbering
import RegAlloc.Proofs.Liveness.Exact
import RegAlloc.Proofs.Liveness.Entry
import RegAlloc.Proofs.Allocation.Borders
import RegAlloc.Proofs.Allocation.Homes
import RegAlloc.Proofs.Sweep.Room
import RegAlloc.Proofs.Sweep.Demand
import RegAlloc.Proofs.Renaming.Pools
import RegAlloc.Proofs.Graph.Commands
import RegAlloc.Proofs.Classes.Alike
import RegAlloc.Proofs.Classes.Separation
import RegAlloc.Proofs.Classes.Housing
import RegAlloc.Proofs.Sweep.Ending
import RegAlloc.Proofs.Move.Emitted
import RegAlloc.Proofs.Sweep.Pressure
import RegAlloc.Proofs.Allocation.Missing
import RegAlloc.Proofs.Order.Refusals
import RegAlloc.Proofs.Order.Least
import RegAlloc.Proofs.Liveness.Kills
import RegAlloc.Proofs.Liveness.Shape
import RegAlloc.Proofs.Interval.Canonical
import RegAlloc.Proofs.Interval.Cuts
import RegAlloc.Proofs.Allocation.Placement
import RegAlloc.Proofs.Allocation.Printed
import RegAlloc.Proofs.Allocation.Overlaps
import RegAlloc.Proofs.Move.Cycles
import RegAlloc.Proofs.Example.Spelling
import RegAlloc.Proofs.Example.Mirror
import RegAlloc.Proofs.Sweep.Line
import RegAlloc.Proofs.Sweep.Victim
import RegAlloc.Proofs.Order.Emission
import RegAlloc.Proofs.Liveness.Separate
import RegAlloc.Proofs.Liveness.Pass
import RegAlloc.Proofs.Liveness.Grouping
import RegAlloc.Proofs.Liveness.Agreement
import RegAlloc.Proofs.Sweep.FreeSet
