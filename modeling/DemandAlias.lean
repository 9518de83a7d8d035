import DemandAlias.Json.Printer
import DemandAlias.Analysis.Trace
import DemandAlias.Main
import DemandAlias.Proofs.Automaton.Learning
import DemandAlias.Proofs.Pruning
import DemandAlias.Proofs.Schedule.Limits
import DemandAlias.Proofs.Schedule.Checking
import DemandAlias.Proofs.Exclusion
import DemandAlias.Proofs.Context.Mirroring
import DemandAlias.Proofs.Description.RoundTrip
import DemandAlias.Proofs.Merging
import DemandAlias.Proofs.Automaton.Settling
import DemandAlias.Proofs.Trail.Distribution
import DemandAlias.Proofs.Traversals
import DemandAlias.Proofs.Search.Carrying
import DemandAlias.Proofs.ShortPaths
