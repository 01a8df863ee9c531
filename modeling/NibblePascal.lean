import NibblePascal.Main
import NibblePascal.Proofs.Compilation.Decided
import NibblePascal.Proofs.Compilation.Diagnosed
import NibblePascal.Proofs.Compilation.Evaluated
import NibblePascal.Proofs.Compilation.Limits
import NibblePascal.Proofs.Compilation.Reloads
import NibblePascal.Proofs.Compilation.Temporaries
import NibblePascal.Proofs.Generation.Dispatch
import NibblePascal.Proofs.Generation.Identity
import NibblePascal.Proofs.Generation.Inline
import NibblePascal.Proofs.Simulation.Arithmetic
import NibblePascal.Proofs.Simulation.Array
import NibblePascal.Proofs.Simulation.DeadStores
import NibblePascal.Proofs.Simulation.Redundant
import NibblePascal.Proofs.Simulation.Relation
import NibblePascal.Proofs.Source.LeftOpen
import NibblePascal.Proofs.Storage.Blocks
import NibblePascal.Proofs.Storage.Exclusive
import NibblePascal.Proofs.Token.Spacing
