import NibblePascal.Proofs.Compilation.Computed
import NibblePascal.Proofs.Compilation.Framed
import NibblePascal.Proofs.Simulation.ZeroDivisor

/-!
# The code of expressions by itself

An expression may be read and generated wherever one begins in a program.  The code behind that
place computes its value, whatever the machine holds when it comes there.
-/

namespace NibblePascal

variable {files : Files} {o : Options} {name text : String} {p : Program} {g g' : Generator}

end NibblePascal
