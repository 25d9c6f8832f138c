import Mugglec.Crypt.Des

/-!
# Crypt/DesDepartures — where the plain DES path leaves its own tables

The comments of `internal_des.c` give the tables of the standard.  The code below them departs from
these in four places, each of which can be put right without touching the others.
-/

namespace Mugglec

open ByteLanes

structure DesDepartures where
  bitOrder : Bool
  keyTurn : Bool
  pc2Move : Bool
  sboxOrder : Bool
  deriving DecidableEq, Repr

def DesDepartures.none : DesDepartures := ⟨false, false, false, false⟩

section

variable (dep : DesDepartures)

end

def desBlock (optimised : Bool) (op : CryptOp) (key block : BitVec 64) : BitVec 64 :=
  desCrypt optimised (desSetKeyInner optimised op key) block

end Mugglec
