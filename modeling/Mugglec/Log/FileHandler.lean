import Mugglec.Base.Utils
import Mugglec.Machinery.CText

/-!
# Log/FileHandler — what the handlers that write to files have in common

A handler's `write` formats the message into an array, appends the array to the open file and may
then go over to another file.  The files are a store by name, and an open stream is the name of its
file.
-/

namespace Mugglec

/-- `MUGGLE_MAX_PATH`, where it is not Windows -/
def MAX_PATH : ℕ := 1024

structure Formatted where
  ret : ℤ
  buf : List UInt8
deriving DecidableEq, Repr

def Formatted.fwrite (f : Formatted) (accepted : ℕ) : Option (List UInt8) :=
  if f.ret ≤ f.buf.length then some ((f.buf.take f.ret.toNat).take accepted) else none

structure LogWrite where
  fmt : Option Formatted
  accepted : ℕ
  opens : Bool
deriving DecidableEq, Repr

def openAppend (files : List Char → Option (List UInt8)) (path : List Char) :
    List Char → Option (List UInt8) :=
  Function.update files path (some ((files path).getD []))

def appendBytes (files : List Char → Option (List UInt8)) (path : List Char) (bytes : List UInt8) :
    List Char → Option (List UInt8) :=
  Function.update files path (some ((files path).getD [] ++ bytes))

end Mugglec
