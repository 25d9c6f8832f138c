import Mugglec.Crypt.InternalAes

/-!
# Crypt/OpensslAes — the optimised AES path

`openssl_aes.c`: the state is two `uint64_t`, byte by byte as in memory, and the steps of the cipher
are **word operations that work in all the lanes at once**.  The S-box is computed, not looked up:
the byte is carried over into `GF(((2²)²)²)`, inverted there, and carried back.
-/

namespace Mugglec

open ByteLanes

section Lanes

variable {w : ℕ}

def opensslXtime (a : BitVec w) : BitVec w :=
  let b := a &&& repByte w 0x80
  let a := a ^^^ b
  let b := b - (b >>> 7)
  let b := b &&& repByte w 0x1B
  b ^^^ (a <<< 1)

def opensslRot (k : ℕ) (y : BitVec w) : BitVec w :=
  ((y &&& repByte w (0xFF <<< k)) >>> k) ||| ((y &&& repByte w (0xFF >>> (8 - k))) <<< (8 - k))

def opensslSwap2 (x : BitVec w) : BitVec w :=
  ((x &&& repByte w 0xCC) >>> 2) ||| ((x &&& repByte w 0x33) <<< 2)

def opensslMul2 (m : Byte) (x a : BitVec w) : BitVec w :=
  let a3 := x &&& a
  let a3 := a3 ^^^ ((a3 &&& repByte w m) >>> 1)
  a3 ^^^ ((((x <<< 1) &&& a) ^^^ ((a <<< 1) &&& x)) &&& repByte w m)

def opensslTwice (m : Byte) (a5 : BitVec w) : BitVec w :=
  let a4 := a5 &&& repByte w m
  let a4 := a4 ||| (a4 >>> 1)
  a4 ^^^ ((a5 <<< 1) &&& repByte w m)

def opensslMul4 (x a : BitVec w) : BitVec w :=
  let a2 := opensslSwap2 x
  let a3 := opensslMul2 0xAA x a
  let a4 := opensslMul2 0xAA a2 a
  let a5 := (a3 &&& repByte w 0xCC) >>> 2
  let a3 := a3 ^^^ (((a4 <<< 2) ^^^ a4) &&& repByte w 0xCC)
  let a4 := opensslTwice 0x22 a5
  a3 ^^^ a4

def opensslNorm (a3 : BitVec w) : BitVec w :=
  let a5 := opensslTwice 0xA0 a3
  let a4 := a5 &&& repByte w 0xC0
  let a6 := a4 >>> 2
  let a4 := a4 ^^^ ((a5 <<< 2) &&& repByte w 0xC0)
  let a5 := opensslTwice 0x20 a6
  let a4 := a4 ||| a5
  let a3 := a3 ^^^ (a4 >>> 4)
  a3 &&& repByte w 0x0F

def opensslInv4 (a3 : BitVec w) : BitVec w :=
  let a2 := a3 ^^^ ((a3 &&& repByte w 0x0C) >>> 2)
  let a4 := opensslMul2 0x0A a3 a2
  let a5 := opensslTwice 0x08 a4
  let a4 := a4 ^^^ (a5 >>> 2)
  let a4 := a4 &&& repByte w 0x03
  let a4 := a4 ^^^ ((a4 &&& repByte w 0x02) >>> 1)
  let a4 := a4 ||| (a4 <<< 2)
  let a3 := opensslMul2 0x0A a2 a4
  a3 ||| (a3 <<< 4)

def opensslInv8 (x : BitVec w) : BitVec w :=
  let a1 := x ^^^ ((x &&& repByte w 0xF0) >>> 4)
  let a3 := opensslMul4 x a1
  let a3 := opensslNorm a3
  let a3 := opensslInv4 a3
  opensslMul4 a1 a3

def opensslDiagonals (x : BitVec w) : BitVec w → List (ℕ × Byte) → BitVec w
  | _, [] => x
  | y, (k, c) :: rest =>
    opensslDiagonals (x ^^^ (opensslRot k y &&& repByte w c)) (opensslRot k y) rest

def opensslSub (x : BitVec w) : BitVec w :=
  let x := opensslDiagonals (x &&& repByte w 0xDD) x
    [(1, 0x57), (1, 0x1C), (1, 0x4A), (1, 0x42), (1, 0x64), (1, 0xE0)]
  let x := opensslInv8 x
  let x := opensslDiagonals (x &&& repByte w 0x39) x
    [(1, 0x3F), (2, 0x97), (1, 0x9B), (1, 0x3C), (1, 0xDD), (1, 0x72)]
  x ^^^ repByte w 0x63

def opensslInvSub (x : BitVec w) : BitVec w :=
  let x := x ^^^ repByte w 0x63
  let x := opensslDiagonals (x &&& repByte w 0xFD) x
    [(1, 0x5E), (1, 0xF3), (1, 0xF5), (1, 0x78), (1, 0x77), (1, 0x15), (1, 0xA5)]
  let x := opensslInv8 x
  opensslDiagonals (x &&& repByte w 0xB5) x
    [(1, 0x40), (1, 0x80), (1, 0x16), (1, 0xEB), (1, 0x97), (1, 0xFB), (1, 0x7D)]

end Lanes

def pairWords (lo hi : BitVec 64) : BitVec 128 := hi ++ lo

def loWord (state : BitVec 128) : BitVec 64 := state.extractLsb' 0 64

def hiWord (state : BitVec 128) : BitVec 64 := state.extractLsb' 64 64

def onWords (f : BitVec 64 → BitVec 64) (state : BitVec 128) : BitVec 128 :=
  pairWords (f (loWord state)) (f (hiWord state))

def opensslShiftRow (state : BitVec 128) : BitVec 128 :=
  ofBytes 128 ((List.range 16).map fun i => lane state ((i % 4 + i / 4) % 4 * 4 + i % 4))

def opensslInvShiftRow (state : BitVec 128) : BitVec 128 :=
  ofBytes 128 ((List.range 16).map fun i => lane state ((4 + i / 4 - i % 4) % 4 * 4 + i % 4))

def opensslSwap16 (d : BitVec 64) : BitVec 64 :=
  ((d &&& 0xFFFF0000FFFF0000) >>> 16) ||| ((d &&& 0x0000FFFF0000FFFF) <<< 16)

def opensslSwap8 (d : BitVec 64) : BitVec 64 :=
  ((d &&& 0xFF00FF00FF00FF00) >>> 8) ||| ((d &&& 0x00FF00FF00FF00FF) <<< 8)

def opensslNextByte (d : BitVec 64) : BitVec 64 :=
  ofBytes 64 [lane d 1, lane d 2, lane d 3, lane d 0, lane d 5, lane d 6, lane d 7, lane d 4]

def opensslMixWord (d : BitVec 64) : BitVec 64 × BitVec 64 :=
  let s1 := d
  let s := s1
  let s := s ^^^ opensslSwap16 s
  let s := s ^^^ opensslSwap8 s
  let s := s ^^^ s1
  let s1 := opensslXtime s1
  let s := s ^^^ s1
  let s := s ^^^ opensslNextByte s1
  (s, s1)

def opensslInvMixWord (d : BitVec 64) : BitVec 64 :=
  let (s, s1) := opensslMixWord d
  let s1 := opensslXtime s1
  let s1 := s1 ^^^ opensslSwap16 s1
  let s := s ^^^ s1
  let s1 := opensslXtime s1
  let s1 := s1 ^^^ opensslSwap8 s1
  s ^^^ s1

def opensslMixColumns : BitVec 128 → BitVec 128 := onWords fun d => (opensslMixWord d).1

def opensslInvMixColumns : BitVec 128 → BitVec 128 := onWords opensslInvMixWord

def opensslAddRoundKey (state : BitVec 128) (w : ℕ → BitVec 64) : BitVec 128 :=
  pairWords (loWord state ^^^ w 0) (hiWord state ^^^ w 1)

def opensslRound (w : ℕ → BitVec 64) (state : BitVec 128) (i : ℕ) : BitVec 128 :=
  opensslAddRoundKey (opensslMixColumns (opensslShiftRow (onWords opensslSub state)))
    fun j => w (i * 2 + j)

def opensslCipher (input : BitVec 128) (w : ℕ → BitVec 64) (nr : ℕ) : BitVec 128 :=
  let state := opensslAddRoundKey input w
  let state := (List.range' 1 (nr - 1)).foldl (opensslRound w) state
  opensslAddRoundKey (opensslShiftRow (onWords opensslSub state)) fun j => w (nr * 2 + j)

def opensslInvRound (w : ℕ → BitVec 64) (state : BitVec 128) (i : ℕ) : BitVec 128 :=
  opensslInvMixColumns (opensslAddRoundKey (onWords opensslInvSub (opensslInvShiftRow state))
    fun j => w (i * 2 + j))

def opensslInvCipher (input : BitVec 128) (w : ℕ → BitVec 64) (nr : ℕ) : BitVec 128 :=
  let state := opensslAddRoundKey input fun j => w (nr * 2 + j)
  let state := (List.range' 1 (nr - 1)).reverse.foldl (opensslInvRound w) state
  opensslAddRoundKey (onWords opensslInvSub (opensslInvShiftRow state)) w

def opensslRotWord (x : BitVec 32) : BitVec 32 :=
  ofBytes 32 [lane x 1, lane x 2, lane x 3, lane x 0]

structure OpensslKeyState where
  w : List (BitVec 64)
  prev : BitVec 64
  rcon : BitVec 32

def opensslKeyStep (nk n : ℕ) (s : OpensslKeyState) (i : ℕ) : OpensslKeyState :=
  let temp := s.prev.extractLsb' 32 32
  let (temp, rcon) :=
    if i % n = 0 then (opensslSub (opensslRotWord temp) ^^^ s.rcon, opensslXtime s.rcon)
    else if nk > 6 ∧ i % n = 2 then (opensslSub temp, s.rcon)
    else (temp, s.rcon)
  let prev := s.w.getD (i - n) 0
  let w0 := prev.extractLsb' 0 32 ^^^ temp
  let w1 := prev.extractLsb' 32 32 ^^^ w0
  let prev := w1 ++ w0
  ⟨s.w ++ [prev], prev, rcon⟩

def opensslKeyExpansion (key : List Byte) (nr nk : ℕ) : List (BitVec 64) :=
  let n := nk / 2
  let w := inputBlocks 64 8 n key
  let s : OpensslKeyState := ⟨w, w.getD (n - 1) 0, 1⟩
  ((List.range' n ((nr + 1) * 2 - n)).foldl (opensslKeyStep nk n) s).w

def opensslAesSetKey (key : List Byte) (bits : ℤ) : Except Err AesSubkeys := do
  let rounds ←
    if bits = 128 then .ok 10
    else if bits = 192 then .ok 12
    else if bits = 256 then .ok 14
    else .error .cryptKeySize
  let w := opensslKeyExpansion key rounds (bits / 32).toNat
  .ok ⟨w.flatMap fun d => [d.extractLsb' 0 32, d.extractLsb' 32 32], rounds⟩

def AesSubkeys.rk (sk : AesSubkeys) (i : ℕ) : BitVec 64 := sk.word (2 * i + 1) ++ sk.word (2 * i)

def opensslAesEncrypt (input : BitVec 128) (sk : AesSubkeys) : BitVec 128 :=
  opensslCipher input sk.rk sk.rounds

def opensslAesDecrypt (input : BitVec 128) (sk : AesSubkeys) : BitVec 128 :=
  opensslInvCipher input sk.rk sk.rounds

end Mugglec
