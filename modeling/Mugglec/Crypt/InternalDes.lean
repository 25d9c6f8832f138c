import Mugglec.Crypt.CryptUtils
import Mugglec.Machinery.Transducer

/-!
# Crypt/InternalDes — the plain DES path

`internal_des.c`: every permutation **moves bit by bit**, `MUGGLE_MOVE_BIT(in, from, to)`, with bit
`0` the lowest.  The tables in the comments of the source number the bits from `1`.
-/

namespace Mugglec

open ByteLanes

def moveBit {w : ℕ} (x : BitVec w) (src dst : ℕ) : BitVec w := ((x >>> src) &&& 1) <<< dst

def moveBits {w : ℕ} (x : BitVec w) (moves : List (ℕ × ℕ)) : BitVec w :=
  moves.foldr (fun m y => moveBit x m.1 m.2 ||| y) 0

def loHalf (x : BitVec 64) : BitVec 32 := x.extractLsb' 0 32

def hiHalf (x : BitVec 64) : BitVec 32 := x.extractLsb' 32 32

def halves (l h : BitVec 32) : BitVec 64 := h ++ l

def desSboxTable : List (List Byte) :=
  [[14, 4, 13, 1, 2, 15, 11, 8, 3, 10, 6, 12, 5, 9, 0, 7,
    0, 15, 7, 4, 14, 2, 13, 1, 10, 6, 12, 11, 9, 5, 3, 8,
    4, 1, 14, 8, 13, 6, 2, 11, 15, 12, 9, 7, 3, 10, 5, 0,
    15, 12, 8, 2, 4, 9, 1, 7, 5, 11, 3, 14, 10, 0, 6, 13],
   [15, 1, 8, 14, 6, 11, 3, 4, 9, 7, 2, 13, 12, 0, 5, 10,
    3, 13, 4, 7, 15, 2, 8, 14, 12, 0, 1, 10, 6, 9, 11, 5,
    0, 14, 7, 11, 10, 4, 13, 1, 5, 8, 12, 6, 9, 3, 2, 15,
    13, 8, 10, 1, 3, 15, 4, 2, 11, 6, 7, 12, 0, 5, 14, 9],
   [10, 0, 9, 14, 6, 3, 15, 5, 1, 13, 12, 7, 11, 4, 2, 8,
    13, 7, 0, 9, 3, 4, 6, 10, 2, 8, 5, 14, 12, 11, 15, 1,
    13, 6, 4, 9, 8, 15, 3, 0, 11, 1, 2, 12, 5, 10, 14, 7,
    1, 10, 13, 0, 6, 9, 8, 7, 4, 15, 14, 3, 11, 5, 2, 12],
   [7, 13, 14, 3, 0, 6, 9, 10, 1, 2, 8, 5, 11, 12, 4, 15,
    13, 8, 11, 5, 6, 15, 0, 3, 4, 7, 2, 12, 1, 10, 14, 9,
    10, 6, 9, 0, 12, 11, 7, 13, 15, 1, 3, 14, 5, 2, 8, 4,
    3, 15, 0, 6, 10, 1, 13, 8, 9, 4, 5, 11, 12, 7, 2, 14],
   [2, 12, 4, 1, 7, 10, 11, 6, 8, 5, 3, 15, 13, 0, 14, 9,
    14, 11, 2, 12, 4, 7, 13, 1, 5, 0, 15, 10, 3, 9, 8, 6,
    4, 2, 1, 11, 10, 13, 7, 8, 15, 9, 12, 5, 6, 3, 0, 14,
    11, 8, 12, 7, 1, 14, 2, 13, 6, 15, 0, 9, 10, 4, 5, 3],
   [12, 1, 10, 15, 9, 2, 6, 8, 0, 13, 3, 4, 14, 7, 5, 11,
    10, 15, 4, 2, 7, 12, 9, 5, 6, 1, 13, 14, 0, 11, 3, 8,
    9, 14, 15, 5, 2, 8, 12, 3, 7, 0, 4, 10, 1, 13, 11, 6,
    4, 3, 2, 12, 9, 5, 15, 10, 11, 14, 1, 7, 6, 0, 8, 13],
   [4, 11, 2, 14, 15, 0, 8, 13, 3, 12, 9, 7, 5, 10, 6, 1,
    13, 0, 11, 7, 4, 9, 1, 10, 14, 3, 5, 12, 2, 15, 8, 6,
    1, 4, 11, 13, 12, 3, 7, 14, 10, 15, 6, 8, 0, 5, 9, 2,
    6, 11, 13, 8, 1, 4, 10, 7, 9, 5, 0, 15, 14, 2, 3, 12],
   [13, 2, 8, 4, 6, 15, 11, 1, 10, 9, 3, 14, 5, 0, 12, 7,
    1, 15, 13, 8, 10, 3, 7, 4, 12, 5, 6, 11, 0, 14, 9, 2,
    7, 11, 4, 1, 9, 12, 14, 2, 0, 6, 10, 13, 15, 3, 5, 8,
    2, 1, 14, 7, 4, 10, 8, 13, 15, 12, 9, 0, 3, 5, 6, 11]]

def desIpL : List (ℕ × ℕ) :=
  [(57, 0), (49, 1), (41, 2), (33, 3), (25, 4), (17, 5), (9, 6), (1, 7),
  (59, 8), (51, 9), (43, 10), (35, 11), (27, 12), (19, 13), (11, 14), (3, 15),
  (61, 16), (53, 17), (45, 18), (37, 19), (29, 20), (21, 21), (13, 22), (5, 23),
  (63, 24), (55, 25), (47, 26), (39, 27), (31, 28), (23, 29), (15, 30), (7, 31)]

def desIpH : List (ℕ × ℕ) :=
  [(56, 0), (48, 1), (40, 2), (32, 3), (24, 4), (16, 5), (8, 6), (0, 7),
  (58, 8), (50, 9), (42, 10), (34, 11), (26, 12), (18, 13), (10, 14), (2, 15),
  (60, 16), (52, 17), (44, 18), (36, 19), (28, 20), (20, 21), (12, 22), (4, 23),
  (62, 24), (54, 25), (46, 26), (38, 27), (30, 28), (22, 29), (14, 30), (6, 31)]

def desFpL : List (ℕ × ℕ) :=
  [(39, 0), (7, 1), (47, 2), (15, 3), (55, 4), (23, 5), (63, 6), (31, 7),
  (38, 8), (6, 9), (46, 10), (14, 11), (54, 12), (22, 13), (62, 14), (30, 15),
  (37, 16), (5, 17), (45, 18), (13, 19), (53, 20), (21, 21), (61, 22), (29, 23),
  (36, 24), (4, 25), (44, 26), (12, 27), (52, 28), (20, 29), (60, 30), (28, 31)]

def desFpH : List (ℕ × ℕ) :=
  [(35, 0), (3, 1), (43, 2), (11, 3), (51, 4), (19, 5), (59, 6), (27, 7),
  (34, 8), (2, 9), (42, 10), (10, 11), (50, 12), (18, 13), (58, 14), (26, 15),
  (33, 16), (1, 17), (41, 18), (9, 19), (49, 20), (17, 21), (57, 22), (25, 23),
  (32, 24), (0, 25), (40, 26), (8, 27), (48, 28), (16, 29), (56, 30), (24, 31)]

def desIp (block : BitVec 64) : BitVec 64 :=
  halves ((moveBits block desIpL).setWidth 32) ((moveBits block desIpH).setWidth 32)

def desFp (block : BitVec 64) : BitVec 64 :=
  halves ((moveBits block desFpL).setWidth 32) ((moveBits block desFpH).setWidth 32)

def desExpand (u32 : BitVec 32) : List Byte :=
  [(((u32 >>> 31) &&& 0x01) ||| (u32 <<< 1)).setWidth 8, (u32 >>> 3).setWidth 8,
   (u32 >>> 7).setWidth 8, (u32 >>> 11).setWidth 8, (u32 >>> 15).setWidth 8,
   (u32 >>> 19).setWidth 8, (u32 >>> 23).setWidth 8,
   (((u32 >>> 27) &&& 0x1f) ||| (u32 <<< 5)).setWidth 8]

def desSboxIdx (b : Byte) : ℕ :=
  (((b &&& 0x20) ||| ((b &&& 0x01) <<< 4)) ||| ((b >>> 1) &&& 0x0f)).toNat

def desSboxAt (i : ℕ) (b : Byte) : Byte := (desSboxTable.getD i []).getD (desSboxIdx b) 0

def desPMoves : List (ℕ × ℕ) :=
  [(15, 0), (6, 1), (19, 2), (20, 3), (28, 4), (11, 5), (27, 6), (16, 7),
  (0, 8), (14, 9), (22, 10), (25, 11), (4, 12), (17, 13), (30, 14), (9, 15),
  (1, 16), (7, 17), (23, 18), (13, 19), (31, 20), (26, 21), (2, 22), (8, 23),
  (18, 24), (12, 25), (29, 26), (5, 27), (21, 28), (10, 29), (3, 30), (24, 31)]

def desP (u32 : BitVec 32) : BitVec 32 := moveBits u32 desPMoves

def desNibbles (lo hi : Byte) : Byte := (lo &&& 0x0f) ||| ((hi <<< 4) &&& 0xf0)

def desF (u32 : BitVec 32) (sk : BitVec 64) : BitVec 32 :=
  let p := desExpand u32
  let s := fun i => desSboxAt i (p.getD i 0 ^^^ lane sk i)
  desP (ofBytes 32
    [desNibbles (s 0) (s 1), desNibbles (s 2) (s 3), desNibbles (s 4) (s 5),
      desNibbles (s 6) (s 7)])

def desPc1C : List (ℕ × ℕ) :=
  [(56, 0), (48, 1), (40, 2), (32, 3), (24, 4), (16, 5), (8, 6), (0, 7),
  (57, 8), (49, 9), (41, 10), (33, 11), (25, 12), (17, 13), (9, 14), (1, 15),
  (58, 16), (50, 17), (42, 18), (34, 19), (26, 20), (18, 21), (10, 22), (2, 23),
  (59, 24), (51, 25), (43, 26), (35, 27)]

def desPc1D : List (ℕ × ℕ) :=
  [(62, 0), (54, 1), (46, 2), (38, 3), (30, 4), (22, 5), (14, 6), (6, 7),
  (61, 8), (53, 9), (45, 10), (37, 11), (29, 12), (21, 13), (13, 14), (5, 15),
  (60, 16), (52, 17), (44, 18), (36, 19), (28, 20), (20, 21), (12, 22), (4, 23),
  (27, 24), (19, 25), (11, 26), (3, 27)]

def desPc1 (key : BitVec 64) : BitVec 32 × BitVec 32 :=
  ((moveBits key desPc1C).setWidth 32, (moveBits key desPc1D).setWidth 32)

def desPc2 (c d : BitVec 32) : BitVec 64 :=
  ofBytes 64 ([
     moveBits c [(13, 0), (16, 1), (10, 2), (23, 3), (0, 4), (4, 5)],
     moveBits c [(2, 0), (27, 1), (14, 2), (5, 3), (20, 4), (9, 5)],
     moveBits c [(22, 0), (18, 1), (11, 2), (3, 3), (25, 4), (7, 5)],
     moveBits c [(15, 0), (6, 1), (26, 2), (19, 3), (12, 4), (1, 5)],
     moveBits d [(12, 0), (23, 1), (2, 2), (8, 3), (18, 4), (26, 4)],
     moveBits d [(1, 0), (11, 1), (22, 2), (16, 3), (4, 4), (19, 4)],
     moveBits d [(15, 0), (20, 1), (10, 2), (27, 3), (5, 4), (24, 4)],
     moveBits d [(17, 0), (13, 1), (21, 2), (7, 3), (0, 4), (3, 4)]].map (BitVec.setWidth 8))

def desKeyShift (x : BitVec 32) (shift : ℕ) (mask : BitVec 32) : BitVec 32 :=
  (x <<< shift) ||| ((x >>> (28 - shift)) &&& mask)

def desKeyRounds : List (ℕ × BitVec 32) :=
  [(1, 0x01), (1, 0x01), (2, 0x03), (2, 0x03), (2, 0x03), (2, 0x03), (2, 0x03), (2, 0x03),
   (1, 0x01), (2, 0x03), (2, 0x03), (2, 0x03), (2, 0x03), (2, 0x03), (2, 0x03), (1, 0x01)]

def desKeyStep (cd : BitVec 32 × BitVec 32) (r : ℕ × BitVec 32) :
    (BitVec 32 × BitVec 32) × BitVec 64 :=
  let c := desKeyShift cd.1 r.1 r.2
  let d := desKeyShift cd.2 r.1 r.2
  ((c, d), desPc2 c d)

def desPlainSubkeys (op : CryptOp) (key : BitVec 64) : List (BitVec 64) :=
  let sk := (Transducer.run desKeyStep (desPc1 key) desKeyRounds).2
  match op with
  | .decrypt => sk.reverse
  | .encrypt => sk

def desRound (lh : BitVec 32 × BitVec 32) (sk : BitVec 64) : BitVec 32 × BitVec 32 :=
  (lh.2, lh.1 ^^^ desF lh.2 sk)

def desFeistel (ks : List (BitVec 64)) (lh : BitVec 32 × BitVec 32) : BitVec 32 × BitVec 32 :=
  ks.foldl desRound lh

def desPlainCrypt (ks : List (BitVec 64)) (input : BitVec 64) : BitVec 64 :=
  let b64 := desIp input
  let lh := desFeistel ks (loHalf b64, hiHalf b64)
  desFp (halves lh.2 lh.1)

def tdesPlainCrypt (ks1 ks2 ks3 : List (BitVec 64)) (input : BitVec 64) : BitVec 64 :=
  let b64 := desIp input
  let lh := desFeistel ks3 (desFeistel ks2 (desFeistel ks1 (loHalf b64, hiHalf b64)))
  desFp (halves lh.2 lh.1)

end Mugglec
