import Catse.Lib.BlockHash
import Catse.Lib.Words

/-!
# SHA-1

The Secure Hash Standard of FIPS PUB 180-1: a hash function over blocks of 64 bytes, whose state is
five words. The number of bits of the message stands in network order in the last eight bytes of the
padding.
-/

namespace Catse.Fips180

/-- The buffers `H0`, ..., `H4`, and `A`, ..., `E`. -/
structure Words5 where
  a : UInt32
  b : UInt32
  c : UInt32
  d : UInt32
  e : UInt32
  deriving DecidableEq

/-- The function of step `t`. -/
def f (t : ℕ) (b c d : UInt32) : UInt32 :=
  if t < 20 then (b &&& c) ||| (~~~b &&& d)
  else if t < 40 then b ^^^ c ^^^ d
  else if t < 60 then (b &&& c) ||| (b &&& d) ||| (c &&& d)
  else b ^^^ c ^^^ d

/-- The constant of step `t`. -/
def k (t : ℕ) : UInt32 :=
  if t < 20 then 0x5A827999
  else if t < 40 then 0x6ED9EBA1
  else if t < 60 then 0x8F1BBCDC
  else 0xCA62C1D6

/-- The word `W(t)` of a block. -/
def w (block : List UInt8) (t : ℕ) : UInt32 :=
  if t < 16 then wordBE ((block.drop (4 * t)).take 4)
  else rotl 1 (w block (t - 3) ^^^ w block (t - 8) ^^^ w block (t - 14) ^^^ w block (t - 16))
termination_by t

/-- Step `t`. -/
def step (block : List UInt8) (r : Words5) (t : ℕ) : Words5 where
  a := rotl 5 r.a + f t r.b r.c r.d + r.e + w block t + k t
  b := r.a
  c := rotl 30 r.b
  d := r.c
  e := r.d

/-- Word by word. -/
def add (h r : Words5) : Words5 := ⟨h.a + r.a, h.b + r.b, h.c + r.c, h.d + r.d, h.e + r.e⟩

/-- What a block does to the buffers. -/
def compress (h : Words5) (block : List UInt8) : Words5 :=
  add h ((List.range 80).foldl (step block) h)

/-- The buffers at the start. -/
def iv : Words5 := ⟨0x67452301, 0xEFCDAB89, 0x98BADCFE, 0x10325476, 0xC3D2E1F0⟩

/-- The message digest. The standard has it for messages of less than `2^64` bits. -/
def sha1 (m : List UInt8) : Words5 := BlockHash.digest compress 64 (beBytes 8) iv m

end Catse.Fips180
