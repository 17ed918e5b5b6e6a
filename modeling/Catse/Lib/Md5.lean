import Catse.Lib.BlockHash
import Catse.Lib.Words

/-!
# MD5

The algorithm of RFC 1321: a hash function over blocks of 64 bytes, whose state is four words. Words
lie in memory with the low-order byte first, and so does the number of bits of the message, of which
the low-order 64 bits stand at the end of the padding.
-/

namespace Catse.Rfc1321

/-- The buffer `A`, `B`, `C` and `D`. -/
structure Words4 where
  a : UInt32
  b : UInt32
  c : UInt32
  d : UInt32
  deriving DecidableEq

/-- The function of operation `i`, counted from zero. -/
def f (i : ℕ) (x y z : UInt32) : UInt32 :=
  if i < 16 then (x &&& y) ||| (~~~x &&& z)
  else if i < 32 then (x &&& z) ||| (y &&& ~~~z)
  else if i < 48 then x ^^^ y ^^^ z
  else y ^^^ (x ||| ~~~z)

/-- The word that operation `i` takes. -/
def k (i : ℕ) : ℕ :=
  if i < 16 then i
  else if i < 32 then (5 * i + 1) % 16
  else if i < 48 then (3 * i + 5) % 16
  else 7 * i % 16

/-- By how many bits operation `i` turns. -/
def s (i : ℕ) : ℕ :=
  if i < 16 then [7, 12, 17, 22].getD (i % 4) 0
  else if i < 32 then [5, 9, 14, 20].getD (i % 4) 0
  else if i < 48 then [4, 11, 16, 23].getD (i % 4) 0
  else [6, 10, 15, 21].getD (i % 4) 0

/-- The table `T`, of which element `i`, counted from one, is the integer part of
`4294967296 * abs(sin(i))`. -/
def table : List UInt32 :=
  [0xd76aa478, 0xe8c7b756, 0x242070db, 0xc1bdceee, 0xf57c0faf, 0x4787c62a, 0xa8304613, 0xfd469501,
    0x698098d8, 0x8b44f7af, 0xffff5bb1, 0x895cd7be, 0x6b901122, 0xfd987193, 0xa679438e, 0x49b40821,
    0xf61e2562, 0xc040b340, 0x265e5a51, 0xe9b6c7aa, 0xd62f105d, 0x02441453, 0xd8a1e681, 0xe7d3fbc8,
    0x21e1cde6, 0xc33707d6, 0xf4d50d87, 0x455a14ed, 0xa9e3e905, 0xfcefa3f8, 0x676f02d9, 0x8d2a4c8a,
    0xfffa3942, 0x8771f681, 0x6d9d6122, 0xfde5380c, 0xa4beea44, 0x4bdecfa9, 0xf6bb4b60, 0xbebfbc70,
    0x289b7ec6, 0xeaa127fa, 0xd4ef3085, 0x04881d05, 0xd9d4d039, 0xe6db99e5, 0x1fa27cf8, 0xc4ac5665,
    0xf4292244, 0x432aff97, 0xab9423a7, 0xfc93a039, 0x655b59c3, 0x8f0ccc92, 0xffeff47d, 0x85845dd1,
    0x6fa87e4f, 0xfe2ce6e0, 0xa3014314, 0x4e0811a1, 0xf7537e82, 0xbd3af235, 0x2ad7d2bb, 0xeb86d391]

/-- Element `i` of the table, counted from zero. -/
def t (i : ℕ) : UInt32 := table.getD i 0

/-- The word `X[k]` of a block. -/
def x (block : List UInt8) (k : ℕ) : UInt32 := wordLE ((block.drop (4 * k)).take 4)

/-- Operation `i`, after which the words change their names. -/
def step (block : List UInt8) (r : Words4) (i : ℕ) : Words4 where
  a := r.d
  b := r.b + rotl (s i) (r.a + f i r.b r.c r.d + x block (k i) + t i)
  c := r.b
  d := r.c

/-- Word by word. -/
def add (h r : Words4) : Words4 := ⟨h.a + r.a, h.b + r.b, h.c + r.c, h.d + r.d⟩

/-- What a block does to the buffer. -/
def compress (h : Words4) (block : List UInt8) : Words4 :=
  add h ((List.range 64).foldl (step block) h)

/-- The buffer at the start. -/
def iv : Words4 := ⟨0x67452301, 0xefcdab89, 0x98badcfe, 0x10325476⟩

/-- The words as bytes. -/
def octets (r : Words4) : List UInt8 :=
  leBytes 4 r.a.toNat ++ leBytes 4 r.b.toNat ++ leBytes 4 r.c.toNat ++ leBytes 4 r.d.toNat

/-- The message digest. -/
def md5 (m : List UInt8) : List UInt8 := octets (BlockHash.digest compress 64 (leBytes 8) iv m)

theorem length_md5 (m : List UInt8) : (md5 m).length = 16 := by
  simp only [md5, octets, List.length_append, length_leBytes]

end Catse.Rfc1321
