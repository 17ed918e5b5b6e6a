import Catse.Lib.Md5
import Catse.Lib.Memory
import Catse.Mongo.Ids

/-!
# `md5.c`, and what the driver and `lua_mongo` make of it

`Md5State` is `mongo_md5_state_t`. A message comes by any number of calls of `mongo_md5_append`,
each of which may fill up a block that an earlier one began, and `Holds` says what the state is
after it, however it was cut (`append_spec`). `mongo_md5_finish` appends the padding in the same
way.
-/

namespace Catse

open Rfc1321 (Words4)

/-- `mongo_md5_state_t`, with the buffer as memory from its start on. -/
structure Md5State where
  count0 : UInt32
  count1 : UInt32
  abcd : Words4
  buf : ℕ → UInt8

namespace Md5State

/-! ## `mongo_md5_process` -/

/-- `T_MASK` -/
def tMask : UInt32 := ~~~0

/-- The operations of round 1: `k`, `s` and `Ti`. -/
def round1 : List (ℕ × ℕ × UInt32) :=
  [(0, 7, tMask ^^^ 0x28955b87), (1, 12, tMask ^^^ 0x173848a9), (2, 17, 0x242070db),
    (3, 22, tMask ^^^ 0x3e423111), (4, 7, tMask ^^^ 0x0a83f050), (5, 12, 0x4787c62a),
    (6, 17, tMask ^^^ 0x57cfb9ec), (7, 22, tMask ^^^ 0x02b96afe), (8, 7, 0x698098d8),
    (9, 12, tMask ^^^ 0x74bb0850), (10, 17, tMask ^^^ 0x0000a44e), (11, 22, tMask ^^^ 0x76a32841),
    (12, 7, 0x6b901122), (13, 12, tMask ^^^ 0x02678e6c), (14, 17, tMask ^^^ 0x5986bc71),
    (15, 22, 0x49b40821)]

/-- The operations of round 2: `k`, `s` and `Ti`. -/
def round2 : List (ℕ × ℕ × UInt32) :=
  [(1, 5, tMask ^^^ 0x09e1da9d), (6, 9, tMask ^^^ 0x3fbf4cbf), (11, 14, 0x265e5a51),
    (0, 20, tMask ^^^ 0x16493855), (5, 5, tMask ^^^ 0x29d0efa2), (10, 9, 0x02441453),
    (15, 14, tMask ^^^ 0x275e197e), (4, 20, tMask ^^^ 0x182c0437), (9, 5, 0x21e1cde6),
    (14, 9, tMask ^^^ 0x3cc8f829), (3, 14, tMask ^^^ 0x0b2af278), (8, 20, 0x455a14ed),
    (13, 5, tMask ^^^ 0x561c16fa), (2, 9, tMask ^^^ 0x03105c07), (7, 14, 0x676f02d9),
    (12, 20, tMask ^^^ 0x72d5b375)]

/-- The operations of round 3: `k`, `s` and `Ti`. -/
def round3 : List (ℕ × ℕ × UInt32) :=
  [(5, 4, tMask ^^^ 0x0005c6bd), (8, 11, tMask ^^^ 0x788e097e), (11, 16, 0x6d9d6122),
    (14, 23, tMask ^^^ 0x021ac7f3), (1, 4, tMask ^^^ 0x5b4115bb), (4, 11, 0x4bdecfa9),
    (7, 16, tMask ^^^ 0x0944b49f), (10, 23, tMask ^^^ 0x4140438f), (13, 4, 0x289b7ec6),
    (0, 11, tMask ^^^ 0x155ed805), (3, 16, tMask ^^^ 0x2b10cf7a), (6, 23, 0x04881d05),
    (9, 4, tMask ^^^ 0x262b2fc6), (12, 11, tMask ^^^ 0x1924661a), (15, 16, 0x1fa27cf8),
    (2, 23, tMask ^^^ 0x3b53a99a)]

/-- The operations of round 4: `k`, `s` and `Ti`. -/
def round4 : List (ℕ × ℕ × UInt32) :=
  [(0, 6, tMask ^^^ 0x0bd6ddbb), (7, 10, 0x432aff97), (14, 15, tMask ^^^ 0x546bdc58),
    (5, 21, tMask ^^^ 0x036c5fc6), (12, 6, 0x655b59c3), (3, 10, tMask ^^^ 0x70f3336d),
    (10, 15, tMask ^^^ 0x00100b82), (1, 21, tMask ^^^ 0x7a7ba22e), (8, 6, 0x6fa87e4f),
    (15, 10, tMask ^^^ 0x01d3191f), (6, 15, tMask ^^^ 0x5cfebceb), (13, 21, 0x4e0811a1),
    (4, 6, tMask ^^^ 0x08ac817d), (11, 10, tMask ^^^ 0x42c50dca), (2, 15, 0x2ad7d2bb),
    (9, 21, tMask ^^^ 0x14792c6e)]

/-- `F`, `G`, `H` and `I`. -/
def fOf (x y z : UInt32) : UInt32 := (x &&& y) ||| (~~~x &&& z)

@[inherit_doc fOf]
def gOf (x y z : UInt32) : UInt32 := (x &&& z) ||| (y &&& ~~~z)

@[inherit_doc fOf]
def hOf (x y z : UInt32) : UInt32 := x ^^^ y ^^^ z

@[inherit_doc fOf]
def iOf (x y z : UInt32) : UInt32 := y ^^^ (x ||| ~~~z)

/-- `ROTATE_LEFT`. -/
def rotateLeft (x : UInt32) (n : ℕ) : UInt32 :=
  (x <<< UInt32.ofNat n) ||| (x >>> UInt32.ofNat (32 - n))

/-- `SET` on the first of the registers. Each line of a round has them one place further on, so they
are renamed after it, and after four lines they have their names again. -/
def set (g : UInt32 → UInt32 → UInt32 → UInt32) (X : ℕ → UInt32) (r : Words4)
    (op : ℕ × ℕ × UInt32) : Words4 :=
  let t := r.a + g r.b r.c r.d + X op.1 + op.2.2
  ⟨r.d, rotateLeft t op.2.1 + r.b, r.b, r.c⟩

/-- `mongo_md5_process`. The words of the block are its bytes as they lie in memory. -/
def process (pms : Md5State) (data : List UInt8) : Md5State :=
  let X := fun k => wordLE ((data.drop (4 * k)).take 4)
  let r := round1.foldl (set fOf X) pms.abcd
  let r := round2.foldl (set gOf X) r
  let r := round3.foldl (set hOf X) r
  let r := round4.foldl (set iOf X) r
  { pms with
    abcd := ⟨pms.abcd.a + r.a, pms.abcd.b + r.b, pms.abcd.c + r.c, pms.abcd.d + r.d⟩ }

/-! ## `mongo_md5_append` and `mongo_md5_finish` -/

/-- `mongo_md5_init`, which leaves the buffer as it is. -/
def init (pms : Md5State) : Md5State :=
  { pms with
    count0 := 0
    count1 := 0
    abcd := ⟨0x67452301, tMask ^^^ 0x10325476, tMask ^^^ 0x67452301, 0x10325476⟩ }

/-- The full blocks from `p` on and the partial block behind them. -/
def appendBlocks (pms : Md5State) (p : List UInt8) : Md5State :=
  if 64 ≤ p.length then appendBlocks (pms.process (p.take 64)) (p.drop 64)
  else if p.length ≠ 0 then { pms with buf := storeAt pms.buf 0 p }
  else pms
termination_by p.length
decreasing_by
  rw [List.length_drop]
  omega

/-- The message is longer by `nbytes`. -/
def addCount (pms : Md5State) (nbytes : ℕ) : Md5State :=
  let nbits := UInt32.ofNat (nbytes * 2^3)
  let count1 := pms.count1 + UInt32.ofNat (nbytes / 2^29)
  let count0 := pms.count0 + nbits
  { pms with
    count0 := count0
    count1 := if count0 < nbits then count1 + 1 else count1 }

/-- `mongo_md5_append`. -/
def append (pms : Md5State) (data : List UInt8) : Md5State :=
  let nbytes := data.length
  let offset := ((pms.count0 >>> 3) &&& 63).toNat
  if nbytes = 0 then pms
  else
    let pms := pms.addCount nbytes
    if offset ≠ 0 then
      let copy := if 64 < toInt32 (offset + nbytes) then 64 - offset else nbytes
      let pms := { pms with buf := storeAt pms.buf offset (data.take copy) }
      if offset + copy < 64 then pms
      else (pms.process (prefixOf pms.buf 64)).appendBlocks (data.drop copy)
    else pms.appendBlocks data

/-- The bytes of words, from the low-order one of each on. -/
def bytesOf (ws : List UInt32) : List UInt8 :=
  ws.flatMap fun w => (List.range 4).map fun i => (w >>> UInt32.ofNat (i * 8)).toUInt8

/-- The array `pad`. -/
def padArray : List UInt8 := 0x80 :: List.replicate 63 0

/-- `mongo_md5_finish`, with the digest. -/
def finish (pms : Md5State) : List UInt8 :=
  let data := bytesOf [pms.count0, pms.count1]
  let pms := pms.append (padArray.take ((((55 : UInt32) - (pms.count0 >>> 3)) &&& 63) + 1).toNat)
  let pms := pms.append data
  bytesOf [pms.abcd.a, pms.abcd.b, pms.abcd.c, pms.abcd.d]

/-! ## A block -/

/-- The operations of a round are those of the standard. -/
theorem foldl_set_eq (g : UInt32 → UInt32 → UInt32 → UInt32) (ops : List (ℕ × ℕ × UInt32))
    (block : List UInt8) (n : ℕ)
    (hops : ops = (List.range' n 16).map fun i => (Rfc1321.k i, Rfc1321.s i, Rfc1321.t i))
    (hg : ∀ i, n ≤ i → i < n + 16 → Rfc1321.f i = g ∧ 0 < Rfc1321.s i ∧ Rfc1321.s i < 32)
    (r : Words4) :
    ops.foldl (set g fun k => wordLE ((block.drop (4 * k)).take 4)) r =
      (List.range' n 16).foldl (Rfc1321.step block) r := by
  rw [hops, List.foldl_map]
  apply List.foldl_ext
  intro r i hi
  obtain ⟨hle, hlt⟩ := List.mem_range'_1.mp hi
  obtain ⟨hf, hs⟩ := hg i hle hlt
  rw [set, Rfc1321.step, hf, rotateLeft, ← rotl_eq _ hs, UInt32.add_comm (rotl _ _)]
  rfl

/-- `mongo_md5_process` is the compression function. -/
theorem process_eq (pms : Md5State) (data : List UInt8) :
    pms.process data = { pms with abcd := Rfc1321.compress pms.abcd data } := by
  have hsplit : List.range 64 = List.range' 0 16 ++ List.range' 16 16 ++ List.range' 32 16 ++
      List.range' 48 16 := rfl
  have hturn : ∀ i < 64, 0 < Rfc1321.s i ∧ Rfc1321.s i < 32 := by decide
  have h1 := foldl_set_eq fOf round1 data 0 (by decide)
    fun i _ hlt => ⟨by funext x y z; rw [Rfc1321.f, if_pos (by omega), fOf], hturn i (by omega)⟩
  have h2 := foldl_set_eq gOf round2 data 16 (by decide)
    fun i hle hlt =>
      ⟨by funext x y z; rw [Rfc1321.f, if_neg (by omega), if_pos (by omega), gOf],
        hturn i (by omega)⟩
  have h3 := foldl_set_eq hOf round3 data 32 (by decide)
    fun i hle hlt =>
      ⟨by funext x y z; rw [Rfc1321.f, if_neg (by omega), if_neg (by omega), if_pos (by omega),
        hOf], hturn i (by omega)⟩
  have h4 := foldl_set_eq iOf round4 data 48 (by decide)
    fun i hle hlt =>
      ⟨by funext x y z; rw [Rfc1321.f, if_neg (by omega), if_neg (by omega), if_neg (by omega),
        iOf], hturn i (by omega)⟩
  rw [process, Rfc1321.compress, hsplit, List.foldl_append, List.foldl_append, List.foldl_append,
    ← h1, ← h2, ← h3, ← h4]
  rfl

/-! ## A message in pieces -/

/-- The state after the message `m`. -/
structure Holds (m : List UInt8) (pms : Md5State) : Prop where
  absorbed : BlockHash.Absorbed Rfc1321.compress 64 Rfc1321.iv m pms.abcd
    (prefixOf pms.buf (m.length % 64))
  bits : 2^32 * pms.count1.toNat + pms.count0.toNat = 8 * m.length % 2^64

theorem holds_init (pms : Md5State) : Holds [] pms.init where
  absorbed := BlockHash.Absorbed.start (by decide)
  bits := by
    rw [init, UInt32.toNat_zero]
    rfl

/-- Both count words count bits modulo `2^64`. -/
theorem addCount_bits {pms : Md5State} {n : ℕ} (nbytes : ℕ) (hlt : nbytes < 2^32)
    (h : 2^32 * pms.count1.toNat + pms.count0.toNat = 8 * n % 2^64) :
    2^32 * (pms.addCount nbytes).count1.toNat + (pms.addCount nbytes).count0.toNat =
      8 * (n + nbytes) % 2^64 := by
  have h0 := pms.count0.toNat_lt
  have hnbits : (UInt32.ofNat (nbytes * 2^3)).toNat = 8 * nbytes % 2^32 := by
    rw [UInt32.toNat_ofNat', Nat.mul_comm]
    rfl
  have hhigh : (UInt32.ofNat (nbytes / 2^29)).toNat = nbytes / 2^29 % 2^32 := UInt32.toNat_ofNat'
  simp only [addCount, Nat.mul_add]
  generalize UInt32.ofNat (nbytes * 2^3) = nbits at hnbits ⊢
  generalize UInt32.ofNat (nbytes / 2^29) = high at hhigh ⊢
  have hlow := UInt32.toNat_add pms.count0 nbits
  have hsum := UInt32.toNat_add pms.count1 high
  split_ifs with hcarry
  · have hless : (pms.count0 + nbits).toNat < nbits.toNat := hcarry
    have hsum' := UInt32.toNat_add (pms.count1 + high) 1
    rw [show UInt32.toNat 1 = 1 from rfl] at hsum'
    omega
  · have hless : ¬ (pms.count0 + nbits).toNat < nbits.toNat := hcarry
    omega

/-- The full blocks and what is behind them. -/
theorem appendBlocks_spec {m : List UInt8} (pms : Md5State) (p : List UInt8)
    (h : BlockHash.Absorbed Rfc1321.compress 64 Rfc1321.iv m pms.abcd [])
    (hbits : 2^32 * pms.count1.toNat + pms.count0.toNat = 8 * (m ++ p).length % 2^64) :
    Holds (m ++ p) (pms.appendBlocks p) := by
  fun_induction appendBlocks pms p generalizing m with
  | case1 pms p hp ih =>
    rw [process_eq] at ih ⊢
    have hblock := h.block (p.take 64) (by rw [List.length_nil, List.length_take]; omega)
    have hrest := ih hblock
    rw [List.append_assoc, List.take_append_drop] at hrest
    exact hrest hbits
  | case2 pms p hp hne =>
    have hmod := h.length_mod
    have hlen : (m ++ p).length % 64 = 0 + p.length := by
      rw [List.length_append, Nat.add_mod, hmod, List.length_nil]
      omega
    have hfill := h.fill p (by rw [List.length_nil]; omega)
    refine ⟨?_, hbits⟩
    rw [hlen, prefixOf_storeAt_length]
    exact hfill
  | case3 pms p hp hnil =>
    have hp : p = [] := List.eq_nil_of_length_eq_zero (not_not.mp hnil)
    have hmod := h.length_mod
    rw [hp, List.append_nil] at hbits ⊢
    refine ⟨?_, hbits⟩
    rw [hmod]
    exact h

/-- Where in a block the message ends. -/
theorem Holds.offset {m : List UInt8} {pms : Md5State} (h : Holds m pms) :
    ((pms.count0 >>> 3) &&& 63).toNat = m.length % 64 := by
  have hbits := h.bits
  have hlt := pms.count0.toNat_lt
  have hshift : (pms.count0 >>> 3).toNat = pms.count0.toNat / 8 := by
    rw [UInt32.toNat_shiftRight, show 8 = 2^3 from rfl, ← Nat.shiftRight_eq_div_pow]
    rfl
  rw [UInt32.toNat_and, hshift, show UInt32.toNat 63 = 2^6 - 1 from rfl,
    Nat.and_two_pow_sub_one_eq_mod]
  omega

/-- `mongo_md5_append`, wherever in a block it begins and ends. -/
theorem Holds.append_spec {m : List UInt8} {pms : Md5State} (h : Holds m pms) (data : List UInt8)
    (hlen : data.length + 64 ≤ 2^31) : Holds (m ++ data) (pms.append data) := by
  have hoffset := h.offset
  have hbits := addCount_bits data.length (by omega) h.bits
  rw [← List.length_append] at hbits
  have habs := h.absorbed
  have hlt : m.length % 64 < 64 := Nat.mod_lt _ (by decide)
  have hcopy : toInt32 ((m.length % 64 : ℕ) + (data.length : ℤ)) =
      (m.length % 64 : ℕ) + (data.length : ℤ) := toInt32_of_range (by omega)
  -- What the state is when the bytes fill up the block that the message has begun.
  have hfilled : ∀ k, m.length % 64 + k = 64 → k ≤ data.length →
      Holds (m ++ data) ((({ pms.addCount data.length with
        buf := storeAt pms.buf (m.length % 64) (data.take k) } : Md5State).process
          (prefixOf (storeAt pms.buf (m.length % 64) (data.take k)) 64)).appendBlocks
            (data.drop k)) := by
    intro k hk hle
    have hlen : (data.take k).length = k := by rw [List.length_take, Nat.min_eq_left hle]
    have hblock := habs.block (data.take k) (by rw [length_prefixOf, hlen, hk])
    rw [← prefixOf_storeAt_length, hlen, hk] at hblock
    have hall : m ++ data.take k ++ data.drop k = m ++ data := by
      rw [List.append_assoc, List.take_append_drop]
    have hrest := appendBlocks_spec { pms.addCount data.length with
      abcd := Rfc1321.compress pms.abcd
        (prefixOf (storeAt pms.buf (m.length % 64) (data.take k)) 64)
      buf := storeAt pms.buf (m.length % 64) (data.take k) } (data.drop k) hblock (by
        rw [hall]
        exact hbits)
    rw [hall] at hrest
    rw [process_eq]
    exact hrest
  rw [Md5State.append, hoffset, hcopy]
  dsimp only
  by_cases hnil : data.length = 0
  · rw [if_pos hnil, List.eq_nil_of_length_eq_zero hnil, List.append_nil]
    exact h
  rw [if_neg hnil]
  by_cases hzero : m.length % 64 = 0
  · -- The message ends with a block.
    rw [if_neg (not_not.mpr hzero)]
    rw [hzero] at habs
    exact appendBlocks_spec (pms.addCount data.length) data habs hbits
  rw [if_pos hzero]
  by_cases hover : (64 : ℤ) < (m.length % 64 : ℕ) + (data.length : ℤ)
  · rw [if_pos hover, if_neg (by omega)]
    exact hfilled _ (by omega) (by omega)
  rw [if_neg hover]
  by_cases hpart : m.length % 64 + data.length < 64
  · rw [if_pos hpart]
    have hfill := habs.fill data (by rw [length_prefixOf]; exact hpart)
    have hmod : (m ++ data).length % 64 = m.length % 64 + data.length := by
      rw [List.length_append, Nat.add_mod, Nat.mod_eq_of_lt (by omega : data.length < 64)]
      omega
    rw [← prefixOf_storeAt_length, ← hmod] at hfill
    rw [List.take_length]
    exact ⟨hfill, hbits⟩
  · rw [if_neg hpart]
    exact hfilled data.length (by omega) (Nat.le_refl _)

/-! ## The digest -/

theorem bytesOf_eq (ws : List UInt32) : bytesOf ws = ws.flatMap fun w => leBytes 4 w.toNat := by
  have hbyte : ∀ (w : UInt32) (k : ℕ), k ≤ 24 →
      (w >>> UInt32.ofNat k).toUInt8 = UInt8.ofNat (w.toNat / 2^k) := by
    intro w k hk
    have hk' : (UInt32.ofNat k).toNat % 32 = k := by
      rw [UInt32.toNat_ofNat']
      omega
    apply UInt8.toNat_inj.mp
    rw [UInt32.toNat_toUInt8, UInt32.toNat_shiftRight, hk', Nat.shiftRight_eq_div_pow,
      UInt8.toNat_ofNat']
  rw [bytesOf]
  congr 1
  funext w
  rw [leBytes_eq_map]
  refine List.map_congr_left fun i hi => ?_
  have hlt := List.mem_range.mp hi
  rw [hbyte w _ (by omega), Nat.mul_comm]

/-- `mongo_md5_finish` brings the padding of the standard. -/
theorem finish_spec {m : List UInt8} {pms : Md5State} (h : Holds m pms) :
    pms.finish = Rfc1321.md5 m := by
  have hoffset := h.offset
  -- The number of bytes that are appended first.
  have hzeros : ((((55 : UInt32) - (pms.count0 >>> 3)) &&& 63) + 1).toNat =
      (64 - (m.length + 1 + 8) % 64) % 64 + 1 := by
    have hmask : ∀ x : UInt32, (x &&& 63).toNat = x.toNat % 64 := by
      intro x
      rw [UInt32.toNat_and, show UInt32.toNat 63 = 2^6 - 1 from rfl,
        Nat.and_two_pow_sub_one_eq_mod]
    rw [hmask] at hoffset
    rw [UInt32.toNat_add, hmask, UInt32.toNat_sub, show UInt32.toNat 55 = 55 from rfl,
      show UInt32.toNat 1 = 1 from rfl]
    have hlt := (pms.count0 >>> 3).toNat_lt
    omega
  have hpad : padArray.take ((64 - (m.length + 1 + 8) % 64) % 64 + 1) =
      0x80 :: List.replicate ((64 - (m.length + 1 + 8) % 64) % 64) 0 := by
    rw [padArray, List.take_succ_cons, List.take_replicate]
    congr 2
    omega
  have hdata : bytesOf [pms.count0, pms.count1] = leBytes 8 (8 * m.length) := by
    have hbits := h.bits
    have hlow := pms.count0.toNat_lt
    have hhigh := pms.count1.toNat_lt
    have h0 : pms.count0.toNat = 8 * m.length % 2^(8 * 4) := by omega
    have h1 : pms.count1.toNat = 8 * m.length / 2^(8 * 4) % 2^(8 * 4) := by omega
    rw [bytesOf_eq, List.flatMap_cons, List.flatMap_cons, List.flatMap_nil, List.append_nil, h0, h1,
      leBytes_mod, leBytes_mod, ← leBytes_add]
  have hfirst := h.append_spec (0x80 ::
    List.replicate ((64 - (m.length + 1 + 8) % 64) % 64) 0) (by
      rw [List.length_cons, List.length_replicate]
      omega)
  have hlast := hfirst.append_spec (leBytes 8 (8 * m.length)) (by
    rw [length_leBytes]
    decide)
  have hall : m ++ 0x80 :: List.replicate ((64 - (m.length + 1 + 8) % 64) % 64) 0 ++
      leBytes 8 (8 * m.length) = BlockHash.pad 64 (leBytes 8) m := by
    rw [BlockHash.pad, BlockHash.padding, length_leBytes, List.append_assoc]
  rw [hall] at hlast
  rw [finish, hzeros, hpad, hdata, bytesOf_eq, Rfc1321.md5, ← hlast.absorbed.eq_digest,
    Rfc1321.octets]
  simp

/-- The pieces of a message, one behind the other. -/
theorem holds_foldl {m : List UInt8} {pms : Md5State} (h : Holds m pms) {pieces : List (List UInt8)}
    (hshort : ∀ p ∈ pieces, p.length + 64 ≤ 2^31) :
    Holds (m ++ pieces.flatten) (pieces.foldl append pms) := by
  induction pieces generalizing m pms with
  | nil => rwa [List.flatten_nil, List.append_nil]
  | cons p pieces ih =>
    have hnext := ih (h.append_spec p (hshort p List.mem_cons_self))
      fun q hq => hshort q (List.mem_cons_of_mem p hq)
    rwa [List.append_assoc, ← List.flatten_cons] at hnext

theorem finish_foldl (pms : Md5State) (pieces : List (List UInt8))
    (hshort : ∀ p ∈ pieces, p.length + 64 ≤ 2^31) :
    (pieces.foldl append pms.init).finish = Rfc1321.md5 pieces.flatten :=
  finish_spec (holds_foldl (holds_init pms) hshort)

end Md5State

/-! ## Who calls it -/

/-- `lua_mongo::md5`, where `st` is what lies on the stack before. -/
def LuaMongo.md5 (st : Md5State) (p : List UInt8) : List UInt8 :=
  littleToBig ((st.init.append p).finish)

/-- `digest2hex`. -/
def digest2hex (digest : List UInt8) : List UInt8 :=
  let hex : List UInt8 := [48, 49, 50, 51, 52, 53, 54, 55, 56, 57, 97, 98, 99, 100, 101, 102]
  digest.flatMap fun d : UInt8 =>
    [hex.getD ((d &&& 0xf0) >>> 4).toNat 0, hex.getD (d &&& 0x0f).toNat 0]

/-- `":mongo:"` -/
def mongoStr : List UInt8 := [58, 109, 111, 110, 103, 111, 58]

/-- `INT32_MAX` -/
def int32Max : ℕ := 2^31 - 1

/-- `mongo_pass_digest`, with `none` for `MONGO_BSON_TOO_LARGE`. -/
def mongoPassDigest (st : Md5State) (user pass : List UInt8) : Option (List UInt8) :=
  if int32Max ≤ user.length ∨ int32Max ≤ pass.length then none
  else
    let st := st.init
    let st := st.append user
    let st := st.append mongoStr
    let st := st.append pass
    some (digest2hex st.finish)

/-- The key that `mongo_cmd_authenticate` sends for a `nonce`. -/
def authenticateKey (st : Md5State) (nonce user pass : List UInt8) : Option (List UInt8) :=
  match mongoPassDigest st user pass with
  | none => none
  | some hex_digest =>
    if int32Max ≤ nonce.length ∨ int32Max ≤ user.length then none
    else
      let st := st.init
      let st := st.append nonce
      let st := st.append user
      let st := st.append hex_digest
      some (digest2hex st.finish)

/-- Both texts of a digest are the same. -/
theorem digest2hex_eq (digest : List UInt8) : digest2hex digest = LuaMongo.littleToBig digest := by
  have hbyte : ∀ i : Fin 256, digest2hex [UInt8.ofFin i] =
      LuaMongo.littleToBig [UInt8.ofFin i] := by decide +kernel
  induction digest with
  | nil => rfl
  | cons d digest ih =>
    have hd := hbyte d.toFin
    rw [UInt8.ofFin_toFin] at hd
    rw [digest2hex, List.flatMap_cons] at hd ⊢
    rw [LuaMongo.littleToBig, List.flatMap_cons] at hd ⊢
    rw [List.flatMap_nil, List.append_nil, List.flatMap_nil, List.append_nil] at hd
    rw [hd]
    exact congrArg _ ih

/-- `lua_mongo::md5` gives the text of the digest. -/
theorem LuaMongo.md5_eq (st : Md5State) {p : List UInt8} (hp : p.length + 64 ≤ 2^31) :
    LuaMongo.md5 st p = littleToBig (Rfc1321.md5 p) := by
  have hall := Md5State.finish_foldl st [p] (by simpa using hp)
  rw [List.flatten_cons, List.flatten_nil, List.append_nil] at hall
  exact congrArg littleToBig hall

/-- A message that comes in pieces has the digest of the standard, however it is cut, where a piece
is so short that `offset + nbytes` is an `int`; `lua_mongo::md5` gives the hexadecimal text of the
digest of its string; and the key that answers a `nonce` is the digest of the `nonce`, the user's
name and the hexadecimal digest of the name, `:mongo:` and the password. -/
theorem md5_pieces (st : Md5State) {pieces : List (List UInt8)} {nonce user pass : List UInt8}
    (hpieces : ∀ p ∈ pieces, p.length + 64 ≤ 2^31)
    (hstrings : ∀ p ∈ [nonce, user, pass], p.length + 64 ≤ 2^31) :
    (pieces.foldl .append st.init).finish = Rfc1321.md5 pieces.flatten ∧
      (∀ p : List UInt8, p.length + 64 ≤ 2^31 →
        LuaMongo.md5 st p = LuaMongo.littleToBig (Rfc1321.md5 p)) ∧
      authenticateKey st nonce user pass =
        some (LuaMongo.littleToBig (Rfc1321.md5 (nonce ++ user ++
          LuaMongo.littleToBig (Rfc1321.md5 (user ++ mongoStr ++ pass))))) := by
  refine ⟨Md5State.finish_foldl st pieces hpieces, fun p hp => LuaMongo.md5_eq st hp, ?_⟩
  have hnonce := hstrings nonce (by simp)
  have huser := hstrings user (by simp)
  have hpass := hstrings pass (by simp)
  have hmax : int32Max = 2^31 - 1 := rfl
  have hkept : mongoPassDigest st user pass = some (LuaMongo.littleToBig
      (Rfc1321.md5 (user ++ mongoStr ++ pass))) := by
    have hall := Md5State.finish_foldl st [user, mongoStr, pass] (by
      intro p hp
      simp only [List.mem_cons, List.not_mem_nil, or_false] at hp
      rcases hp with rfl | rfl | rfl
      · exact huser
      · decide
      · exact hpass)
    rw [mongoPassDigest, if_neg (by omega), List.append_assoc]
    dsimp only
    simp only [List.foldl_cons, List.foldl_nil, List.flatten_cons, List.flatten_nil,
      List.append_nil] at hall
    rw [digest2hex_eq, hall]
  have hall := Md5State.finish_foldl st [nonce, user, LuaMongo.littleToBig
      (Rfc1321.md5 (user ++ mongoStr ++ pass))] (by
    intro p hp
    simp only [List.mem_cons, List.not_mem_nil, or_false] at hp
    rcases hp with rfl | rfl | rfl
    · exact hnonce
    · exact huser
    · rw [LuaMongo.length_littleToBig, Rfc1321.length_md5]
      decide)
  simp only [List.foldl_cons, List.foldl_nil, List.flatten_cons, List.flatten_nil,
    List.append_nil] at hall
  rw [authenticateKey, hkept]
  dsimp only
  rw [if_neg (by omega), digest2hex_eq, hall, ← List.append_assoc nonce]

/-- Pieces of which the second begins within a block and ends in the next. -/
theorem md5_pieces_two : (([List.replicate 60 1, List.replicate 10 2] : List (List UInt8)).foldl
      .append (Md5State.init ⟨0, 0, ⟨0, 0, 0, 0⟩, fun _ => 0⟩)).finish =
        Rfc1321.md5 [List.replicate 60 1, List.replicate 10 2].flatten ∧
    LuaMongo.md5 ⟨0, 0, ⟨0, 0, 0, 0⟩, fun _ => 0⟩ [97] =
      LuaMongo.littleToBig (Rfc1321.md5 [97]) ∧
    authenticateKey ⟨0, 0, ⟨0, 0, 0, 0⟩, fun _ => 0⟩ [49] [117] [112] =
      some (LuaMongo.littleToBig (Rfc1321.md5 ([49] ++ [117] ++
        LuaMongo.littleToBig (Rfc1321.md5 ([117] ++ mongoStr ++ [112]))))) := by
  have hpieces : ∀ p ∈ ([List.replicate 60 1, List.replicate 10 2] : List (List UInt8)),
      p.length + 64 ≤ 2^31 := by decide
  have hstrings : ∀ p ∈ ([[49], [117], [112]] : List (List UInt8)), p.length + 64 ≤ 2^31 := by
    decide
  obtain ⟨hdigest, hlua, hkey⟩ := md5_pieces ⟨0, 0, ⟨0, 0, 0, 0⟩, fun _ => 0⟩ hpieces hstrings
  exact ⟨hdigest, hlua [97] (by decide), hkey⟩

end Catse
