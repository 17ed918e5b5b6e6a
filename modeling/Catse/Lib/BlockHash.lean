import Catse.Lib.Bytes

/-!
# Hash functions over blocks

A hash function of this kind reads a message in blocks of `B` bytes, each of which changes a state
(`compress`). The message is padded first, so that its length is a multiple of `B`: a byte `0x80`,
as few zeros as there can be, and an image of the number of its bits (`pad`). `digest` is the state
after the padded message.

An implementation gets the message in pieces and keeps, besides the state, the bytes that do not
fill a block. `Absorbed` says what both are after a message, however it was cut. The bytes that it
gets may fill up a block (`Absorbed.block`) or not (`Absorbed.fill`), and when it has got the
padding as well, the state is the digest (`Absorbed.eq_digest`).
-/

namespace Catse.BlockHash

variable {σ : Type*} (compress : σ → List UInt8 → σ) (B : ℕ)

/-- The state after `n` blocks. -/
def blocks : ℕ → σ → List UInt8 → σ
  | 0, s, _ => s
  | n + 1, s, bs => blocks n (compress s (bs.take B)) (bs.drop B)

/-- The state after the blocks of a message. -/
def absorb (s : σ) (bs : List UInt8) : σ := blocks compress B (bs.length / B) s bs

/-- The bytes behind a message of `n` bytes, where `enc` is the image of a number of bits. -/
def padding (enc : ℕ → List UInt8) (n : ℕ) : List UInt8 :=
  0x80 :: List.replicate ((B - (n + 1 + (enc (8 * n)).length) % B) % B) 0 ++ enc (8 * n)

/-- A message with its padding. -/
def pad (enc : ℕ → List UInt8) (m : List UInt8) : List UInt8 := m ++ padding B enc m.length

/-- The hash of a message, from the initial state `iv`. -/
def digest (enc : ℕ → List UInt8) (iv : σ) (m : List UInt8) : σ :=
  absorb compress B iv (pad B enc m)

variable {compress B}

/-! ## Blocks one behind the other -/

theorem blocks_add {i j : ℕ} {a b : List UInt8} (s : σ) (ha : a.length = i * B) :
    blocks compress B (i + j) s (a ++ b) = blocks compress B j (blocks compress B i s a) b := by
  induction i generalizing s a with
  | zero =>
    have hnil : a = [] := List.eq_nil_of_length_eq_zero (by rw [ha, Nat.zero_mul])
    rw [hnil, Nat.zero_add]
    rfl
  | succ i ih =>
    have hle : B ≤ a.length := by
      rw [ha, Nat.succ_mul]
      omega
    have hrest : (a.drop B).length = i * B := by
      rw [List.length_drop, ha, Nat.succ_mul, Nat.add_sub_cancel]
    rw [show i + 1 + j = i + j + 1 by omega, blocks, blocks, List.take_append_of_le_length hle,
      List.drop_append_of_le_length hle]
    exact ih _ hrest

theorem absorb_append (hB : 0 < B) (s : σ) {a : List UInt8} (b : List UInt8)
    (ha : B ∣ a.length) :
    absorb compress B s (a ++ b) = absorb compress B (absorb compress B s a) b := by
  obtain ⟨i, hi⟩ := ha
  have hlen : (a ++ b).length / B = i + b.length / B := by
    rw [List.length_append, hi, Nat.mul_add_div hB]
  have hdiv : a.length / B = i := by rw [hi, Nat.mul_div_cancel_left i hB]
  rw [absorb, hlen, blocks_add s (hi.trans (Nat.mul_comm B i)), absorb, absorb, hdiv]

theorem absorb_block (hB : 0 < B) (s : σ) {b : List UInt8} (hb : b.length = B) :
    absorb compress B s b = compress s b := by
  rw [absorb, hb, Nat.div_self hB, blocks, blocks, ← hb, List.take_length]

theorem absorb_nil (s : σ) : absorb compress B s [] = s := by
  rw [absorb, List.length_nil, Nat.zero_div, blocks]

/-- A padded message is made of whole blocks. -/
theorem dvd_length_pad (hB : 0 < B) (enc : ℕ → List UInt8) (m : List UInt8) :
    B ∣ (pad B enc m).length := by
  simp only [pad, padding, List.length_append, List.length_cons, List.length_replicate]
  generalize (enc (8 * m.length)).length = k
  have hmod := Nat.mod_lt (m.length + 1 + k) hB
  have hdiv := Nat.div_add_mod (m.length + 1 + k) B
  rcases Nat.eq_zero_or_pos ((m.length + 1 + k) % B) with h0 | hpos
  · rw [h0, Nat.sub_zero, Nat.mod_self]
    exact Nat.dvd_of_mod_eq_zero (by rw [← h0]; congr 1; omega)
  · rw [Nat.mod_eq_of_lt (by omega : B - (m.length + 1 + k) % B < B)]
    refine ⟨(m.length + 1 + k) / B + 1, ?_⟩
    rw [Nat.mul_add, Nat.mul_one]
    omega

/-! ## A message that comes in pieces -/

/-- The state and the bytes that do not fill a block, after the message `m`. -/
structure Absorbed (compress : σ → List UInt8 → σ) (B : ℕ) (iv : σ) (m : List UInt8) (s : σ)
    (pending : List UInt8) : Prop where
  lt : pending.length < B
  whole : ∃ w, m = w ++ pending ∧ B ∣ w.length ∧ s = absorb compress B iv w

namespace Absorbed

variable {iv s : σ} {m pending : List UInt8}

theorem start (hB : 0 < B) : Absorbed compress B iv [] iv [] where
  lt := hB
  whole := ⟨[], rfl, Nat.dvd_zero B, (absorb_nil iv).symm⟩

/-- The bytes that do not fill a block are as many as the length of the message says. -/
theorem length_mod (h : Absorbed compress B iv m s pending) : m.length % B = pending.length := by
  obtain ⟨w, rfl, ⟨i, hi⟩, -⟩ := h.whole
  rw [List.length_append, hi, Nat.mul_add_mod]
  exact Nat.mod_eq_of_lt h.lt

/-- The block is still not full. -/
theorem fill (h : Absorbed compress B iv m s pending) (bs : List UInt8)
    (hlen : pending.length + bs.length < B) :
    Absorbed compress B iv (m ++ bs) s (pending ++ bs) where
  lt := by rwa [List.length_append]
  whole := by
    obtain ⟨w, rfl, hw, hs⟩ := h.whole
    exact ⟨w, List.append_assoc .., hw, hs⟩

/-- The block is full. -/
theorem block (h : Absorbed compress B iv m s pending) (bs : List UInt8)
    (hlen : pending.length + bs.length = B) :
    Absorbed compress B iv (m ++ bs) (compress s (pending ++ bs)) [] := by
  obtain ⟨w, rfl, hw, rfl⟩ := h.whole
  have hB : 0 < B := Nat.lt_of_le_of_lt (Nat.zero_le _) h.lt
  have hfull : (pending ++ bs).length = B := by rwa [List.length_append]
  refine ⟨hB, w ++ (pending ++ bs), ?_, ?_, ?_⟩
  · rw [List.append_nil, List.append_assoc]
  · rw [List.length_append, hfull]
    exact Nat.dvd_add hw (Nat.dvd_refl B)
  · rw [absorb_append hB iv _ hw, absorb_block hB _ hfull]

/-- After whole blocks the state says it all. -/
theorem eq_absorb (h : Absorbed compress B iv m s []) : s = absorb compress B iv m := by
  obtain ⟨w, rfl, -, rfl⟩ := h.whole
  rw [List.append_nil]

/-- When the padding has come as well, the state is the digest. -/
theorem eq_digest {enc : ℕ → List UInt8} (h : Absorbed compress B iv (pad B enc m) s pending) :
    s = digest compress B enc iv m := by
  have hB : 0 < B := Nat.lt_of_le_of_lt (Nat.zero_le _) h.lt
  have hmod := h.length_mod
  rw [Nat.mod_eq_zero_of_dvd (dvd_length_pad hB enc m)] at hmod
  rw [List.eq_nil_of_length_eq_zero hmod.symm] at h
  exact h.eq_absorb

end Absorbed

end Catse.BlockHash
