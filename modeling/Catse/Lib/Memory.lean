import Mathlib.Data.List.Basic
import Mathlib.Tactic.SplitIfs
import Mathlib.Tactic.Common

/-!
# Memory from a pointer on

A buffer is a function from offsets to bytes, so that a copy that goes too far is still a copy.
Where a copy may go is stated of its offset and its number of bytes. A C string in a buffer ends at
the first zero (`cstrAt`), wherever that zero comes from (`HoldsStr`).
-/

namespace Catse

/-- `memcpy(mem + off, bs, sizeof(bs))`. -/
def storeAt (mem : ℕ → UInt8) (off : ℕ) (bs : List UInt8) : ℕ → UInt8 :=
  fun k => if off ≤ k then (bs[k - off]?).getD (mem k) else mem k

/-- The bytes of `mem[0, n)`. -/
def prefixOf (mem : ℕ → UInt8) (n : ℕ) : List UInt8 := (List.range n).map mem

@[simp] theorem length_prefixOf (mem : ℕ → UInt8) (n : ℕ) : (prefixOf mem n).length = n := by
  rw [prefixOf, List.length_map, List.length_range]

/-- A copy to the end of what is written, of which the first `len` bytes count. -/
theorem prefixOf_storeAt (mem : ℕ → UInt8) (off : ℕ) {bs : List UInt8} {len : ℕ}
    (h : len ≤ bs.length) :
    prefixOf (storeAt mem off bs) (off + len) = prefixOf mem off ++ bs.take len := by
  refine List.ext_getElem ?_ fun k h1 h2 => ?_
  · simp only [length_prefixOf, List.length_append, List.length_take]
    omega
  · rw [length_prefixOf] at h1
    simp only [prefixOf, storeAt, List.getElem_map, List.getElem_range]
    split_ifs with hk
    · rw [List.getElem_append_right (by simpa using hk), List.getElem_take,
        List.getElem?_eq_getElem (by omega)]
      simp
    · rw [List.getElem_append_left (by simpa using hk)]
      simp

/-- A copy of all bytes to the end of what is written. -/
theorem prefixOf_storeAt_length (mem : ℕ → UInt8) (off : ℕ) (bs : List UInt8) :
    prefixOf (storeAt mem off bs) (off + bs.length) = prefixOf mem off ++ bs := by
  rw [prefixOf_storeAt mem off (Nat.le_refl _), List.take_length]

/-- Bytes out of the middle. -/
theorem take_drop_prefixOf (mem : ℕ → UInt8) {k j n : ℕ} (h : k + j ≤ n) :
    ((prefixOf mem n).drop k).take j = (List.range j).map fun i => mem (k + i) := by
  refine List.ext_getElem ?_ fun i hi _ => ?_
  · rw [List.length_take, List.length_drop, length_prefixOf, List.length_map, List.length_range]
    omega
  · simp only [prefixOf, List.getElem_take, List.getElem_drop, List.getElem_map,
      List.getElem_range]

/-- A copy writes nothing before its offset. -/
theorem storeAt_of_lt (mem : ℕ → UInt8) {off i : ℕ} (bs : List UInt8) (h : i < off) :
    storeAt mem off bs i = mem i := by
  rw [storeAt, if_neg (Nat.not_le_of_lt h)]

/-- The bytes from the offset of a copy on. -/
theorem storeAt_add (mem : ℕ → UInt8) (off : ℕ) (bs : List UInt8) (i : ℕ) :
    storeAt mem off bs (off + i) = bs.getD i (mem (off + i)) := by
  rw [storeAt, if_pos (Nat.le_add_right off i), Nat.add_sub_cancel_left,
    List.getD_eq_getElem?_getD]

/-! ## C strings -/

/-- The C string at an offset, with which the buffer ends after `n` bytes at the latest. -/
def cstrAt (mem : ℕ → UInt8) (p : ℕ) : ℕ → List UInt8
  | 0 => []
  | n + 1 => if mem p = 0 then [] else mem p :: cstrAt mem (p + 1) n

/-- The bytes of a string with its terminator. -/
def HoldsStr (mem : ℕ → UInt8) (p : ℕ) (s : List UInt8) : Prop :=
  ∀ i ≤ s.length, mem (p + i) = s.getD i 0

/-- What is read is what is held. -/
theorem cstrAt_eq {mem : ℕ → UInt8} {p n : ℕ} {s : List UInt8} (h : HoldsStr mem p s)
    (hs : (0 : UInt8) ∉ s) (hn : s.length < n) : cstrAt mem p n = s := by
  induction s generalizing p n with
  | nil =>
    obtain ⟨n, rfl⟩ : ∃ m, n = m + 1 := ⟨n - 1, by simp at hn; omega⟩
    have h0 : mem p = 0 := h 0 (Nat.le_refl 0)
    rw [cstrAt, if_pos h0]
  | cons b s ih =>
    obtain ⟨n, rfl⟩ : ∃ m, n = m + 1 := ⟨n - 1, by omega⟩
    obtain ⟨hb, hs⟩ := not_or.mp (List.mem_cons.not.mp hs)
    have h0 : mem p = b := h 0 (Nat.zero_le _)
    have htail : HoldsStr mem (p + 1) s := by
      intro i hi
      have hi' := h (i + 1) (Nat.succ_le_succ hi)
      rw [Nat.add_assoc, Nat.add_comm 1 i, hi', List.getD_cons_succ]
    rw [cstrAt, h0, if_neg (Ne.symm hb), ih htail hs (Nat.lt_of_succ_lt_succ hn)]

end Catse
