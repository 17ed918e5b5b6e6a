import Catse.Mongo.Ids
import Mathlib.Data.List.Nodup
import Mathlib.Data.List.Pairwise

/-!
# The object identifiers that a process makes

`oid_gen_next` puts together four bytes of the clock, the card and the process, and three bytes of a
counter, each number with its highest byte first. The clock is cut to an `int` and the counter
wraps around, so two identifiers are the same where the two times agree modulo `2^32` and the two
counts modulo `2^24` (`idBytes_inj`).

With fewer than `2^24` calls in every second the identifiers are distinct as long as the clock does
not advance by `2^32` seconds (`Oid.ids_distinct`), which four bytes of time cannot tell apart
(`Oid.ids_repeat`).
-/

namespace Catse

/-- `p[k]` of an `int` `n` at `p`. -/
def byteOf (n : ℤ) (k : ℕ) : UInt8 := UInt8.ofNat (n / 2^(8 * k) % 2^8).toNat

/-- `oid`, with the sizes of its fields. -/
structure Oid where
  time : List UInt8
  mac : List UInt8
  pid : List UInt8
  inc : List UInt8
  length_time : time.length = 4
  length_mac : mac.length = 3
  length_pid : pid.length = 2
  length_inc : inc.length = 3

namespace Oid

/-- The 12 bytes of an identifier. -/
def bytes (the : Oid) : List UInt8 := the.time ++ the.mac ++ the.pid ++ the.inc

/-- `g_oid`, and the counter of `oid_gen_next`. -/
structure Gen where
  the : Oid
  inc : ℤ

/-- `oid_gen_next` when the clock shows `now`. -/
def genNext (g : Gen) (now : ℤ) : Gen :=
  let t := toInt32 now
  let inc := toInt32 (g.inc + 1)
  { the :=
      { g.the with
        time := [byteOf t 3, byteOf t 2, byteOf t 1, byteOf t 0]
        inc := [byteOf inc 2, byteOf inc 1, byteOf inc 0]
        length_time := rfl
        length_inc := rfl }
    inc := inc }

/-- The identifiers that calls at these times give. -/
def ids (g : Gen) : List ℤ → List (List UInt8)
  | [] => []
  | now :: ts => (genNext g now).the.bytes :: ids (genNext g now) ts

/-- The strings that `lua_mongo::id` gives at these times. -/
def texts (g : Gen) (ts : List ℤ) : List (List UInt8) := (ids g ts).map LuaMongo.littleToBig

/-! ## One identifier -/

/-- Two numbers with the same byte. -/
theorem byteOf_eq_iff {n m : ℤ} {k : ℕ} :
    byteOf n k = byteOf m k ↔ n / 2^(8 * k) % 2^8 = m / 2^(8 * k) % 2^8 := by
  refine ⟨fun h => ?_, fun h => by rw [byteOf, byteOf, h]⟩
  have hval := congrArg UInt8.toNat h
  rw [byteOf, byteOf, UInt8.toNat_ofNat', UInt8.toNat_ofNat'] at hval
  omega

/-- The four lowest bytes are those of the residue modulo `2^32`. -/
theorem byteOf_congr {n m : ℤ} (h : n % 2^32 = m % 2^32) {k : ℕ} (hk : k < 4) :
    byteOf n k = byteOf m k := by
  rw [byteOf_eq_iff]
  obtain rfl | rfl | rfl | rfl : k = 0 ∨ k = 1 ∨ k = 2 ∨ k = 3 := by omega
  all_goals
    norm_num at h ⊢
    omega

/-- The bytes of an identifier with the time `t` and the count `n`. -/
def idBytes (mac pid : List UInt8) (t n : ℤ) : List UInt8 :=
  [byteOf t 3, byteOf t 2, byteOf t 1, byteOf t 0] ++ mac ++ pid ++
    [byteOf n 2, byteOf n 1, byteOf n 0]

/-- Two identifiers of one process are the same only where the times agree modulo `2^32` and the
counts modulo `2^24`. -/
theorem idBytes_inj {mac pid : List UInt8} {t t' n n' : ℤ}
    (h : idBytes mac pid t n = idBytes mac pid t' n') :
    t % 2^32 = t' % 2^32 ∧ n % 2^24 = n' % 2^24 := by
  obtain ⟨hfront, hinc⟩ := List.append_inj' h rfl
  obtain ⟨hfront, -⟩ := List.append_inj' hfront rfl
  obtain ⟨htime, -⟩ := List.append_inj' hfront rfl
  simp only [List.cons.injEq, and_true, byteOf_eq_iff] at htime hinc
  norm_num at htime hinc ⊢
  omega

/-- Times and counts matter modulo `2^32`. -/
theorem idBytes_congr (mac pid : List UInt8) {t t' n n' : ℤ} (ht : t % 2^32 = t' % 2^32)
    (hn : n % 2^32 = n' % 2^32) : idBytes mac pid t n = idBytes mac pid t' n' := by
  simp only [idBytes, byteOf_congr ht, byteOf_congr hn, Nat.reduceLT]

theorem bytes_genNext (g : Gen) (now : ℤ) :
    (genNext g now).the.bytes = idBytes g.the.mac g.the.pid now (g.inc + 1) :=
  idBytes_congr _ _ (Int.bmod_emod ..) (Int.bmod_emod ..)

/-! ## Runs -/

/-- The `k`-th call gives the identifier of its time and of the count that it has reached. -/
theorem ids_eq_mapIdx (g : Gen) (ts : List ℤ) :
    ids g ts = ts.mapIdx fun k t => idBytes g.the.mac g.the.pid t (g.inc + k + 1) := by
  induction ts generalizing g with
  | nil => rfl
  | cons now ts ih =>
    have hinc : (genNext g now).inc % 2^32 = (g.inc + 1) % 2^32 := Int.bmod_emod ..
    rw [ids, ih, List.mapIdx_cons, bytes_genNext, Nat.cast_zero, add_zero]
    congr 2
    funext k t
    refine idBytes_congr _ _ rfl ?_
    push_cast
    omega

/-- Where the clock shows the same time at two calls, it shows this time at all calls between
them. -/
theorem lt_count_of_getElem {ts : List ℤ} (hclock : ts.Pairwise (· ≤ ·)) {i j : ℕ} (hij : i ≤ j)
    (hj : j < ts.length) (h : ts[i] = ts[j]) : j - i < ts.count ts[j] := by
  have hsame : (ts.drop i).take (j - i + 1) = List.replicate (j - i + 1) ts[j] := by
    refine List.eq_replicate_iff.mpr ⟨by simp only [List.length_take, List.length_drop]; omega, ?_⟩
    intro t ht
    obtain ⟨k, hk, rfl⟩ := List.getElem_of_mem ht
    simp only [List.length_take, List.length_drop] at hk
    rw [List.getElem_take, List.getElem_drop]
    have hlow : ts[i] ≤ ts[i + k] :=
      hclock.rel_get_of_le (a := ⟨i, by omega⟩) (b := ⟨i + k, by omega⟩) (by simp)
    have hhigh : ts[i + k] ≤ ts[j] :=
      hclock.rel_get_of_le (a := ⟨i + k, by omega⟩) (b := ⟨j, hj⟩) (by simp; omega)
    exact le_antisymm hhigh (h ▸ hlow)
  calc j - i < (List.replicate (j - i + 1) ts[j]).count ts[j] := by
        rw [List.count_replicate_self]
        omega
    _ = ((ts.drop i).take (j - i + 1)).count ts[j] := by rw [hsame]
    _ ≤ ts.count ts[j] := ((List.take_sublist ..).trans (List.drop_sublist ..)).count_le _

/-- The identifiers of a run are distinct, and their texts too. -/
theorem ids_distinct (g : Gen) {ts : List ℤ} (hclock : ts.Pairwise (· ≤ ·))
    (hcalls : ∀ t, ts.count t < 2^24) (hspan : ∀ t ∈ ts, ∀ t' ∈ ts, t' < t + 2^32) :
    (ids g ts).Nodup ∧ (texts g ts).Nodup := by
  have hids : (ids g ts).Nodup := by
    rw [ids_eq_mapIdx]
    refine List.pairwise_iff_getElem.mpr fun i j hi hj hij heq => ?_
    rw [List.length_mapIdx] at hi hj
    rw [List.getElem_mapIdx, List.getElem_mapIdx] at heq
    obtain ⟨htime, hinc⟩ := idBytes_inj heq
    have hlow := hspan _ (List.getElem_mem hi) _ (List.getElem_mem hj)
    have hhigh := hspan _ (List.getElem_mem hj) _ (List.getElem_mem hi)
    have hsecond : ts[i] = ts[j] := by omega
    have hcount := lt_count_of_getElem hclock hij.le hj hsecond
    have hfew := hcalls ts[j]
    omega
  exact ⟨hids, List.Nodup.map (fun _ _ => LuaMongo.littleToBig_injective) hids⟩

/-- A process that has made no identifier yet. -/
def Gen.start : Gen where
  the :=
    { time := List.replicate 4 0
      mac := List.replicate 3 0
      pid := List.replicate 2 0
      inc := List.replicate 3 0
      length_time := List.length_replicate
      length_mac := List.length_replicate
      length_pid := List.length_replicate
      length_inc := List.length_replicate }
  inc := 0

theorem ids_distinct_start :
    ([5, 5, 6] : List ℤ).Pairwise (· ≤ ·) ∧ (∀ t, ([5, 5, 6] : List ℤ).count t < 2^24) ∧
      (ids Gen.start [5, 5, 6]).Nodup ∧ (texts Gen.start [5, 5, 6]).Nodup := by
  have hclock : ([5, 5, 6] : List ℤ).Pairwise (· ≤ ·) := by decide
  have hcalls : ∀ t, ([5, 5, 6] : List ℤ).count t < 2^24 := fun t =>
    (List.count_le_length ..).trans_lt (by decide)
  exact ⟨hclock, hcalls, ids_distinct Gen.start hclock hcalls (by decide)⟩

/-- A clock that shows two seconds one after the other, and then one 136 years later. -/
def longClock : List ℤ :=
  0 :: (List.replicate (2^23 - 1) 0 ++ List.replicate (2^23) 1 ++ [2^32])

/-- Over `2^32` seconds the first and the last identifier can be the same. -/
theorem ids_repeat :
    longClock.Pairwise (· ≤ ·) ∧ (∀ t, longClock.count t < 2^24) ∧
      ¬(ids Gen.start longClock).Nodup ∧ ¬(texts Gen.start longClock).Nodup := by
  have hrepeat : ¬(ids Gen.start longClock).Nodup := by
    intro h
    rw [ids_eq_mapIdx, longClock, List.mapIdx_cons, List.mapIdx_concat, List.nodup_cons] at h
    refine h.1 (List.mem_append_right _ (List.mem_singleton.mpr ?_))
    simp only [List.length_append, List.length_replicate]
    rfl
  refine ⟨?_, fun t => ?_, hrepeat, fun h => hrepeat (List.Nodup.of_map _ h)⟩
  · rw [longClock, List.pairwise_cons, List.pairwise_append, List.pairwise_append]
    simp only [List.pairwise_replicate, List.mem_append, List.mem_replicate, List.mem_singleton]
    refine ⟨?_, ⟨.inr le_rfl, .inr le_rfl, ?_⟩, List.pairwise_singleton .., ?_⟩ <;> omega
  · simp only [longClock, List.count_cons, List.count_append, List.count_replicate, List.count_nil,
      beq_iff_eq]
    split_ifs <;> omega

end Oid

end Catse
