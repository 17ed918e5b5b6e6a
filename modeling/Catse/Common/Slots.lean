import Catse.Common.MsgQueue
import Catse.Common.MsgPool
import Catse.Lib.Custody
import Mathlib.Data.Fintype.Sum
import Mathlib.Tactic.DeriveFintype

/-!
# A pool, the rings that its slots travel through, and the hands that hold them

Every message of the engine lives in a slot of a pool. A thread takes a slot with `alloc`, fills it,
and gives it up with `push` or `free`, or gets one from a ring with `pop` and gives it up with
`free`. `Slots` puts one pool together with the rings that its slots travel through and with the
pointer that each thread holds in the meantime (the local `msg` of the operation it is in). Every
caller in the source ignores what `push` and `free` return, so a slot whose `push` or `free` is
refused is in nobody's custody any more, which `lost` records.

The places of a slot are the free list, the rings, the hands, and `lost`. An operation moves one
slot from a place to another (`Moved` of `Catse/Lib/Custody.lean`), so `Conserved` is kept by all of
them: each slot is in exactly one place.
-/

namespace Catse

open Custody (Moved tokens)

/-- Where a slot can be. -/
inductive Place (R H : Type) where
  | free
  | ring (r : R)
  | hand (h : H)
  | lost
  deriving DecidableEq, Fintype

/-- A pool, its rings `R`, and what the threads `H` hold. `lost` lists the slots whose `push` or
`free` was refused: it is a record of the run that no function reads. -/
structure Slots (R H : Type) where
  pool : MsgStackPool
  ring : R → MsgQueue ℕ
  hand : H → Option ℕ
  lost : List ℕ

namespace Slots

variable {R H : Type}

/-- A pool of `n` slots, rings of the capacities `cap`, and empty hands. -/
def init (n : ℕ) (cap : R → ℕ) : Slots R H :=
  ⟨MsgStackPool.init n, fun r => MsgQueue.init (cap r), fun _ => none, []⟩

/-- `msg = pool.alloc()`. -/
def alloc [DecidableEq H] (s : Slots R H) (h : H) : Slots R H :=
  { s with pool := s.pool.alloc.2, hand := Function.update s.hand h s.pool.alloc.1 }

/-- `ring.push(msg)`, whose result the caller ignores. -/
def push [DecidableEq R] [DecidableEq H] (s : Slots R H) (h : H) (r : R) : Slots R H :=
  { s with
    ring := Function.update s.ring r ((s.ring r).push (s.hand h)).2
    hand := Function.update s.hand h none
    lost := if ((s.ring r).push (s.hand h)).1 then s.lost else s.lost ++ (s.hand h).toList }

/-- `msg = ring.pop()`. -/
def pop [DecidableEq R] [DecidableEq H] (s : Slots R H) (h : H) (r : R) : Slots R H :=
  { s with
    ring := Function.update s.ring r (s.ring r).pop.2
    hand := Function.update s.hand h (s.ring r).pop.1 }

/-- `pool.free(msg)`, whose result the caller ignores. -/
def free [DecidableEq H] (s : Slots R H) (h : H) : Slots R H :=
  match s.hand h with
  | none => s
  | some i =>
    { s with
      pool := (s.pool.free i).2
      hand := Function.update s.hand h none
      lost := if (s.pool.free i).1 then s.lost else s.lost ++ [i] }

/-- What each place holds. -/
def custody (s : Slots R H) : Place R H → List ℕ
  | .free => s.pool.freeSlots
  | .ring r => (s.ring r).toList
  | .hand h => (s.hand h).toList
  | .lost => s.lost

/-- With another ring and another hand the other places are as before. -/
theorem custody_update [DecidableEq R] [DecidableEq H] {s : Slots R H} {r : R} {m' : MsgQueue ℕ}
    {h : H} {o : Option ℕ} {p : Place R H} (hr : p ≠ .ring r) (hh : p ≠ .hand h) :
    ({ s with ring := Function.update s.ring r m', hand := Function.update s.hand h o } :
      Slots R H).custody p = s.custody p := by
  cases p with
  | free => rfl
  | lost => rfl
  | ring r' =>
    have hr' : r' ≠ r := fun he => hr (by rw [he])
    simp only [custody]
    rw [Function.update_of_ne hr']
  | hand k =>
    have hk : k ≠ h := fun he => hh (by rw [he])
    simp only [custody]
    rw [Function.update_of_ne hk]

section Conserved

variable [Fintype R] [Fintype H]

/-- Nothing has appeared or disappeared: the rings are well formed and of the capacities `cap`, and
the places hold the slots `0`, ..., `n - 1`, each of them once. -/
structure Conserved (n : ℕ) (cap : R → ℕ) (s : Slots R H) : Prop where
  pool_cap : s.pool.cap = n
  holds : ∀ r, (s.ring r).Holds (s.ring r).toList
  ring_cap : ∀ r, (s.ring r).cap = cap r
  tokens_eq : tokens s.custody = Multiset.range n

variable {n : ℕ} {cap : R → ℕ} {s s' : Slots R H}

/-- A new pool is conserved: every slot is free. -/
theorem init_conserved (hcap : ∀ r, 0 < cap r) : (init n cap : Slots R H).Conserved n cap where
  pool_cap := rfl
  holds r := by
    have h := MsgQueue.init_holds (α := ℕ) (hcap r)
    show (MsgQueue.init (cap r)).Holds (MsgQueue.init (cap r)).toList
    rw [h.toList_eq]
    exact h
  ring_cap _ := rfl
  tokens_eq := by
    have hplace : ∀ p ∈ (Finset.univ : Finset (Place R H)), p ≠ .free →
        ((init n cap : Slots R H).custody p : Multiset ℕ) = 0 := by
      rintro (_ | r | h | _) - hne
      · exact absurd rfl hne
      · show (((MsgQueue.init (cap r)).toList : List ℕ) : Multiset ℕ) = 0
        rw [(MsgQueue.init_holds (hcap r)).toList_eq]
        rfl
      · rfl
      · rfl
    unfold tokens
    rw [Finset.sum_eq_single Place.free hplace (fun h => absurd (Finset.mem_univ _) h)]
    simp [custody, init, Multiset.range]

/-- No slot is in two places, or twice in one. -/
theorem Conserved.nodup (hc : s.Conserved n cap) : (tokens s.custody).Nodup := by
  rw [hc.tokens_eq]
  exact Multiset.nodup_range n

/-- Two places together hold at most `n` slots. -/
theorem Conserved.length_add_le (hc : s.Conserved n cap) {p q : Place R H} (hne : p ≠ q) :
    (s.custody p).length + (s.custody q).length ≤ n := by
  have h := Custody.length_add_le (h := s.custody) hne
  rwa [hc.tokens_eq, Multiset.card_range] at h

/-- A slot is in some place exactly when it is one of the pool's. -/
theorem Conserved.lt_iff (hc : s.Conserved n cap) {i : ℕ} : i < n ↔ ∃ p, i ∈ s.custody p := by
  rw [← Custody.mem_tokens, hc.tokens_eq, Multiset.mem_range]

/-- A move of one slot, with the rings still well formed, conserves the slots. -/
theorem Conserved.of_moved (hc : s.Conserved n cap) (hpool : s'.pool.cap = s.pool.cap)
    (hholds : ∀ r, (s'.ring r).Holds (s'.ring r).toList) (hcap : ∀ r, (s'.ring r).cap = cap r)
    {t : ℕ} {p q : Place R H} (hm : Moved s.custody s'.custody t p q) : s'.Conserved n cap :=
  ⟨hpool.trans hc.pool_cap, hholds, hcap, hm.tokens_eq.trans hc.tokens_eq⟩

/-- `alloc` with an empty hand: it changes nothing when no slot is free, and otherwise moves a free
slot into the hand. -/
theorem Conserved.alloc_spec [DecidableEq H] (hc : s.Conserved n cap) {h : H}
    (hh : s.hand h = none) :
    (s.pool.freeSlots = [] ∧ s.alloc h = s) ∨
      ∃ i l, s.pool.freeSlots = l ++ [i] ∧ (s.alloc h).pool.freeSlots = l ∧
        (s.alloc h).hand = Function.update s.hand h (some i) ∧ (s.alloc h).ring = s.ring ∧
        (s.alloc h).lost = s.lost ∧ (s.alloc h).Conserved n cap := by
  by_cases hnil : s.pool.freeSlots = []
  · left
    refine ⟨hnil, ?_⟩
    unfold alloc
    rw [MsgStackPool.alloc_nil hnil]
    simp only [← hh, Function.update_eq_self]
  · right
    obtain ⟨i, l, p', hfree, halloc, hl, hpc⟩ := MsgStackPool.alloc_snoc hnil
    have hs' : s.alloc h = { s with pool := p', hand := Function.update s.hand h (some i) } := by
      unfold alloc
      rw [halloc]
    refine ⟨i, l, hfree, by rw [hs']; exact hl, by rw [hs'], by rw [hs'], by rw [hs'], ?_⟩
    rw [hs']
    -- The slot `i` goes from the free list to the hand; nothing else changes places.
    refine hc.of_moved hpc hc.holds hc.ring_cap (t := i) (p := .free) (q := .hand h)
      ⟨by simp, ?_, ?_, ?_⟩
    · simp only [custody]
      rw [hfree, hl]
      exact List.perm_append_singleton i l
    · simp [custody, hh]
    · rintro (_ | r | k | _) hp hq
      · exact absurd rfl hp
      · rfl
      · have hk : k ≠ h := fun he => hq (by rw [he])
        simp only [custody]
        rw [Function.update_of_ne hk]
      · rfl

/-- The rings are well formed when one is replaced by another that is. -/
theorem Conserved.holds_update [DecidableEq R] (hc : s.Conserved n cap) {r : R} {m' : MsgQueue ℕ}
    {l : List ℕ} (hm' : m'.Holds l) (r' : R) :
    (Function.update s.ring r m' r').Holds (Function.update s.ring r m' r').toList := by
  by_cases hr' : r' = r
  · rw [hr', Function.update_self, hm'.toList_eq]
    exact hm'
  · rw [Function.update_of_ne hr']
    exact hc.holds r'

/-- They keep their capacities when it has the same one. -/
theorem Conserved.cap_update [DecidableEq R] (hc : s.Conserved n cap) {r : R} {m' : MsgQueue ℕ}
    (hcap' : m'.cap = (s.ring r).cap) (r' : R) :
    (Function.update s.ring r m' r').cap = cap r' := by
  by_cases hr' : r' = r
  · rw [hr', Function.update_self, hcap']
    exact hc.ring_cap r
  · rw [Function.update_of_ne hr']
    exact hc.ring_cap r'

/-- `push` of the slot in a hand: a ring with room gets it as its last entry, and from a full ring
it is lost. -/
theorem Conserved.push_spec [DecidableEq R] [DecidableEq H] (hc : s.Conserved n cap) {h : H}
    {r : R} {i : ℕ} (hh : s.hand h = some i) :
    (s.push h r).pool = s.pool ∧ (s.push h r).hand = Function.update s.hand h none ∧
      (∀ r', r' ≠ r → (s.push h r).ring r' = s.ring r') ∧ (s.push h r).Conserved n cap ∧
      (((s.ring r).toList.length + 1 < cap r ∧
          ((s.push h r).ring r).toList = (s.ring r).toList ++ [i] ∧ (s.push h r).lost = s.lost) ∨
        ((s.ring r).toList.length + 1 = cap r ∧ (s.push h r).ring r = s.ring r ∧
          (s.push h r).lost = s.lost ++ [i])) := by
  have hr := hc.holds r
  have hcr := hc.ring_cap r
  have hframe : ∀ k : H, k ≠ h → Function.update s.hand h none k = s.hand k :=
    fun k hk => Function.update_of_ne hk _ _
  refine ⟨rfl, rfl, fun r' hr' => Function.update_of_ne hr' _ _, ?_⟩
  rcases Nat.lt_or_ge ((s.ring r).toList.length + 1) (cap r) with hroom | hfull
  · obtain ⟨m', hpush, hm', hcap'⟩ := hr.push_room (by rw [hcr]; exact hroom) i
    have hs' : s.push h r = { s with
        ring := Function.update s.ring r m', hand := Function.update s.hand h none } := by
      unfold push
      rw [hh, hpush]
      rfl
    have hlist : ((s.push h r).ring r).toList = (s.ring r).toList ++ [i] := by
      rw [hs']
      simp only [Function.update_self]
      exact hm'.toList_eq
    refine ⟨?_, .inl ⟨hroom, hlist, by rw [hs']⟩⟩
    have hmoved : Moved s.custody (s.push h r).custody i (.hand h) (.ring r) := by
      refine ⟨by simp, ?_, ?_, fun p hp hq => ?_⟩
      · rw [hs']
        simp [custody, hh]
      · show ((s.push h r).ring r).toList.Perm (i :: (s.ring r).toList)
        rw [hlist]
        exact List.perm_append_singleton _ _
      · rw [hs']
        exact custody_update hq hp
    exact hc.of_moved rfl (fun r' => by rw [hs']; exact hc.holds_update hm' r')
      (fun r' => by rw [hs']; exact hc.cap_update hcap' r') hmoved
  · -- The ring refuses the slot, which then is nowhere.
    have hlen : (s.ring r).toList.length + 1 = cap r := by
      have := hr.length_lt
      omega
    have hs' : s.push h r = { s with
        hand := Function.update s.hand h none, lost := s.lost ++ [i] } := by
      unfold push
      rw [hh, hr.push_full (hlen.trans hcr.symm)]
      simp only [Function.update_eq_self]
      rfl
    refine ⟨?_, .inr ⟨hlen, by rw [hs'], by rw [hs']⟩⟩
    rw [hs']
    refine hc.of_moved rfl hc.holds hc.ring_cap (t := i) (p := .hand h) (q := .lost)
      ⟨by simp, ?_, ?_, ?_⟩
    · simp [custody, hh]
    · exact List.perm_append_singleton _ _
    · rintro (_ | r' | k | _) hp hq
      · rfl
      · rfl
      · have hk : k ≠ h := fun he => hp (by rw [he])
        simp only [custody]
        rw [hframe k hk]
      · exact absurd rfl hq

/-- `pop` into an empty hand: it changes nothing on an empty ring, and otherwise moves the oldest
entry into the hand. -/
theorem Conserved.pop_spec [DecidableEq R] [DecidableEq H] (hc : s.Conserved n cap) {h : H}
    {r : R} (hh : s.hand h = none) :
    ((s.ring r).toList = [] ∧ s.pop h r = s) ∨
      ∃ i l, (s.ring r).toList = i :: l ∧ ((s.pop h r).ring r).toList = l ∧
        (s.pop h r).hand = Function.update s.hand h (some i) ∧ (s.pop h r).pool = s.pool ∧
        (∀ r', r' ≠ r → (s.pop h r).ring r' = s.ring r') ∧ (s.pop h r).lost = s.lost ∧
        (s.pop h r).Conserved n cap := by
  have hr := hc.holds r
  cases hl : (s.ring r).toList with
  | nil =>
    left
    refine ⟨rfl, ?_⟩
    rw [hl] at hr
    unfold pop
    rw [hr.pop_nil]
    simp only [← hh, Function.update_eq_self]
  | cons i l =>
    right
    rw [hl] at hr
    obtain ⟨m', hpop, hm', hcap'⟩ := hr.pop_cons
    -- The ring and one hand change, and nothing else does.
    have hs' : s.pop h r = { s with
        ring := Function.update s.ring r m', hand := Function.update s.hand h (some i) } := by
      unfold pop
      rw [hpop]
    have hlist : ((s.pop h r).ring r).toList = l := by
      rw [hs']
      simp only [Function.update_self]
      exact hm'.toList_eq
    refine ⟨i, l, rfl, hlist, by rw [hs'], by rw [hs'],
      fun r' hr' => Function.update_of_ne hr' _ _, by rw [hs'], ?_⟩
    -- The slot goes from the ring to the hand, so that it is in one place as before.
    have hmoved : Moved s.custody (s.pop h r).custody i (.ring r) (.hand h) := by
      refine ⟨by simp, ?_, ?_, fun p hp hq => ?_⟩
      · show (s.ring r).toList.Perm (i :: ((s.pop h r).ring r).toList)
        rw [hlist, hl]
      · rw [hs']
        simp [custody, hh]
      · rw [hs']
        exact custody_update hp hq
    exact hc.of_moved rfl (fun r' => by rw [hs']; exact hc.holds_update hm' r')
      (fun r' => by rw [hs']; exact hc.cap_update hcap' r') hmoved

/-- `free` of the slot in a hand never fails, since that slot is missing from the free list. -/
theorem Conserved.free_spec [DecidableEq H] (hc : s.Conserved n cap) {h : H} {i : ℕ}
    (hh : s.hand h = some i) :
    (s.free h).pool.freeSlots = s.pool.freeSlots ++ [i] ∧
      (s.free h).hand = Function.update s.hand h none ∧ (s.free h).ring = s.ring ∧
      (s.free h).lost = s.lost ∧ (s.free h).Conserved n cap := by
  -- The slot in the hand is not free, so that fewer than `n` are.
  have htop : s.pool.top ≠ s.pool.cap := by
    have hle := hc.length_add_le (p := .free) (q := .hand h) (by simp)
    simp only [custody, hh, MsgStackPool.length_freeSlots, Option.toList_some,
      List.length_singleton] at hle
    rw [hc.pool_cap]
    omega
  obtain ⟨p', hfree, hl, hpc⟩ := MsgStackPool.free_room htop i
  have hs' : s.free h = { s with pool := p', hand := Function.update s.hand h none } := by
    unfold free
    rw [hh]
    simp only [hfree]
    rfl
  refine ⟨by rw [hs']; exact hl, by rw [hs'], by rw [hs'], by rw [hs'], ?_⟩
  rw [hs']
  -- The slot `i` goes from the hand back to the free list.
  refine hc.of_moved hpc hc.holds hc.ring_cap (t := i) (p := .hand h) (q := .free)
    ⟨by simp, ?_, ?_, ?_⟩
  · simp [custody, hh]
  · simp only [custody]
    rw [hl]
    exact List.perm_append_singleton _ _
  · rintro (_ | r | k | _) hp hq
    · exact absurd rfl hq
    · rfl
    · have hk : k ≠ h := fun he => hp (by rw [he])
      simp only [custody]
      rw [Function.update_of_ne hk]
    · rfl

/-- A ring with a cell for every slot and the empty cell never refuses a slot. -/
theorem Conserved.push_lost [DecidableEq R] [DecidableEq H] (hc : s.Conserved n cap) {h : H}
    {r : R} {i : ℕ} (hh : s.hand h = some i) (hcap : n + 1 ≤ cap r) :
    (s.push h r).lost = s.lost := by
  rcases (hc.push_spec (r := r) hh).2.2.2.2 with ⟨-, -, hl⟩ | ⟨hfull, -⟩
  · exact hl
  · have hle := hc.length_add_le (p := .ring r) (q := .hand h) (by simp)
    simp only [custody, hh, Option.toList_some, List.length_singleton] at hle
    omega

/-- `push` accepts a slot exactly when the ring has room for it beside the empty cell. -/
theorem Conserved.push_accepted_iff (hc : s.Conserved n cap) {h : H} {r : R} {i : ℕ}
    (hh : s.hand h = some i) :
    ((s.ring r).push (s.hand h)).1 = true ↔ (s.ring r).toList.length + 1 < cap r := by
  have hr := hc.holds r
  have hcap := hc.ring_cap r
  have hlt := hr.length_lt
  rw [hh]
  constructor
  · intro hpush
    by_contra hfull
    rw [hr.push_full (by omega)] at hpush
    exact absurd hpush (by simp)
  · intro hroom
    obtain ⟨m', hpush, -⟩ := hr.push_room (by omega) i
    rw [hpush]

/-- So `push` loses no slot exactly when the ring has room. -/
theorem Conserved.push_lost_iff [DecidableEq R] [DecidableEq H] (hc : s.Conserved n cap) {h : H}
    {r : R} {i : ℕ} (hh : s.hand h = some i) :
    (s.push h r).lost = s.lost ↔ (s.ring r).toList.length + 1 < cap r := by
  have hcase := (hc.push_spec (r := r) hh).2.2.2.2
  constructor
  · intro heq
    rcases hcase with ⟨hroom, -, -⟩ | ⟨-, -, hlost⟩
    · exact hroom
    · have hne : s.lost ≠ s.lost ++ [i] := by simp
      exact absurd (heq.symm.trans hlost) hne
  · intro hroom
    rcases hcase with ⟨-, -, hlost⟩ | ⟨hfull, -, -⟩
    · exact hlost
    · omega

/-- Each slot is in exactly one place. -/
theorem Conserved.existsUnique_place (hc : s.Conserved n cap) {i : ℕ} (hi : i < n) :
    ∃! p, i ∈ s.custody p := by
  obtain ⟨p, hp⟩ := hc.lt_iff.mp hi
  exact ⟨p, hp, fun q hq => Custody.place_unique hc.nodup hq hp⟩

/-- With empty hands and no slot lost, each slot is on the free list or in exactly one ring. -/
theorem Conserved.free_or_ring (hc : s.Conserved n cap) (hlost : s.lost = [])
    (hhand : ∀ h, s.hand h = none) {i : ℕ} (hi : i < n) :
    (i ∈ s.pool.freeSlots ∧ ∀ r, i ∉ (s.ring r).toList) ∨
      (i ∉ s.pool.freeSlots ∧ ∃! r, i ∈ (s.ring r).toList) := by
  obtain ⟨p, hp, hu⟩ := hc.existsUnique_place hi
  cases p with
  | free =>
    left
    refine ⟨hp, fun r hr => ?_⟩
    have hne := hu (.ring r) hr
    exact absurd hne (by simp)
  | ring r =>
    right
    refine ⟨fun hfree => absurd (hu .free hfree) (by simp), r, hp, fun r' hr' => ?_⟩
    have heq := hu (.ring r') hr'
    injection heq
  | hand h =>
    simp only [custody, hhand h, Option.toList_none] at hp
    exact absurd hp (by simp)
  | lost =>
    simp only [custody, hlost] at hp
    exact absurd hp (by simp)

end Conserved

end Slots

end Catse
