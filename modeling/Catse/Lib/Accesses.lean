import Mathlib.Data.List.Basic
import Mathlib.Tactic.Common

/-!
# Accesses to buffers

`Logged` is a computation that notes where it reads one buffer and where it writes another. Its
value is that of the computation without the notes (`val_bind`), and it stays within its buffers
when each of its parts does (`within_bind`, `within_foldlM`).
-/

namespace Catse

/-- A computation with the places that it reads and the places that it writes. -/
structure Logged (α : Type) where
  val : α
  reads : List ℕ
  writes : List ℕ

namespace Logged

variable {α β σ : Type}

instance : Monad Logged where
  pure x := ⟨x, [], []⟩
  bind x f := ⟨(f x.val).val, x.reads ++ (f x.val).reads, x.writes ++ (f x.val).writes⟩

/-- The element at a place. -/
def read (mem : ℕ → α) (pos : ℕ) : Logged α := ⟨mem pos, [pos], []⟩

/-- The `n` elements from a place on, as `memcpy` reads them. -/
def readMany (mem : ℕ → α) (pos n : ℕ) : Logged (List α) :=
  ⟨(List.range n).map fun i => mem (pos + i), (List.range n).map fun i => pos + i, []⟩

/-- A change of the state that writes the `n` first places. -/
def writeFirst (s : σ) (n : ℕ) : Logged σ := ⟨s, [], List.range n⟩

/-- A change of the state that writes one place. -/
def write (s : σ) (pos : ℕ) : Logged σ := ⟨s, [], [pos]⟩

@[simp] theorem val_pure (x : α) : (pure x : Logged α).val = x := rfl

@[simp] theorem val_bind (t : Logged α) (f : α → Logged β) : (t >>= f).val = (f t.val).val := rfl

@[simp] theorem val_read (mem : ℕ → α) (pos : ℕ) : (read mem pos).val = mem pos := rfl

@[simp] theorem val_readMany (mem : ℕ → α) (pos n : ℕ) :
    (readMany mem pos n).val = (List.range n).map fun i => mem (pos + i) := rfl

@[simp] theorem val_writeFirst (s : σ) (n : ℕ) : (writeFirst s n).val = s := rfl

@[simp] theorem val_write (s : σ) (pos : ℕ) : (write s pos).val = s := rfl

theorem val_foldlM (f : σ → ℕ → Logged σ) (l : List ℕ) (s : σ) :
    (l.foldlM f s).val = l.foldl (fun s i => (f s i).val) s := by
  induction l generalizing s with
  | nil => rfl
  | cons i l ih =>
    rw [List.foldlM_cons, List.foldl_cons, val_bind, ih]

/-! ## Bounds -/

/-- It reads below `n` and writes below `m`. -/
structure Within (n m : ℕ) (t : Logged α) : Prop where
  reads : ∀ i ∈ t.reads, i < n
  writes : ∀ i ∈ t.writes, i < m

variable {n m : ℕ}

@[simp] theorem within_pure (x : α) : (pure x : Logged α).Within n m :=
  ⟨fun _ h => absurd h List.not_mem_nil, fun _ h => absurd h List.not_mem_nil⟩

theorem within_bind (t : Logged α) (f : α → Logged β) :
    (t >>= f).Within n m ↔ t.Within n m ∧ (f t.val).Within n m := by
  constructor
  · intro h
    exact ⟨⟨fun i hi => h.reads i (List.mem_append_left _ hi),
        fun i hi => h.writes i (List.mem_append_left _ hi)⟩,
      ⟨fun i hi => h.reads i (List.mem_append_right _ hi),
        fun i hi => h.writes i (List.mem_append_right _ hi)⟩⟩
  · rintro ⟨ht, hf⟩
    exact ⟨fun i hi => (List.mem_append.mp hi).elim (ht.reads i) (hf.reads i),
      fun i hi => (List.mem_append.mp hi).elim (ht.writes i) (hf.writes i)⟩

@[simp] theorem within_read (mem : ℕ → α) (pos : ℕ) : (read mem pos).Within n m ↔ pos < n := by
  refine ⟨fun h => h.reads pos (List.mem_singleton_self pos), fun h => ⟨fun i hi => ?_, ?_⟩⟩
  · rw [List.mem_singleton.mp hi]
    exact h
  · exact fun _ h => absurd h List.not_mem_nil

@[simp] theorem within_write (s : σ) (pos : ℕ) : (write s pos).Within n m ↔ pos < m := by
  refine ⟨fun h => h.writes pos (List.mem_singleton_self pos), fun h => ⟨?_, fun i hi => ?_⟩⟩
  · exact fun _ h => absurd h List.not_mem_nil
  · rw [List.mem_singleton.mp hi]
    exact h

/-- Elements one behind the other are within the buffer when there are none or the last one is. -/
@[simp] theorem within_readMany (mem : ℕ → α) (pos k : ℕ) :
    (readMany mem pos k).Within n m ↔ k = 0 ∨ pos + k ≤ n := by
  constructor
  · intro h
    rcases Nat.eq_zero_or_pos k with rfl | hk
    · exact .inl rfl
    · have hlast : pos + (k - 1) < n :=
        h.reads _ (List.mem_map.mpr ⟨k - 1, List.mem_range.mpr (by omega), rfl⟩)
      exact .inr (by omega)
  · intro h
    refine ⟨fun i hi => ?_, fun _ h => absurd h List.not_mem_nil⟩
    obtain ⟨j, hj, rfl⟩ := List.mem_map.mp hi
    have hjk := List.mem_range.mp hj
    omega

@[simp] theorem within_writeFirst (s : σ) (k : ℕ) : (writeFirst s k).Within n m ↔ k ≤ m := by
  constructor
  · intro h
    by_contra hlt
    exact absurd (h.writes m (List.mem_range.mpr (by omega))) (Nat.lt_irrefl m)
  · intro h
    refine ⟨fun _ h => absurd h List.not_mem_nil, fun i hi => ?_⟩
    have hik := List.mem_range.mp hi
    omega

/-- A loop stays within its buffers when each round does, whatever the state. -/
theorem within_foldlM {f : σ → ℕ → Logged σ} {P : ℕ → Prop}
    (hf : ∀ s i, (f s i).Within n m ↔ P i) (l : List ℕ) (s : σ) :
    (l.foldlM f s).Within n m ↔ ∀ i ∈ l, P i := by
  induction l generalizing s with
  | nil => exact ⟨fun _ _ h => absurd h List.not_mem_nil, fun _ => within_pure s⟩
  | cons i l ih =>
    rw [List.foldlM_cons, within_bind, hf, ih, List.forall_mem_cons]

end Logged

end Catse
