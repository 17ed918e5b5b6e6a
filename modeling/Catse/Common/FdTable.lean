import Mathlib.Data.Int.Interval
import Mathlib.Data.List.Basic
import Mathlib.Data.List.Nodup
import Mathlib.Data.List.Perm.Basic
import Mathlib.Logic.Function.Basic
import Mathlib.Tactic.Common

/-!
# The connection tables `fd2be` and `fds`

The threads that serve sockets (`thread_io.h`, `thread_inner.h`) both keep the connections that they
have accepted in two tables: `fd2be` maps a file descriptor to its bufferevent, and
`fds[0, fds_len)` lists the descriptors in it. `fd_add` and `fd_del` are the same code in both, so
`FdTable` embeds them once, with the first `fds_len` entries of `fds` as a list.

`FdTable.Consistent` says that the two tables agree; both operations keep it.

`Bufferevent` is what the models of both threads keep of a bufferevent of libevent.
-/

namespace Catse

/-- A live bufferevent: its socket, its buffers, and whether it has callbacks. -/
structure Bufferevent where
  fd : ℤ
  input : List UInt8
  output : List UInt8
  cb : Bool

/-- The tables `fd2be` and `fds[0, fds_len)`. -/
structure FdTable (β : Type) where
  fd2be : ℤ → Option β
  fds : List ℤ

namespace FdTable

variable {β : Type}

/-- `fd_max`. -/
def fdMax : ℤ := 32768

/-- No connection. -/
def empty : FdTable β := ⟨fun _ => none, []⟩

/-- `fd_add`. -/
def fdAdd (t : FdTable β) (fd : ℤ) (be : β) : Bool × FdTable β :=
  if ¬(0 ≤ fd ∧ fd < fdMax) then (false, t)
  else if (t.fd2be fd).isSome then (false, t)
  else if fd ∈ t.fds then (false, t)
  else if fdMax ≤ t.fds.length then (false, t)
  else (true, { fd2be := Function.update t.fd2be fd (some be), fds := t.fds ++ [fd] })

/-- `fds[i] = fds[--fds_len]`. -/
def moveLast (l : List ℤ) (i : ℕ) : List ℤ := (l.set i (l.getLastD 0)).dropLast

/-- `fd_del`. -/
def fdDel (t : FdTable β) (fd : ℤ) : Bool × FdTable β :=
  if ¬(0 ≤ fd ∧ fd < fdMax) then (false, t)
  else if (t.fd2be fd).isNone then (false, t)
  else if fd ∈ t.fds then
    (true, { fd2be := Function.update t.fd2be fd none, fds := moveLast t.fds (t.fds.idxOf fd) })
  else (false, t)

/-- The list has no descriptor twice, and has exactly those that are mapped. -/
structure Consistent (t : FdTable β) : Prop where
  nodup : t.fds.Nodup
  mem_iff : ∀ fd, fd ∈ t.fds ↔ (t.fd2be fd).isSome
  range : ∀ fd ∈ t.fds, 0 ≤ fd ∧ fd < fdMax

theorem empty_consistent : (empty : FdTable β).Consistent where
  nodup := List.nodup_nil
  mem_iff fd := by simp [empty]
  range fd h := absurd h (by simp [empty])

/-- `fds[i] = fds[--fds_len]` removes the entry `i`, up to the order of the others. -/
theorem moveLast_perm {l : List ℤ} {i : ℕ} (h : i < l.length) :
    (l[i] :: moveLast l i).Perm l := by
  rcases List.eq_nil_or_concat' l with rfl | ⟨l, x, rfl⟩
  · simp at h
  unfold moveLast
  have hlast : (l ++ [x]).getLastD 0 = x := by simp
  simp only [hlast]
  rw [List.length_append, List.length_singleton] at h
  rcases Nat.lt_or_ge i l.length with hi | hi
  · -- An entry before the last one is overwritten with it.
    rw [List.set_append_left _ _ hi, List.dropLast_append_of_ne_nil (by simp),
      List.getElem_append_left hi]
    simp only [List.dropLast_singleton, List.append_nil]
    rw [List.set_eq_take_append_cons_drop, if_pos hi]
    conv_rhs => rw [← List.take_append_drop i l, List.drop_eq_getElem_cons hi]
    have hmid : (l[i] :: (l.take i ++ x :: l.drop (i + 1))).Perm
        (l.take i ++ l[i] :: (l.drop (i + 1) ++ [x])) := by
      refine List.perm_middle.symm.trans ?_
      refine List.Perm.append_left _ (List.Perm.cons _ ?_)
      exact (List.perm_append_singleton x _).symm
    rw [List.append_assoc, List.cons_append]
    exact hmid
  · -- The last entry itself is dropped.
    have hie : i = l.length := by omega
    subst hie
    rw [List.set_append_right _ _ Nat.le.refl]
    simp only [Nat.sub_self, List.set_cons_zero, List.dropLast_concat]
    rw [List.getElem_append_right Nat.le.refl]
    simp only [Nat.sub_self, List.getElem_cons_zero]
    exact (List.perm_append_singleton x l).symm

/-- So `fd_del` removes a descriptor that is in the list. -/
theorem moveLast_idxOf_perm {l : List ℤ} {fd : ℤ} (hmem : fd ∈ l) :
    (fd :: moveLast l (l.idxOf fd)).Perm l := by
  have hperm := moveLast_perm (List.idxOf_lt_length_of_mem hmem)
  rwa [List.getElem_idxOf] at hperm

/-- What `fd_add` does: it refuses and changes nothing, or enters the connection. -/
theorem fdAdd_spec (t : FdTable β) (fd : ℤ) (be : β) :
    t.fdAdd fd be = (false, t) ∨
      (0 ≤ fd ∧ fd < fdMax) ∧ t.fd2be fd = none ∧ fd ∉ t.fds ∧
        t.fdAdd fd be =
          (true, { fd2be := Function.update t.fd2be fd (some be), fds := t.fds ++ [fd] }) := by
  unfold fdAdd
  split_ifs with hr hs hm hl
  · exact .inl rfl
  · exact .inl rfl
  · exact .inl rfl
  · exact .inr ⟨hr, by simpa using hs, hm, rfl⟩
  · exact .inl rfl

/-- What `fd_del` does: it refuses and changes nothing, or removes the connection. -/
theorem fdDel_spec (t : FdTable β) (fd : ℤ) :
    t.fdDel fd = (false, t) ∨
      fd ∈ t.fds ∧ (t.fd2be fd).isSome ∧
        t.fdDel fd = (true, { fd2be := Function.update t.fd2be fd none,
                              fds := moveLast t.fds (t.fds.idxOf fd) }) := by
  unfold fdDel
  split_ifs with hr hn hm
  · exact .inl rfl
  · exact .inr ⟨hm, by simpa [Option.isSome_iff_ne_none] using hn, rfl⟩
  · exact .inl rfl
  · exact .inl rfl

/-- There is room for a descriptor that is not in the list. -/
theorem Consistent.length_lt {t : FdTable β} (h : t.Consistent) {fd : ℤ} (hr : 0 ≤ fd ∧ fd < fdMax)
    (hm : fd ∉ t.fds) : (t.fds.length : ℤ) < fdMax := by
  -- The list and the descriptor are different numbers of `[0, fdMax)`.
  have hnd : (fd :: t.fds).Nodup := List.nodup_cons.mpr ⟨hm, h.nodup⟩
  have hsub : (fd :: t.fds).toFinset ⊆ Finset.Ico 0 fdMax := by
    intro x hx
    rw [Finset.mem_Ico]
    rcases List.mem_cons.mp (List.mem_toFinset.mp hx) with rfl | hx
    · exact hr
    · exact h.range x hx
  have hcard := Finset.card_le_card hsub
  rw [List.toFinset_card_of_nodup hnd, Int.card_Ico, List.length_cons] at hcard
  have hmax : fdMax = 32768 := rfl
  omega

/-- `fd_add` refuses a descriptor that is out of range or registered. -/
theorem fdAdd_refused {t : FdTable β} {fd : ℤ} (be : β)
    (hno : ¬(0 ≤ fd ∧ fd < fdMax) ∨ (t.fd2be fd).isSome) : t.fdAdd fd be = (false, t) := by
  unfold fdAdd
  rcases hno with hrange | hsome
  · rw [if_pos hrange]
  · rw [if_pos hsome]
    exact ite_self _

/-- It enters any other, for which there is room. -/
theorem Consistent.fdAdd_free {t : FdTable β} (h : t.Consistent) {fd : ℤ} (be : β)
    (hrange : 0 ≤ fd ∧ fd < fdMax) (hfree : t.fd2be fd = none) :
    t.fdAdd fd be =
      (true, { fd2be := Function.update t.fd2be fd (some be), fds := t.fds ++ [fd] }) := by
  have hno : ¬(t.fd2be fd).isSome := by simp [hfree]
  have hm : fd ∉ t.fds := fun hm => hno ((h.mem_iff fd).mp hm)
  have hlt := h.length_lt hrange hm
  unfold fdAdd
  rw [if_neg (not_not.mpr hrange), if_neg hno, if_neg hm, if_neg (by omega)]

/-- A registered connection is deleted. -/
theorem Consistent.fdDel_registered {t : FdTable β} (h : t.Consistent) {fd : ℤ}
    (hs : (t.fd2be fd).isSome) :
    t.fdDel fd = (true, { fd2be := Function.update t.fd2be fd none,
                          fds := moveLast t.fds (t.fds.idxOf fd) }) := by
  have hm : fd ∈ t.fds := (h.mem_iff fd).mpr hs
  unfold fdDel
  rw [if_neg (not_not.mpr (h.range fd hm)), if_neg (by simp [Option.isSome_iff_ne_none.mp hs]),
    if_pos hm]

/-- `fd_add` keeps the tables in agreement. -/
theorem Consistent.fdAdd {t : FdTable β} (h : t.Consistent) (fd : ℤ) (be : β) :
    (t.fdAdd fd be).2.Consistent := by
  rcases t.fdAdd_spec fd be with he | ⟨hr, -, hm, he⟩ <;> rw [he]
  · exact h
  refine ⟨?_, fun x => ?_, fun x hx => ?_⟩
  · show (t.fds ++ [fd]).Nodup
    rw [← List.concat_eq_append]
    exact h.nodup.concat hm
  · by_cases hx : x = fd
    · subst hx
      simp
    · simp [hx, h.mem_iff]
  · rcases List.mem_append.mp hx with hx | hx
    · exact h.range x hx
    · rw [List.mem_singleton.mp hx]
      exact hr

/-- `fd_del` keeps the tables in agreement. -/
theorem Consistent.fdDel {t : FdTable β} (h : t.Consistent) (fd : ℤ) :
    (t.fdDel fd).2.Consistent := by
  rcases t.fdDel_spec fd with he | ⟨hm, -, he⟩ <;> rw [he]
  · exact h
  have hperm := moveLast_idxOf_perm hm
  have hnd : (fd :: moveLast t.fds (t.fds.idxOf fd)).Nodup := hperm.nodup_iff.mpr h.nodup
  obtain ⟨hnot, hnd'⟩ := List.nodup_cons.mp hnd
  have hmem : ∀ x, x ∈ t.fds ↔ x = fd ∨ x ∈ moveLast t.fds (t.fds.idxOf fd) := fun x => by
    rw [← hperm.mem_iff, List.mem_cons]
  refine ⟨hnd', fun x => ?_, fun x hx => h.range x ((hmem x).mpr (.inr hx))⟩
  by_cases hx : x = fd
  · subst hx
    simp [hnot]
  · show _ ↔ (Function.update t.fd2be fd none x).isSome
    rw [Function.update_of_ne hx, ← h.mem_iff, hmem]
    simp [hx]

end FdTable

end Catse
