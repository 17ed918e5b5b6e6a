import Catse.Admin.Machine

/-!
# The connections of the admin thread

`Listed` is the invariant of the connection tables: they have exactly the live connections with
callbacks, each under its own descriptor. `fd_add` of a descriptor that no bufferevent has,
`close_connect` and a change of the buffers keep it.
-/

namespace Catse

/-- The tables have the live connections with callbacks, each under the descriptor that it began
with. -/
structure Listed (t : FdTable ℕ) (bes : ℕ → Option Bufferevent) (created : ℕ) (born : ℕ → ℤ) :
    Prop where
  tables : t.Consistent
  live_of_fd2be : ∀ fd k, t.fd2be fd = some k → ∃ b, bes k = some b ∧ b.fd = fd ∧ b.cb = true
  fd2be_of_live : ∀ k b, bes k = some b → b.cb = true → t.fd2be b.fd = some k
  created : ∀ k b, bes k = some b → k < created
  born : ∀ k b, bes k = some b → born k = b.fd

namespace Listed

variable {t : FdTable ℕ} {bes : ℕ → Option Bufferevent} {created : ℕ} {born : ℕ → ℤ}
  {k : ℕ} {b : Bufferevent}

theorem init : Listed FdTable.empty (fun _ => none) 0 fun _ => 0 where
  tables := FdTable.empty_consistent
  live_of_fd2be _ _ h := absurd h (by simp [FdTable.empty])
  fd2be_of_live _ _ h := absurd h (by simp)
  created _ _ h := absurd h (by simp)
  born _ _ h := absurd h (by simp)

/-- A connection with callbacks has a descriptor that fits the tables. -/
theorem fd_range (g : Listed t bes created born) (hb : bes k = some b) (hcb : b.cb = true) :
    0 ≤ b.fd ∧ b.fd < FdTable.fdMax :=
  g.tables.range b.fd ((g.tables.mem_iff b.fd).mpr (by rw [g.fd2be_of_live k b hb hcb]; rfl))

/-- `msg->fd = fd` keeps such a descriptor. -/
theorem toShort_fd (g : Listed t bes created born) (hb : bes k = some b) (hcb : b.cb = true) :
    toShort b.fd = b.fd := by
  have hfd := g.fd_range hb hcb
  unfold FdTable.fdMax at hfd
  exact toShort_of_range (by omega)

/-- Two connections with callbacks have different descriptors. -/
theorem eq_of_fd (g : Listed t bes created born) {k' : ℕ} {b' : Bufferevent}
    (hb : bes k = some b) (hcb : b.cb = true) (hb' : bes k' = some b') (hcb' : b'.cb = true)
    (hfd : b.fd = b'.fd) : k = k' := by
  have h := g.fd2be_of_live k b hb hcb
  rw [hfd, g.fd2be_of_live k' b' hb' hcb'] at h
  exact (Option.some.inj h).symm

/-- A live bufferevent gets other buffers. -/
theorem buffers (g : Listed t bes created born) (hb : bes k = some b) {b' : Bufferevent}
    (hfd : b'.fd = b.fd) (hcb : b'.cb = b.cb) :
    Listed t (Function.update bes k (some b')) created born := by
  have hold : ∀ j c, Function.update bes k (some b') j = some c →
      ∃ c', bes j = some c' ∧ c.fd = c'.fd ∧ c.cb = c'.cb := by
    intro j c hj
    by_cases hjk : j = k
    · subst hjk
      rw [Function.update_self] at hj
      obtain rfl := Option.some.inj hj
      exact ⟨b, hb, hfd, hcb⟩
    · rw [Function.update_of_ne hjk] at hj
      exact ⟨c, hj, rfl, rfl⟩
  refine ⟨g.tables, fun fd j h => ?_, fun j c hj hc => ?_, fun j c hj => ?_, fun j c hj => ?_⟩
  · obtain ⟨c, hj, hc, hcc⟩ := g.live_of_fd2be fd j h
    by_cases hjk : j = k
    · subst hjk
      rw [hb] at hj
      obtain rfl := Option.some.inj hj
      exact ⟨b', Function.update_self .., hfd.trans hc, hcb.trans hcc⟩
    · exact ⟨c, (Function.update_of_ne hjk _ _).trans hj, hc, hcc⟩
  · obtain ⟨c', hj', hcfd, hccb⟩ := hold j c hj
    rw [hcfd]
    exact g.fd2be_of_live j c' hj' (hccb ▸ hc)
  · obtain ⟨c', hj', -, -⟩ := hold j c hj
    exact g.created j c' hj'
  · obtain ⟨c', hj', hcfd, -⟩ := hold j c hj
    rw [hcfd]
    exact g.born j c' hj'

/-- A new bufferevent, with callbacks if `fd_add` enters it. -/
theorem accept (g : Listed t bes created born) {fd : ℤ}
    (hopen : ∀ k b, bes k = some b → b.fd ≠ fd) :
    Listed (t.fdAdd fd created).2
      (Function.update bes created (some ⟨fd, [], [], (t.fdAdd fd created).1⟩)) (created + 1)
      (Function.update born created fd) := by
  have hnew : ∀ {j c}, Function.update bes created
      (some ⟨fd, [], [], (t.fdAdd fd created).1⟩) j = some c →
      j = created ∧ c = ⟨fd, [], [], (t.fdAdd fd created).1⟩ ∨ j ≠ created ∧ bes j = some c := by
    intro j c hj
    by_cases hjc : j = created
    · rw [hjc, Function.update_self] at hj
      exact .inl ⟨hjc, (Option.some.inj hj).symm⟩
    · rw [Function.update_of_ne hjc] at hj
      exact .inr ⟨hjc, hj⟩
  have hkeep : ∀ {j c}, bes j = some c → Function.update bes created
      (some ⟨fd, [], [], (t.fdAdd fd created).1⟩) j = some c := fun {j c} hj =>
    (Function.update_of_ne (g.created j c hj).ne _ _).trans hj
  refine ⟨g.tables.fdAdd fd created, fun x j h => ?_, fun j c hj hc => ?_, fun j c hj => ?_,
    fun j c hj => ?_⟩
  · rcases t.fdAdd_spec fd created with hadd | ⟨-, -, -, hadd⟩
    · rw [hadd] at h
      obtain ⟨c, hj, hcfd, hc⟩ := g.live_of_fd2be x j h
      exact ⟨c, hkeep hj, hcfd, hc⟩
    · rw [hadd] at h
      change Function.update t.fd2be fd (some created) x = some j at h
      by_cases hx : x = fd
      · rw [hx, Function.update_self] at h
        obtain rfl := Option.some.inj h
        exact ⟨_, Function.update_self .., hx.symm, by rw [hadd]⟩
      · rw [Function.update_of_ne hx] at h
        obtain ⟨c, hj, hcfd, hc⟩ := g.live_of_fd2be x j h
        exact ⟨c, hkeep hj, hcfd, hc⟩
  · rcases hnew hj with ⟨rfl, rfl⟩ | ⟨-, hj⟩
    · -- It has callbacks, so it has been entered.
      rcases t.fdAdd_spec fd j with hadd | ⟨-, -, -, hadd⟩
      · rw [hadd] at hc
        exact absurd hc (by simp)
      · rw [hadd]
        exact Function.update_self ..
    · have hne := hopen j c hj
      rcases t.fdAdd_spec fd created with hadd | ⟨-, -, -, hadd⟩ <;> rw [hadd]
      · exact g.fd2be_of_live j c hj hc
      · exact (Function.update_of_ne hne _ _).trans (g.fd2be_of_live j c hj hc)
  · rcases hnew hj with ⟨rfl, -⟩ | ⟨-, hj⟩
    · exact Nat.lt_succ_self _
    · exact Nat.lt_succ_of_lt (g.created j c hj)
  · rcases hnew hj with ⟨rfl, rfl⟩ | ⟨hjc, hj⟩
    · exact Function.update_self ..
    · exact (Function.update_of_ne hjc _ _).trans (g.born j c hj)

/-- `close_connect` takes its connection out of the tables. -/
theorem fd2be_close (g : Listed t bes created born) (hb : bes k = some b) (hcb : b.cb = true) :
    (t.fdDel b.fd).2.fd2be = Function.update t.fd2be b.fd none := by
  rw [g.tables.fdDel_registered (by rw [g.fd2be_of_live k b hb hcb]; rfl)]

/-- `close_connect` of a connection with callbacks. -/
theorem close (g : Listed t bes created born) (hb : bes k = some b) (hcb : b.cb = true) :
    Listed (t.fdDel b.fd).2 (Function.update bes k none) created born := by
  have hdel := g.fd2be_close hb hcb
  have hold : ∀ {j c}, Function.update bes k none j = some c → j ≠ k ∧ bes j = some c := by
    intro j c hj
    by_cases hjk : j = k
    · rw [hjk, Function.update_self] at hj
      exact absurd hj (by simp)
    · exact ⟨hjk, (Function.update_of_ne hjk _ _).symm.trans hj⟩
  refine ⟨g.tables.fdDel b.fd, fun fd j h => ?_, fun j c hj hc => ?_,
    fun j c hj => g.created j c (hold hj).2, fun j c hj => g.born j c (hold hj).2⟩
  · rw [hdel] at h
    by_cases hfd : fd = b.fd
    · rw [hfd, Function.update_self] at h
      exact absurd h (by simp)
    · rw [Function.update_of_ne hfd] at h
      obtain ⟨c, hj, hcfd, hc⟩ := g.live_of_fd2be fd j h
      refine ⟨c, (Function.update_of_ne ?_ _ _).trans hj, hcfd, hc⟩
      rintro rfl
      rw [hb] at hj
      exact hfd (hcfd.symm.trans (congrArg Bufferevent.fd (Option.some.inj hj).symm))
  · obtain ⟨hne, hj⟩ := hold hj
    rw [hdel]
    refine (Function.update_of_ne ?_ _ _).trans (g.fd2be_of_live j c hj hc)
    exact fun hfd => hne (g.eq_of_fd hj hc hb hcb hfd)

end Listed

namespace AdminState

/-- A descriptor that is not open belongs to no live bufferevent. -/
theorem fd_ne_of_not_open {s : AdminState} {fd : ℤ} (hopen : s.isOpen fd = false)
    (hcreated : ∀ k b, s.bes k = some b → k < s.created) {k : ℕ} {b : Bufferevent}
    (hb : s.bes k = some b) : b.fd ≠ fd := by
  intro hfd
  have hmem : s.isOpen fd = true :=
    List.any_eq_true.mpr ⟨k, List.mem_range.mpr (hcreated k b hb), by simp [hb, hfd]⟩
  rw [hopen] at hmem
  exact absurd hmem (by simp)

end AdminState

end Catse
