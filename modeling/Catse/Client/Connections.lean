import Catse.Client.Moves

/-!
# The connections of the io thread

`Registered` is the invariant of the client path about connections: the tables of `thread_io` have
exactly the live connections with callbacks, each under its own descriptor, and the record of
accepted connections splits into those and the ones that `close_connect` has removed. A connection
is removed at most once, and a later connection has a larger number, so a descriptor that has been
handed out twice went to the smaller number first.
-/

namespace Catse

/-- The connection that `cb_read` works on stays live while the connections stay the same. -/
theorem IoPc.Reads.mono {pc : IoPc} {io io' : ThreadIo} (h : pc.Reads io)
    (same : SameConns io io') : pc.Reads io' := by
  cases pc with
  | readLoop be =>
    obtain ⟨b, hb, hcb⟩ := h
    obtain ⟨b', hb', -, hcb'⟩ := same.exists_of_bes hb
    exact ⟨b', hb', hcb'.trans hcb⟩
  | readAlloc be =>
    obtain ⟨b, hb, hcb, hfd⟩ := h
    obtain ⟨b', hb', hfd', hcb'⟩ := same.exists_of_bes hb
    exact ⟨b', hb', hcb'.trans hcb, hfd'.trans hfd⟩
  | readPush be =>
    obtain ⟨b, hb, hcb⟩ := h
    obtain ⟨b', hb', -, hcb'⟩ := same.exists_of_bes hb
    exact ⟨b', hb', hcb'.trans hcb⟩
  | _ => trivial

namespace ClientState

/-- The tables and the records agree with the live connections. -/
structure Registered (s : ClientState) : Prop where
  tables : s.io.table.Consistent
  live_of_fd2be : ∀ fd be, s.io.table.fd2be fd = some be →
    ∃ b, s.io.bes be = some b ∧ b.fd = fd ∧ b.cb = true
  fd2be_of_live : ∀ be b, s.io.bes be = some b → b.cb = true → s.io.table.fd2be b.fd = some be
  created : ∀ be b, s.io.bes be = some b → be < s.io.created
  accepted_lt : ∀ c ∈ s.io.accepted, c.1 < s.io.created
  accepted_nodup : (s.io.accepted.map Prod.fst).Nodup
  accepted_range : ∀ c ∈ s.io.accepted, 0 ≤ c.2 ∧ c.2 < FdTable.fdMax
  accepted_of_live : ∀ be b, s.io.bes be = some b → b.cb = true → (be, b.fd) ∈ s.io.accepted
  accepted_cases : ∀ c ∈ s.io.accepted, c ∈ s.io.closed ∨
    ∃ b, s.io.bes c.1 = some b ∧ b.fd = c.2 ∧ b.cb = true
  closed_accepted : ∀ c ∈ s.io.closed, c ∈ s.io.accepted
  closed_dead : ∀ c ∈ s.io.closed, s.io.bes c.1 = none
  closed_nodup : (s.io.closed.map Prod.fst).Nodup
  closed_lt : ∀ c ∈ s.io.closed, ∀ be b, s.io.bes be = some b → b.cb = true → b.fd = c.2 → c.1 < be
  reads : s.ioPc.Reads s.io

variable {cfg : ClientConfig} {s s' : ClientState} {a : ClientAction}

/-- No connection yet. -/
theorem init_registered : (init cfg).Registered where
  tables := FdTable.empty_consistent
  live_of_fd2be _ _ h := absurd h (by simp [init, FdTable.empty])
  fd2be_of_live _ _ h := absurd h (by simp [init])
  created _ _ h := absurd h (by simp [init])
  accepted_lt _ h := absurd h (by simp [init])
  accepted_nodup := List.nodup_nil
  accepted_range _ h := absurd h (by simp [init])
  accepted_of_live _ _ h := absurd h (by simp [init])
  accepted_cases _ h := absurd h (by simp [init])
  closed_accepted _ h := absurd h (by simp [init])
  closed_dead _ h := absurd h (by simp [init])
  closed_nodup := List.nodup_nil
  closed_lt _ h := absurd h (by simp [init])
  reads := trivial

/-- Descriptors that are not open belong to no live connection. -/
theorem Registered.fd_ne_of_not_open (g : s.Registered) {fd : ℤ} (hopen : s.io.isOpen fd = false)
    {be : ℕ} {b : Bufferevent} (hb : s.io.bes be = some b) : b.fd ≠ fd := by
  intro he
  have hmem : s.io.isOpen fd = true := by
    unfold ThreadIo.isOpen
    apply List.any_eq_true.mpr
    exact ⟨be, List.mem_range.mpr (g.created be b hb), by simp [hb, he]⟩
  rw [hopen] at hmem
  exact absurd hmem (by simp)

/-- Two live connections with callbacks have different descriptors. -/
theorem Registered.eq_of_fd (g : s.Registered) {be be' : ℕ} {b b' : Bufferevent}
    (hb : s.io.bes be = some b) (hcb : b.cb = true) (hb' : s.io.bes be' = some b')
    (hcb' : b'.cb = true) (hfd : b.fd = b'.fd) : be = be' := by
  have h := g.fd2be_of_live be b hb hcb
  rw [hfd, g.fd2be_of_live be' b' hb' hcb'] at h
  exact (Option.some.inj h).symm

namespace Registered

/-- A step after which the connections are the same. -/
theorem of_same (g : s.Registered) (same : SameConns s.io s'.io)
    (hreads : s'.ioPc.Reads s'.io) : s'.Registered where
  tables := same.table ▸ g.tables
  -- A connection of one state is one of the other, with the same descriptor and callbacks.
  live_of_fd2be fd be h := by
    rw [same.table] at h
    obtain ⟨b, hb, hfd, hcb⟩ := g.live_of_fd2be fd be h
    obtain ⟨b', hb', hfd', hcb'⟩ := same.exists_of_bes hb
    exact ⟨b', hb', hfd'.trans hfd, hcb'.trans hcb⟩
  fd2be_of_live be b hb hcb := by
    obtain ⟨b', hb', hfd', hcb'⟩ := same.symm.exists_of_bes hb
    rw [same.table, ← hfd']
    exact g.fd2be_of_live be b' hb' (hcb'.trans hcb)
  created be b hb := by
    obtain ⟨b', hb', -⟩ := same.symm.exists_of_bes hb
    rw [same.created]
    exact g.created be b' hb'
  accepted_lt := by rw [same.accepted, same.created]; exact g.accepted_lt
  accepted_nodup := same.accepted ▸ g.accepted_nodup
  accepted_range := same.accepted ▸ g.accepted_range
  accepted_of_live be b hb hcb := by
    obtain ⟨b', hb', hfd', hcb'⟩ := same.symm.exists_of_bes hb
    rw [same.accepted, ← hfd']
    exact g.accepted_of_live be b' hb' (hcb'.trans hcb)
  accepted_cases c hc := by
    rw [same.accepted] at hc
    rw [same.closed]
    rcases g.accepted_cases c hc with hcl | ⟨b, hb, hfd, hcb⟩
    · exact .inl hcl
    · obtain ⟨b', hb', hfd', hcb'⟩ := same.exists_of_bes hb
      exact .inr ⟨b', hb', hfd'.trans hfd, hcb'.trans hcb⟩
  closed_accepted := by rw [same.accepted, same.closed]; exact g.closed_accepted
  closed_dead c hc := by
    rw [same.closed] at hc
    have hdead := same.bes c.1
    rw [g.closed_dead c hc] at hdead
    exact Option.map_eq_none_iff.mp hdead
  closed_nodup := same.closed ▸ g.closed_nodup
  closed_lt c hc be b hb hcb hfd := by
    rw [same.closed] at hc
    obtain ⟨b', hb', hfd', hcb'⟩ := same.symm.exists_of_bes hb
    exact g.closed_lt c hc be b' hb' (hcb'.trans hcb) (hfd'.trans hfd)
  reads := hreads

/-- The bufferevents after `bufferevent_socket_new`, where `cb` says whether callbacks are set. -/
def newBes (io : ThreadIo) (fd : ℤ) (cb : Bool) : ℕ → Option Bufferevent :=
  Function.update io.bes io.created (some ⟨fd, [], [], cb⟩)

/-- The new one is live, or an old one. -/
theorem newBes_inv {io : ThreadIo} {fd : ℤ} {cb : Bool} {be : ℕ} {b : Bufferevent}
    (hb : newBes io fd cb be = some b) :
    be = io.created ∧ b = ⟨fd, [], [], cb⟩ ∨ io.bes be = some b := by
  unfold newBes at hb
  by_cases hbe : be = io.created
  · subst hbe
    rw [Function.update_self] at hb
    exact .inl ⟨rfl, (Option.some.inj hb).symm⟩
  · rw [Function.update_of_ne hbe] at hb
    exact .inr hb

/-- Those that were live stay so. -/
theorem newBes_keeps (g : s.Registered) (fd : ℤ) (cb : Bool) {be : ℕ} {b : Bufferevent}
    (hb : s.io.bes be = some b) : newBes s.io fd cb be = some b := by
  have hlt := g.created be b hb
  unfold newBes
  rw [Function.update_of_ne (by omega)]
  exact hb

/-- Those that were removed stay so. -/
theorem newBes_closed (g : s.Registered) (fd : ℤ) (cb : Bool) {c : ℕ × ℤ} (hc : c ∈ s.io.closed) :
    newBes s.io fd cb c.1 = none := by
  have hlt := g.accepted_lt c (g.closed_accepted c hc)
  unfold newBes
  rw [Function.update_of_ne (by omega)]
  exact g.closed_dead c hc

/-- All of them have been created. -/
theorem newBes_lt (g : s.Registered) {fd : ℤ} {cb : Bool} {be : ℕ} {b : Bufferevent}
    (hb : newBes s.io fd cb be = some b) : be < s.io.created + 1 := by
  rcases newBes_inv hb with ⟨rfl, -⟩ | hb
  · exact Nat.lt_succ_self _
  · exact Nat.lt_succ_of_lt (g.created be b hb)

/-- `cb_listener` where the tables refuse the connection: its bufferevent lives on without
callbacks. -/
theorem accept_refused (g : s.Registered) {fd : ℤ} (hpc : s.ioPc = .idle)
    (hadd : s.io.table.fdAdd fd s.io.created = (false, s.io.table)) :
    { s with io := s.io.cbListener fd }.Registered := by
  have hio : s.io.cbListener fd = { s.io with
      bes := newBes s.io fd false, created := s.io.created + 1 } := by
    unfold ThreadIo.cbListener newBes
    simp [hadd]
  -- A connection with callbacks is an old one.
  have hold : ∀ be b, newBes s.io fd false be = some b → b.cb = true → s.io.bes be = some b := by
    intro be b hb hcb
    rcases newBes_inv hb with ⟨-, rfl⟩ | hb
    · exact absurd hcb (by simp)
    · exact hb
  rw [hio]
  exact {
    tables := g.tables
    live_of_fd2be := fun k be h => by
      obtain ⟨b, hb, hfd, hcb⟩ := g.live_of_fd2be k be h
      exact ⟨b, g.newBes_keeps fd false hb, hfd, hcb⟩
    fd2be_of_live := fun be b hb hcb => g.fd2be_of_live be b (hold be b hb hcb) hcb
    created := fun be b hb => g.newBes_lt hb
    accepted_lt := fun c hc => Nat.lt_succ_of_lt (g.accepted_lt c hc)
    accepted_nodup := g.accepted_nodup
    accepted_range := g.accepted_range
    accepted_of_live := fun be b hb hcb => g.accepted_of_live be b (hold be b hb hcb) hcb
    accepted_cases := fun c hc => by
      rcases g.accepted_cases c hc with hcl | ⟨b, hb, hfd, hcb⟩
      · exact .inl hcl
      · exact .inr ⟨b, g.newBes_keeps fd false hb, hfd, hcb⟩
    closed_accepted := g.closed_accepted
    closed_dead := fun c hc => g.newBes_closed fd false hc
    closed_nodup := g.closed_nodup
    closed_lt := fun c hc be b hb hcb hfd => g.closed_lt c hc be b (hold be b hb hcb) hcb hfd
    reads := by
      show s.ioPc.Reads _
      rw [hpc]
      trivial }

/-- `cb_listener` where the connection is entered in the tables, under a descriptor that no live
connection has. -/
theorem accept_entered (g : s.Registered) {fd : ℤ} (hpc : s.ioPc = .idle)
    (hopen : s.io.isOpen fd = false) (hrange : 0 ≤ fd ∧ fd < FdTable.fdMax)
    (hadd : s.io.table.fdAdd fd s.io.created = (true,
      { fd2be := Function.update s.io.table.fd2be fd (some s.io.created),
        fds := s.io.table.fds ++ [fd] })) :
    { s with io := s.io.cbListener fd }.Registered := by
  have htables : (s.io.table.fdAdd fd s.io.created).2.Consistent := g.tables.fdAdd fd _
  rw [hadd] at htables
  have hio : s.io.cbListener fd = { s.io with
      table := { fd2be := Function.update s.io.table.fd2be fd (some s.io.created),
                 fds := s.io.table.fds ++ [fd] }
      fd2websocket := Function.update s.io.fd2websocket fd false
      bes := newBes s.io fd true
      created := s.io.created + 1
      accepted := s.io.accepted ++ [(s.io.created, fd)] } := by
    unfold ThreadIo.cbListener newBes
    simp [hadd]
  have hnew : newBes s.io fd true s.io.created = some ⟨fd, [], [], true⟩ := Function.update_self ..
  rw [hio]
  exact {
    tables := htables
    live_of_fd2be := fun k be h => by
      change Function.update s.io.table.fd2be fd (some s.io.created) k = some be at h
      by_cases hk : k = fd
      · subst hk
        rw [Function.update_self] at h
        obtain rfl := Option.some.inj h
        exact ⟨_, hnew, rfl, rfl⟩
      · rw [Function.update_of_ne hk] at h
        obtain ⟨b, hb, hfd, hcb⟩ := g.live_of_fd2be k be h
        exact ⟨b, g.newBes_keeps fd true hb, hfd, hcb⟩
    fd2be_of_live := fun be b hb hcb => by
      show Function.update s.io.table.fd2be fd (some s.io.created) b.fd = some be
      rcases newBes_inv hb with ⟨rfl, rfl⟩ | hb
      · exact Function.update_self ..
      · rw [Function.update_of_ne (g.fd_ne_of_not_open hopen hb)]
        exact g.fd2be_of_live be b hb hcb
    created := fun be b hb => g.newBes_lt hb
    accepted_lt := fun c hc => by
      rcases List.mem_append.mp hc with hc | hc
      · exact Nat.lt_succ_of_lt (g.accepted_lt c hc)
      · rw [List.mem_singleton.mp hc]
        exact Nat.lt_succ_self _
    accepted_nodup := by
      show ((s.io.accepted ++ [(s.io.created, fd)]).map Prod.fst).Nodup
      -- The numbers of the others are smaller.
      have hnew : s.io.created ∉ s.io.accepted.map Prod.fst := fun hmem => by
        obtain ⟨c, hc, heq⟩ := List.mem_map.mp hmem
        exact (g.accepted_lt c hc).ne heq
      rw [List.map_append, List.map_singleton, ← List.concat_eq_append]
      exact g.accepted_nodup.concat hnew
    accepted_range := fun c hc => by
      rcases List.mem_append.mp hc with hc | hc
      · exact g.accepted_range c hc
      · rw [List.mem_singleton.mp hc]
        exact hrange
    accepted_of_live := fun be b hb hcb => by
      rcases newBes_inv hb with ⟨rfl, rfl⟩ | hb
      · exact List.mem_append_right _ (List.mem_singleton.mpr rfl)
      · exact List.mem_append_left _ (g.accepted_of_live be b hb hcb)
    accepted_cases := fun c hc => by
      rcases List.mem_append.mp hc with hc | hc
      · rcases g.accepted_cases c hc with hcl | ⟨b, hb, hfd, hcb⟩
        · exact .inl hcl
        · exact .inr ⟨b, g.newBes_keeps fd true hb, hfd, hcb⟩
      · rw [List.mem_singleton.mp hc]
        exact .inr ⟨_, hnew, rfl, rfl⟩
    closed_accepted := fun c hc => List.mem_append_left _ (g.closed_accepted c hc)
    closed_dead := fun c hc => g.newBes_closed fd true hc
    closed_nodup := g.closed_nodup
    closed_lt := fun c hc be b hb hcb hfd => by
      rcases newBes_inv hb with ⟨rfl, -⟩ | hb
      · exact g.accepted_lt c (g.closed_accepted c hc)
      · exact g.closed_lt c hc be b hb hcb hfd
    reads := by
      show s.ioPc.Reads _
      rw [hpc]
      trivial }

/-- `cb_listener` on a descriptor that is not open. -/
theorem accept (g : s.Registered) {fd : ℤ} (hpc : s.ioPc = .idle)
    (hopen : s.io.isOpen fd = false) : { s with io := s.io.cbListener fd }.Registered := by
  rcases s.io.table.fdAdd_spec fd s.io.created with hadd | ⟨hrange, -, -, hadd⟩
  · exact g.accept_refused hpc hadd
  · exact g.accept_entered hpc hopen hrange hadd

/-- `fd_del` and `bufferevent_free` of a live connection with callbacks: it leaves the tables and is
recorded as closed. -/
theorem remove_eq (g : s.Registered) {be : ℕ} {b : Bufferevent} (hb : s.io.bes be = some b)
    (hcb : b.cb = true) :
    s.io.remove be b.fd = { s.io with
      table := { fd2be := Function.update s.io.table.fd2be b.fd none,
                 fds := FdTable.moveLast s.io.table.fds (s.io.table.fds.idxOf b.fd) }
      bes := Function.update s.io.bes be none
      closed := s.io.closed ++ [(be, b.fd)] } := by
  have hreg : (s.io.table.fd2be b.fd).isSome := by
    rw [g.fd2be_of_live be b hb hcb]
    rfl
  unfold ThreadIo.remove
  rw [g.tables.fdDel_registered hreg]
  rfl

/-- `close_connect` up to `alloc`. -/
theorem close (g : s.Registered) {be : ℕ} {b : Bufferevent} (hb : s.io.bes be = some b)
    (hcb : b.cb = true) (reason real_reason : ℤ) :
    (s.closeConnect be b.fd reason real_reason).Registered := by
  have hkeep : ∀ {k b'}, Function.update s.io.bes be none k = some b' →
      k ≠ be ∧ s.io.bes k = some b' := by
    intro k b' h
    by_cases hk : k = be
    · subst hk
      rw [Function.update_self] at h
      exact absurd h (by simp)
    · rw [Function.update_of_ne hk] at h
      exact ⟨hk, h⟩
  have hnotin : be ∉ s.io.closed.map Prod.fst := by
    intro hmem
    obtain ⟨c, hc, hbe⟩ := List.mem_map.mp hmem
    have hdead := g.closed_dead c hc
    rw [hbe, hb] at hdead
    exact absurd hdead (by simp)
  have htables : (s.io.table.fdDel b.fd).2.Consistent := g.tables.fdDel b.fd
  rw [g.tables.fdDel_registered (by rw [g.fd2be_of_live be b hb hcb]; rfl)] at htables
  unfold closeConnect
  rw [g.remove_eq hb hcb]
  exact {
    tables := htables
    live_of_fd2be := fun k k' h => by
      change Function.update s.io.table.fd2be b.fd none k = some k' at h
      by_cases hk : k = b.fd
      · rw [hk, Function.update_self] at h
        exact absurd h (by simp)
      · rw [Function.update_of_ne hk] at h
        obtain ⟨b', hb', hfd, hcb'⟩ := g.live_of_fd2be k k' h
        refine ⟨b', ?_, hfd, hcb'⟩
        show Function.update s.io.bes be none k' = some b'
        rw [Function.update_of_ne]
        · exact hb'
        · rintro rfl
          rw [hb] at hb'
          exact hk (hfd.symm.trans (congrArg Bufferevent.fd (Option.some.inj hb').symm))
    fd2be_of_live := fun k b' hk hk' => by
      obtain ⟨hne, hb'⟩ := hkeep hk
      show Function.update s.io.table.fd2be b.fd none b'.fd = some k
      rw [Function.update_of_ne]
      · exact g.fd2be_of_live k b' hb' hk'
      · exact fun hfd => hne (g.eq_of_fd hb' hk' hb hcb hfd)
    created := fun k b' hk => g.created k b' (hkeep hk).2
    accepted_lt := g.accepted_lt
    accepted_nodup := g.accepted_nodup
    accepted_range := g.accepted_range
    accepted_of_live := fun k b' hk hk' => g.accepted_of_live k b' (hkeep hk).2 hk'
    accepted_cases := fun c hc => by
      rcases g.accepted_cases c hc with hcl | ⟨b', hb', hfd, hcb'⟩
      · exact .inl (List.mem_append_left _ hcl)
      · by_cases hk : c.1 = be
        · -- It is the connection that is closed now.
          left
          apply List.mem_append_right
          rw [hk, hb] at hb'
          have hfd' : b.fd = c.2 := (congrArg Bufferevent.fd (Option.some.inj hb')).trans hfd
          rw [List.mem_singleton, ← hk, hfd']
        · exact .inr ⟨b', (Function.update_of_ne hk _ _).trans hb', hfd, hcb'⟩
    closed_accepted := fun c hc => by
      rcases List.mem_append.mp hc with hc | hc
      · exact g.closed_accepted c hc
      · rw [List.mem_singleton.mp hc]
        exact g.accepted_of_live be b hb hcb
    closed_dead := fun c hc => by
      show Function.update s.io.bes be none c.1 = none
      rcases List.mem_append.mp hc with hc | hc
      · by_cases hk : c.1 = be
        · rw [hk, Function.update_self]
        · rw [Function.update_of_ne hk]
          exact g.closed_dead c hc
      · rw [List.mem_singleton.mp hc, Function.update_self]
    closed_nodup := by
      show ((s.io.closed ++ [(be, b.fd)]).map Prod.fst).Nodup
      rw [List.map_append, List.map_singleton, ← List.concat_eq_append]
      exact g.closed_nodup.concat hnotin
    closed_lt := fun c hc k b' hk hk' hfd => by
      obtain ⟨hne, hb'⟩ := hkeep hk
      rcases List.mem_append.mp hc with hc | hc
      · exact g.closed_lt c hc k b' hb' hk' hfd
      · rw [List.mem_singleton.mp hc] at hfd
        exact absurd (g.eq_of_fd hb' hk' hb hcb hfd) hne
    reads := trivial }

/-- Every step keeps the agreement. -/
theorem step (g : s.Registered) (hstep : step cfg s a = some s') : s'.Registered := by
  cases move_of_step hstep with
  | accept hpc _ hopen => exact g.accept hpc hopen
  | quiet same _ _ _ reads => exact g.of_same same ((reads g.reads).mono same)
  | @close _ io' be b _ _ same _ _ live cb =>
    -- The tables may have changed since `cb_read` found its connection, but not in what is looked
    -- at here.
    have g' : { s with io := io' }.Registered := g.of_same same (g.reads.mono same)
    obtain ⟨b', hb', hfd, hcb⟩ := same.exists_of_bes live
    rw [← hfd]
    exact g'.close hb' (hcb.trans (cb g.reads)) _ _
  | @readAlloc _ be cur_time fd id len pc =>
    have hreads := g.reads
    rw [pc] at hreads
    obtain ⟨b, hb, hcb, -⟩ := hreads
    obtain ⟨recv, pc', heq, rfl | rfl | rfl⟩ := s.readAlloc_eq be cur_time fd id len <;> rw [heq]
    · exact g.of_same (.refl _) trivial
    · exact g.of_same (.refl _) trivial
    · exact g.of_same (.refl _) ⟨b, hb, hcb⟩
  -- The other steps leave the connections alone, up to what is written to them.
  | readFree => exact g.of_same (.refl _) trivial
  | readPush pc =>
    have hreads := g.reads
    rw [pc] at hreads
    exact g.of_same (.refl _) hreads
  | closeAlloc =>
    obtain ⟨recv, pc', heq, rfl | rfl⟩ := closeAlloc_eq cfg s _ _ _ _ <;> rw [heq]
    · exact g.of_same (.refl _) trivial
    · exact g.of_same (.refl _) trivial
  | closePush => exact g.of_same (.refl _) trivial
  | timePop =>
    obtain ⟨send, pc', heq, rfl | rfl⟩ := s.timePop_eq <;> rw [heq]
    · exact g.of_same (.refl _) trivial
    · exact g.of_same (.refl _) trivial
  | timeSend =>
    obtain ⟨io, pc', heq, same, ⟨rfl, -⟩ | ⟨last, rfl⟩⟩ := s.timeSend_eq <;> rw [heq]
    · exact g.of_same same trivial
    · exact g.of_same same trivial
  | @timeFree _ last =>
    obtain ⟨send, pc', heq, rfl | rfl⟩ := s.timeFree_eq last <;> rw [heq]
    · exact g.of_same (.refl _) trivial
    · exact g.of_same (.refl _) trivial
  | sampleRecv => exact g.of_same (.refl _) g.reads
  | sampleDisconnect => exact g.of_same (.refl _) g.reads
  | take =>
    obtain ⟨recv, pc', heq⟩ := s.take_eq _ _
    rw [heq]
    exact g.of_same (.refl _) g.reads
  | ret => exact g.of_same (.refl _) g.reads
  | sendAlloc =>
    obtain ⟨send, pc', heq⟩ := s.sendAlloc_eq _ _ _
    rw [heq]
    exact g.of_same (.refl _) g.reads
  | sendPush => exact g.of_same (.refl _) g.reads
  | sendFree => exact g.of_same (.refl _) g.reads
  | setLimit => exact g.of_same (.refl _) g.reads

end Registered

/-- The tables and the records agree in every state of every run. -/
theorem run_registered {ok : ClientState → ClientAction → Prop} (run : Run cfg ok s) :
    s.Registered :=
  run.invariant init_registered fun _ _ _ _ g _ hstep => g.step hstep

end ClientState

end Catse
