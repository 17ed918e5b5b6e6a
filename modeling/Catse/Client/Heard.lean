import Catse.Client.Limits

/-!
# Which clients are heard

`Clocked` adds to the client path the clock, and the time at which `check_pk_limit` last accepted a
packet of each descriptor and id. `Timely` says how these bound the intervals that the table of the
rate limit keeps. So a packet that comes when its interval has passed is accepted, if the table has
its descriptor at all, and the io thread brings it into `q_recv_io` whatever the logic thread does
meanwhile (`packet_heard_iff`). The tables of `thread_io` have twice as many descriptors.
-/

namespace Catse

/-- The client path with the clock, as the io thread has last read it. Record: for each descriptor
and id, when `check_pk_limit` last accepted a packet. -/
structure Clocked where
  state : ClientState
  clock : ℤ
  accepted : ℤ → ℤ → Option ℤ

namespace Clocked

/-- The record after a step of the io thread. -/
def record (accepted : ℤ → ℤ → Option ℤ) (pc : IoPc) (fd id : ℤ) : Option ℤ :=
  match pc.passed with
  | none => accepted fd id
  | some p => if fd = p.1 ∧ id = p.2.1 then some p.2.2 else accepted fd id

/-- The start, at some time in milliseconds since 1970. -/
def init (cfg : ClientConfig) : Clocked := ⟨ClientState.init cfg, 0, fun _ _ => none⟩

/-- A step of the client path. The clock does not go back. -/
def step (cfg : ClientConfig) (c : Clocked) (a : ClientAction) : Option Clocked :=
  match a with
  | .io now =>
    if c.clock ≤ now then
      (ClientState.step cfg c.state (.io now)).map fun s => ⟨s, now, record c.accepted s.ioPc⟩
    else none
  | a => (ClientState.step cfg c.state a).map fun s => { c with state := s }

/-- What the table of the rate limit, the record and the clock have to do with each other. -/
structure Timely (c : Clocked) : Prop where
  clock : 0 ≤ c.clock
  record : ∀ fd id t, c.accepted fd id = some t → 0 ≤ t ∧ t ≤ c.clock
  cur_time : 0 ≤ c.state.ioPc.curTime ∧ c.state.ioPc.curTime ≤ c.clock
  latest : c.state.ioPc.curTime ≠ 0 →
    ∀ fd id t, c.accepted fd id = some t → t ≤ c.state.ioPc.curTime
  fresh : ∀ fd id, c.accepted fd id = none →
    c.state.pk.last_cnt fd id = 0 ∧ c.state.pk.last_time fd id = 0
  started : ∀ fd id t, c.accepted fd id = some t → c.state.pk.last_time fd id ≤ t

variable {cfg : ClientConfig} {c c' : Clocked} {a : ClientAction}

theorem init_timely : (init cfg).Timely where
  clock := le_rfl
  record _ _ _ h := nomatch h
  cur_time := ⟨le_rfl, le_rfl⟩
  latest h := absurd rfl h
  fresh _ _ _ := ⟨rfl, rfl⟩
  started _ _ _ h := nomatch h

theorem record_of_none {pc : IoPc} (h : pc.passed = none) (accepted : ℤ → ℤ → Option ℤ) :
    record accepted pc = accepted := by
  funext fd id
  rw [record, h]

/-- A step that accepts no packet and keeps the intervals, with the time of the `cb_read` after
it. -/
theorem Timely.of_time (h : c.Timely) {s : ClientState} {clock : ℤ} (hclock : c.clock ≤ clock)
    (hcnt : s.pk.last_cnt = c.state.pk.last_cnt) (htime : s.pk.last_time = c.state.pk.last_time)
    (hcur : 0 ≤ s.ioPc.curTime ∧ s.ioPc.curTime ≤ clock)
    (hlatest : s.ioPc.curTime ≠ 0 → ∀ fd id t, c.accepted fd id = some t → t ≤ s.ioPc.curTime) :
    Timely ⟨s, clock, c.accepted⟩ where
  clock := h.clock.trans hclock
  record fd id t ht := ⟨(h.record fd id t ht).1, (h.record fd id t ht).2.trans hclock⟩
  cur_time := hcur
  latest := hlatest
  fresh fd id hnone := by
    dsimp only
    rw [hcnt, htime]
    exact h.fresh fd id hnone
  started fd id t ht := by
    dsimp only
    rw [htime]
    exact h.started fd id t ht

/-- Where it has read no other time than before. -/
theorem Timely.of_last (h : c.Timely) {s : ClientState} {clock : ℤ} (hclock : c.clock ≤ clock)
    (hcnt : s.pk.last_cnt = c.state.pk.last_cnt) (htime : s.pk.last_time = c.state.pk.last_time)
    (hcur : s.ioPc.curTime = 0 ∨ s.ioPc.curTime = c.state.ioPc.curTime) :
    Timely ⟨s, clock, c.accepted⟩ := by
  rcases hcur with hzero | hsame
  · refine h.of_time hclock hcnt htime ?_ fun hne => absurd hzero hne
    rw [hzero]
    exact ⟨le_rfl, h.clock.trans hclock⟩
  · refine h.of_time hclock hcnt htime ?_ ?_ <;> rw [hsame]
    · exact ⟨h.cur_time.1, h.cur_time.2.trans hclock⟩
    · exact h.latest

/-- The time that a check goes by: the clock has shown it since the packets before were accepted. -/
theorem Timely.check_time (h : c.Timely) {t now : ℤ} (hcur : c.state.ioPc.curTime = t)
    (hnow : c.clock ≤ now) :
    (0 ≤ (if t = 0 then now else t) ∧ (if t = 0 then now else t) ≤ now) ∧
      ∀ fd id t', c.accepted fd id = some t' → t' ≤ if t = 0 then now else t := by
  subst hcur
  by_cases hzero : c.state.ioPc.curTime = 0
  · rw [if_pos hzero]
    exact ⟨⟨h.clock.trans hnow, le_rfl⟩, fun fd id t' ht' => (h.record fd id t' ht').2.trans hnow⟩
  · rw [if_neg hzero]
    exact ⟨⟨h.cur_time.1, h.cur_time.2.trans hnow⟩, h.latest hzero⟩

/-- A check that comes after the start of the interval. -/
theorem check_last {l : PkLimit} {t fd id : ℤ} (h : l.last_time fd id ≤ t) :
    ((l.checkPkLimit t fd id).1 ≠ .ok → (l.checkPkLimit t fd id).2 = l) ∧
      (l.checkPkLimit t fd id).2.last_time fd id ≤ t := by
  rcases l.checkPkLimit_cases t fd id with ⟨heq, -⟩ | ⟨-, heq⟩
  · rw [heq]
    exact ⟨fun _ => rfl, h⟩
  · rw [heq]
    split_ifs with hfull hover
    · exact ⟨fun _ => rfl, h⟩
    · refine ⟨fun hne => absurd rfl hne, ?_⟩
      simp only [Function.update_self, le_refl]
    · exact ⟨fun hne => absurd rfl hne, h⟩

/-- A packet of `fd` is accepted at the time `t`, and this is recorded. -/
theorem Timely.accept (h : c.Timely) {s : ClientState} {be : ℕ} {t fd id len clock : ℤ}
    (hclock : c.clock ≤ clock) (ht : 0 ≤ t ∧ t ≤ clock)
    (hlate : ∀ fd id t', c.accepted fd id = some t' → t' ≤ t)
    (hpk : s.pk = (c.state.pk.checkPkLimit t fd id).2)
    (hlast : (c.state.pk.checkPkLimit t fd id).2.last_time fd id ≤ t)
    (hpc : s.ioPc = .readAlloc be t fd id len) :
    Timely ⟨s, clock, Clocked.record c.accepted s.ioPc⟩ := by
  -- The new record is at `fd` and `id` alone, and so is what the limit has changed.
  have hrecord : ∀ fd' id', Clocked.record c.accepted s.ioPc fd' id' =
      if fd' = fd ∧ id' = id then some t else c.accepted fd' id' := by
    intro fd' id'
    rw [hpc]
    rfl
  have hrecorded : ∀ fd' id' t', Clocked.record c.accepted s.ioPc fd' id' = some t' →
      t' = t ∧ fd' = fd ∧ id' = id ∨ c.accepted fd' id' = some t' ∧ ¬(fd' = fd ∧ id' = id) := by
    intro fd' id' t' ht'
    rw [hrecord] at ht'
    split_ifs at ht' with hsame
    · exact .inl ⟨(Option.some.inj ht').symm, hsame⟩
    · exact .inr ⟨ht', hsame⟩
  have hother : ∀ fd' id', ¬(fd' = fd ∧ id' = id) →
      s.pk.window fd' id' = c.state.pk.window fd' id' := by
    intro fd' id' hne
    rw [hpk]
    exact PkLimit.check_window_of_ne fun hsame => hne ⟨hsame.1.symm, hsame.2.symm⟩
  have hcur : s.ioPc.curTime = t := by rw [hpc]; rfl
  -- The fields one by one; a recorded time is the new one, or one from before.
  constructor
  · exact h.clock.trans hclock
  · intro fd' id' t' ht'
    rcases hrecorded fd' id' t' ht' with ⟨rfl, -⟩ | ⟨hacc, -⟩
    · exact ht
    · exact ⟨(h.record _ _ _ hacc).1, (h.record _ _ _ hacc).2.trans hclock⟩
  · rwa [hcur]
  · intro _ fd' id' t' ht'
    rw [hcur]
    rcases hrecorded fd' id' t' ht' with ⟨rfl, -⟩ | ⟨hacc, -⟩
    · exact le_rfl
    · exact hlate _ _ _ hacc
  · intro fd' id' hnone
    dsimp only at hnone
    rw [hrecord] at hnone
    split_ifs at hnone with hsame
    have hwindow := hother fd' id' hsame
    obtain ⟨hused, hstart⟩ := h.fresh fd' id' hnone
    exact ⟨(congrArg Window.used hwindow).trans hused, (congrArg Window.start hwindow).trans hstart⟩
  · intro fd' id' t' ht'
    rcases hrecorded fd' id' t' ht' with ⟨rfl, rfl, rfl⟩ | ⟨hacc, hne⟩
    · dsimp only
      rwa [hpk]
    · exact (congrArg Window.start (hother fd' id' hne)).le.trans (h.started _ _ _ hacc)

/-- An iteration of the loop of `cb_read`. -/
theorem Timely.readLoop (h : c.Timely) {be : ℕ} {t now : ℤ} (hpc : c.state.ioPc = .readLoop be t)
    (hnow : c.clock ≤ now) :
    Timely ⟨c.state.readLoop be t now, now,
      Clocked.record c.accepted (c.state.readLoop be t now).ioPc⟩ := by
  have hcur : c.state.ioPc.curTime = t := by rw [hpc]; rfl
  rcases c.state.readLoop_check be t now with ⟨hpk, hpassed, htime⟩ | ⟨b, id, len, -, hpk, hgo⟩
  · rw [record_of_none hpassed]
    exact h.of_last hnow (by rw [hpk]) (by rw [hpk]) (by rwa [hcur])
  obtain ⟨hrange, hlate⟩ := h.check_time hcur hnow
  generalize (if t = 0 then now else t) = t' at *
  have hstart : c.state.pk.last_time b.fd id ≤ t' := by
    cases hacc : c.accepted b.fd id with
    | none =>
      rw [(h.fresh _ _ hacc).2]
      exact hrange.1
    | some t₀ => exact (h.started _ _ _ hacc).trans (hlate _ _ _ hacc)
  obtain ⟨hrefused, hlast⟩ := check_last hstart
  by_cases hok : (c.state.pk.checkPkLimit t' b.fd id).1 = .ok
  · rw [if_neg (not_not.mpr hok)] at hgo
    exact h.accept hnow hrange hlate hpk hlast hgo
  · rw [if_pos hok] at hgo
    rw [hrefused hok] at hpk
    have hpassed : (c.state.readLoop be t now).ioPc.passed = none := by rw [hgo]; rfl
    have hcur' : (c.state.readLoop be t now).ioPc.curTime = t' := by rw [hgo]; rfl
    rw [record_of_none hpassed]
    exact h.of_time hnow (by rw [hpk]) (by rw [hpk]) (hcur' ▸ hrange) fun _ => hcur' ▸ hlate

/-- A step is one of the client path, and the clock and the record are those of an iteration of the
io thread, or as before. -/
theorem step_eq (hstep : step cfg c a = some c') :
    ∃ s, ClientState.step cfg c.state a = some s ∧
      ((∃ now, a = .io now ∧ c.clock ≤ now ∧ c' = ⟨s, now, Clocked.record c.accepted s.ioPc⟩) ∨
        ((∀ now, a ≠ .io now) ∧ c' = { c with state := s })) := by
  cases a with
  | io now =>
    obtain ⟨hnow, hstep⟩ := Option.ite_none_right_eq_some.mp hstep
    obtain ⟨s, hs, rfl⟩ := Option.map_eq_some_iff.mp hstep
    exact ⟨s, hs, .inl ⟨now, rfl, hnow, rfl⟩⟩
  | _ =>
    obtain ⟨s, hs, rfl⟩ := Option.map_eq_some_iff.mp hstep
    exact ⟨s, hs, .inr ⟨nofun, rfl⟩⟩

/-- Every step keeps this. -/
theorem Timely.step (h : c.Timely) (hstep : step cfg c a = some c') : c'.Timely := by
  obtain ⟨s, hs, ⟨now, rfl, hnow, rfl⟩ | ⟨hnot, rfl⟩⟩ := step_eq hstep
  · rcases ClientState.step_io_check hs with ⟨be, t, hpc, rfl⟩ | ⟨hpk, hpassed, hcur⟩
    · exact h.readLoop hpc hnow
    · rw [record_of_none hpassed]
      exact h.of_last hnow (by rw [hpk]) (by rw [hpk]) hcur
  cases hthread : a.thread with
  | io =>
    obtain ⟨hpk, hcur⟩ := ClientState.step_call_check hthread hnot hs
    exact h.of_last le_rfl (by rw [hpk]) (by rw [hpk]) (.inl hcur)
  | logic =>
    obtain ⟨-, hpc, -⟩ := ClientState.step_logic_side hthread hs
    have hcur : s.ioPc.curTime = 0 ∨ s.ioPc.curTime = c.state.ioPc.curTime := .inr (by rw [hpc])
    rcases ClientState.step_logic_check hthread hs with hpk | ⟨key, second, cnt, hpk⟩
    · exact h.of_last le_rfl (by rw [hpk]) (by rw [hpk]) hcur
    · obtain ⟨-, hpk⟩ := Option.ite_none_left_eq_some.mp hpk
      have hset := Option.some.inj hpk
      exact h.of_last le_rfl (by rw [← hset]) (by rw [← hset]) hcur

/-- A run with the clock. -/
abbrev Run (cfg : ClientConfig) : Clocked → Prop := Reach (step cfg) (init cfg) anyStep

theorem run_timely (run : Run cfg c) : c.Timely :=
  run.invariant init_timely fun _ _ _ _ h _ hstep => h.step hstep

/-- Without the clock it is a run of the client path. -/
theorem run_state (run : Run cfg c) : ClientState.Run cfg anyStep c.state := by
  refine run.invariant (I := fun c => ClientState.Run cfg anyStep c.state) .start ?_
  intro c a c' _ hc _ hstep
  obtain ⟨s, hs, ⟨now, rfl, -, rfl⟩ | ⟨-, rfl⟩⟩ := step_eq hstep
  · exact hc.next trivial hs
  · exact hc.next trivial hs

end Clocked

/-! ## The way of a packet into `q_recv_io` -/

namespace Observed

variable {cfg : ClientConfig} {be : ℕ} {o o' : Observed} {p : ClientPacket} {fd t : ℤ}

/-- Within `n` steps of the io thread, whatever the logic thread does before each of them, the
packet is pushed. -/
def Reaches (cfg : ClientConfig) (be : ℕ) (content : ℤ × List UInt8) : ℕ → Observed → Prop
  | 0, o => content ∈ o.pushed
  | n + 1, o => ∀ as o', (∀ a ∈ as, a.thread = .logic) → exec (step cfg be) o as = some o' →
      ∀ now, ∃ o'', step cfg be o' (.io now) = some o'' ∧ Reaches cfg be content n o''

/-- The packet is in the scratch buffer, and a slot is free for it. -/
structure Filling (cfg : ClientConfig) (be : ℕ) (fd : ℤ) (t : ℤ) (p : ClientPacket)
    (o : Observed) : Prop where
  custody : o.state.RecvCustody cfg
  pc : o.state.ioPc = .readAlloc be t fd p.id p.body.length
  body : (o.state.io.websocket.buf.drop 4).take p.body.length = p.body
  room : o.state.recv.slots.pool.freeSlots ≠ []

/-- The packet is in the slot at hand. -/
structure Pushing (cfg : ClientConfig) (be : ℕ) (t : ℤ) (p : ClientPacket) (o : Observed) :
    Prop where
  custody : o.state.RecvCustody cfg
  pc : o.state.ioPc = .readPush be t
  content : ∃ i, o.state.recv.slots.hand .io = some i ∧
    (o.state.recv.list i).content = p.content

/-- The logic thread takes no slots out of `msg_recv_pool`. -/
theorem step_logic_room {s s' : ClientState} {a : ClientAction} (ha : a.thread = .logic)
    (hstep : ClientState.step cfg s a = some s') (h : s.recv.slots.pool.freeSlots ≠ []) :
    s'.recv.slots.pool.freeSlots ≠ [] := by
  -- To give a slot back leaves one that is free.
  have hfree : (s.recv.free .logic).slots.pool.freeSlots ≠ [] := by
    unfold RecvChannel.free Slots.free
    cases s.recv.slots.hand .logic with
    | none => exact h
    | some i =>
      dsimp only
      by_cases hfull : s.recv.slots.pool.top = s.recv.slots.pool.cap
      · rw [MsgStackPool.free, if_pos hfull]
        exact h
      · obtain ⟨p', heq, hslots, -⟩ := MsgStackPool.free_room hfull i
        rw [heq, hslots]
        exact List.append_ne_nil_of_right_ne_nil _ (List.cons_ne_nil i [])
  cases a with
  | logic =>
    have heq := ClientState.step_logic_eq hstep
    generalize s.sendPc = sendPc at heq
    generalize s.logicPc = logicPc at heq
    cases sendPc with
    | push => rw [heq]; exact h
    | free => rw [heq]; exact h
    | idle =>
      cases logicPc with
      | idle => rw [heq]; exact h
      | sampledRecv cg => rw [heq]; exact h
      | sampled cg gg =>
        rw [heq]
        unfold ClientState.take
        dsimp only
        split
        · exact h
        · exact h
        · exact h
        · split_ifs <;> exact h
      -- All other statements leave the pool as it is.
      | handling => rw [heq]; exact hfree
      | fault => exact heq.elim
  | send k proto_id written =>
    obtain ⟨-, hstep⟩ := Option.ite_none_right_eq_some.mp hstep
    obtain ⟨send, pc, heq⟩ := ClientState.sendAlloc_eq s k proto_id written
    rw [← Option.some.inj hstep, heq]
    exact h
  | setLimit key second cnt =>
    obtain ⟨-, hstep⟩ := Option.ite_none_right_eq_some.mp hstep
    obtain ⟨pk', -, rfl⟩ := Option.map_eq_some_iff.mp hstep
    exact h
  | _ => cases ha

/-- It leaves a packet in the scratch buffer there. -/
theorem Filling.logic (h : Filling cfg be fd t p o) {a : ClientAction} (ha : a.thread = .logic)
    (hstep : step cfg be o a = some o') : Filling cfg be fd t p o' := by
  obtain ⟨s', hs, rfl⟩ := Option.map_eq_some_iff.mp hstep
  obtain ⟨hio, hpc, -, -⟩ := ClientState.step_logic_side ha hs
  exact ⟨h.custody.step hs, hpc.trans h.pc, hio ▸ h.body, step_logic_room ha hs h.room⟩

/-- It leaves a packet in the slot at hand there. -/
theorem Pushing.logic (h : Pushing cfg be t p o) {a : ClientAction} (ha : a.thread = .logic)
    (hstep : step cfg be o a = some o') : Pushing cfg be t p o' := by
  obtain ⟨s', hs, rfl⟩ := Option.map_eq_some_iff.mp hstep
  obtain ⟨-, hpc, hlist, hhand⟩ := ClientState.step_logic_side ha hs
  obtain ⟨i, hi, hcontent⟩ := h.content
  exact ⟨h.custody.step hs, hpc.trans h.pc, i, hhand.trans hi, hlist ▸ hcontent⟩

/-- The io thread fills it into a slot. -/
theorem Filling.io (h : Filling cfg be fd t p o) (now : ℤ) :
    ∃ o', step cfg be o (.io now) = some o' ∧ Pushing cfg be t p o' := by
  obtain ⟨recv', i, hgo, hi, hcontent⟩ := readAlloc_fills h.custody p h.pc h.room h.body
  have hs : ClientState.step cfg o.state (.io now) =
      some { o.state with recv := recv', ioPc := .readPush be t } := by
    show o.state.ioNext cfg now = _
    rw [ClientState.ioNext, h.pc]
    exact congrArg some hgo
  refine ⟨_, by rw [step, hs]; rfl, h.custody.step hs, rfl, i, hi, hcontent⟩

/-- The io thread pushes it. -/
theorem Pushing.io (h : Pushing cfg be t p o) (now : ℤ) :
    ∃ o', step cfg be o (.io now) = some o' ∧ p.content ∈ o'.pushed := by
  obtain ⟨i, hi, hcontent⟩ := h.content
  -- The ring has room for all slots of the pool.
  obtain ⟨-, -, hroom, -⟩ := h.custody.push_spec (by rw [h.pc]; rfl) .qRecvIo
  have hs : ClientState.step cfg o.state (.io now) = some (o.state.readPush be t) := by
    show o.state.ioNext cfg now = _
    rw [ClientState.ioNext, h.pc]
  have hpushes : o.state.pushes be (.io now) = [p.content] := by
    unfold ClientState.pushes
    rw [h.pc]
    dsimp only
    rw [if_pos ⟨rfl, hroom⟩, hi]
    exact congrArg (fun c => [c]) hcontent
  refine ⟨_, by rw [step, hs]; rfl, ?_⟩
  dsimp only
  rw [hpushes]
  exact List.mem_append_right _ (List.mem_singleton_self _)

/-- A packet in the scratch buffer needs two steps. -/
theorem Filling.reaches (h : Filling cfg be fd t p o) : Reaches cfg be p.content 2 o := by
  intro as o₁ has hexec now
  have h₁ : Filling cfg be fd t p o₁ :=
    exec_invariant h (fun _ a ha _ h hstep => h.logic (has a ha) hstep) hexec
  obtain ⟨o₂, hstep, h₂⟩ := h₁.io now
  refine ⟨o₂, hstep, ?_⟩
  intro as' o₃ has' hexec' now'
  have h₃ : Pushing cfg be t p o₃ :=
    exec_invariant h₂ (fun _ a ha _ h hstep => h.logic (has' a ha) hstep) hexec'
  exact h₃.io now'

end Observed

namespace Clocked

variable {cfg : ClientConfig} {c : Clocked}

/-- A packet comes in time: `cb_read` of a connection is before a call of `handle_packet` with its
frame at the front of the input buffer, its id is allowed, its interval has passed since a packet of
the descriptor and the id was last accepted, and a slot is free for it. -/
structure Due (c : Clocked) (be : ℕ) (t : ℤ) (b : Bufferevent) (now : ℤ) (p : ClientPacket) :
    Prop where
  pc : c.state.ioPc = .readLoop be t
  live : c.state.io.bes be = some b
  front : p.bytes <+: b.input
  clock : c.clock ≤ now
  id_range : 0 ≤ p.id ∧ p.id < PkLimit.idMax
  allowed : 0 < c.state.pk.cnt p.id
  waited : ∀ t₀, c.accepted b.fd p.id = some t₀ →
    t₀ + c.state.pk.second p.id ≤ if t = 0 then now else t
  room : c.state.recv.slots.pool.freeSlots ≠ []

/-- The rate limit accepts the packet, and three steps of the io thread bring it into
`q_recv_io`. -/
def Heard (cfg : ClientConfig) (c : Clocked) (be : ℕ) (t : ℤ) (b : Bufferevent) (now : ℤ)
    (p : ClientPacket) : Prop :=
  (c.state.pk.checkPkLimit (if t = 0 then now else t) b.fd p.id).1 = .ok ∧
    ∃ o, Observed.step cfg be (.start c.state) (.io now) = some o ∧
      Observed.Reaches cfg be p.content 2 o

/-- A packet that comes in time is accepted if its descriptor is in the table. -/
theorem Timely.check_ok (h : c.Timely) {be : ℕ} {t now : ℤ} {b : Bufferevent} {p : ClientPacket}
    (due : c.Due be t b now p) (hfd : 0 ≤ b.fd ∧ b.fd < PkLimit.fdMax) :
    (c.state.pk.checkPkLimit (if t = 0 then now else t) b.fd p.id).1 = .ok := by
  have hcnt := due.allowed
  rw [PkLimit.checkPkLimit, if_neg (not_not.mpr hfd), if_neg (not_not.mpr due.id_range),
    if_neg (not_le.mpr hcnt)]
  by_cases hsecond : c.state.pk.second p.id ≤ 0
  · rw [if_pos hsecond]
  rw [if_neg hsecond, if_neg]
  rintro ⟨hopen, hfull⟩
  cases hacc : c.accepted b.fd p.id with
  | none =>
    rw [(h.fresh _ _ hacc).1] at hfull
    exact absurd hfull (not_le.mpr hcnt)
  | some t₀ =>
    have hstarted := h.started _ _ _ hacc
    have hwaited := due.waited t₀ hacc
    omega

/-- A packet of a registered client that comes in time is accepted and reaches `q_recv_io` exactly
if its descriptor is in the table of the rate limit. -/
theorem packet_heard_iff {be : ℕ} {t now : ℤ} {b : Bufferevent} {p : ClientPacket}
    (run : Run cfg c) (due : c.Due be t b now p) :
    c.state.io.table.fd2be b.fd = some be ∧
      (Heard cfg c be t b now p ↔ b.fd < PkLimit.fdMax) := by
  have g := ClientState.run_registered (run_state run)
  have hcb : b.cb = true := by
    have hreads := g.reads
    rw [due.pc] at hreads
    obtain ⟨b', hb', hcb⟩ := hreads
    rwa [Option.some.inj (hb'.symm.trans due.live)] at hcb
  have hfd2be := g.fd2be_of_live be b due.live hcb
  have hpos : 0 ≤ b.fd := (g.accepted_range _ (g.accepted_of_live be b due.live hcb)).1
  refine ⟨hfd2be, ?_, ?_⟩
  · -- Out of the table nothing is ever accepted.
    rintro ⟨hok, -⟩
    by_contra hout
    rw [PkLimit.check_out (not_lt.mp hout)] at hok
    cases hok
  · -- In the table the limit lets the packet pass, and the io thread pushes it in the steps that
    -- follow.
    intro hfd
    have hok := (run_timely run).check_ok due ⟨hpos, hfd⟩
    refine ⟨hok, ?_⟩
    obtain ⟨rest, hrest⟩ := due.front
    have hlive : c.state.io.bes be = some ⟨b.fd, p.bytes ++ rest, b.output, true⟩ := by
      rw [due.live, hrest, ← hcb]
    obtain ⟨io', pk', hgo, -, hbody⟩ :=
      Observed.readLoop_whole p (ClientState.run_key (run_state run)) hlive hfd2be t now hok
    have hs : ClientState.step cfg c.state (.io now) = some (c.state.readLoop be t now) := by
      show c.state.ioNext cfg now = _
      rw [ClientState.ioNext, due.pc]
    rw [hgo] at hs
    have custody := (ClientState.run_recvCustody (run_state run)).step hs
    refine ⟨_, by rw [Observed.step, Observed.start, hs]; rfl, ?_⟩
    have filling : Observed.Filling cfg be b.fd (if t = 0 then now else t) p
        ⟨_, [] ++ ClientState.arrives be (.io now), [] ++ c.state.pushes be (.io now)⟩ :=
      ⟨custody, rfl, hbody, due.room⟩
    exact filling.reaches

/-- A client on the descriptor `fd` shakes hands and sends a packet, and sends another one after the
packet has been taken. -/
def sendsTwice (fd : ℤ) : List ClientAction :=
  ClientState.onePerSecond ++ [.accept fd, .read 0 ClientState.upgradeRequest,
    .read 0 Observed.shortPacket.bytes, .io 5000, .io 5000, .io 5000, .io 5000,
    .read 0 Observed.shortPacket.bytes]

/-- It sends one packet. -/
def sendsOnce (fd : ℤ) : List ClientAction :=
  ClientState.onePerSecond ++ [.accept fd, .read 0 ClientState.upgradeRequest,
    .read 0 Observed.shortPacket.bytes]

/-- A list of actions after which a packet comes in time, since one was accepted at `last`. -/
theorem exists_due {fd now : ℤ} {last : Option ℤ} {as : List ClientAction}
    (h : (exec (step cfg) (init cfg) as).map (fun c =>
      decide (c.state.ioPc = .readLoop 0 0 ∧
        (c.state.io.bes 0).map (fun b => (b.fd, b.input)) = some (fd, Observed.shortPacket.bytes) ∧
        c.clock ≤ now ∧ 0 < c.state.pk.cnt 1 ∧
        c.accepted fd 1 = last ∧ (∀ t₀ ∈ last, t₀ + c.state.pk.second 1 ≤ now) ∧
        c.state.recv.slots.pool.freeSlots ≠ [])) = some true) :
    ∃ c b, Run cfg c ∧ b.fd = fd ∧ c.accepted fd 1 = last ∧
      c.Due 0 0 b now Observed.shortPacket := by
  obtain ⟨c, hc, hfields⟩ := Option.map_eq_some_iff.mp h
  obtain ⟨hpc, hbes, hclock, hcnt, hlast, hwaited, hroom⟩ := of_decide_eq_true hfields
  obtain ⟨b, hb, hfields⟩ := Option.map_eq_some_iff.mp hbes
  obtain ⟨hfd, hinput⟩ := Prod.mk.inj hfields
  refine ⟨c, b, reach_of_exec .start (execOk_any _ _ as) hc, hfd, hlast, ?_⟩
  exact {
    pc := hpc
    live := hb
    front := by rw [hinput]
    clock := hclock
    id_range := by decide
    allowed := hcnt
    waited := by
      rw [hfd]
      exact fun t₀ ht₀ => hwaited t₀ (hlast.symm.trans ht₀)
    room := hroom }

/-- A second packet, a second after the first. -/
theorem packet_heard_iff_second :
    ∃ c b, b.fd = 5 ∧ c.accepted 5 1 = some 5000 ∧
      Heard (ClientState.smallConfig 4) c 0 0 b 6000 Observed.shortPacket := by
  have hdue : (exec (step (ClientState.smallConfig 4)) (init (ClientState.smallConfig 4))
      (sendsTwice 5)).map (fun c =>
        decide (c.state.ioPc = .readLoop 0 0 ∧
          (c.state.io.bes 0).map (fun b => (b.fd, b.input)) =
            some (5, Observed.shortPacket.bytes) ∧
          c.clock ≤ 6000 ∧ 0 < c.state.pk.cnt 1 ∧ c.accepted 5 1 = some 5000 ∧
          (∀ t₀ ∈ some (5000 : ℤ), t₀ + c.state.pk.second 1 ≤ 6000) ∧
          c.state.recv.slots.pool.freeSlots ≠ [])) = some true := by
    decide +kernel
  obtain ⟨c, b, run, hfd, hlast, due⟩ := exists_due hdue
  exact ⟨c, b, hfd, hlast, (packet_heard_iff run due).2.mpr (by rw [hfd]; decide)⟩

/-- The first packet on the first descriptor outside the table of the rate limit. -/
theorem packet_heard_iff_unheard :
    ∃ c b, Run (ClientState.smallConfig 4) c ∧ b.fd = 16384 ∧ c.accepted 16384 1 = none ∧
      c.Due 0 0 b 6000 Observed.shortPacket ∧
      ¬Heard (ClientState.smallConfig 4) c 0 0 b 6000 Observed.shortPacket := by
  have hdue : (exec (step (ClientState.smallConfig 4)) (init (ClientState.smallConfig 4))
      (sendsOnce 16384)).map (fun c =>
        decide (c.state.ioPc = .readLoop 0 0 ∧
          (c.state.io.bes 0).map (fun b => (b.fd, b.input)) =
            some (16384, Observed.shortPacket.bytes) ∧
          c.clock ≤ 6000 ∧ 0 < c.state.pk.cnt 1 ∧ c.accepted 16384 1 = none ∧
          (∀ t₀ ∈ (none : Option ℤ), t₀ + c.state.pk.second 1 ≤ 6000) ∧
          c.state.recv.slots.pool.freeSlots ≠ [])) = some true := by
    decide +kernel
  obtain ⟨c, b, run, hfd, hlast, due⟩ := exists_due hdue
  refine ⟨c, b, run, hfd, hlast, due, ?_⟩
  rintro ⟨hok, -⟩
  rw [hfd] at hok
  exact absurd hok (by simp [PkLimit.checkPkLimit, PkLimit.fdMax])

end Clocked

end Catse
