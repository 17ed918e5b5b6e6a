import Catse.Admin.Replies

/-!
# Which administrator gets a reply

`cb_time` writes a reply to the connection that has its descriptor then. `Settled` says what this
comes to. A connection that lives has got every reply to its requests that `cb_time` is done with.
What it has got besides was for an earlier connection with the same descriptor, which has ended.
`replies_delivered` has this, with the bytes that are written, for every state of every run: of the
replies that Lua code returns, a living administrator gets those to its own requests, each of them
once and in the order of the requests, unless there was no slot for one.
-/

namespace Catse

/-- Replies and connections: those that have asked have callbacks, and a descriptor is handed out
again only to a later connection. -/
structure Settled (askers : List ℕ) (answers : List (ℕ × List UInt8)) (delivered : ℕ → List ℕ)
    (born : ℕ → ℤ) (bes : ℕ → Option Bufferevent) (done : ℕ) : Prop where
  callbacks : ∀ q ∈ askers, ∀ b, bes q = some b → b.cb = true
  latest : ∀ k b, bes k = some b → b.cb = true → ∀ q ∈ askers, bes q = none → born q = b.fd → q < k
  complete : ∀ (j : ℕ) p q b, answers[j]? = some p → askers[p.1]? = some q → bes q = some b →
    j < done → j ∈ delivered q
  recipient : ∀ k, ∀ j ∈ delivered k, ∀ p q, answers[j]? = some p → askers[p.1]? = some q →
    q = k ∨ q < k ∧ bes q = none

namespace Settled

variable {askers : List ℕ} {answers : List (ℕ × List UInt8)} {delivered : ℕ → List ℕ}
  {born : ℕ → ℤ} {bes : ℕ → Option Bufferevent} {created done k : ℕ} {b : Bufferevent}

/-- The number of replies that `cb_time` is done with, computed otherwise. -/
theorem of_eq (g : Settled askers answers delivered born bes done) {done' : ℕ}
    (h : done' = done) : Settled askers answers delivered born bes done' := h ▸ g

/-- A live bufferevent gets other buffers. -/
theorem buffers (g : Settled askers answers delivered born bes done) (hb : bes k = some b)
    {b' : Bufferevent} (hfd : b'.fd = b.fd) (hb' : b'.cb = b.cb) :
    Settled askers answers delivered born (Function.update bes k (some b')) done := by
  have hold : ∀ {j c}, Function.update bes k (some b') j = some c →
      ∃ c', bes j = some c' ∧ c.fd = c'.fd ∧ c.cb = c'.cb := by
    intro j c hj
    by_cases hjk : j = k
    · rw [hjk, Function.update_self] at hj
      obtain rfl := Option.some.inj hj
      exact ⟨b, hjk ▸ hb, hfd, hb'⟩
    · rw [Function.update_of_ne hjk] at hj
      exact ⟨c, hj, rfl, rfl⟩
  have hdead : ∀ {j}, Function.update bes k (some b') j = none ↔ bes j = none := by
    intro j
    by_cases hjk : j = k
    · rw [hjk, Function.update_self, hb]
      simp
    · rw [Function.update_of_ne hjk]
  refine ⟨fun q hq c hc => ?_, fun j c hc hcb q hq hnone hborn => ?_, fun j p q c hp hq hc hj => ?_,
    fun j i hi p q hp hq => ?_⟩
  · obtain ⟨c', hc', -, heq⟩ := hold hc
    exact heq.trans (g.callbacks q hq c' hc')
  · obtain ⟨c', hc', heq, heqcb⟩ := hold hc
    exact g.latest j c' hc' (heqcb ▸ hcb) q hq (hdead.mp hnone) (hborn.trans heq)
  · obtain ⟨c', hc', -, -⟩ := hold hc
    exact g.complete j p q c' hp hq hc' hj
  · rw [hdead]
    exact g.recipient j i hi p q hp hq

/-- A new connection. -/
theorem accept (g : Settled askers answers delivered born bes done)
    (haskers : ∀ q ∈ askers, q < created) (fd : ℤ) (cb : Bool) :
    Settled askers answers delivered (Function.update born created fd)
      (Function.update bes created (some ⟨fd, [], [], cb⟩)) done := by
  have hask : ∀ {q}, q ∈ askers → q ≠ created := fun hq => (haskers _ hq).ne
  refine ⟨fun q hq c hc => ?_, fun j c hc hcb q hq hnone hborn => ?_, fun j p q c hp hq hc hj => ?_,
    fun j i hi p q hp hq => ?_⟩
  · rw [Function.update_of_ne (hask hq)] at hc
    exact g.callbacks q hq c hc
  · rw [Function.update_of_ne (hask hq)] at hnone hborn
    by_cases hj : j = created
    · rw [hj]
      exact haskers q hq
    · rw [Function.update_of_ne hj] at hc
      exact g.latest j c hc hcb q hq hnone hborn
  · rw [Function.update_of_ne (hask (List.mem_of_getElem? hq))] at hc
    exact g.complete j p q c hp hq hc hj
  · rw [Function.update_of_ne (hask (List.mem_of_getElem? hq))]
    exact g.recipient j i hi p q hp hq

/-- A connection ends. No other has its descriptor. -/
theorem close (g : Settled askers answers delivered born bes done)
    (hother : ∀ j c, j ≠ k → bes j = some c → c.cb = true → born k ≠ c.fd) :
    Settled askers answers delivered born (Function.update bes k none) done := by
  have hold : ∀ {j c}, Function.update bes k none j = some c → j ≠ k ∧ bes j = some c := by
    intro j c hj
    by_cases hjk : j = k
    · rw [hjk, Function.update_self] at hj
      exact absurd hj (by simp)
    · exact ⟨hjk, (Function.update_of_ne hjk _ _).symm.trans hj⟩
  refine ⟨fun q hq c hc => g.callbacks q hq c (hold hc).2, fun j c hc hcb q hq hnone hborn => ?_,
    fun j p q c hp hq hc hj => g.complete j p q c hp hq (hold hc).2 hj, fun j i hi p q hp hq => ?_⟩
  · obtain ⟨hjk, hc⟩ := hold hc
    by_cases hqk : q = k
    · exact absurd (hqk ▸ hborn) (hother j c hjk hc hcb)
    · rw [Function.update_of_ne hqk] at hnone
      exact g.latest j c hc hcb q hq hnone hborn
  · rcases g.recipient j i hi p q hp hq with heq | ⟨hlt, hnone⟩
    · exact .inl heq
    · refine .inr ⟨hlt, ?_⟩
      by_cases hqk : q = k
      · rw [hqk, Function.update_self]
      · rw [Function.update_of_ne hqk]
        exact hnone

/-- A request of a connection with callbacks is pushed. -/
theorem request (g : Settled askers answers delivered born bes done) (hb : bes k = some b)
    (hb' : b.cb = true) (hanswers : ∀ p ∈ answers, p.1 < askers.length) :
    Settled (askers ++ [k]) answers delivered born bes done := by
  have hold : ∀ {j : ℕ} {p : ℕ × List UInt8} {q : ℕ}, answers[j]? = some p →
      (askers ++ [k])[p.1]? = some q → askers[p.1]? = some q := by
    intro j p q hp hq
    rwa [List.getElem?_append_left (hanswers p (List.mem_of_getElem? hp))] at hq
  refine ⟨fun q hq c hc => ?_, fun j c hc hcb q hq hnone hborn => ?_,
    fun j p q c hp hq hc hj => g.complete j p q c hp (hold hp hq) hc hj,
    fun j i hi p q hp hq => g.recipient j i hi p q hp (hold hp hq)⟩
  · rcases List.mem_append.mp hq with hq | hq
    · exact g.callbacks q hq c hc
    · rw [List.mem_singleton.mp hq, hb] at hc
      rw [← Option.some.inj hc]
      exact hb'
  · rcases List.mem_append.mp hq with hq | hq
    · exact g.latest j c hc hcb q hq hnone hborn
    · rw [List.mem_singleton.mp hq, hb] at hnone
      exact absurd hnone (by simp)

/-- A reply is pushed, which `cb_time` has not popped yet. -/
theorem answer (g : Settled askers answers delivered born bes done)
    (hdone : done ≤ answers.length) (hdelivered : ∀ k, ∀ j ∈ delivered k, j < done)
    (p : ℕ × List UInt8) : Settled askers (answers ++ [p]) delivered born bes done := by
  have hold : ∀ {j : ℕ} {p' : ℕ × List UInt8}, j < done → (answers ++ [p])[j]? = some p' →
      answers[j]? = some p' := by
    intro j p' hj hp'
    rwa [List.getElem?_append_left (by omega)] at hp'
  exact ⟨g.callbacks, g.latest,
    fun j p' q c hp hq hc hj => g.complete j p' q c (hold hj hp) hq hc hj,
    fun j i hi p' q hp hq => g.recipient j i hi p' q (hold (hdelivered j i hi) hp) hq⟩

/-- `cb_time` is done with a reply that goes to no connection: the one that it was for has
ended. -/
theorem drop (g : Settled askers answers delivered born bes done)
    (hnone : ∀ p q b, answers[done]? = some p → askers[p.1]? = some q → bes q ≠ some b) :
    Settled askers answers delivered born bes (done + 1) := by
  refine ⟨g.callbacks, g.latest, fun j p q c hp hq hc hj => ?_, g.recipient⟩
  rcases Nat.lt_succ_iff_lt_or_eq.mp hj with hj | rfl
  · exact g.complete j p q c hp hq hc hj
  · exact absurd hc (hnone p q c hp hq)

/-- `cb_time` writes a reply to a connection: it is the one that has asked, or that one has
ended. -/
theorem deliver (g : Settled askers answers delivered born bes done) (hb : bes k = some b)
    (hcb : b.cb = true)
    (hfd : ∀ p q, answers[done]? = some p → askers[p.1]? = some q → born q = b.fd)
    (hlive : ∀ q ∈ askers, ∀ c, bes q = some c → born q = b.fd → q = k) :
    Settled askers answers (Function.update delivered k (delivered k ++ [done])) born bes
      (done + 1) := by
  refine ⟨g.callbacks, g.latest, fun j p q c hp hq hc hj => ?_, fun j i hi p q hp hq => ?_⟩
  · rcases Nat.lt_succ_iff_lt_or_eq.mp hj with hj | rfl
    · have hmem := g.complete j p q c hp hq hc hj
      by_cases hqk : q = k
      · rw [hqk, Function.update_self]
        exact List.mem_append_left _ (hqk ▸ hmem)
      · rw [Function.update_of_ne hqk]
        exact hmem
    · rw [hlive q (List.mem_of_getElem? hq) c hc (hfd p q hp hq), Function.update_self]
      exact List.mem_append_right _ (List.mem_singleton.mpr rfl)
  · have hcase : i ∈ delivered j ∨ j = k ∧ i = done := by
      by_cases hj : j = k
      · rw [hj, Function.update_self] at hi
        rcases List.mem_append.mp hi with hi | hi
        · exact .inl (hj ▸ hi)
        · exact .inr ⟨hj, List.mem_singleton.mp hi⟩
      · rw [Function.update_of_ne hj] at hi
        exact .inl hi
    rcases hcase with hi | ⟨rfl, rfl⟩
    · exact g.recipient j i hi p q hp hq
    · have hborn := hfd p q hp hq
      cases hq' : bes q with
      | some c => exact .inl (hlive q (List.mem_of_getElem? hq) c hq' hborn)
      | none => exact .inr ⟨g.latest j b hb hcb q (List.mem_of_getElem? hq) hq' hborn, rfl⟩

end Settled

namespace AdminState

variable {n : ℕ} {list list' : ℕ → MsgAdmin} {s s' : AdminState} {k : ℕ} {b : Bufferevent}

/-- The number of replies that `cb_time` is done with. -/
def done (s : AdminState) : ℕ := s.send.got.length - s.pc.sendHand.toNat

/-- While `cb_time` holds a reply, that is the one after those that it is done with. -/
theorem done_of_last (s : AdminState) (hpc : s.pc = .timeMsg) {m : MsgAdmin}
    (hlast : s.send.got.getLast? = some m) :
    s.done + 1 = s.send.got.length ∧ s.send.got[s.done]? = some m := by
  have hpos : 0 < s.send.got.length := by
    rw [List.length_pos_iff]
    rintro hnil
    rw [hnil] at hlast
    exact absurd hlast (by simp)
  have hdone : s.done = s.send.got.length - 1 := by
    rw [done, hpc]
    rfl
  refine ⟨by omega, ?_⟩
  rw [hdone, ← List.getLast?_eq_getElem?]
  exact hlast

/-- The three together. -/
structure Delivering (s : AdminState) : Prop where
  asked : Asked s.history.answers s.recv.got s.send.put s.logicPc
  sent : Sent s.history.delivered s.send.got s.bes s.history.born s.created s.done
  settled : Settled s.history.askers s.history.answers s.history.delivered s.history.born s.bes
    s.done

/-- The descriptor of a reply is the one that the connection that asked began with. -/
theorem Safe.born_of_reply (g : s.Safe n) (h : Requested s.history s.recv.put s.bes s.created)
    (d : s.Delivering) {j : ℕ} {m : MsgAdmin} (hm : s.send.got[j]? = some m)
    {p : ℕ × List UInt8} {q : ℕ} (hp : s.history.answers[j]? = some p)
    (hq : s.history.askers[p.1]? = some q) : s.history.born q = m.fd := by
  have hput : s.send.put[j]? = some m := by
    rw [g.send.fifo, List.getElem?_append_left (List.getElem?_eq_some_iff.mp hm).1]
    exact hm
  obtain ⟨r, hr, hfd, -⟩ := d.asked.contents j p m hp hput
  have hr' : s.recv.put[p.1]? = some r := by
    rw [g.recv.fifo, List.getElem?_append_left (List.getElem?_eq_some_iff.mp hr).1]
    exact hr
  have hmem : r ∈ requestsOf s.history.askers s.recv.put q := by
    refine List.mem_map.mpr ⟨(q, r), List.mem_filter.mpr ⟨?_, by simp⟩, rfl⟩
    exact List.mem_of_getElem? (i := p.1) (List.getElem?_zip_eq_some.mpr ⟨hq, hr'⟩)
  rw [hfd]
  exact ((h.requests q r hmem).1).symm

/-- Each step keeps them. -/
theorem Safe.delivering (g : s.Safe n) (h : Requested s.history s.recv.put s.bes s.created)
    (d : s.Delivering) (move : AdminMove s s') : s'.Delivering := by
  -- Every answer is to a request that has been taken, and every reply that is done has its answer.
  have hgot : s.recv.got.length ≤ s.history.askers.length := by
    rw [h.length, g.recv.fifo, List.length_append]
    exact Nat.le_add_right _ _
  have hanswers : ∀ p ∈ s.history.answers, p.1 < s.history.askers.length := fun p hp =>
    (d.asked.earlier p hp).1.trans_le hgot
  have hdone : s.done ≤ s.history.answers.length := by
    rw [d.asked.length, g.send.fifo, List.length_append]
    exact d.sent.done_le.trans (Nat.le_add_right _ _)
  cases move with
  | @quiet recv send pc logicPc _ recvGot sendPut sendGot hand onward =>
    -- Nothing changes hands.
    have heq : send.got.length - pc.sendHand.toNat = s.done := by
      rw [sendGot, hand]
      rfl
    refine ⟨?_, ?_, d.settled.of_eq heq⟩
    · show Asked _ recv.got send.put logicPc
      rw [recvGot, sendPut]
      exact d.asked.onward onward
    · refine Sent.of_eq ?_ heq
      show Sent _ send.got _ _ _ _
      rw [sendGot]
      exact d.sent
  | accept =>
    -- The new number has asked for nothing.
    have haskers : ∀ q ∈ s.history.askers, q < s.created := fun q hq => by
      by_contra hlt
      exact (h.later q (not_lt.mp hlt)).2 hq
    exact ⟨d.asked, d.sent.accept _ _, d.settled.accept haskers _ _⟩
  | @arrive k b bytes idle live _ =>
    have heq : s.send.got.length - (AdminPc.readLoop k).sendHand.toNat = s.done := by
      rw [done, idle]
      rfl
    refine ⟨d.asked, (d.sent.input live _).of_eq heq,
      Settled.of_eq (d.settled.buffers live ?_ ?_) heq⟩
    · rfl
    · rfl
  | @close k b recv _ recvGot hand live cb =>
    -- Another connection with callbacks has another descriptor, so that the requests with this one
    -- are not those that it waits for.
    have heq : s.send.got.length - AdminPc.idle.sendHand.toNat = s.done := by
      rw [done, hand]
      rfl
    refine ⟨?_, (d.sent.close k).of_eq heq, (d.settled.close fun j c hj hc hcb => ?_).of_eq heq⟩
    · show Asked _ recv.got _ _
      rw [recvGot]
      exact d.asked
    · rw [g.listed.born k b live]
      exact fun hfd => hj (g.listed.eq_of_fd hc hcb live cb hfd.symm)
  | @request k b m recv pc live cb _ _ _ _ _ _ recvGot =>
    -- The request is the last one, and `hanswers` keeps it from being answered yet.
    have heq : s.send.got.length - (AdminPc.readLoop k).sendHand.toNat = s.done := by
      rw [done, pc]
      rfl
    refine ⟨?_, (d.sent.input live _).of_eq heq,
      Settled.of_eq ((d.settled.request live cb hanswers).buffers live ?_ ?_) heq⟩
    · show Asked _ recv.got _ _
      rw [recvGot]
      exact d.asked
    · rfl
    · rfl
  | @take m recv idle _ recvGot =>
    refine ⟨?_, d.sent, d.settled⟩
    have hasked := d.asked
    rw [idle] at hasked
    show Asked _ recv.got _ _
    rw [recvGot]
    exact hasked.take m
  | @handled m recv str pc _ recvGot last =>
    refine ⟨?_, d.sent, d.settled⟩
    have hasked := d.asked
    rw [pc] at hasked
    show Asked _ recv.got _ _
    rw [recvGot]
    exact hasked.handled last str
  | @answer fd str m m' send pc filled sendPut sendGot =>
    -- The reply is queued with the descriptor of its request, and none is done yet.
    have heq : send.got.length - s.pc.sendHand.toNat = s.done := by
      rw [sendGot]
      rfl
    refine ⟨?_, ?_, (d.settled.answer hdone d.sent.known _).of_eq heq⟩
    · have hasked := d.asked
      rw [pc] at hasked
      show Asked _ _ send.put _
      rw [sendPut]
      exact hasked.answer filled
    · refine Sent.of_eq ?_ heq
      show Sent _ send.got _ _ _ _
      rw [sendGot]
      exact d.sent
  | @pop m send pc sendPut sendGot =>
    have heq : send.got.length - AdminPc.timeMsg.sendHand.toNat = s.done := by
      rw [sendGot, List.length_append, done, pc]
      rfl
    refine ⟨?_, ?_, d.settled.of_eq heq⟩
    · show Asked _ _ send.put _
      rw [sendPut]
      exact d.asked
    · refine Sent.of_eq ?_ heq
      show Sent _ send.got _ _ _ _
      rw [sendGot]
      exact d.sent.pop m
  | @drop m send pc last none sendPut sendGot =>
    -- No connection is found for the reply, so the one that has asked is gone.
    obtain ⟨hold, hm⟩ := s.done_of_last pc last
    have heq : send.got.length - AdminPc.idle.sendHand.toNat = s.done + 1 := by
      rw [sendGot, ← hold]
      rfl
    refine ⟨?_, ?_, Settled.of_eq ?_ heq⟩
    · show Asked _ _ send.put _
      rw [sendPut]
      exact d.asked
    · refine Sent.of_eq ?_ heq
      show Sent _ send.got _ _ _ _
      rw [sendGot]
      exact d.sent.drop (by omega)
    · refine d.settled.drop fun p q b hp hq hb => ?_
      have hborn := g.born_of_reply h d hm hp hq
      have hcb := d.settled.callbacks q (List.mem_of_getElem? hq) b hb
      rw [g.listed.born q b hb] at hborn
      rcases none with hrange | hnone
      · exact hrange (hborn ▸ g.listed.fd_range hb hcb)
      · have hfound := g.listed.fd2be_of_live q b hb hcb
        rw [hborn, hnone] at hfound
        exact absurd hfound (by simp)
  | @deliver m k b send pc last found live sendPut sendGot =>
    -- The connection that is found is the only one with callbacks that has the descriptor.
    obtain ⟨hold, hm⟩ := s.done_of_last pc last
    obtain ⟨b', hb', hfd, hcb⟩ := g.listed.live_of_fd2be m.fd k found
    obtain rfl : b = b' := Option.some.inj (live.symm.trans hb')
    have heq : send.got.length - AdminPc.timePop.sendHand.toNat = s.done + 1 := by
      rw [sendGot, ← hold]
      rfl
    have hlast : s.send.got.length - 1 = s.done := by omega
    refine ⟨?_, ?_, Settled.of_eq ?_ heq⟩
    · show Asked _ _ send.put _
      rw [sendPut]
      exact d.asked
    · refine Sent.of_eq ?_ heq
      show Sent (Function.update _ k (_ ++ [s.send.got.length - 1])) send.got _ _ _ _
      rw [sendGot, hlast]
      exact d.sent.deliver hm live (g.listed.created k b live)
        (hfd.symm.trans (g.listed.born k b live).symm)
    · show Settled _ _ (Function.update _ k (_ ++ [s.send.got.length - 1])) _ _ _
      rw [hlast]
      refine Settled.buffers (d.settled.deliver live hcb (fun p q hp hq => ?_)
        fun q hq c hc hborn => ?_) live ?_ ?_
      · rw [g.born_of_reply h d hm hp hq, hfd]
      · rw [g.listed.born q c hc] at hborn
        exact g.listed.eq_of_fd hc (d.settled.callbacks q hq c hc) live hcb hborn
      · rfl
      · rfl

/-- They hold in every state of every run. -/
theorem run_delivering (run : Run n list list' s) : s.Delivering := by
  refine run.invariant ⟨?_, ?_, ?_⟩ fun s a s' run d _ hstep => ?_
  · exact ⟨rfl, List.Pairwise.nil, fun p hp => absurd hp (by simp [init]),
      fun h => absurd rfl h, fun _ _ h => absurd h (by simp [init]),
      fun j p m hp => absurd hp (by simp [init])⟩
  · exact ⟨fun k b hb => absurd hb (by simp [init]), fun k j hj => absurd hj (by simp [init]),
      Nat.zero_le _, fun _ => List.Pairwise.nil, fun k k' j hj => absurd hj (by simp [init]),
      fun k j hj => absurd hj (by simp [init]), fun _ _ => rfl⟩
  · exact ⟨fun q hq => absurd hq (by simp [init]), fun k b hb => absurd hb (by simp [init]),
      fun j p q b hp => absurd hp (by simp [init]), fun k j hj => absurd hj (by simp [init])⟩
  · have g := run_safe run
    exact g.delivering (run_requested run) d (g.step hstep).2

/-- What a living connection has been written: whole replies, those to its own requests that
`cb_time` is done with, and besides these only replies to earlier connections with the same
descriptor that have ended. A reply is written once, and it is the string that Lua code returned, if
that fits. -/
structure GetsReplies (s : AdminState) (k : ℕ) (b : Bufferevent) : Prop where
  descriptor : s.history.born k = b.fd
  output : b.output =
    streamOf MsgAdmin.wire ((s.history.delivered k).filterMap fun j => s.send.got[j]?)
  ascending : (s.history.delivered k).Pairwise (· < ·)
  requests : (s.history.answers.map Prod.fst).Pairwise (· < ·)
  complete : ∀ (j : ℕ) p, s.history.answers[j]? = some p → s.history.askers[p.1]? = some k →
    j < s.done → j ∈ s.history.delivered k
  once : ∀ j ∈ s.history.delivered k, ∀ k', j ∈ s.history.delivered k' → k' = k
  reply : ∀ j ∈ s.history.delivered k, ∃ m p q, s.send.got[j]? = some m ∧
    s.history.answers[j]? = some p ∧ s.history.askers[p.1]? = some q ∧
    (q = k ∨ q < k ∧ s.bes q = none ∧ s.history.born q = s.history.born k) ∧
    (p.2.length ≤ MsgAdmin.bufSize → m.wire = leBytes 4 p.2.length ++ p.2)

/-- This holds for every living connection, in every state of every run. -/
theorem replies_delivered (run : Run n list list' s) (hb : s.bes k = some b) :
    s.GetsReplies k b := by
  have g := run_safe run
  have h := run_requested run
  have d := run_delivering run
  refine ⟨g.listed.born k b hb, d.sent.output k b hb, d.sent.ascending k, d.asked.ascending,
    fun j p hp hq hj => d.settled.complete j p k b hp hq hb hj,
    fun j hj k' hj' => d.sent.once k' k j hj' hj, fun j hj => ?_⟩
  obtain ⟨m, hm, hfd⟩ := d.sent.addressed k j hj
  have hput : s.send.put[j]? = some m := by
    rw [g.send.fifo, List.getElem?_append_left (List.getElem?_eq_some_iff.mp hm).1]
    exact hm
  -- The reply is for a request, and the request from a connection.
  have hlt : j < s.history.answers.length := by
    rw [d.asked.length]
    exact (List.getElem?_eq_some_iff.mp hput).1
  have hp := List.getElem?_eq_getElem hlt
  obtain ⟨r, hr, -, hwire⟩ := d.asked.contents j _ m hp hput
  have hask : (s.history.answers[j]).1 < s.history.askers.length := by
    rw [h.length, g.recv.fifo, List.length_append]
    exact (List.getElem?_eq_some_iff.mp hr).1.trans_le (Nat.le_add_right _ _)
  have hq := List.getElem?_eq_getElem hask
  refine ⟨m, _, _, hm, hp, hq, ?_, hwire⟩
  rcases d.settled.recipient k j hj _ _ hp hq with heq | ⟨hlt, hnone⟩
  · exact .inl heq
  · -- The descriptor of the reply is that of both connections.
    exact .inr ⟨hlt, hnone, (g.born_of_reply h d hm hp hq).trans hfd⟩

theorem replies_delivered_one : ∃ (s : AdminState) (b : Bufferevent),
    s.bes 0 = some b ∧ b.output = [1, 0, 0, 0, 66] ∧ s.GetsReplies 0 b := by
  have hexec : ((exec step (init 1 zeros zeros) oneReply).map fun s =>
      (s.bes 0).map Bufferevent.output) = some (some [1, 0, 0, 0, 66]) := by
    decide +kernel
  obtain ⟨s, hs, hout⟩ := Option.map_eq_some_iff.mp hexec
  obtain ⟨b, hb, hbytes⟩ := Option.map_eq_some_iff.mp hout
  have run : Run 1 zeros zeros s := reach_of_exec .start (execOk_any _ _ _) hs
  exact ⟨s, b, hb, hbytes, replies_delivered run hb⟩

end AdminState

end Catse
