import Catse.Client.Traffic
import Catse.Client.Connections

/-!
# Which connection a unicast reaches

`msg_ex::unicast` names its recipient by descriptor alone, and `cb_time` looks the descriptor up
when it writes. Between the two the connection may be closed and its descriptor handed out again,
and then the message goes to the new connection. `unicast_delivery` says that nothing else goes
wrong: a message that is not written to the connection that the logic thread meant, nor dropped, is
written to a later connection with the same descriptor, after the one meant was closed.
-/

namespace Catse

open Merge (ofSource)

namespace ClientState

variable {cfg : ClientConfig} {s s' : ClientState} {a : ClientAction}

/-- The connection written to is the one meant, or that one is closed and the other is a later one
with the same descriptor. -/
def Delivery.Explained (io : ThreadIo) (d : Delivery) : Prop :=
  ∀ c, d.regarded = some c → d.conn = c ∨
    (c, d.fd) ∈ io.closed ∧ (d.conn, d.fd) ∈ io.accepted ∧ c < d.conn

/-- Events, messages and deliveries are about accepted connections. -/
structure Addressed (s : ClientState) : Prop where
  event : ∀ e ∈ s.recv.pushed, (e.2.conn, e.2.fd) ∈ s.io.accepted
  hand : ∀ i, s.recv.slots.hand .io = some i → s.ioPc.stamped = true →
    (s.recv.owner i, (s.recv.list i).fd) ∈ s.io.accepted
  closing : ∀ be fd reason real_reason, s.ioPc = .closeAlloc be fd reason real_reason →
    (be, fd) ∈ s.io.accepted
  length_fds : ∀ i, (s.send.list i).fds.length = MsgSend.fdsSize
  recipient : ∀ i fd c, s.send.addressed i = some (fd, c) →
    (s.send.list i).fds_len = 1 ∧ (s.send.list i).fds.take 1 = [fd]
  regarded : ∀ i fd c, s.send.addressed i = some (fd, some c) → (c, fd) ∈ s.io.accepted
  delivered : ∀ d ∈ s.io.delivered, Delivery.Explained s.io d

theorem init_addressed : (init cfg).Addressed where
  event _ h := absurd h (by simp [init])
  hand _ h := absurd h (by simp [init, Slots.init])
  closing _ _ _ _ h := absurd h (by simp [init])
  length_fds _ := List.length_replicate
  recipient _ _ _ h := absurd h (by simp [init])
  regarded _ _ _ h := absurd h (by simp [init])
  delivered _ h := absurd h (by simp [init])

/-- What a unicast is regarded as is the connection of an event with its descriptor. -/
theorem exists_of_regards {handled : List (RecvRing × Event)} {fd : ℤ} {c : ℕ}
    (h : regards handled fd = some c) : ∃ e ∈ handled, e.2.fd = fd ∧ e.2.conn = c := by
  unfold regards at h
  obtain ⟨e, he, hc⟩ := Option.map_eq_some_iff.mp h
  have hmem := List.mem_of_getLast? he
  obtain ⟨hmem, hfd⟩ := List.mem_filter.mp hmem
  exact ⟨e, hmem, of_decide_eq_true hfd, hc⟩

/-- `push_fd` keeps the size of the array. -/
theorem length_pushFd (m : MsgSend) (fd : ℤ) : (m.pushFd fd).fds.length = m.fds.length := by
  unfold MsgSend.pushFd
  split_ifs
  · rfl
  · exact List.length_set

/-- The recipients of the message that a Lua call makes: as many entries as before, and for a
unicast the one descriptor. -/
theorem write_spec {k : SendKind} {m m' : MsgSend} {proto_id : ℤ}
    {written : Option (List UInt8 × ℤ)} (h : k.write m proto_id written = some m')
    (hlen : m.fds.length = MsgSend.fdsSize) :
    m'.fds.length = MsgSend.fdsSize ∧
      ∀ handled fd c, k.address handled = some (fd, c) →
        m'.fds_len = 1 ∧ m'.fds.take 1 = [fd] := by
  cases k with
  | unicast fd =>
    -- The one descriptor is cut to 16 bits twice, which is once.
    obtain ⟨m1, hm1, rfl⟩ := Option.map_eq_some_iff.mp h
    obtain ⟨w, -, rfl⟩ := Option.map_eq_some_iff.mp hm1
    refine ⟨(length_pushFd _ _).trans hlen, fun handled fd' c haddr => ?_⟩
    have hfd : toShort fd = fd' := (Prod.mk.inj (Option.some.inj haddr)).1
    have hshort : toShort (toShort fd) = toShort fd := toShort_of_range (toShort_range fd)
    cases hfds : m.fds with
    | nil =>
      rw [hfds] at hlen
      exact absurd hlen (by decide)
    | cons x l =>
      have hroom : sizeLe MsgSend.fdsSize 0 = false := by decide
      simp only [MsgSend.pushFd, hroom, Bool.false_eq_true, if_false]
      rw [hshort, hfd]
      exact ⟨by decide, rfl⟩
  | broadcast =>
    obtain ⟨m1, hm1, rfl⟩ := Option.map_eq_some_iff.mp h
    obtain ⟨w, -, rfl⟩ := Option.map_eq_some_iff.mp hm1
    exact ⟨hlen, fun _ _ _ haddr => absurd haddr (by simp [SendKind.address])⟩
  | multicast fds =>
    obtain ⟨m1, hm1, h⟩ := Option.bind_eq_some_iff.mp h
    obtain ⟨w, -, rfl⟩ := Option.map_eq_some_iff.mp h
    refine ⟨?_, fun _ _ _ haddr => absurd haddr (by simp [SendKind.address])⟩
    -- Each descriptor is put in the list as for a unicast, and the list keeps its length.
    have hfold : ∀ (l : List (Option ℤ)) (m m1 : MsgSend), m.fds.length = MsgSend.fdsSize →
        l.foldlM (fun (m : MsgSend) (fd : Option ℤ) => fd.map m.pushFd) m = some m1 →
        m1.fds.length = MsgSend.fdsSize := by
      intro l
      induction l with
      | nil =>
        intro m m1 hm he
        rwa [← Option.some.inj he]
      | cons fd l ih =>
        intro m m1 hm he
        rw [List.foldlM_cons] at he
        obtain ⟨m2, hm2, he⟩ := Option.bind_eq_some_iff.mp he
        obtain ⟨x, -, rfl⟩ := Option.map_eq_some_iff.mp hm2
        exact ih _ m1 ((length_pushFd m x).trans hm) he
    exact hfold fds { m with fds_len := 0 } m1 hlen hm1

/-- `send_msg` records the write of a unicast to the connection that has the descriptor. -/
theorem delivered_sendMsg (io : ThreadIo) (m : MsgSend) (addressed : Option (ℤ × Option ℕ))
    (fd : ℤ) : (io.sendMsg m addressed fd).delivered = io.delivered ∨
      ∃ a be, addressed = some a ∧ io.table.fd2be fd = some be ∧
        (io.sendMsg m addressed fd).delivered = io.delivered ++ [⟨a.1, a.2, be⟩] := by
  unfold ThreadIo.sendMsg
  split_ifs
  · split
    · exact .inl rfl
    · rename_i be hbe
      cases addressed with
      | none => exact .inl (List.append_nil _)
      | some a => exact .inr ⟨a, be, rfl, hbe, rfl⟩
  · exact .inl rfl

/-- A message that is no unicast records nothing. -/
theorem delivered_sendAll_none (m : MsgSend) (fds : List ℤ) (io : ThreadIo) :
    (fds.foldl (fun io fd => io.sendMsg m none fd) io).delivered = io.delivered := by
  induction fds generalizing io with
  | nil => rfl
  | cons fd fds ih =>
    rw [List.foldl_cons, ih]
    rcases delivered_sendMsg io m none fd with h | ⟨a, _, ha, -⟩
    · exact h
    · exact absurd ha (by simp)

/-- More accepted and closed connections leave a delivery explained. -/
theorem Delivery.Explained.mono {io io' : ThreadIo} {d : Delivery} (h : Delivery.Explained io d)
    (hacc : ∀ c ∈ io.accepted, c ∈ io'.accepted) (hcl : ∀ c ∈ io.closed, c ∈ io'.closed) :
    Delivery.Explained io' d := by
  intro c hc
  rcases h c hc with heq | ⟨hclosed, haccepted, hlt⟩
  · exact .inl heq
  · exact .inr ⟨hcl _ hclosed, hacc _ haccepted, hlt⟩

namespace Addressed

/-- A step that keeps the messages to clients and only adds connections. -/
theorem of_recv (w : s.Addressed) (hsend : s'.send = s.send)
    (hacc : ∀ c ∈ s.io.accepted, c ∈ s'.io.accepted) (hcl : ∀ c ∈ s.io.closed, c ∈ s'.io.closed)
    (hdel : s'.io.delivered = s.io.delivered)
    (hevent : ∀ e ∈ s'.recv.pushed, (e.2.conn, e.2.fd) ∈ s'.io.accepted)
    (hhand : ∀ i, s'.recv.slots.hand .io = some i → s'.ioPc.stamped = true →
      (s'.recv.owner i, (s'.recv.list i).fd) ∈ s'.io.accepted)
    (hclosing : ∀ be fd reason real_reason, s'.ioPc = .closeAlloc be fd reason real_reason →
      (be, fd) ∈ s'.io.accepted) : s'.Addressed where
  event := hevent
  hand := hhand
  closing := hclosing
  length_fds := hsend ▸ w.length_fds
  recipient := hsend ▸ w.recipient
  regarded i fd c h := hacc _ (w.regarded i fd c (hsend ▸ h))
  delivered d hd := by
    rw [hdel] at hd
    exact (w.delivered d hd).mono hacc hcl

/-- A step to a point outside `close_connect` where the io thread holds no stamped message, with the
same events. -/
theorem of_calm (w : s.Addressed) (hsend : s'.send = s.send)
    (hpushed : s'.recv.pushed = s.recv.pushed)
    (hacc : ∀ c ∈ s.io.accepted, c ∈ s'.io.accepted) (hcl : ∀ c ∈ s.io.closed, c ∈ s'.io.closed)
    (hdel : s'.io.delivered = s.io.delivered) (hst : s'.ioPc.stamped = false)
    (hpc : s'.ioPc.closing = false) : s'.Addressed := by
  refine w.of_recv hsend hacc hcl hdel ?_ (fun i _ h => ?_) fun be fd r rr h => ?_
  · intro e he
    rw [hpushed] at he
    exact hacc _ (w.event e he)
  · rw [hst] at h
    exact absurd h (by simp)
  · rw [h] at hpc
    exact absurd hpc (by simp [IoPc.closing])

/-- A step of the logic thread that sends nothing. -/
theorem of_logic (w : s.Addressed) (hsend : s'.send = s.send) (hio : s'.io = s.io)
    (hpc : s'.ioPc = s.ioPc) (hpushed : s'.recv.pushed = s.recv.pushed)
    (hhand : s'.recv.slots.hand .io = s.recv.slots.hand .io)
    (howner : s'.recv.owner = s.recv.owner) (hlist : s'.recv.list = s.recv.list) :
    s'.Addressed := by
  refine w.of_recv hsend ?_ ?_ ?_ ?_ (fun i hi h => ?_) fun be fd r rr h => ?_ <;> rw [hio]
  · exact fun c hc => hc
  · exact fun c hc => hc
  · rw [hpushed]
    exact w.event
  · rw [howner, hlist]
    exact w.hand i (hhand ▸ hi) (hpc ▸ h)
  · exact w.closing be fd r rr (hpc ▸ h)

/-- A step that sends nothing and changes nothing of what a client may get. -/
theorem of_send (w : s.Addressed) (hrecv : s'.recv = s.recv) (same : SameConns s.io s'.io)
    (hst : s'.ioPc.stamped = true → s.ioPc.stamped = true)
    (hpc : ∀ be fd reason real_reason, s'.ioPc = .closeAlloc be fd reason real_reason →
      s.ioPc = .closeAlloc be fd reason real_reason)
    (hlen : ∀ i, (s'.send.list i).fds.length = MsgSend.fdsSize)
    (hrecipient : ∀ i fd c, s'.send.addressed i = some (fd, c) →
      (s'.send.list i).fds_len = 1 ∧ (s'.send.list i).fds.take 1 = [fd])
    (hregarded : ∀ i fd c, s'.send.addressed i = some (fd, some c) → (c, fd) ∈ s.io.accepted)
    (hdel : ∀ d ∈ s'.io.delivered, Delivery.Explained s.io d) : s'.Addressed where
  event := by rw [hrecv, same.accepted]; exact w.event
  hand i hi h := by
    rw [hrecv] at hi
    rw [hrecv, same.accepted]
    exact w.hand i hi (hst h)
  closing be fd r rr h := by
    rw [same.accepted]
    exact w.closing be fd r rr (hpc be fd r rr h)
  length_fds := hlen
  recipient := hrecipient
  regarded i fd c h := by
    rw [same.accepted]
    exact hregarded i fd c h
  delivered d hd := by
    refine (hdel d hd).mono (fun c hc => ?_) fun c hc => ?_
    · rwa [same.accepted]
    · rwa [same.closed]

/-- The body of the loop of `cb_time`. -/
theorem timeSend (w : s.Addressed) (g : s.Registered) : s.timeSend.Addressed := by
  unfold ClientState.timeSend
  split
  · exact w.of_calm rfl rfl (fun _ h => h) (fun _ h => h) rfl rfl rfl
  rename_i i hi
  dsimp only
  split_ifs
  · exact w.of_calm rfl rfl (fun _ h => h) (fun _ h => h) rfl rfl rfl
  refine w.of_send rfl (.sendAll _ _ _ _) (fun h => absurd h (by simp [IoPc.stamped]))
    (fun _ _ _ _ h => absurd h (by simp)) w.length_fds w.recipient w.regarded ?_
  intro d hd
  cases haddr : s.send.addressed i with
  | none =>
    rw [haddr] at hd
    exact w.delivered d (by rwa [delivered_sendAll_none] at hd)
  | some addr =>
    obtain ⟨fd, regarded⟩ := addr
    -- A unicast has its one descriptor for recipient.
    obtain ⟨hlen, hfds⟩ := w.recipient i fd regarded haddr
    have hrecip : s.io.recipients (s.send.list i) = [fd] := by
      unfold ThreadIo.recipients
      rw [hlen, if_neg (by decide)]
      exact hfds
    rw [haddr, hrecip, List.foldl_cons, List.foldl_nil] at hd
    rcases delivered_sendMsg s.io (s.send.list i) (some (fd, regarded)) fd with
      heq | ⟨addr, be, ha, hbe, heq⟩ <;> rw [heq] at hd
    · exact w.delivered d hd
    obtain rfl := Option.some.inj ha
    rcases List.mem_append.mp hd with hold | hnew
    · exact w.delivered d hold
    rw [List.mem_singleton.mp hnew]
    intro c hc
    obtain ⟨b, hb, hbfd, hbcb⟩ := g.live_of_fd2be fd be hbe
    have hregarded : (c, fd) ∈ s.io.accepted := by
      apply w.regarded i fd c
      rw [haddr, show regarded = some c from hc]
    rcases g.accepted_cases _ hregarded with hclosed | ⟨b', hb', hfd', hcb'⟩
    · right
      refine ⟨hclosed, ?_, g.closed_lt _ hclosed be b hb hbcb hbfd⟩
      have hacc := g.accepted_of_live be b hb hbcb
      rwa [hbfd] at hacc
    · left
      exact g.eq_of_fd hb hbcb hb' hcb' (hbfd.trans hfd'.symm)

/-- What Lua code sends is addressed by the last event that was handled for its descriptor. -/
theorem sendAlloc (w : s.Addressed) (t : s.Traffic) (k : SendKind) (proto_id : ℤ)
    (written : Option (List UInt8 × ℤ)) : (s.sendAlloc k proto_id written).Addressed := by
  unfold ClientState.sendAlloc
  dsimp only
  split
  · exact w.of_send rfl (.refl _) id (fun _ _ _ _ => id) w.length_fds w.recipient w.regarded
      w.delivered
  rename_i i hi
  split
  · exact w.of_send rfl (.refl _) id (fun _ _ _ _ => id) w.length_fds w.recipient w.regarded
      w.delivered
  rename_i m hm
  obtain ⟨hlen, hrecip⟩ := write_spec hm (w.length_fds i)
  refine w.of_send rfl (.refl _) id (fun _ _ _ _ => id) (fun j => ?_) (fun j fd c h => ?_)
    (fun j fd c h => ?_) w.delivered
  · show (Function.update s.send.list i m j).fds.length = MsgSend.fdsSize
    by_cases hj : j = i
    · rw [hj, Function.update_self]
      exact hlen
    · rw [Function.update_of_ne hj]
      exact w.length_fds j
  · change Function.update s.send.addressed i _ j = _ at h
    show (Function.update s.send.list i m j).fds_len = 1 ∧
      (Function.update s.send.list i m j).fds.take 1 = [fd]
    by_cases hj : j = i
    · rw [hj, Function.update_self] at h ⊢
      exact hrecip _ fd c h
    · rw [Function.update_of_ne hj] at h ⊢
      exact w.recipient j fd c h
  · change Function.update s.send.addressed i _ j = _ at h
    by_cases hj : j = i
    · rw [hj, Function.update_self] at h
      cases k with
      | unicast fd' =>
        obtain ⟨rfl, hreg⟩ := Prod.mk.inj (Option.some.inj h)
        obtain ⟨e, he, hfd, hconn⟩ := exists_of_regards hreg
        -- An event that was handled was pushed before.
        have hpushed : e ∈ ofSource e.1 s.recv.pushed := by
          rw [t.fifo e.1]
          exact List.mem_append_left _ (Merge.mem_ofSource.mpr ⟨he, rfl⟩)
        have hacc := w.event e (Merge.mem_ofSource.mp hpushed).1
        rwa [hfd, hconn] at hacc
      | broadcast => exact absurd h (by simp [SendKind.address])
      | multicast fds => exact absurd h (by simp [SendKind.address])
    · rw [Function.update_of_ne hj] at h
      exact w.regarded j fd c h

/-- A slot taken with `alloc` and filled with a message of an accepted connection. -/
theorem of_fill (w : s.Addressed) {i be : ℕ} (hi : s.recv.alloc.slots.hand .io = some i)
    (m : MsgRecv) (hm : (be, m.fd) ∈ s.io.accepted) (pc' : IoPc)
    (hpc' : pc'.stamped = true) :
    { s with recv := s.recv.alloc.fill i be m, ioPc := pc' }.Addressed := by
  refine w.of_recv rfl (fun _ h => h) (fun _ h => h) rfl w.event (fun j hj _ => ?_)
    fun _ _ _ _ h => ?_
  · obtain rfl : i = j := Option.some.inj (hi.symm.trans hj)
    simp only [RecvChannel.fill, Function.update_self]
    exact hm
  · change pc' = _ at h
    rw [h] at hpc'
    exact absurd hpc' (by simp [IoPc.stamped])

/-- A stamped message pushed into a ring. -/
theorem of_push (w : s.Addressed) (h : s.RecvCustody cfg) (hpc : s.ioPc.stamped = true)
    (r : RecvRing) {pc' : IoPc} (hst : pc'.stamped = false) (hcl : pc'.closing = false) :
    { s with recv := s.recv.push r, ioPc := pc' }.Addressed := by
  obtain ⟨i, hi, -, hpushed, -⟩ := h.push_spec (IoPc.recvHand_of_stamped hpc) r
  refine w.of_recv rfl (fun _ h => h) (fun _ h => h) rfl (fun e he => ?_) (fun j _ hj => ?_)
    fun _ _ _ _ he => ?_
  · change e ∈ (s.recv.push r).pushed at he
    rw [hpushed] at he
    rcases List.mem_append.mp he with hold | hnew
    · exact w.event e hold
    · rw [List.mem_singleton.mp hnew]
      exact w.hand i hi hpc
  · change pc'.stamped = true at hj
    rw [hst] at hj
    exact absurd hj (by simp)
  · change pc' = _ at he
    rw [he] at hcl
    exact absurd hcl (by simp [IoPc.closing])

/-- The io thread moves slots of messages to clients, outside `close_connect`. -/
theorem of_slots (w : s.Addressed) {slots : Slots SendRing Thread} {pc' : IoPc}
    (hst : pc'.stamped = false) (hcl : pc'.closing = false) :
    { s with send := { s.send with slots := slots }, ioPc := pc' }.Addressed := by
  refine w.of_send rfl (.refl _) (fun h => ?_) (fun be fd r rr h => ?_) w.length_fds w.recipient
    w.regarded w.delivered
  · exact absurd (hst.symm.trans h) (by simp)
  · change pc' = _ at h
    rw [h] at hcl
    exact absurd hcl (by simp [IoPc.closing])

/-- The descriptor of an accepted connection fits a `short`. -/
theorem toShort_accepted (g : s.Registered) {be : ℕ} {fd : ℤ} (h : (be, fd) ∈ s.io.accepted) :
    toShort fd = fd := by
  have hrange := g.accepted_range _ h
  simp only [FdTable.fdMax] at hrange
  apply toShort_of_range
  omega

/-- Every step keeps this. -/
theorem step (w : s.Addressed) (h : s.RecvCustody cfg) (t : s.Traffic) (g : s.Registered)
    (hstep : step cfg s a = some s') : s'.Addressed := by
  cases move_of_step hstep with
  | @accept fd hpc =>
    refine w.of_calm rfl rfl (fun c hc => ?_) (fun _ h => h) rfl ?_ ?_
    · show c ∈ (s.io.cbListener fd).accepted
      unfold ThreadIo.cbListener
      dsimp only
      split_ifs
      · exact List.mem_append_left _ hc
      · exact hc
    · show s.ioPc.stamped = false
      rw [hpc]
      rfl
    · show s.ioPc.closing = false
      rw [hpc]
      rfl
  | @quiet _ io' _ pc' same hdel calm calm' =>
    refine w.of_calm rfl rfl ?_ ?_ hdel ?_ calm'.close
    · intro c hc
      rwa [← same.accepted] at hc
    · intro c hc
      rwa [← same.closed] at hc
    · cases hst : IoPc.stamped _ with
      | false => rfl
      | true => exact absurd (IoPc.recvHand_of_stamped hst) (by simp [calm'.recv])
  | @close _ io' be b _ _ same hdel calm live cb =>
    -- The connection was accepted, so its report names one that was.
    have hacc : (be, b.fd) ∈ s.io.accepted := g.accepted_of_live be b live (cb g.reads)
    refine w.of_recv rfl (fun c hc => ?_) (fun c hc => ?_) hdel (fun e he => ?_)
      (fun i _ hst => absurd hst (by simp [closeConnect, IoPc.stamped])) fun k fd r rr he => ?_
    · show c ∈ io'.accepted
      rwa [same.accepted]
    · show c ∈ (io'.remove be b.fd).closed
      unfold ThreadIo.remove
      dsimp only
      split_ifs
      · exact List.mem_append_left _ (by rwa [same.closed])
      · rwa [same.closed]
    · show _ ∈ io'.accepted
      rw [same.accepted]
      exact w.event e he
    · simp only [closeConnect, IoPc.closeAlloc.injEq] at he
      obtain ⟨rfl, rfl, -⟩ := he
      show _ ∈ io'.accepted
      rwa [same.accepted]
  | @readAlloc _ be _ fd _ _ pc =>
    -- `cb_read` is on a live connection, with the descriptor that goes into the message.
    have hreads := g.reads
    rw [pc] at hreads
    obtain ⟨b, hb, hcb, hfd⟩ := hreads
    have hacc : (be, fd) ∈ s.io.accepted := hfd ▸ g.accepted_of_live be b hb hcb
    rcases h.readAlloc_spec pc with ⟨-, heq⟩ | ⟨i, -, hi, heq | ⟨m, hm, heq⟩⟩ <;> rw [heq]
    · exact w.of_calm rfl rfl (fun _ h => h) (fun _ h => h) rfl rfl rfl
    · exact w.of_calm rfl rfl (fun _ h => h) (fun _ h => h) rfl rfl rfl
    · apply w.of_fill hi m
      · rwa [hm, toShort_accepted g hacc]
      · rfl
  | readFree => exact w.of_calm rfl rfl (fun _ h => h) (fun _ h => h) rfl rfl rfl
  | readPush pc => exact w.of_push h (by rw [pc]; rfl) .qRecvIo rfl rfl
  | @closeAlloc _ be fd _ _ pc =>
    have hacc : (be, fd) ∈ s.io.accepted := w.closing be fd _ _ pc
    rcases h.closeAlloc_spec pc with ⟨-, heq⟩ | ⟨i, -, hi, heq⟩ <;> rw [heq]
    · exact w.of_calm rfl rfl (fun _ h => h) (fun _ h => h) rfl rfl rfl
    · apply w.of_fill hi
      · show (be, toShort fd) ∈ s.io.accepted
        rwa [toShort_accepted g hacc]
      · rfl
  | closePush pc => exact w.of_push h (by rw [pc]; rfl) .qDisconnect rfl rfl
  | timePop =>
    obtain ⟨slots, pc', heq, hpc'⟩ := s.timePop_eq
    rw [heq]
    exact w.of_slots (by rcases hpc' with rfl | rfl <;> rfl) (by rcases hpc' with rfl | rfl <;> rfl)
  | timeSend => exact w.timeSend g
  | @timeFree _ last =>
    obtain ⟨slots, pc', heq, hpc'⟩ := s.timeFree_eq last
    rw [heq]
    exact w.of_slots (by rcases hpc' with rfl | rfl <;> rfl) (by rcases hpc' with rfl | rfl <;> rfl)
  | sampleRecv => exact w.of_logic rfl rfl rfl rfl rfl rfl rfl
  | sampleDisconnect => exact w.of_logic rfl rfl rfl rfl rfl rfl rfl
  | take pc =>
    have hpc : s.logicPc.recvHand = false := by rw [pc]; rfl
    rcases h.take_spec pc with
      ⟨-, -, heq⟩ | ⟨c, g, -, -, -, heq⟩ | ⟨r, i, hi, -, heq⟩ <;> rw [heq]
    · exact w.of_logic rfl rfl rfl rfl rfl rfl rfl
    · exact w.of_logic rfl rfl rfl rfl rfl rfl rfl
    · exact w.of_logic rfl rfl rfl rfl (h.pop_hand_io hpc hi) rfl rfl
  | ret pc =>
    exact w.of_logic rfl rfl rfl rfl (h.free_hand_io (by rw [pc]; rfl)) rfl rfl
  | sendAlloc => exact w.sendAlloc t _ _ _
  | sendPush =>
    exact w.of_send rfl (.refl _) id (fun _ _ _ _ => id) w.length_fds w.recipient w.regarded
      w.delivered
  | sendFree =>
    exact w.of_send rfl (.refl _) id (fun _ _ _ _ => id) w.length_fds w.recipient w.regarded
      w.delivered
  | setLimit => exact w.of_logic rfl rfl rfl rfl rfl rfl rfl

end Addressed

/-- This holds in every state of every run. -/
theorem run_addressed {ok : ClientState → ClientAction → Prop} (run : Run cfg ok s) :
    s.Addressed :=
  run.invariant init_addressed fun _ _ _ run w _ hstep =>
    w.step (run_recvCustody run) (run_traffic run) (run_registered run) hstep

/-- The answer to a client's packet is written to the client who has got its descriptor since. -/
theorem unicast_to_stranger : ∃ s, Run (smallConfig 4) anyStep s ∧
    s.recv.handled = [(.qRecvIo, ⟨1, 5, 1, 0⟩)] ∧
    s.io.delivered = [{ fd := 5, regarded := some 0, conn := 1 }] := by
  have hexec : (exec (step (smallConfig 4)) (init (smallConfig 4)) (greeted ++ sendsPacket ++
      List.replicate 4 .logic ++ [.send (.unicast 5) 1 (some ([7], 1)), .logic] ++ hangsUp ++
      [.accept 5, .tick, .io 1, .io 1])).map
      (fun s => (s.recv.handled, s.io.delivered)) =
    some ([(.qRecvIo, ⟨1, 5, 1, 0⟩)], [{ fd := 5, regarded := some 0, conn := 1 }]) := by
    decide +kernel
  obtain ⟨s, hrun, hs⟩ := exists_run_of_exec hexec
  obtain ⟨hhandled, hdelivered⟩ := Prod.mk.inj hs
  exact ⟨s, hrun, hhandled, hdelivered⟩

/-- In every run, a unicast that is written at all, and that was sent while the logic thread
regarded its descriptor as a connection `c`, is written to `c`; or `c` has been closed, and it is
written to a connection that was accepted later with the same descriptor. -/
theorem unicast_delivery (run : Run cfg anyStep s) :
    ∀ d ∈ s.io.delivered, ∀ c, d.regarded = some c → d.conn = c ∨
      (c, d.fd) ∈ s.io.closed ∧ (d.conn, d.fd) ∈ s.io.accepted ∧ c < d.conn :=
  (run_addressed run).delivered

/-- A client that stays gets the answer to its packet. -/
theorem unicast_delivery_kept : ∃ s, Run (smallConfig 4) anyStep s ∧
    s.io.delivered = [{ fd := 5, regarded := some 0, conn := 0 }] ∧
    ∀ d ∈ s.io.delivered, ∀ c, d.regarded = some c → d.conn = c ∨
      (c, d.fd) ∈ s.io.closed ∧ (d.conn, d.fd) ∈ s.io.accepted ∧ c < d.conn := by
  have hexec : (exec (step (smallConfig 4)) (init (smallConfig 4)) (greeted ++ sendsPacket ++
      List.replicate 4 .logic ++ [.send (.unicast 5) 1 (some ([7], 1)), .logic] ++
      [.tick, .io 1, .io 1])).map (fun s => s.io.delivered) =
    some [{ fd := 5, regarded := some 0, conn := 0 }] := by decide +kernel
  obtain ⟨s, hrun, hs⟩ := exists_run_of_exec hexec
  exact ⟨s, hrun, hs, unicast_delivery hrun⟩

end ClientState

end Catse
