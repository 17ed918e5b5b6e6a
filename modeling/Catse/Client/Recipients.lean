import Catse.Client.Delivery

/-!
# Who gets a message

`cb_time` sends a message to all connections or to those in the list of the message. A `send_msg`
appends the frame of the message to the output of the connection that its descriptor is registered
for, so a delivery appends as many frames as the descriptor is among the recipients (`sendAll_bes`).

`fd_add` and `fd_del` keep the list of descriptors without repetition, so a broadcast goes out once
to each connection (`broadcast_once`). The list of a message has room for 2048 descriptors, and
`push_fd` leaves the others out without a word: a multicast reaches everyone listed exactly if there
are no more (`multicast_reaches_iff`).
-/

namespace Catse

/-! ## The effect of `send_msg` -/

/-- The connection with `n` more frames in its output. -/
def Bufferevent.gets (b : Bufferevent) (frame : List UInt8) (n : ℕ) : Bufferevent :=
  { b with output := b.output ++ (List.replicate n frame).flatten }

theorem Bufferevent.gets_zero (b : Bufferevent) (frame : List UInt8) : b.gets frame 0 = b := by
  rw [gets, List.replicate_zero, List.flatten_nil, List.append_nil]

theorem Bufferevent.gets_gets (b : Bufferevent) (frame : List UInt8) (m n : ℕ) :
    (b.gets frame m).gets frame n = b.gets frame (m + n) := by
  unfold gets
  rw [List.append_assoc, ← List.flatten_append, List.replicate_append_replicate]

/-- Different numbers of frames are different outputs. -/
theorem Bufferevent.gets_injective {b : Bufferevent} {frame : List UInt8} {m n : ℕ}
    (hframe : frame ≠ []) (h : b.gets frame m = b.gets frame n) : m = n := by
  have hlen := congrArg (fun b : Bufferevent => b.output.length) h
  simp only [gets, List.length_append, List.length_flatten, List.map_replicate,
    List.sum_replicate, smul_eq_mul] at hlen
  have hpos : 0 < frame.length := List.length_pos_iff.mpr hframe
  exact Nat.eq_of_mul_eq_mul_right hpos (by omega)

namespace ThreadIo

/-- The registered descriptors are those of the live connections with callbacks. -/
structure Linked (io : ThreadIo) : Prop where
  range : ∀ fd be, io.table.fd2be fd = some be → 0 ≤ fd ∧ fd < FdTable.fdMax
  live_of_fd2be : ∀ fd be, io.table.fd2be fd = some be →
    ∃ b, io.bes be = some b ∧ b.fd = fd ∧ b.cb = true
  fd2be_of_live : ∀ be b, io.bes be = some b → b.cb = true → io.table.fd2be b.fd = some be

variable {io : ThreadIo} {m : MsgSend} {addressed : Option (ℤ × Option ℕ)}

/-- The frame of a message. -/
def frame (m : MsgSend) : List UInt8 := Websocket.sendMsg m.id m.buf m.buf_len

/-- It is not empty. -/
theorem frame_ne_nil (hlen : m.buf_len ≤ MsgSend.bufSize) : frame m ≠ [] := by
  have hsize : (MsgSend.bufSize : ℤ) = 16384 := rfl
  unfold frame Websocket.sendMsg
  dsimp only
  split_ifs with hshort hlong
  · simp
  · simp
  · omega

/-- `send_msg` appends one frame to the connection of its descriptor. -/
theorem Linked.sendMsg_bes (h : io.Linked) (m : MsgSend) (addressed : Option (ℤ × Option ℕ))
    (fd : ℤ) {be : ℕ} {b : Bufferevent} (hb : io.bes be = some b) (hcb : b.cb = true) :
    (io.sendMsg m addressed fd).bes be = some (b.gets (frame m) (if b.fd = fd then 1 else 0)) := by
  have hreg := h.fd2be_of_live be b hb hcb
  unfold ThreadIo.sendMsg
  by_cases hfd : b.fd = fd
  · subst hfd
    rw [if_neg (not_not.mpr (h.range _ _ hreg)), hreg, if_pos rfl]
    show Function.update io.bes be _ be = _
    rw [Function.update_self, hb]
    simp only [Option.map_some, Bufferevent.gets, List.replicate_one, List.flatten_singleton]
    rfl
  · rw [if_neg hfd, Bufferevent.gets_zero]
    split_ifs
    · cases hk : io.table.fd2be fd with
      | none => exact hb
      | some k =>
        -- Another connection.
        have hne : be ≠ k := by
          rintro rfl
          obtain ⟨b', hb', hfd', -⟩ := h.live_of_fd2be _ _ hk
          rw [Option.some.inj (hb.symm.trans hb')] at hfd
          exact hfd hfd'
        show Function.update io.bes k _ be = _
        rw [Function.update_of_ne hne]
        exact hb
    · exact hb

/-- It changes nothing else that this asks for. -/
theorem Linked.of_same {io' : ThreadIo} (h : io.Linked) (same : SameConns io io') : io'.Linked where
  range fd be hfd := h.range fd be (same.table ▸ hfd)
  live_of_fd2be fd be hfd := by
    obtain ⟨b, hb, rfl, hcb⟩ := h.live_of_fd2be fd be (same.table ▸ hfd)
    obtain ⟨b', hb', hfd', hcb'⟩ := same.exists_of_bes hb
    exact ⟨b', hb', hfd', hcb'.trans hcb⟩
  fd2be_of_live be b hb hcb := by
    obtain ⟨b', hb', hfd', hcb'⟩ := same.symm.exists_of_bes hb
    rw [same.table, ← hfd']
    exact h.fd2be_of_live be b' hb' (hcb'.trans hcb)

/-- A delivery appends as many frames as the descriptor is among the recipients. -/
theorem Linked.sendAll_bes (h : io.Linked) (fds : List ℤ) {be : ℕ} {b : Bufferevent}
    (hb : io.bes be = some b) (hcb : b.cb = true) :
    (fds.foldl (fun io fd => io.sendMsg m addressed fd) io).bes be =
      some (b.gets (frame m) (fds.count b.fd)) := by
  induction fds generalizing io b with
  | nil => rw [List.foldl_nil, List.count_nil, Bufferevent.gets_zero, hb]
  | cons fd fds ih =>
    have hone := h.sendMsg_bes m addressed fd hb hcb
    have hrest := ih (h.of_same (.sendMsg io m addressed fd)) hone hcb
    rw [List.foldl_cons, hrest, Bufferevent.gets_gets, List.count_cons, Nat.add_comm]
    have hfd : (b.gets (frame m) (if b.fd = fd then 1 else 0)).fd = b.fd := rfl
    rw [hfd]
    by_cases hsame : b.fd = fd
    · rw [if_pos hsame, if_pos (beq_iff_eq.mpr hsame.symm)]
    · rw [if_neg hsame, if_neg fun heq => hsame (beq_iff_eq.mp heq).symm]

end ThreadIo

/-! ## The tables -/

/-- A call of `fd_add` or `fd_del`. -/
inductive TableCall (β : Type) where
  | add (fd : ℤ) (be : β)
  | del (fd : ℤ)

namespace FdTable

variable {β : Type}

/-- The tables after a call. -/
def call (t : FdTable β) : TableCall β → FdTable β
  | .add fd be => (t.fdAdd fd be).2
  | .del fd => (t.fdDel fd).2

/-- The tables after some calls. -/
def after (t : FdTable β) (calls : List (TableCall β)) : FdTable β := calls.foldl call t

theorem Consistent.after {t : FdTable β} (h : t.Consistent) (calls : List (TableCall β)) :
    (t.after calls).Consistent := by
  induction calls generalizing t with
  | nil => exact h
  | cons k calls ih =>
    cases k with
    | add fd be => exact ih (h.fdAdd fd be)
    | del fd => exact ih (h.fdDel fd)

/-- `fd_del` takes out the one entry of a registered descriptor. -/
theorem Consistent.fdDel_removes {t : FdTable β} (h : t.Consistent) {fd : ℤ}
    (hsome : (t.fd2be fd).isSome) :
    (t.fdDel fd).1 = true ∧ t.fds.Perm (fd :: (t.fdDel fd).2.fds) ∧
      (t.fdDel fd).2.fd2be = Function.update t.fd2be fd none := by
  have hperm := moveLast_idxOf_perm ((h.mem_iff fd).mpr hsome)
  rw [h.fdDel_registered hsome]
  exact ⟨rfl, hperm.symm, rfl⟩

/-- It refuses any other. -/
theorem fdDel_refused {t : FdTable β} {fd : ℤ} (hnone : t.fd2be fd = none) :
    t.fdDel fd = (false, t) := by
  unfold fdDel
  rw [hnone, if_pos Option.isNone_none]
  exact ite_self _

end FdTable

namespace ClientState

variable {cfg : ClientConfig} {s s' : ClientState}

/-! ## A message on its way -/

/-- A client is connected on descriptor `5`. -/
def connected : ClientState :=
  { init (smallConfig 4) with io := (init (smallConfig 4)).io.cbListener 5 }

/-- A slot has been taken for a message, and filled. -/
def sending (kind : SendKind) (m : MsgSend) : ClientState :=
  { connected with
    send :=
      { slots := connected.send.slots.alloc .logic
        list := Function.update connected.send.list 3 m
        addressed := Function.update connected.send.addressed 3
          (kind.address connected.recv.handled) }
    sendPc := .push }

/-- The message has gone through the ring into the hand of the io thread. -/
theorem exists_sending {kind : SendKind} {w : List UInt8 × ℤ} {m : MsgSend}
    (hwrite : kind.write (connected.send.list 3) 1 (some w) = some m) :
    ∃ s, Run (smallConfig 4) anyStep s ∧ s.ioPc = .timeSend ∧ s.send.slots.hand .io = some 3 ∧
      s.send.list 3 = m ∧ s.io.table = FdTable.empty.after [.add 5 0] ∧
      s.io.bes 0 = some ⟨5, [], [], true⟩ := by
  have haccept : step (smallConfig 4) (init (smallConfig 4)) (.accept 5) = some connected := rfl
  have hsend : step (smallConfig 4) connected (.send kind 1 (some w)) = some (sending kind m) := by
    show some (connected.sendAlloc _ _ _) = _
    have hhand : (connected.send.slots.alloc .logic).hand .logic = some 3 := rfl
    simp only [sendAlloc, hhand, hwrite]
    rfl
  have run : Run (smallConfig 4) anyStep
      ({ (sending kind m).sendPush with ioPc := .timePop } : ClientState).timePop :=
    reach_of_exec ((Reach.start.next trivial haccept).next trivial hsend)
      (execOk_any _ _ [.logic, .tick, .io 0]) rfl
  refine ⟨_, run, rfl, rfl, ?_, rfl, rfl⟩
  show Function.update connected.send.list 3 m 3 = m
  exact Function.update_self ..

/-! ## Broadcast -/

/-- After any calls of `fd_add` and `fd_del` the list has no descriptor twice, and has exactly those
that are mapped. `fd_add` enters a descriptor in range that is not mapped, and refuses any other;
`fd_del` takes out the one entry of a descriptor that is mapped, and refuses any other. A broadcast
calls `send_msg` once for each descriptor that is mapped, and for no other. -/
theorem broadcast_once (calls : List (TableCall ℕ)) :
    ((FdTable.empty.after calls).fds.Nodup ∧ ∀ fd,
      fd ∈ (FdTable.empty.after calls).fds ↔ ((FdTable.empty.after calls).fd2be fd).isSome) ∧
    (∀ fd be, (0 ≤ fd ∧ fd < FdTable.fdMax) ∧ (FdTable.empty.after calls).fd2be fd = none →
      (FdTable.empty.after calls).fdAdd fd be =
        (true,
          { fd2be := Function.update (FdTable.empty.after calls).fd2be fd (some be)
            fds := (FdTable.empty.after calls).fds ++ [fd] })) ∧
    (∀ fd be, ¬(0 ≤ fd ∧ fd < FdTable.fdMax) ∨ ((FdTable.empty.after calls).fd2be fd).isSome →
      (FdTable.empty.after calls).fdAdd fd be = (false, FdTable.empty.after calls)) ∧
    (∀ fd, ((FdTable.empty.after calls).fd2be fd).isSome →
      ((FdTable.empty.after calls).fdDel fd).1 = true ∧
        (FdTable.empty.after calls).fds.Perm
          (fd :: ((FdTable.empty.after calls).fdDel fd).2.fds) ∧
        ((FdTable.empty.after calls).fdDel fd).2.fd2be =
          Function.update (FdTable.empty.after calls).fd2be fd none) ∧
    (∀ fd, (FdTable.empty.after calls).fd2be fd = none →
      (FdTable.empty.after calls).fdDel fd = (false, FdTable.empty.after calls)) ∧
    ∀ (s : ClientState) (i : ℕ), s.io.table = FdTable.empty.after calls →
      s.send.slots.hand .io = some i → (s.send.list i).fds_len < 0 →
      ∃ fds : List ℤ, s.timeSend.io = fds.foldl (fun io fd =>
          io.sendMsg (s.send.list i) (s.send.addressed i) fd) s.io ∧
        ∀ fd, fds.count fd = if (s.io.table.fd2be fd).isSome then 1 else 0 := by
  have h : (FdTable.empty.after calls).Consistent := FdTable.empty_consistent.after calls
  refine ⟨⟨h.nodup, h.mem_iff⟩, ?_, ?_, ?_, ?_, ?_⟩
  · rintro fd be ⟨hrange, hfree⟩
    exact h.fdAdd_free be hrange hfree
  · intro fd be hno
    exact FdTable.fdAdd_refused be hno
  · intro fd hsome
    exact h.fdDel_removes hsome
  · intro fd hnone
    exact FdTable.fdDel_refused hnone
  · intro s i htable hhand hneg
    -- The recipients are all of `fds`, which has each mapped descriptor once.
    refine ⟨s.io.table.fds, ?_, ?_⟩
    · unfold timeSend
      rw [hhand]
      dsimp only
      rw [if_neg hneg.ne]
      show (s.io.recipients (s.send.list i)).foldl _ s.io = _
      rw [ThreadIo.recipients, if_pos hneg]
    · intro fd
      rw [htable]
      by_cases hmem : fd ∈ (FdTable.empty.after calls).fds
      · rw [if_pos ((h.mem_iff fd).mp hmem), List.count_eq_one_of_mem h.nodup hmem]
      · rw [if_neg fun hsome => hmem ((h.mem_iff fd).mpr hsome), List.count_eq_zero.mpr hmem]

/-- A run in which a broadcast comes to `cb_time` while one client is connected: it is sent to the
descriptor `5`. -/
theorem broadcast_once_five : ∃ (s : ClientState) (i : ℕ), Run (smallConfig 4) anyStep s ∧
    s.ioPc = .timeSend ∧ s.send.slots.hand .io = some i ∧ (s.send.list i).fds_len < 0 ∧
    s.io.table = FdTable.empty.after [.add 5 0] ∧
    ∃ fds : List ℤ, s.timeSend.io = fds.foldl (fun io fd =>
        io.sendMsg (s.send.list i) (s.send.addressed i) fd) s.io ∧
      (∀ fd, fds.count fd = if (s.io.table.fd2be fd).isSome then 1 else 0) ∧ fds.count 5 = 1 := by
  obtain ⟨m, hwrite, hm_neg⟩ : ∃ m, SendKind.broadcast.write (connected.send.list 3) 1
      (some ([], 0)) = some m ∧ m.fds_len < 0 := ⟨_, rfl, by decide⟩
  obtain ⟨s, run, hpc, hhand, hm, htable, -⟩ := exists_sending hwrite
  have hneg : (s.send.list 3).fds_len < 0 := by
    rw [hm]
    exact hm_neg
  obtain ⟨fds, hsent, hcount⟩ :=
    (broadcast_once [.add 5 0]).2.2.2.2.2 s 3 htable hhand hneg
  have hfive : fds.count 5 = 1 := by
    rw [hcount, htable]
    rfl
  exact ⟨s, 3, run, hpc, hhand, hneg, htable, fds, hsent, hcount, hfive⟩

/-! ## Multicast -/

theorem Registered.linked (g : s.Registered) : s.io.Linked where
  range fd be hfd := by
    obtain ⟨b, hb, rfl, hcb⟩ := g.live_of_fd2be fd be hfd
    exact g.accepted_range _ (g.accepted_of_live be b hb hcb)
  live_of_fd2be := g.live_of_fd2be
  fd2be_of_live := g.fd2be_of_live

theorem pushFd_room {m : MsgSend} {k : ℕ} (hk : m.fds_len = k) (hroom : k < MsgSend.fdsSize)
    (fd : ℤ) : m.pushFd fd =
      { m with fds := m.fds.set k (toShort fd), fds_len := ((k + 1 : ℕ) : ℤ) } := by
  have hsize : MsgSend.fdsSize = 2048 := rfl
  have hnot : sizeLe MsgSend.fdsSize m.fds_len = false := by
    rw [sizeLe, hk, Int.emod_eq_of_lt (Int.natCast_nonneg k) (by omega)]
    exact decide_eq_false (by omega)
  have hshort : toShort ((k : ℤ) + 1) = ((k + 1 : ℕ) : ℤ) := by
    rw [toShort_of_range (by omega)]
    push_cast
    rfl
  rw [MsgSend.pushFd, hnot, if_neg Bool.false_ne_true, hk, Int.toNat_natCast, hshort]

/-- A full array stays as it is. -/
theorem pushFd_full {m : MsgSend} (hk : m.fds_len = MsgSend.fdsSize) (fd : ℤ) :
    m.pushFd fd = m := by
  have hyes : sizeLe MsgSend.fdsSize m.fds_len = true := by
    rw [hk]
    rfl
  rw [MsgSend.pushFd, hyes, if_pos rfl]

/-- `push_fd` fills the array up to its end, and no further. -/
theorem foldl_pushFd (fds : List ℤ) {m : MsgSend} {k : ℕ} (hlen : m.fds.length = MsgSend.fdsSize)
    (hk : m.fds_len = k) (hle : k ≤ MsgSend.fdsSize) :
    (fds.foldl MsgSend.pushFd m).fds_len = (min (k + fds.length) MsgSend.fdsSize : ℕ) ∧
      (fds.foldl MsgSend.pushFd m).fds.take (min (k + fds.length) MsgSend.fdsSize) =
        (m.fds.take k ++ fds.map toShort).take MsgSend.fdsSize := by
  induction fds generalizing m k with
  | nil =>
    have hmin : min k MsgSend.fdsSize = k := min_eq_left hle
    simp only [List.foldl_nil, List.length_nil, Nat.add_zero, List.map_nil, List.append_nil, hmin]
    refine ⟨hk, ?_⟩
    rw [List.take_take, min_eq_right hle]
  | cons fd fds ih =>
    rcases Nat.lt_or_ge k MsgSend.fdsSize with hroom | hfull
    · -- The descriptor is stored behind the others.
      have hpush := pushFd_room hk hroom fd
      have hrest := ih (m := m.pushFd fd) (k := k + 1) (by rw [hpush]; simpa using hlen)
        (by rw [hpush]) hroom
      rw [List.foldl_cons, List.length_cons, List.map_cons]
      rw [show k + (fds.length + 1) = k + 1 + fds.length by omega]
      refine ⟨hrest.1, hrest.2.trans ?_⟩
      rw [hpush]
      dsimp only
      rw [List.take_succ_eq_append_getElem (by rw [List.length_set]; omega), List.getElem_set_self,
        List.take_set_of_le le_rfl, List.append_assoc, List.singleton_append]
    · -- The array is full, so that this one and all later ones are left out.
      obtain rfl : k = MsgSend.fdsSize := le_antisymm hle hfull
      have hrest := ih hlen hk le_rfl
      rw [List.foldl_cons, pushFd_full hk]
      rw [min_eq_right (by omega)] at hrest ⊢
      refine ⟨hrest.1, hrest.2.trans ?_⟩
      have htake : (m.fds.take MsgSend.fdsSize).length = MsgSend.fdsSize := by
        rw [List.length_take, hlen, min_self]
      rw [List.take_left' htake, List.take_left' htake]

/-- The message that `multicast` makes of a list of descriptors, when its content is written. -/
theorem multicast_write {fds : List ℤ} {m : MsgSend} (proto_id : ℤ) (w : List UInt8 × ℤ)
    (hlen : m.fds.length = MsgSend.fdsSize) (hshort : ∀ fd ∈ fds, toShort fd = fd) :
    ∃ m', (SendKind.multicast (fds.map some)).write m proto_id (some w) = some m' ∧
      m'.buf_len = w.2 ∧ m'.fds_len = (min fds.length MsgSend.fdsSize : ℕ) ∧
      m'.fds.take (min fds.length MsgSend.fdsSize) = fds.take MsgSend.fdsSize := by
  have hfold : ∀ (fds : List ℤ) (m : MsgSend),
      (fds.map some).foldlM (fun (m : MsgSend) (fd : Option ℤ) => fd.map m.pushFd) m =
        some (fds.foldl MsgSend.pushFd m) := by
    intro fds
    induction fds with
    | nil => exact fun _ => rfl
    | cons fd fds ih => exact fun m => ih (m.pushFd fd)
  obtain ⟨hcount, htake⟩ := foldl_pushFd fds (m := { m with fds_len := 0 }) hlen (k := 0) rfl
    (Nat.zero_le _)
  rw [Nat.zero_add] at hcount htake
  refine ⟨{ fds.foldl MsgSend.pushFd { m with fds_len := 0 } with
    buf := w.1, buf_len := w.2, id := toShort proto_id }, ?_, rfl, hcount, ?_⟩
  · show ((fds.map some).foldlM (fun (m : MsgSend) (fd : Option ℤ) => fd.map m.pushFd)
      { m with fds_len := 0 }).bind _ = _
    rw [hfold]
    rfl
  · refine htake.trans ?_
    rw [List.take_zero, List.nil_append]
    congr 1
    exact (List.map_congr_left hshort).trans (List.map_id fds)

/-- Every registered connection has got the message once for each time that it is listed. -/
def Reached (io io' : ThreadIo) (fds : List ℤ) (frame : List UInt8) : Prop :=
  ∀ fd be b, io.table.fd2be fd = some be → io.bes be = some b →
    io'.bes be = some (b.gets frame (fds.count fd))

/-- `cb_time` delivers a multicast to those that its array has taken. -/
theorem multicast_gets {i : ℕ} {fds : List ℤ} {m : MsgSend} (g : s.Registered)
    (hhand : s.send.slots.hand .io = some i) (hm : s.send.list i = m)
    (hcount : m.fds_len = (min fds.length MsgSend.fdsSize : ℕ))
    (htake : m.fds.take (min fds.length MsgSend.fdsSize) = fds.take MsgSend.fdsSize)
    (hne : fds ≠ []) {fd : ℤ} {be : ℕ} {b : Bufferevent} (hfd : s.io.table.fd2be fd = some be)
    (hb : s.io.bes be = some b) :
    s.timeSend.io.bes be =
      some (b.gets (ThreadIo.frame m) ((fds.take MsgSend.fdsSize).count fd)) := by
  have hpos : 0 < fds.length := List.length_pos_iff.mpr hne
  have hsize : MsgSend.fdsSize = 2048 := rfl
  have hrecipients : s.io.recipients m = fds.take MsgSend.fdsSize := by
    rw [ThreadIo.recipients, hcount, if_neg (by omega), Int.toNat_natCast, htake]
  have hsent : s.timeSend.io = (fds.take MsgSend.fdsSize).foldl (fun io fd =>
      io.sendMsg m (s.send.addressed i) fd) s.io := by
    rw [timeSend, hhand]
    dsimp only
    rw [hm, if_neg (by omega), hrecipients]
  obtain ⟨b', hb', rfl, hcb⟩ := g.linked.live_of_fd2be fd be hfd
  obtain rfl := Option.some.inj (hb'.symm.trans hb)
  rw [hsent, g.linked.sendAll_bes _ hb' hcb]

/-- A multicast to registered connections, whose content has been written, makes a message. When
`cb_time` delivers it, each connection gets it as many times as it is listed exactly if the list has
no more entries than the message has room for. -/
theorem multicast_reaches_iff {now : ℤ} {i : ℕ} {fds : List ℤ} {m : MsgSend} (proto_id : ℤ)
    (w : List UInt8 × ℤ) (run : Run cfg anyStep s) (hpc : s.ioPc = .timeSend)
    (hhand : s.send.slots.hand .io = some i) (hstep : step cfg s (.io now) = some s')
    (hne : fds ≠ []) (hlisted : ∀ fd ∈ fds, (s.io.table.fd2be fd).isSome)
    (hlen : m.fds.length = MsgSend.fdsSize) (hwritten : w.2 ≤ MsgSend.bufSize) :
    ∃ m', (SendKind.multicast (fds.map some)).write m proto_id (some w) = some m' ∧
      (s.send.list i = m' →
        (Reached s.io s'.io fds (ThreadIo.frame m') ↔ fds.length ≤ MsgSend.fdsSize)) := by
  have g := run_registered run
  have hshort : ∀ fd ∈ fds, toShort fd = fd := by
    intro fd hfd
    obtain ⟨be, hbe⟩ := Option.isSome_iff_exists.mp (hlisted fd hfd)
    have hrange := g.linked.range fd be hbe
    simp only [FdTable.fdMax] at hrange
    exact toShort_of_range (by omega)
  obtain ⟨m', hwrite, hbuf, hcount, htake⟩ := multicast_write proto_id w hlen hshort
  refine ⟨m', hwrite, ?_⟩
  intro hm
  have heq := step_io_eq hstep
  rw [hpc] at heq
  dsimp only at heq
  subst heq
  constructor
  · intro hreached
    by_contra hlong
    -- The first descriptor that is left out has got the message too few times.
    have hlt : MsgSend.fdsSize < fds.length := not_le.mp hlong
    obtain ⟨be, hbe⟩ := Option.isSome_iff_exists.mp (hlisted _ (List.getElem_mem hlt))
    obtain ⟨b, hb, -⟩ := g.linked.live_of_fd2be _ be hbe
    have hgets := multicast_gets g hhand hm hcount htake hne hbe hb
    have hsame := Bufferevent.gets_injective (ThreadIo.frame_ne_nil (hbuf ▸ hwritten))
      (Option.some.inj ((hreached _ be b hbe hb).symm.trans hgets))
    have hsplit : fds.count fds[MsgSend.fdsSize] =
        (fds.take MsgSend.fdsSize).count fds[MsgSend.fdsSize] +
          (fds.drop MsgSend.fdsSize).count fds[MsgSend.fdsSize] := by
      rw [← List.count_append, List.take_append_drop]
    have hmem : fds[MsgSend.fdsSize] ∈ fds.drop MsgSend.fdsSize := by
      rw [List.drop_eq_getElem_cons hlt]
      exact List.mem_cons_self
    have hpositive := List.count_pos_iff.mpr hmem
    omega
  · intro hle fd be b hfd hb
    rw [multicast_gets g hhand hm hcount htake hne hfd hb, List.take_of_length_le hle]

/-- The client is listed twice, and gets the message twice. -/
theorem multicast_reaches_iff_twice :
    ∃ s s' m, Run (smallConfig 4) anyStep s ∧ step (smallConfig 4) s (.io 0) = some s' ∧
      (SendKind.multicast [some 5, some 5]).write (connected.send.list 3) 1 (some ([], 0)) =
        some m ∧
      Reached s.io s'.io [5, 5] (ThreadIo.frame m) := by
  have hshort : ∀ fd ∈ [5, 5], toShort fd = fd := by decide
  have hlen : (connected.send.list 3).fds.length = MsgSend.fdsSize := List.length_replicate
  obtain ⟨m, hwrite, -⟩ := multicast_write 1 ([], 0) hlen hshort
  obtain ⟨s, run, hpc, hhand, hm, htable, -⟩ := exists_sending hwrite
  have hfd : s.io.table.fd2be 5 = some 0 := by
    rw [htable]
    rfl
  have hstep : step (smallConfig 4) s (.io 0) = some s.timeSend := by
    show s.ioNext (smallConfig 4) 0 = _
    rw [ioNext, hpc]
  have hlisted : ∀ fd ∈ [5, 5], (s.io.table.fd2be fd).isSome := by simp [hfd]
  obtain ⟨m', hwrite', hiff⟩ := multicast_reaches_iff 1 ([], 0) run hpc hhand hstep (by decide)
    hlisted hlen (by decide)
  obtain rfl : m = m' := Option.some.inj (hwrite.symm.trans hwrite')
  exact ⟨s, s.timeSend, m, run, hstep, hwrite, (hiff hm).mpr (by decide)⟩

/-- Listed once more than there is room for, it gets the message too few times. -/
theorem multicast_reaches_iff_crowd :
    ∃ s s' m, Run (smallConfig 4) anyStep s ∧ s.ioPc = .timeSend ∧
      s.send.slots.hand .io = some 3 ∧ s.send.list 3 = m ∧
      step (smallConfig 4) s (.io 0) = some s' ∧ s.io.table.fd2be 5 = some 0 ∧
      (SendKind.multicast (List.replicate 2049 (some 5))).write (connected.send.list 3) 1
        (some ([], 0)) = some m ∧
      ¬Reached s.io s'.io (List.replicate 2049 5) (ThreadIo.frame m) := by
  have hmany : (List.replicate 2049 (5 : ℤ)).map some = List.replicate 2049 (some 5) :=
    List.map_replicate
  have hshort : ∀ fd ∈ List.replicate 2049 5, toShort fd = fd := by
    intro fd hfd
    rw [List.eq_of_mem_replicate hfd]
    rfl
  have hlen : (connected.send.list 3).fds.length = MsgSend.fdsSize := List.length_replicate
  obtain ⟨m, hwrite, hbuf, hcount, htake⟩ := multicast_write 1 ([], 0) hlen hshort
  obtain ⟨s, run, hpc, hhand, hm, htable, hb⟩ := exists_sending hwrite
  have hfd : s.io.table.fd2be 5 = some 0 := by
    rw [htable]
    rfl
  have hstep : step (smallConfig 4) s (.io 0) = some s.timeSend := by
    show s.ioNext (smallConfig 4) 0 = _
    rw [ioNext, hpc]
  rw [hmany] at hwrite
  refine ⟨s, s.timeSend, m, run, hpc, hhand, hm, hstep, hfd, hwrite, ?_⟩
  intro hreached
  have hgets := multicast_gets (run_registered run) hhand hm hcount htake
    (List.cons_ne_nil _ _) hfd hb
  have hsame := Bufferevent.gets_injective
    (ThreadIo.frame_ne_nil (by rw [hbuf]; exact Int.natCast_nonneg _))
    (Option.some.inj ((hreached 5 0 _ hfd hb).symm.trans hgets))
  rw [List.take_replicate, List.count_replicate_self, List.count_replicate_self] at hsame
  exact absurd hsame (by decide)

end ClientState

end Catse
