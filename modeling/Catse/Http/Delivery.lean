import Catse.Http.Requests

/-!
# Every request at most once and in order

`Safe` is the invariant of the http path for its pool, its ring and its connection. `Kept` is the
one for what is written: what has become of each message that the http thread is done with is right
for the address and the string that `send` was called with, the requests are written in the order of
these calls, and those of one connection before those of the next. `requests_sent` has both for
every state of every run.
-/

namespace Catse

open ThreadHttp

/-- Does the http thread hold a message? -/
def HttpPc.hand : HttpPc → Bool
  | .timeMsg | .eventMsg => true
  | _ => false

/-- Has it seen one in the ring? -/
def HttpPc.front : HttpPc → Bool
  | .timePop | .eventPop => true
  | _ => false

/-- Is it about to write to the connection? -/
def HttpPc.writes : HttpPc → Bool
  | .timePop | .timeMsg => true
  | _ => false

/-- Does the logic thread hold a message? -/
def HttpLogicPc.hand : HttpLogicPc → Bool
  | .fill _ _ => true
  | .idle => false

namespace HttpFate

/-- The connection that a request is written to. -/
def conn : HttpFate → Option ℕ
  | .sent k _ => some k
  | _ => none

/-- What is written to the connection `k`. -/
def bytesTo (k : ℕ) : HttpFate → List UInt8
  | .sent k' request => if k' = k then request else []
  | _ => []

/-- What becomes of a message for an address and a string: it is sent only if it fits, as the
request for them, and is refused only if it does not fit. -/
def Right (ip url str : List UInt8) : HttpFate → Prop
  | .sent _ request => request = requestOf ip url str ∧ Fits ip url str
  | .refused => ¬Fits ip url str
  | .ended => True

end HttpFate

namespace HttpState

variable {n : ℕ} {ip : List UInt8} {list : ℕ → MsgHttp} {s s' : HttpState}

/-- The pool is conserved, the program counters agree with what is held, what `getfront` has found
is still there, and there is a connection to write to. -/
structure Safe (n : ℕ) (s : HttpState) : Prop where
  mail : s.mail.Ok n
  consumer : (s.mail.held .consumer).isSome = s.pc.hand
  producer : (s.mail.held .producer).isSome = s.logicPc.hand
  front : s.pc.front = true → s.mail.queue ≠ []
  be : s.pc.writes = true → s.be.isSome = true
  latest : ∀ k, s.be = some k → k + 1 = s.created
  noFault : s.pc ≠ .fault

/-- What is written is right. -/
structure Kept (ip : List UInt8) (s : HttpState) : Prop where
  ip_eq : s.ip = ip
  asked : s.history.asked.length = s.mail.put.length
  holds : ∀ (j : ℕ) m p, s.mail.put[j]? = some m → s.history.asked[j]? = some p → m.Holds p.1 p.2
  small : ∀ url str, s.logicPc = .fill url str → url.length < 2^31 ∧ str.length < 2^31
  count : s.history.fates.length + s.pc.hand.toNat = s.mail.got.length
  fate : ∀ (j : ℕ) f p, s.history.fates[j]? = some f → s.history.asked[j]? = some p →
    f.Right ip p.1 p.2
  output : ∀ k, s.history.output k = s.history.fates.flatMap (HttpFate.bytesTo k)
  order : (s.history.fates.filterMap HttpFate.conn).Pairwise (· ≤ ·)
  conn : ∀ k ∈ s.history.fates.filterMap HttpFate.conn, k < s.created

theorem init_safe (n : ℕ) (ip : List UInt8) (list : ℕ → MsgHttp) : (init n ip list).Safe n where
  mail := Mailbox.init_ok n list
  consumer := rfl
  producer := rfl
  front h := absurd h (by simp [init, HttpPc.front])
  be h := absurd h (by simp [init, HttpPc.writes])
  latest _ h := absurd h (by simp [init])
  noFault h := absurd h (by simp [init])

theorem init_kept (n : ℕ) (ip : List UInt8) (list : ℕ → MsgHttp) : (init n ip list).Kept ip where
  ip_eq := rfl
  asked := rfl
  holds j m p h := absurd h (by simp [init, Mailbox.init])
  small _ _ h := absurd h (by simp [init])
  count := rfl
  fate j f p h := absurd h (by simp [init])
  output _ := rfl
  order := List.Pairwise.nil
  conn _ h := absurd h (by simp [init])

/-- `getfront` finds a message exactly if there is one in the ring. -/
theorem Safe.hasFront_iff (g : s.Safe n) : s.hasFront = true ↔ s.mail.queue ≠ [] := by
  have hfront := (g.mail.conserved.holds ()).getfront_eq
  rw [hasFront, hfront, Mailbox.queue]
  cases (s.mail.slots.ring ()).toList <;> simp

/-! ## The http thread -/

/-- `cb_time` up to `pop`: only the connection and the program counter change. -/
theorem cbTime_spec (g : s.Safe n) (hpc : s.pc = .idle) (created connects : Bool) :
    ∃ be' created' connect_state' pc', s.cbTime created connects =
        { s with be := be', created := created', connect_state := connect_state', pc := pc' } ∧
      s.created ≤ created' ∧ (∀ k, be' = some k → k + 1 = created') ∧
      (pc' = .idle ∨ pc' = .timePop ∧ be'.isSome = true ∧ s.mail.queue ≠ []) := by
  have hsame : ∃ be' created' connect_state' pc', s =
        { s with be := be', created := created', connect_state := connect_state', pc := pc' } ∧
      s.created ≤ created' ∧ (∀ k, be' = some k → k + 1 = created') ∧
      (pc' = .idle ∨ pc' = .timePop ∧ be'.isSome = true ∧ s.mail.queue ≠ []) :=
    ⟨s.be, s.created, s.connect_state, s.pc, rfl, le_rfl, g.latest, .inl hpc⟩
  unfold cbTime
  by_cases hfront : s.hasFront = true
  swap
  · rw [if_pos (by simpa using hfront)]
    exact hsame
  rw [if_neg (by simp [hfront])]
  by_cases hnew : s.be = none ∧ (!created) = true
  · rw [if_pos hnew]
    exact hsame
  rw [if_neg hnew]
  have hqueue := g.hasFront_iff.mp hfront
  -- Now there is a connection, an old or a new one.
  obtain ⟨k, created', cs, hbe, hle, hk⟩ : ∃ k created' cs,
      s.newBe = { s with be := some k, created := created', connect_state := cs } ∧
      s.created ≤ created' ∧ k + 1 = created' := by
    unfold newBe
    split
    · rename_i k hk
      exact ⟨k, s.created, s.connect_state, by rw [← hk], le_rfl, g.latest k hk⟩
    · exact ⟨s.created, s.created + 1, 0, rfl, Nat.le_succ _, rfl⟩
  have hlatest : ∀ j, some k = some j → j + 1 = created' := fun j hj => by
    rw [← Option.some.inj hj]
    exact hk
  rw [hbe]
  dsimp only
  by_cases hzero : cs = 0
  · rw [if_pos hzero]
    cases connects
    · exact ⟨some k, created', cs, s.pc, rfl, hle, hlatest, .inl hpc⟩
    · exact ⟨some k, created', 1, s.pc, rfl, hle, hlatest, .inl hpc⟩
  rw [if_neg hzero]
  by_cases hone : cs = 1
  · rw [if_pos hone]
    exact ⟨some k, created', cs, s.pc, rfl, hle, hlatest, .inl hpc⟩
  · rw [if_neg hone]
    exact ⟨some k, created', cs, .timePop, rfl, hle, hlatest, .inr ⟨rfl, rfl, hqueue⟩⟩

theorem tick_inv (g : s.Safe n) (d : s.Kept ip) (hpc : s.pc = .idle) (created connects : Bool) :
    (s.cbTime created connects).Safe n ∧ (s.cbTime created connects).Kept ip := by
  obtain ⟨be', created', cs, pc', heq, hle, hlatest, hcase⟩ := cbTime_spec g hpc created connects
  have hcon := g.consumer
  have hcount := d.count
  rw [hpc] at hcon hcount
  have hconn : ∀ k ∈ s.history.fates.filterMap HttpFate.conn, k < created' := fun k hk =>
    (d.conn k hk).trans_le hle
  rw [heq]
  rcases hcase with rfl | ⟨rfl, hbe, hqueue⟩
  · exact ⟨⟨g.mail, hcon, g.producer, fun h => absurd h (by simp [HttpPc.front]),
        fun h => absurd h (by simp [HttpPc.writes]), hlatest, by simp⟩,
      ⟨d.ip_eq, d.asked, d.holds, d.small, hcount, d.fate, d.output, d.order, hconn⟩⟩
  · exact ⟨⟨g.mail, hcon, g.producer, fun _ => hqueue, fun _ => hbe, hlatest, by simp⟩,
      ⟨d.ip_eq, d.asked, d.holds, d.small, hcount, d.fate, d.output, d.order, hconn⟩⟩

theorem event_inv (g : s.Safe n) (d : s.Kept ip) (hpc : s.pc = .idle) (connected : Bool) :
    (s.cbEvent connected).Safe n ∧ (s.cbEvent connected).Kept ip := by
  have hcon := g.consumer
  have hcount := d.count
  rw [hpc] at hcon hcount
  cases connected with
  | true =>
    exact ⟨⟨g.mail, g.consumer, g.producer, g.front, g.be, g.latest, g.noFault⟩,
      ⟨d.ip_eq, d.asked, d.holds, d.small, d.count, d.fate, d.output, d.order, d.conn⟩⟩
  | false =>
    exact ⟨⟨g.mail, hcon, g.producer, fun h => absurd h (by simp [cbEvent, HttpPc.front]),
        fun h => absurd h (by simp [cbEvent, HttpPc.writes]),
        fun k h => absurd h (by simp [cbEvent]), by simp [cbEvent]⟩,
      ⟨d.ip_eq, d.asked, d.holds, d.small, hcount, d.fate, d.output, d.order, d.conn⟩⟩

/-- A `pop` where `getfront` has found a message gets one. -/
theorem pop_inv (g : s.Safe n) (d : s.Kept ip) (pc' : HttpPc) (hhand : s.pc.hand = false)
    (hfront : s.pc.front = true) (hpc' : pc'.hand = true)
    (hfront' : pc'.front = false) (hwrites : pc'.writes = true → s.pc.writes = true)
    (hfault : pc' ≠ .fault) :
    (s.mail.pop.held .consumer).isSome = true ∧
      ({ s with mail := s.mail.pop, pc := pc' } : HttpState).Safe n ∧
      ({ s with mail := s.mail.pop, pc := pc' } : HttpState).Kept ip := by
  have hcount := d.count
  rw [hhand] at hcount
  have hnone : s.mail.held .consumer = none := Mailbox.held_none (g.consumer.trans hhand)
  rcases g.mail.pop_spec hnone with ⟨hnil, -⟩ | ⟨m, -, hheld, hother, hput, hgot, hok⟩
  · exact absurd hnil (g.front hfront)
  have hsome : (s.mail.pop.held .consumer).isSome = true := by
    rw [hheld]
    rfl
  refine ⟨hsome, ⟨hok, hsome.trans hpc'.symm, (congrArg Option.isSome hother).trans g.producer,
    fun h => absurd (hfront'.symm.trans h) (by simp), fun h => g.be (hwrites h), g.latest, hfault⟩,
    ⟨d.ip_eq, ?_, ?_, d.small, ?_, d.fate, d.output, d.order, d.conn⟩⟩
  · show _ = s.mail.pop.put.length
    rw [hput]
    exact d.asked
  · show ∀ (j : ℕ) m p, s.mail.pop.put[j]? = some m → _
    rw [hput]
    exact d.holds
  · show s.history.fates.length + pc'.hand.toNat = s.mail.pop.got.length
    rw [hgot, List.length_append, ← hcount, hpc']
    rfl

/-- The message in the http thread's hand is freed, and its fate is recorded. -/
theorem free_inv (g : s.Safe n) (d : s.Kept ip) (pc' : HttpPc) (f : HttpFate)
    (output' : ℕ → List UInt8) (hhand : s.pc.hand = true) (hpc' : pc'.hand = false)
    (hfront' : pc'.front = false) (hwrites' : pc'.writes = false) (hfault : pc' ≠ .fault)
    (hright : ∀ m, s.mail.got.getLast? = some m → ∀ url str, m.Holds url str → f.Right ip url str)
    (houtput : ∀ k, output' k = s.history.output k ++ f.bytesTo k)
    (hconn : ∀ k, f.conn = some k → k + 1 = s.created) :
    ({ s with
      mail := s.mail.free .consumer
      pc := pc'
      history := ⟨output', s.history.fates ++ [f], s.history.asked⟩ } : HttpState).Safe n ∧
    ({ s with
      mail := s.mail.free .consumer
      pc := pc'
      history := ⟨output', s.history.fates ++ [f], s.history.asked⟩ } : HttpState).Kept ip := by
  have hcount := d.count
  rw [hhand] at hcount
  change s.history.fates.length + 1 = _ at hcount
  have hsome : (s.mail.held .consumer).isSome = true := g.consumer.trans hhand
  obtain ⟨hfree, hother, hqueue, hok⟩ := g.mail.free_spec hsome
  have hnew : ∀ k ∈ (s.history.fates ++ [f]).filterMap HttpFate.conn,
      k ∈ s.history.fates.filterMap HttpFate.conn ∨ f.conn = some k := by
    intro k hk
    rw [List.filterMap_append] at hk
    rcases List.mem_append.mp hk with hk | hk
    · exact .inl hk
    · obtain ⟨f', hf', hk⟩ := List.mem_filterMap.mp hk
      exact .inr (List.mem_singleton.mp hf' ▸ hk)
  refine ⟨⟨hok, ?_, ?_, fun h => absurd (hfront'.symm.trans h) (by simp),
    fun h => absurd (hwrites'.symm.trans h) (by simp), g.latest, hfault⟩,
    ⟨d.ip_eq, d.asked, d.holds, d.small, ?_, fun j f' p hf' hp => ?_, fun k => ?_, ?_,
      fun k hk => ?_⟩⟩
  · rw [hpc']
    exact congrArg Option.isSome hfree
  · exact (congrArg Option.isSome (hother .producer (by decide))).trans g.producer
  · show (s.history.fates ++ [f]).length + pc'.hand.toNat = s.mail.got.length
    rw [List.length_append, hpc', ← hcount]
    rfl
  · change (s.history.fates ++ [f])[j]? = some f' at hf'
    change s.history.asked[j]? = some p at hp
    rcases Nat.lt_or_ge j s.history.fates.length with hj | hj
    · rw [List.getElem?_append_left hj] at hf'
      exact d.fate j f' p hf' hp
    · -- It is the message that is freed.
      rw [List.getElem?_append_right hj, List.getElem?_singleton] at hf'
      split_ifs at hf' with hj0
      obtain rfl : f = f' := Option.some.inj hf'
      have hlen : j < s.mail.got.length := by omega
      have hget := List.getElem?_eq_getElem hlen
      have hput : s.mail.put[j]? = some s.mail.got[j] := by
        rw [g.mail.fifo, List.getElem?_append_left hlen]
        exact hget
      refine hright _ ?_ p.1 p.2 (d.holds j _ p hput hp)
      rw [List.getLast?_eq_getElem?, ← hget]
      congr 1
      omega
  · show output' k = (s.history.fates ++ [f]).flatMap _
    rw [houtput, d.output, List.flatMap_append, List.flatMap_singleton]
  · show ((s.history.fates ++ [f]).filterMap HttpFate.conn).Pairwise (· ≤ ·)
    rw [List.filterMap_append, List.pairwise_append]
    refine ⟨d.order, ?_, fun k hk k' hk' => ?_⟩
    · cases hc : f.conn <;> simp [hc]
    · obtain ⟨f', hf', hk'⟩ := List.mem_filterMap.mp hk'
      have hlast := hconn k' (List.mem_singleton.mp hf' ▸ hk')
      have hlt := d.conn k hk
      omega
  · rcases hnew k hk with hk | hk
    · exact d.conn k hk
    · have hlast := hconn k hk
      show k < s.created
      omega

theorem timePop_inv (g : s.Safe n) (d : s.Kept ip) (hpc : s.pc = .timePop) :
    s.timePop.Safe n ∧ s.timePop.Kept ip := by
  obtain ⟨hsome, h⟩ := pop_inv g d .timeMsg (by rw [hpc]; rfl) (by rw [hpc]; rfl) rfl rfl
    (fun _ => by rw [hpc]; rfl) (by simp)
  unfold timePop
  dsimp only
  rw [if_pos hsome]
  exact h

/-- `cb_time` writes the request of its message, or none. -/
theorem timeMsg_inv (g : s.Safe n) (d : s.Kept ip) (hpc : s.pc = .timeMsg) (buf : ℕ → UInt8) :
    (s.timeMsg buf).Safe n ∧ (s.timeMsg buf).Kept ip := by
  have hhand : s.pc.hand = true := by rw [hpc]; rfl
  obtain ⟨m, hm⟩ := Option.isSome_iff_exists.mp (g.consumer.trans hhand)
  obtain ⟨k, hk⟩ := Option.isSome_iff_exists.mp (g.be (by rw [hpc]; rfl))
  have hlast := g.mail.last m hm
  have hrun : ∀ url str, m.Holds url str → _ := fun url str h => h.run buf s.ip
  unfold timeMsg
  rw [hm]
  dsimp only
  cases hrequest : (Call.run ⟨buf, 0, m, [], 0, none⟩ s.ip).request with
  | none =>
    -- The request does not fit, and the message goes back to the pool unsent.
    refine free_inv g d .idle .refused s.history.output hhand rfl rfl rfl (by simp)
      (fun m' hm' url str h => ?_) (fun k => (List.append_nil _).symm)
      fun k h => absurd h (by simp [HttpFate.conn])
    obtain rfl : m = m' := Option.some.inj (hlast.symm.trans hm')
    rcases hrun url str h with ⟨-, hnot⟩ | ⟨hsome, -⟩
    · rw [← d.ip_eq]
      exact hnot
    · rw [hrequest] at hsome
      exact absurd hsome (by simp)
  | some request =>
    -- The connection that it is written to is the latest one.
    dsimp only
    split
    · rename_i hnone
      exact absurd (hnone.symm.trans hk) (by simp)
    rename_i k' hk'
    obtain rfl : k = k' := Option.some.inj (hk.symm.trans hk')
    refine free_inv g d .idle (.sent k request)
      (Function.update s.history.output k (s.history.output k ++ request)) hhand rfl rfl rfl
      (by simp) (fun m' hm' url str h => ?_) (fun j => ?_) fun j hj => ?_
    · obtain rfl : m = m' := Option.some.inj (hlast.symm.trans hm')
      rcases hrun url str h with ⟨hnone, -⟩ | ⟨hsome, hfits⟩
      · rw [hrequest] at hnone
        exact absurd hnone (by simp)
      · rw [hrequest] at hsome
        rw [← d.ip_eq]
        exact ⟨Option.some.inj hsome, hfits⟩
    · rw [HttpFate.bytesTo]
      by_cases hj : k = j
      · rw [if_pos hj, ← hj, Function.update_self]
      · rw [if_neg hj, Function.update_of_ne (Ne.symm hj), List.append_nil]
    · exact g.latest j (hk.trans hj)

theorem eventFront_inv (g : s.Safe n) (d : s.Kept ip) (hpc : s.pc = .eventFront) :
    s.eventFront.Safe n ∧ s.eventFront.Kept ip := by
  have hcon := g.consumer
  have hcount := d.count
  rw [hpc] at hcon hcount
  unfold eventFront
  by_cases hfront : s.hasFront = true
  · rw [if_pos hfront]
    exact ⟨⟨g.mail, hcon, g.producer, fun _ => g.hasFront_iff.mp hfront,
        fun h => absurd h (by simp [HttpPc.writes]), g.latest, by simp⟩,
      ⟨d.ip_eq, d.asked, d.holds, d.small, hcount, d.fate, d.output, d.order, d.conn⟩⟩
  · rw [if_neg hfront]
    exact ⟨⟨g.mail, hcon, g.producer, fun h => absurd h (by simp [HttpPc.front]),
        fun h => absurd h (by simp [HttpPc.writes]), g.latest, by simp⟩,
      ⟨d.ip_eq, d.asked, d.holds, d.small, hcount, d.fate, d.output, d.order, d.conn⟩⟩

theorem eventPop_inv (g : s.Safe n) (d : s.Kept ip) (hpc : s.pc = .eventPop) :
    s.eventPop.Safe n ∧ s.eventPop.Kept ip := by
  obtain ⟨hsome, h⟩ := pop_inv g d .eventMsg (by rw [hpc]; rfl) (by rw [hpc]; rfl) rfl rfl
    (fun h => absurd h (by simp [HttpPc.writes])) (by simp)
  unfold eventPop
  dsimp only
  rw [if_pos hsome]
  exact h

theorem eventMsg_inv (g : s.Safe n) (d : s.Kept ip) (hpc : s.pc = .eventMsg) :
    s.eventMsg.Safe n ∧ s.eventMsg.Kept ip :=
  free_inv g d .eventFront .ended s.history.output (by rw [hpc]; rfl) rfl rfl rfl (by simp)
    (fun _ _ _ _ _ => trivial) (fun k => (List.append_nil _).symm)
    fun k h => absurd h (by simp [HttpFate.conn])

/-! ## The logic thread -/

theorem send_inv (g : s.Safe n) (d : s.Kept ip) (hpc : s.logicPc = .idle) {url str : List UInt8}
    (hsmall : url.length < 2^31 ∧ str.length < 2^31) :
    (s.send url str).Safe n ∧ (s.send url str).Kept ip := by
  have hpro := g.producer
  rw [hpc] at hpro
  have hnone : s.mail.held .producer = none := Mailbox.held_none hpro
  unfold send
  dsimp only
  rcases g.mail.alloc_spec hnone with heq | ⟨hsome, hother, hqueue, hok⟩
  · rw [heq, hnone]
    exact ⟨⟨g.mail, g.consumer, hpro, g.front, g.be, g.latest, g.noFault⟩,
      ⟨d.ip_eq, d.asked, d.holds, fun url str h => absurd h (by simp), d.count, d.fate, d.output,
        d.order, d.conn⟩⟩
  · rw [hsome, if_pos rfl]
    refine ⟨⟨hok, (congrArg Option.isSome hother).trans g.consumer, hsome, fun h => ?_, g.be,
      g.latest, g.noFault⟩,
      ⟨d.ip_eq, d.asked, d.holds, fun url' str' h => ?_, d.count, d.fate, d.output, d.order,
        d.conn⟩⟩
    · show s.mail.alloc.queue ≠ []
      rw [hqueue]
      exact g.front h
    · obtain ⟨rfl, rfl⟩ : url = url' ∧ str = str' := by simpa using h
      exact hsmall

/-- `send` writes its message and pushes it. -/
theorem fill_inv (g : s.Safe n) (d : s.Kept ip) {url str : List UInt8}
    (hpc : s.logicPc = .fill url str) :
    (s.fill url str).Safe n ∧ (s.fill url str).Kept ip := by
  obtain ⟨hurl, hstr⟩ := d.small url str hpc
  obtain ⟨m, hm⟩ := Option.isSome_iff_exists.mp (g.producer.trans (by rw [hpc]; rfl))
  obtain ⟨hheld, hother, hqueue, hput, hgot, hok⟩ :=
    g.mail.edit_spec fun m => (m.writeString str).writeUrlString url
  rw [hm, Option.map_some] at hheld
  obtain ⟨hpush, hother', hqueue', hput', hgot', hok'⟩ := hok.push_spec hheld
  rw [hput] at hput'
  unfold fill
  refine ⟨⟨hok', (congrArg Option.isSome (hother'.trans hother)).trans g.consumer,
    congrArg Option.isSome hpush, fun _ => ?_, g.be, g.latest, g.noFault⟩,
    ⟨d.ip_eq, ?_, fun j m' p hm' hp => ?_, fun _ _ h => absurd h (by simp), ?_,
      fun j f p hf hp => ?_, d.output, d.order, d.conn⟩⟩
  · show (s.mail.edit fun m => (m.writeString str).writeUrlString url).push.queue ≠ []
    rw [hqueue']
    simp
  · show (s.history.asked ++ [(url, str)]).length =
      (s.mail.edit fun m => (m.writeString str).writeUrlString url).push.put.length
    rw [hput', List.length_append, List.length_append, d.asked, List.length_singleton,
      List.length_singleton]
  · change (s.mail.edit fun m => (m.writeString str).writeUrlString url).push.put[j]? = _ at hm'
    change (s.history.asked ++ [(url, str)])[j]? = _ at hp
    rw [hput'] at hm'
    rcases Nat.lt_or_ge j s.history.asked.length with hj | hj
    · rw [List.getElem?_append_left hj] at hp
      rw [List.getElem?_append_left (d.asked ▸ hj)] at hm'
      exact d.holds j m' p hm' hp
    · rw [List.getElem?_append_right hj, List.getElem?_singleton] at hp
      rw [List.getElem?_append_right (d.asked ▸ hj), List.getElem?_singleton] at hm'
      split_ifs at hp hm'
      obtain rfl := Option.some.inj hp
      obtain rfl := Option.some.inj hm'
      exact MsgHttp.holds_write m hurl hstr
  · show _ = (s.mail.edit fun m => (m.writeString str).writeUrlString url).push.got.length
    rw [hgot', hgot]
    exact d.count
  · -- A message that was queued before is as it was; the new one holds what `send` was asked for.
    change (s.history.asked ++ [(url, str)])[j]? = _ at hp
    -- Only messages that were queued before are done.
    have hj : j < s.history.asked.length := by
      have hlt := (List.getElem?_eq_some_iff.mp hf).1
      have hcount := d.count
      change j < s.history.fates.length at hlt
      rw [d.asked, g.mail.fifo, List.length_append]
      omega
    rw [List.getElem?_append_left hj] at hp
    exact d.fate j f p hf hp

/-! ## Runs -/

/-- Every step keeps both. -/
theorem step_inv (g : s.Safe n) (d : s.Kept ip) {a : HttpAction} (hstep : step s a = some s') :
    s'.Safe n ∧ s'.Kept ip := by
  cases a with
  | tick created connects =>
    simp only [step, Option.ite_none_right_eq_some, Option.some.injEq] at hstep
    obtain ⟨hpc, rfl⟩ := hstep
    exact tick_inv g d hpc created connects
  | event connected =>
    simp only [step, Option.ite_none_right_eq_some, Option.some.injEq] at hstep
    obtain ⟨⟨hpc, -⟩, rfl⟩ := hstep
    exact event_inv g d hpc connected
  | http buf =>
    -- The next statement of the callback that runs.
    simp only [step, httpNext] at hstep
    cases hpc : s.pc with
    | idle =>
      rw [hpc] at hstep
      exact absurd hstep (by simp)
    | timePop =>
      rw [hpc] at hstep
      obtain rfl := Option.some.inj hstep
      exact timePop_inv g d hpc
    | timeMsg =>
      rw [hpc] at hstep
      obtain rfl := Option.some.inj hstep
      exact timeMsg_inv g d hpc buf
    | eventFront =>
      rw [hpc] at hstep
      obtain rfl := Option.some.inj hstep
      exact eventFront_inv g d hpc
    | eventPop =>
      rw [hpc] at hstep
      obtain rfl := Option.some.inj hstep
      exact eventPop_inv g d hpc
    | eventMsg =>
      rw [hpc] at hstep
      obtain rfl := Option.some.inj hstep
      exact eventMsg_inv g d hpc
    | fault =>
      rw [hpc] at hstep
      exact absurd hstep (by simp)
  | send url str =>
    rw [step, Option.ite_none_right_eq_some, Option.some.injEq] at hstep
    obtain ⟨⟨hpc, hsmall⟩, rfl⟩ := hstep
    exact send_inv g d hpc hsmall
  | fill =>
    -- The rest of `send`, when it has a slot.
    simp only [step] at hstep
    cases hpc : s.logicPc with
    | idle =>
      rw [hpc] at hstep
      exact absurd hstep (by simp)
    | fill url str =>
      rw [hpc] at hstep
      obtain rfl := Option.some.inj hstep
      exact fill_inv g d hpc

/-- Both hold in every state of every run. -/
theorem run_inv (run : Run n ip list s) : s.Safe n ∧ s.Kept ip :=
  run.invariant (I := fun s => s.Safe n ∧ s.Kept ip)
    ⟨init_safe n ip list, init_kept n ip list⟩ fun _ _ _ _ h _ hstep => step_inv h.1 h.2 hstep

/-- In every state of every run: no slot is lost and nothing is used that is not there. Each message
that the http thread is done with has one fate, which is right for the call of `send` that it comes
from; a connection has got the requests that were sent to it, whole and in the order of the calls;
and no request goes to an earlier connection than one before it. -/
theorem requests_sent (run : Run n ip list s) :
    s.pc ≠ .fault ∧ s.mail.Ok n ∧ s.history.asked.length = s.mail.put.length ∧
      s.history.fates.length + s.pc.hand.toNat = s.mail.got.length ∧
      (∀ (j : ℕ) f p, s.history.fates[j]? = some f → s.history.asked[j]? = some p →
        f.Right ip p.1 p.2) ∧
      (∀ k, s.history.output k = s.history.fates.flatMap (HttpFate.bytesTo k)) ∧
      (s.history.fates.filterMap HttpFate.conn).Pairwise (· ≤ ·) := by
  obtain ⟨g, d⟩ := run_inv run
  exact ⟨g.noFault, g.mail, d.asked, d.count, d.fate, d.output, d.order⟩

/-- Lua code asks for `/x?` with `a`, and once the connection is there the request is written. -/
def oneRequest : List HttpAction :=
  [.send (Printf.literal "/x?") (Printf.literal "a"), .fill, .tick true true, .event true,
    .tick true true, .http fun _ => 0, .http fun _ => 0]

theorem requests_sent_one : ∃ s : HttpState, s.history.output 0 =
      Printf.literal "GET /x?a HTTP/1.1\nHost:h\n\n" ∧
    s.pc ≠ .fault ∧ s.mail.Ok 1 ∧ s.history.asked.length = s.mail.put.length ∧
      s.history.fates.length + s.pc.hand.toNat = s.mail.got.length ∧
      (∀ (j : ℕ) f p, s.history.fates[j]? = some f → s.history.asked[j]? = some p →
        f.Right (Printf.literal "h") p.1 p.2) ∧
      (∀ k, s.history.output k = s.history.fates.flatMap (HttpFate.bytesTo k)) ∧
      (s.history.fates.filterMap HttpFate.conn).Pairwise (· ≤ ·) := by
  have hexec : ((exec step (init 1 (Printf.literal "h") fun _ => ⟨fun _ => 0, fun _ => 0, 0, 0⟩)
      oneRequest).map fun s => s.history.output 0) =
        some (Printf.literal "GET /x?a HTTP/1.1\nHost:h\n\n") := by
    decide +kernel
  obtain ⟨s, hs, hout⟩ := Option.map_eq_some_iff.mp hexec
  have run : Run 1 _ _ s := reach_of_exec .start (execOk_any _ _ _) hs
  exact ⟨s, hout, requests_sent run⟩

end HttpState

end Catse
