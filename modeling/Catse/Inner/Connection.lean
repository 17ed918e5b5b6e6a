import Catse.Inner.Machine

/-!
# The connection to the middle server

A server without `isMiddle` has one connection, `beNormal`. The callbacks that end it free the
bufferevent and reset `beNormal` and `connect_state`, so that the pointer, the state and the
lifetime of the bufferevent stay in step: `ThreadInner.Tied` says that the live bufferevents are
exactly what `beNormal` points to, and that there is one unless the state is `closed`. `Linked` puts
this together with the program counter, since inside of `close_connect` the bufferevent is already
freed and the pointer not yet reset.

One place forgets to reset: `cb_read` calls `close_connect` when the header announces more bytes
than a message can hold. `HeaderFits` is the condition that this does not happen, and
`connection_live` is what holds in all runs that meet it.
-/

namespace Catse

namespace ThreadInner

/-- The live bufferevents are what `beNormal` points to, and a connection that is not closed has
one. -/
structure Tied (t : ThreadInner) : Prop where
  live_iff : ∀ be, (t.bes be).isSome = true ↔ t.beNormal = some be
  linked : t.connect_state ≠ .closed → t.beNormal ≠ none

variable {t : ThreadInner} {k : ℕ} {b : Bufferevent}

/-- A live bufferevent is the one that `beNormal` points to. -/
theorem Tied.eq_of_live (h : t.Tied) (hb : t.bes k = some b) : t.beNormal = some k :=
  (h.live_iff k).mp (by rw [hb]; rfl)

/-- What `beNormal` points to is live. -/
theorem Tied.live_of_eq (h : t.Tied) (hk : t.beNormal = some k) : ∃ b, t.bes k = some b :=
  Option.isSome_iff_exists.mp ((h.live_iff k).mpr hk)

/-- A change of the buffers of a live bufferevent. -/
theorem Tied.setBe (h : t.Tied) (hb : t.bes k = some b) (b' : Bufferevent) :
    (t.setBe k (some b')).Tied where
  live_iff be := by
    have hold := h.live_iff be
    unfold ThreadInner.setBe
    by_cases hbe : be = k
    · subst hbe
      simp only [Function.update_self, Option.isSome_some, true_iff]
      exact h.eq_of_live hb
    · simp only [Function.update_of_ne hbe]
      exact hold
  linked := h.linked

/-- Once the bufferevent is freed there is none. -/
theorem Tied.freed (h : t.Tied) (hb : t.bes k = some b) (be : ℕ) :
    (t.setBe k none).bes be = none := by
  unfold ThreadInner.setBe
  by_cases hbe : be = k
  · subst hbe
    exact Function.update_self ..
  · simp only [Function.update_of_ne hbe]
    -- Another live bufferevent would be what `beNormal` points to as well.
    by_contra hlive
    obtain ⟨b', hb'⟩ := Option.ne_none_iff_exists'.mp hlive
    have heq := (h.eq_of_live hb').symm.trans (h.eq_of_live hb)
    exact hbe (Option.some.inj heq)

/-- With no bufferevent left, the reset restores the invariant. -/
theorem tied_reset (hnone : ∀ be, t.bes be = none) : t.reset.Tied where
  live_iff be := by
    have hbe : t.reset.bes be = none := hnone be
    rw [hbe]
    simp [reset]
  linked hstate := absurd rfl hstate

/-- `bufferevent_socket_new` where `beNormal` is null: afterwards it points to a bufferevent. -/
theorem Tied.newNormal (h : t.Tied) :
    t.newNormal.Tied ∧ ∃ k b, t.newNormal.beNormal = some k ∧ t.newNormal.bes k = some b := by
  unfold ThreadInner.newNormal
  split
  · rename_i hnull
    constructor
    · constructor
      · intro be
        by_cases hbe : be = t.created
        · subst hbe
          simp
        · have hdead : (t.bes be).isSome = false := by
            by_contra hlive
            have hset := (h.live_iff be).mp (Bool.eq_true_of_not_eq_false hlive)
            rw [hnull] at hset
            exact absurd hset (by simp)
          simp only [Function.update_of_ne hbe, hdead, Option.some.injEq]
          simp [Ne.symm hbe]
      · intro _
        simp
    · exact ⟨t.created, _, rfl, Function.update_self ..⟩
  · rename_i hset
    obtain ⟨k, hk⟩ := Option.ne_none_iff_exists'.mp hset
    obtain ⟨b, hb⟩ := h.live_of_eq hk
    exact ⟨h, k, b, hk, hb⟩

end ThreadInner

open ThreadInner

/-- Is the thread inside `close_connect`, between `bufferevent_free` and the return? -/
def InnerPc.closing : InnerPc → Bool
  | .closeAlloc .. => true
  | .closePush _ => true
  | _ => false

/-- What holds of the connection where the thread is at `pc`. -/
def InnerPc.Linked (t : ThreadInner) : InnerPc → Prop
  | .closeAlloc _ reset => reset = true ∧ ∀ be, t.bes be = none
  | .closePush reset => reset = true ∧ ∀ be, t.bes be = none
  | .readLoop be => t.Tied ∧ (t.bes be).isSome
  | .readPush be => t.Tied ∧ (t.bes be).isSome
  | .fault => False
  | _ => t.Tied

namespace InnerState

variable {cfg : InnerConfig} {s s' : InnerState} {a : InnerAction} {k : ℕ} {b : Bufferevent}

/-- The server has the one connection, and its pointer, its state and its bufferevent agree. -/
structure Linked (s : InnerState) : Prop where
  normal : s.inner.isMiddle = false
  pc : s.pc.Linked s.inner

theorem init_linked (hcfg : cfg.isMiddle = false) : (init cfg).Linked where
  normal := hcfg
  pc :=
    { live_iff := fun be => by simp [init]
      linked := fun hstate => absurd rfl hstate }

/-- A call with a live bufferevent is made. -/
theorem useBe_live (hb : s.inner.bes k = some b) (f : ℕ → Bufferevent → InnerState) :
    s.useBe (some k) f = f k b := by
  unfold useBe
  simp only [hb]

/-- When the bufferevent is live, the invariant survives a write to it. -/
theorem write_linked (hn : s.inner.isMiddle = false) (ht : s.inner.Tied)
    (hk : s.inner.beNormal = some k) (bytes : List UInt8) {pc : InnerPc}
    (hpc : pc = .idle ∨ pc = .timeFree) : (s.write s.inner.beNormal bytes pc).Linked := by
  obtain ⟨b, hb⟩ := ht.live_of_eq hk
  have hlive : (s.inner.setBe k (some { b with output := b.output ++ bytes })).Tied :=
    ht.setBe hb _
  unfold write
  rw [hk, useBe_live hb]
  rcases hpc with rfl | rfl
  · exact ⟨hn, hlive⟩
  · exact ⟨hn, hlive⟩

/-- `close_connect` by a caller that resets `beNormal` afterwards. -/
theorem closeConnect_linked (hn : s.inner.isMiddle = false) (ht : s.inner.Tied)
    (hb : s.inner.bes k = some b) : (s.closeConnect (some k) true).Linked := by
  have hfreed := ht.freed hb
  unfold closeConnect
  rw [useBe_live hb]
  exact ⟨hn, rfl, hfreed⟩

/-- `dis_connect` and `cb_event` reset what they free. -/
theorem dropNormal_linked (hn : s.inner.isMiddle = false) (ht : s.inner.Tied)
    (hk : s.inner.beNormal = some k) : s.dropNormal.Linked := by
  obtain ⟨b, hb⟩ := ht.live_of_eq hk
  unfold dropNormal
  split
  · rw [hk]
    exact closeConnect_linked hn ht hb
  · rw [hk, useBe_live hb]
    have htied : (s.inner.setBe k none).reset.Tied := tied_reset (ht.freed hb)
    exact ⟨hn, htied⟩

/-- `dis_connect` frees nothing when there is nothing. -/
theorem disConnect_linked (hn : s.inner.isMiddle = false) (ht : s.inner.Tied) :
    s.disConnect.Linked := by
  unfold disConnect
  split
  · exact ⟨hn, ht⟩
  · rename_i hset
    obtain ⟨k, hk⟩ := Option.ne_none_iff_exists'.mp hset
    exact dropNormal_linked hn ht hk

/-- An event of a live bufferevent. -/
theorem cbEvent_linked (hn : s.inner.isMiddle = false) (ht : s.inner.Tied)
    (hb : s.inner.bes k = some b) (nEvents : ℕ) : (s.cbEvent k nEvents).Linked := by
  have hk := ht.eq_of_live hb
  unfold cbEvent
  rw [if_neg (by rw [hn]; simp)]
  split
  · -- The connection is there, so the state may become `connected`.
    let s' : InnerState := { s with inner := { s.inner with connect_state := .connected } }
    have htied : s'.inner.Tied := ⟨ht.live_iff, fun _ => by rw [hk]; simp⟩
    exact write_linked (s := s') hn htied hk _ (.inl rfl)
  · exact dropNormal_linked hn ht hk

/-- The three results of `bufferevent_socket_connect`. -/
theorem socketConnect_linked (hn : s.inner.isMiddle = false) (ht : s.inner.Tied)
    (hk : s.inner.beNormal = some k) (r : ConnectResult) : (s.socketConnect r).Linked := by
  obtain ⟨b, hb⟩ := ht.live_of_eq hk
  have hset : ∀ b' : Bufferevent, ({ s.inner.setBe k (some b') with
      needConnect := false } : ThreadInner).Tied :=
    fun b' => ⟨(ht.setBe hb b').live_iff, ht.linked⟩
  unfold socketConnect
  rw [hk, useBe_live hb]
  cases r with
  | started fd =>
    refine ⟨hn, (hset _).live_iff, fun _ => ?_⟩
    show s.inner.beNormal ≠ none
    rw [hk]
    simp
  | failed fd => exact ⟨hn, hset _⟩
  | failedEvent =>
    let b' : Bufferevent := { b with cb := true, fd := b.fd }
    let s' : InnerState := { s with inner := { s.inner.setBe k (some b') with
      needConnect := false } }
    have hb' : s'.inner.bes k = some b' := Function.update_self ..
    exact cbEvent_linked (s := s') hn (hset _) hb' _

/-- `connect` creates the bufferevent that it needs. -/
theorem connect_linked (hn : s.inner.isMiddle = false) (ht : s.inner.Tied) (created : Bool)
    (r : ConnectResult) : (s.connect created r).Linked := by
  unfold connect
  split
  · exact ⟨hn, ht⟩
  split
  · exact ⟨hn, ht⟩
  obtain ⟨htied, k, -, hk, -⟩ := ht.newNormal
  have hmiddle : s.inner.newNormal.isMiddle = false := by
    unfold newNormal
    split <;> exact hn
  exact socketConnect_linked hmiddle htied hk r

theorem connectIfNeeded_linked (hn : s.inner.isMiddle = false) (ht : s.inner.Tied) :
    s.connectIfNeeded.Linked := by
  refine ⟨hn, ?_⟩
  unfold connectIfNeeded
  dsimp only
  split <;> exact ht

/-- The timer's callback. -/
theorem cbTimeLogic_linked (hn : s.inner.isMiddle = false) (ht : s.inner.Tied) :
    s.cbTimeLogic.Linked := by
  unfold cbTimeLogic
  split
  · have htied : ({ s.inner with forceClose := false } : ThreadInner).Tied :=
      ⟨ht.live_iff, ht.linked⟩
    exact disConnect_linked hn htied
  split
  · exact connectIfNeeded_linked hn ht
  · exact ⟨hn, ht⟩

/-- The loop of the timer's callback writes to a live bufferevent. -/
theorem timeLogic_linked (hn : s.inner.isMiddle = false) (ht : s.inner.Tied) :
    s.timeLogic.Linked := by
  unfold timeLogic
  split
  · exact connectIfNeeded_linked hn ht
  rename_i hstate
  have hset : s.inner.beNormal ≠ none :=
    ht.linked fun hclosed => hstate (by rw [hclosed]; decide)
  obtain ⟨k, hk⟩ := Option.ne_none_iff_exists'.mp hset
  dsimp only
  split
  · exact ⟨hn, ht⟩
  · let s' : InnerState := { s with slots := s.slots.pop .inner .qInnerSend }
    exact write_linked (s := s') hn ht hk _ (.inr rfl)

/-- What `cb_read` is about to read announces no more bytes than a message can hold. -/
def HeaderFits (s : InnerState) (a : InnerAction) : Prop :=
  match a, s.pc with
  | .inner, .readLoop be =>
    ∀ b ∈ s.inner.bes be, 4 ≤ b.input.length → ofLE (b.input.take 4) ≤ MsgInner.bufSize
  | _, _ => True

instance (s : InnerState) (a : InnerAction) : Decidable (s.HeaderFits a) := by
  unfold HeaderFits
  split <;> infer_instance

/-- An iteration of the loop of `cb_read` that does not close the connection. -/
theorem readLoop_linked {be : ℕ} (hn : s.inner.isMiddle = false) (ht : s.inner.Tied)
    (hb : s.inner.bes be = some b)
    (hfits : 4 ≤ b.input.length → ofLE (b.input.take 4) ≤ MsgInner.bufSize) :
    (s.readLoop be).Linked := by
  unfold readLoop
  rw [useBe_live hb]
  dsimp only
  split
  · exact ⟨hn, ht⟩
  rename_i hlen
  rw [if_neg (Nat.not_lt.mpr (hfits (Nat.le_of_not_lt hlen)))]
  split
  · exact ⟨hn, ht⟩
  split
  · exact ⟨hn, ht⟩
  · refine ⟨hn, ht.setBe hb _, ?_⟩
    simp [setBe]

namespace Linked

/-- A step that leaves the connection alone, as those of the logic thread do. -/
theorem of_same (h : s.Linked) (hinner : s'.inner = s.inner) (hpc : s'.pc = s.pc) : s'.Linked where
  normal := by rw [hinner]; exact h.normal
  pc := by rw [hinner, hpc]; exact h.pc

/-- Between callbacks nothing is freed and not reset. -/
theorem tied_of_idle (h : s.Linked) (hpc : s.pc = .idle) : s.inner.Tied := by
  have hlinked := h.pc
  rw [hpc] at hlinked
  exact hlinked

/-- Lua code may set the flags at any time. -/
theorem of_flags (h : s.Linked) (needConnect forceClose setIp : Bool) :
    Linked { s with inner := { s.inner with
      needConnect := needConnect, forceClose := forceClose, setIp := setIp } } where
  normal := h.normal
  pc := by
    have hlinked := h.pc
    cases hpc : s.pc <;> rw [hpc] at hlinked
    case idle => exact ⟨hlinked.live_iff, hlinked.linked⟩
    case connect => exact ⟨hlinked.live_iff, hlinked.linked⟩
    case readLoop => exact ⟨⟨hlinked.1.live_iff, hlinked.1.linked⟩, hlinked.2⟩
    case readPush => exact ⟨⟨hlinked.1.live_iff, hlinked.1.linked⟩, hlinked.2⟩
    case closeAlloc => exact hlinked
    case closePush => exact hlinked
    case timePop => exact ⟨hlinked.live_iff, hlinked.linked⟩
    case timeFree => exact ⟨hlinked.live_iff, hlinked.linked⟩
    case fault => exact hlinked

/-- The inner thread goes on. -/
theorem innerNext (h : s.Linked) (hok : s.HeaderFits .inner) (hstep : s.innerNext = some s') :
    s'.Linked := by
  have hn := h.normal
  have hlinked := h.pc
  unfold HeaderFits at hok
  unfold InnerState.innerNext at hstep
  cases hpc : s.pc <;> rw [hpc] at hlinked hok hstep
  case idle => exact absurd hstep (by simp)
  case connect => exact absurd hstep (by simp)
  case fault => exact absurd hstep (by simp)
  case readLoop be =>
    obtain rfl := Option.some.inj hstep
    obtain ⟨ht, hlive⟩ := hlinked
    obtain ⟨b, hb⟩ := Option.isSome_iff_exists.mp hlive
    exact readLoop_linked hn ht hb (hok b hb)
  case readPush be =>
    obtain rfl := Option.some.inj hstep
    exact ⟨hn, hlinked⟩
  -- With or without a message for Lua the descriptor is reset before the thread is idle again.
  case closeAlloc fd reset =>
    obtain rfl := Option.some.inj hstep
    obtain ⟨rfl, hfreed⟩ := hlinked
    unfold InnerState.closeAlloc
    dsimp only
    split
    · exact ⟨hn, tied_reset hfreed⟩
    · exact ⟨hn, rfl, hfreed⟩
  case closePush reset =>
    obtain rfl := Option.some.inj hstep
    obtain ⟨rfl, hfreed⟩ := hlinked
    exact ⟨hn, tied_reset hfreed⟩
  case timePop =>
    rw [hn, if_neg (by simp)] at hstep
    obtain rfl := Option.some.inj hstep
    exact timeLogic_linked hn hlinked
  case timeFree =>
    obtain rfl := Option.some.inj hstep
    exact ⟨hn, hlinked⟩

/-- Every step that satisfies the condition keeps the connection in step. -/
theorem step (h : s.Linked) (hok : s.HeaderFits a) (hstep : s.step a = some s') : s'.Linked := by
  have hn := h.normal
  cases a with
  | accept fd =>
    obtain ⟨⟨-, hmiddle, -⟩, -⟩ := Option.ite_none_right_eq_some.mp hstep
    -- Only the server in the middle listens.
    rw [hn] at hmiddle
    exact absurd hmiddle (by simp)
  | read be bytes =>
    simp only [InnerState.step] at hstep
    split at hstep
    · exact absurd hstep (by simp)
    rename_i b hb
    obtain ⟨⟨hpc, -⟩, hstep⟩ := Option.ite_none_right_eq_some.mp hstep
    obtain rfl := Option.some.inj hstep
    refine ⟨hn, (h.tied_of_idle hpc).setBe hb _, ?_⟩
    simp [setBe]
  | event be nEvents =>
    simp only [InnerState.step] at hstep
    split at hstep
    · exact absurd hstep (by simp)
    rename_i b hb
    obtain ⟨⟨hpc, -⟩, hstep⟩ := Option.ite_none_right_eq_some.mp hstep
    obtain rfl := Option.some.inj hstep
    exact cbEvent_linked hn (h.tied_of_idle hpc) hb nEvents
  | tick =>
    obtain ⟨hpc, hstep⟩ := Option.ite_none_right_eq_some.mp hstep
    rw [hn, if_neg (by simp)] at hstep
    obtain rfl := Option.some.inj hstep
    exact cbTimeLogic_linked hn (h.tied_of_idle hpc)
  | connect created r =>
    obtain ⟨hpc, hstep⟩ := Option.ite_none_right_eq_some.mp hstep
    obtain rfl := Option.some.inj hstep
    -- The socket is made for the connection that is being made.
    have hlinked := h.pc
    rw [hpc] at hlinked
    exact connect_linked hn hlinked created r
  | inner => exact h.innerNext hok hstep
  | setConnect =>
    obtain rfl := Option.some.inj hstep
    exact h.of_flags true true true
  | closeConnect =>
    obtain rfl := Option.some.inj hstep
    exact h.of_flags s.inner.needConnect true s.inner.setIp
  | writeBegin fd id =>
    obtain rfl := Option.some.inj hstep
    unfold staticWriteBegin
    dsimp only
    split
    · exact h.of_same rfl rfl
    · exact h.of_same rfl rfl
    · split <;> exact h.of_same rfl rfl
  | writeInt d =>
    obtain rfl := Option.some.inj hstep
    unfold staticWriteInt writeMsg
    split <;> exact h.of_same rfl rfl
  | writeBlock str =>
    obtain rfl := Option.some.inj hstep
    unfold staticWriteBlock writeMsg
    split <;> exact h.of_same rfl rfl
  | writeEnd =>
    obtain rfl := Option.some.inj hstep
    unfold staticWriteEnd
    split <;> exact h.of_same rfl rfl
  | handle =>
    obtain ⟨-, hstep⟩ := Option.ite_none_right_eq_some.mp hstep
    obtain rfl := Option.some.inj hstep
    exact h.of_same rfl rfl
  | handled =>
    obtain ⟨-, hstep⟩ := Option.ite_none_right_eq_some.mp hstep
    obtain rfl := Option.some.inj hstep
    exact h.of_same rfl rfl

end Linked

/-- The connection is in step in every state of a run whose steps satisfy the condition. -/
theorem run_linked (hcfg : cfg.isMiddle = false) (run : Run cfg HeaderFits s) : s.Linked :=
  run.invariant (init_linked hcfg) fun _ _ _ _ h hok hstep => h.step hok hstep

/-- A header that announces too many bytes closes the connection without a trace: the state is still
`connected`, and `beNormal` points to a bufferevent that has been freed, which the next tick with a
message to send writes to. -/
theorem write_after_free : ∃ s s', Run (normalConfig 4) anyStep s ∧ s.pc = .idle ∧
    s.inner.connect_state = .connected ∧ s.inner.beNormal = some 0 ∧ s.inner.bes 0 = none ∧
    exec step s [.writeBegin (some 0) (some 0), .writeEnd, .tick, .inner] = some s' ∧
    s'.pc = .fault := by
  let acts : List InnerAction :=
    connects ++ [.read 0 [0xff, 0xff, 0xff, 0xff], .inner, .inner, .inner]
  have hexec : (exec step (init (normalConfig 4)) acts).map
      (fun s => ((s.pc, s.inner.connect_state), (s.inner.beNormal, (s.inner.bes 0).isSome),
        (exec step s [.writeBegin (some 0) (some 0), .writeEnd, .tick, .inner]).map (·.pc))) =
    some ((.idle, .connected), (some 0, false), some .fault) := by decide +kernel
  obtain ⟨s, hrun, hs⟩ := exists_run_of_exec hexec
  obtain ⟨h1, h2⟩ := Prod.mk.inj hs
  obtain ⟨hpc, hstate⟩ := Prod.mk.inj h1
  obtain ⟨h3, h4⟩ := Prod.mk.inj h2
  obtain ⟨hnormal, hfreed⟩ := Prod.mk.inj h3
  obtain ⟨s', hs', hfault⟩ := Option.map_eq_some_iff.mp h4
  have hnone : s.inner.bes 0 = none := by simpa using hfreed
  exact ⟨s, s', hrun, hpc, hstate, hnormal, hnone, hs', hfault⟩

/-- In every run of a server with one connection whose steps satisfy the condition, no bufferevent
is used through a null pointer or after it has been freed, and outside of `close_connect`
`beNormal` points to a live bufferevent while the state is `connecting` or `connected`. -/
theorem connection_live (hcfg : cfg.isMiddle = false) (run : Run cfg HeaderFits s) :
    s.pc ≠ .fault ∧
      (s.pc.closing = false → s.inner.connect_state = .connecting ∨
        s.inner.connect_state = .connected →
        ∃ be, s.inner.beNormal = some be ∧ (s.inner.bes be).isSome = true) := by
  have h := run_linked hcfg run
  have hlinked := h.pc
  constructor
  · intro hfault
    rw [hfault] at hlinked
    exact hlinked
  · intro hclosing hstate
    have htied : s.inner.Tied := by
      cases hpc : s.pc <;> rw [hpc] at hlinked hclosing
      case readLoop => exact hlinked.1
      case readPush => exact hlinked.1
      case closeAlloc => exact absurd hclosing (by simp [InnerPc.closing])
      case closePush => exact absurd hclosing (by simp [InnerPc.closing])
      case fault => exact hlinked.elim
      all_goals exact hlinked
    have hset : s.inner.beNormal ≠ none := by
      apply htied.linked
      rcases hstate with hstate | hstate <;> rw [hstate] <;> decide
    obtain ⟨be, hbe⟩ := Option.ne_none_iff_exists'.mp hset
    exact ⟨be, hbe, (htied.live_iff be).mpr hbe⟩

/-- The connection is made and a message arrives. -/
theorem connection_live_receiving : ∃ s, Run (normalConfig 4) HeaderFits s ∧
    s.pc = .readPush 0 ∧ s.inner.connect_state = .connected ∧
    ∃ be, s.inner.beNormal = some be ∧ (s.inner.bes be).isSome = true := by
  let acts : List InnerAction := connects ++ [.read 0 [1, 0, 0, 0, 42], .inner]
  have hexec : (exec step (init (normalConfig 4)) acts).map
      (fun s => (s.pc, s.inner.connect_state)) = some (.readPush 0, .connected) := by
    decide +kernel
  have hok : execOk step HeaderFits (init (normalConfig 4)) acts := by decide +kernel
  obtain ⟨s, hs, hval⟩ := Option.map_eq_some_iff.mp hexec
  obtain ⟨hpc, hstate⟩ := Prod.mk.inj hval
  have hrun : Run (normalConfig 4) HeaderFits s := reach_of_exec .start hok hs
  have hlive := (connection_live rfl hrun).2 (by rw [hpc]; rfl) (.inr hstate)
  exact ⟨s, hrun, hpc, hstate, hlive⟩

end InnerState

end Catse
