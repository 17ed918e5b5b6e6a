import Catse.Inner.Machine

/-!
# Where the slots of `msg_inner_pool` are

`InnerCustody` is the invariant of the inter-server path about its messages: the slots are
conserved, and the inner thread holds a message exactly where its program counter says so. Each of
the two rings has as many cells as the pool has slots, and one cell always stays empty, so a `push`
fails when the ring holds all the other slots already. `InnerRoom` is the condition that this does
not happen, and `run_innerRoom_iff` says that the runs that meet it are those that lose no message.
-/

namespace Catse

/-- Does the inner thread hold a message here? -/
def InnerPc.hand : InnerPc → Bool
  | .readPush _ => true
  | .closePush _ => true
  | .timeFree => true
  | _ => false

/-- The hand that a ring's messages are pushed from. -/
def InnerRing.pusher : InnerRing → InnerHand
  | .qInnerRecv => .inner
  | .qInnerSend => .writer

namespace InnerState

variable {cfg : InnerConfig} {s s' : InnerState} {a : InnerAction}

/-! ## Steps that leave the slots alone -/

/-- The slots are as before, and the inner thread holds no message. -/
structure Local (s s' : InnerState) : Prop where
  slots : s'.slots = s.slots
  hand : s'.pc.hand = false

/-- A call with a bufferevent is undefined, or it does what it does with a live one. -/
theorem useBe_cases (s : InnerState) (be : Option ℕ) (f : ℕ → Bufferevent → InnerState) :
    s.useBe be f = { s with pc := .fault } ∨
      ∃ k b, be = some k ∧ s.inner.bes k = some b ∧ s.useBe be f = f k b := by
  unfold useBe
  split
  · exact .inl rfl
  · rename_i k
    split
    · exact .inl rfl
    · rename_i b hb
      exact .inr ⟨k, b, rfl, hb, rfl⟩

/-- So what is true of both is true of the call. -/
theorem useBe_local {be : Option ℕ} {f : ℕ → Bufferevent → InnerState}
    (hf : ∀ k b, s.Local (f k b)) : s.Local (s.useBe be f) := by
  rcases s.useBe_cases be f with heq | ⟨k, b, -, -, heq⟩ <;> rw [heq]
  · exact ⟨rfl, rfl⟩
  · exact hf k b

/-- `bufferevent_write` leaves the slots alone. -/
theorem write_slots (s : InnerState) (be : Option ℕ) (bytes : List UInt8) (pc : InnerPc) :
    (s.write be bytes pc).slots = s.slots ∧
      ((s.write be bytes pc).pc = pc ∨ (s.write be bytes pc).pc = .fault) := by
  unfold write
  rcases s.useBe_cases be _ with heq | ⟨k, b, -, -, heq⟩ <;> rw [heq]
  · exact ⟨rfl, .inr rfl⟩
  · exact ⟨rfl, .inl rfl⟩

theorem closeConnect_local (be : Option ℕ) (reset : Bool) : s.Local (s.closeConnect be reset) :=
  useBe_local fun _ _ => ⟨rfl, rfl⟩

theorem dropNormal_local : s.Local s.dropNormal := by
  unfold dropNormal
  split
  · exact closeConnect_local _ _
  · exact useBe_local fun _ _ => ⟨rfl, rfl⟩

theorem disConnect_local : s.Local s.disConnect := by
  unfold disConnect
  split
  · exact ⟨rfl, rfl⟩
  · exact dropNormal_local

theorem cbEvent_local (be nEvents : ℕ) : s.Local (s.cbEvent be nEvents) := by
  unfold cbEvent
  split
  · exact closeConnect_local _ _
  split
  · let s' : InnerState := { s with inner := { s.inner with connect_state := .connected } }
    obtain ⟨hslots, hpc⟩ := s'.write_slots s'.inner.beNormal _ .idle
    refine ⟨hslots, ?_⟩
    rcases hpc with hpc | hpc
    · exact congrArg InnerPc.hand hpc
    · exact congrArg InnerPc.hand hpc
  · exact dropNormal_local

theorem socketConnect_local (r : ConnectResult) : s.Local (s.socketConnect r) := by
  apply useBe_local
  intro k b
  cases r with
  | started fd => exact ⟨rfl, rfl⟩
  | failed fd => exact ⟨rfl, rfl⟩
  | failedEvent =>
    have hevent := cbEvent_local (s := { s with inner := { s.inner.setBe k
      (some { b with cb := true, fd := b.fd }) with needConnect := false } }) k bevEventError
    exact ⟨hevent.slots, hevent.hand⟩

theorem connect_local (created : Bool) (r : ConnectResult) : s.Local (s.connect created r) := by
  unfold connect
  split
  · exact ⟨rfl, rfl⟩
  split
  · exact ⟨rfl, rfl⟩
  · have hsocket := socketConnect_local (s := { s with inner := s.inner.newNormal }) r
    exact ⟨hsocket.slots, hsocket.hand⟩

theorem connectIfNeeded_local : s.Local s.connectIfNeeded := by
  refine ⟨rfl, ?_⟩
  unfold connectIfNeeded
  dsimp only
  split <;> rfl

theorem cbTimeLogic_local : s.Local s.cbTimeLogic := by
  unfold cbTimeLogic
  split
  · have hdis := disConnect_local (s := { s with inner := { s.inner with forceClose := false } })
    exact ⟨hdis.slots, hdis.hand⟩
  split
  · exact connectIfNeeded_local
  · exact ⟨rfl, rfl⟩

/-! ## The invariant -/

/-- The slots of `msg_inner_pool`, and the hand of the inner thread. -/
structure InnerCustody (cfg : InnerConfig) (s : InnerState) : Prop where
  conserved : s.slots.Conserved cfg.cap fun _ => cfg.cap
  inner_hand : s.pc ≠ .fault → (s.slots.hand .inner).isSome = s.pc.hand

/-- At the start every slot is free. -/
theorem init_innerCustody (hcap : 0 < cfg.cap) : (init cfg).InnerCustody cfg where
  conserved := Slots.init_conserved fun _ => hcap
  inner_hand _ := rfl

/-- The ring that a step pushes a message to. -/
def pushes (s : InnerState) : InnerAction → Option InnerRing
  | .inner =>
    match s.pc with
    | .readPush _ => some .qInnerRecv
    | .closePush _ => some .qInnerRecv
    | _ => none
  | .writeEnd => if (s.slots.hand .writer).isSome then some .qInnerSend else none
  | _ => none

/-- When a message is pushed, the ring does not hold all the other slots of the pool. -/
def InnerRoom (cfg : InnerConfig) (s : InnerState) (a : InnerAction) : Prop :=
  ∀ r ∈ s.pushes a, (s.slots.ring r).toList.length + 1 < cfg.cap

instance (cfg : InnerConfig) (s : InnerState) (a : InnerAction) :
    Decidable (InnerRoom cfg s a) := by
  unfold InnerRoom
  infer_instance

/-- What a step does to the slots: it pushes a message that is there, or loses nothing. -/
def Accounted (s s' : InnerState) : Option InnerRing → Prop
  | some r =>
    s'.slots = s.slots.push r.pusher r ∧ (s.slots.hand r.pusher).isSome
  | none => s'.slots.lost = s.slots.lost

namespace InnerCustody

theorem inner_hand_none (h : s.InnerCustody cfg) (hf : s.pc ≠ .fault) (hpc : s.pc.hand = false) :
    s.slots.hand .inner = none := by
  have hsome := (h.inner_hand hf).trans hpc
  simpa using hsome

theorem inner_hand_some (h : s.InnerCustody cfg) (hpc : s.pc.hand = true) :
    ∃ i, s.slots.hand .inner = some i := by
  have hf : s.pc ≠ .fault := by
    intro hf
    rw [hf] at hpc
    exact absurd hpc (by simp [InnerPc.hand])
  exact Option.isSome_iff_exists.mp ((h.inner_hand hf).trans hpc)

/-- A step of the inner thread that leaves the slots alone. -/
theorem of_local (h : s.InnerCustody cfg) (hf : s.pc ≠ .fault) (hpc : s.pc.hand = false)
    (hl : s.Local s') : s'.InnerCustody cfg ∧ s'.slots.lost = s.slots.lost := by
  refine ⟨⟨hl.slots ▸ h.conserved, fun _ => ?_⟩, by rw [hl.slots]⟩
  rw [hl.slots, hl.hand, h.inner_hand_none hf hpc]
  rfl

/-- A step of the logic thread that leaves the inner thread and its hand alone. -/
theorem of_other (h : s.InnerCustody cfg)
    (hconserved : s'.slots.Conserved cfg.cap fun _ => cfg.cap)
    (hhand : s'.slots.hand .inner = s.slots.hand .inner) (hpc : s'.pc = s.pc) :
    s'.InnerCustody cfg where
  conserved := hconserved
  inner_hand hf := by
    rw [hpc] at hf
    rw [hhand, hpc]
    exact h.inner_hand hf

/-- `alloc` of the inner thread, which goes on to a place where it holds what it got. -/
theorem of_alloc (h : s.InnerCustody cfg) (hf : s.pc ≠ .fault) (hpc : s.pc.hand = false)
    (hslots : s'.slots = s.slots.alloc .inner)
    (hpc' : (s'.slots.hand .inner).isSome = s'.pc.hand) :
    s'.InnerCustody cfg ∧ s'.slots.lost = s.slots.lost := by
  have hnone := h.inner_hand_none hf hpc
  rcases h.conserved.alloc_spec hnone with ⟨-, heq⟩ | ⟨i, l, -, -, -, -, hlost, hcons⟩
  · rw [heq] at hslots
    exact ⟨⟨hslots ▸ h.conserved, fun _ => hpc'⟩, by rw [hslots]⟩
  · exact ⟨⟨hslots ▸ hcons, fun _ => hpc'⟩, by rw [hslots]; exact hlost⟩

/-- `pop` of the inner thread, likewise. -/
theorem of_pop (h : s.InnerCustody cfg) (hf : s.pc ≠ .fault) (hpc : s.pc.hand = false)
    (hslots : s'.slots = s.slots.pop .inner .qInnerSend)
    (hpc' : s'.pc ≠ .fault → (s'.slots.hand .inner).isSome = s'.pc.hand) :
    s'.InnerCustody cfg ∧ s'.slots.lost = s.slots.lost := by
  have hnone := h.inner_hand_none hf hpc
  rcases h.conserved.pop_spec (r := .qInnerSend) hnone with
    ⟨-, heq⟩ | ⟨i, l, -, -, -, -, -, hlost, hcons⟩
  · rw [heq] at hslots
    exact ⟨⟨hslots ▸ h.conserved, hpc'⟩, by rw [hslots]⟩
  · exact ⟨⟨hslots ▸ hcons, hpc'⟩, by rw [hslots]; exact hlost⟩

/-- `push` of the inner thread. -/
theorem of_push (h : s.InnerCustody cfg) (hpc : s.pc.hand = true)
    (hslots : s'.slots = s.slots.push .inner .qInnerRecv) (hpc' : s'.pc.hand = false) :
    s'.InnerCustody cfg ∧ s.Accounted s' (some .qInnerRecv) := by
  obtain ⟨i, hi⟩ := h.inner_hand_some hpc
  obtain ⟨-, hhand, -, hcons, -⟩ := h.conserved.push_spec (r := .qInnerRecv) hi
  refine ⟨⟨hslots ▸ hcons, fun _ => ?_⟩, hslots, ?_⟩
  · rw [hslots, hhand, hpc', Function.update_self]
    rfl
  · show (s.slots.hand .inner).isSome = true
    rw [hi]
    rfl

/-- The loop of `cb_read`. -/
theorem readLoop (h : s.InnerCustody cfg) {be : ℕ} (hpc : s.pc = .readLoop be) :
    (s.readLoop be).InnerCustody cfg ∧ (s.readLoop be).slots.lost = s.slots.lost := by
  have hf : s.pc ≠ .fault := by rw [hpc]; simp
  have hno : s.pc.hand = false := by rw [hpc]; rfl
  unfold InnerState.readLoop
  rcases s.useBe_cases (some be) _ with heq | ⟨k, b, -, -, heq⟩ <;> rw [heq]
  · exact h.of_local hf hno ⟨rfl, rfl⟩
  dsimp only
  split
  · exact h.of_local hf hno ⟨rfl, rfl⟩
  split
  · exact h.of_local hf hno (closeConnect_local _ _)
  split
  · exact h.of_local hf hno ⟨rfl, rfl⟩
  split
  · rename_i hnone
    exact h.of_alloc hf hno rfl (by rw [hnone]; rfl)
  · rename_i i hi
    exact h.of_alloc hf hno rfl (by rw [hi]; rfl)

/-- `close_connect` from `alloc` on. -/
theorem closeAlloc (h : s.InnerCustody cfg) {fd : ℤ} {reset : Bool}
    (hpc : s.pc = .closeAlloc fd reset) :
    (s.closeAlloc fd reset).InnerCustody cfg ∧
      (s.closeAlloc fd reset).slots.lost = s.slots.lost := by
  have hf : s.pc ≠ .fault := by rw [hpc]; simp
  have hno : s.pc.hand = false := by rw [hpc]; rfl
  unfold InnerState.closeAlloc
  dsimp only
  split
  · rename_i hnone
    exact h.of_alloc hf hno rfl (by rw [closed, hnone]; rfl)
  · rename_i i hi
    exact h.of_alloc hf hno rfl (by rw [hi]; rfl)

/-- The loop of `cb_time_logic`. -/
theorem timeLogic (h : s.InnerCustody cfg) (hpc : s.pc = .timePop) :
    s.timeLogic.InnerCustody cfg ∧ s.timeLogic.slots.lost = s.slots.lost := by
  have hf : s.pc ≠ .fault := by rw [hpc]; simp
  have hno : s.pc.hand = false := by rw [hpc]; rfl
  unfold InnerState.timeLogic
  split
  · exact h.of_local hf hno connectIfNeeded_local
  dsimp only
  split
  · rename_i hnone
    exact h.of_pop hf hno rfl fun _ => by rw [hnone]; rfl
  · rename_i i hi
    let t : InnerState := { s with slots := s.slots.pop .inner .qInnerSend }
    obtain ⟨hslots, hpc'⟩ := t.write_slots s.inner.beNormal (s.list i).wire .timeFree
    refine h.of_pop hf hno hslots fun hf' => ?_
    rw [hslots, hpc'.resolve_right hf']
    exact congrArg Option.isSome hi

/-- The loop of `cb_time_world`. -/
theorem timeWorld (h : s.InnerCustody cfg) (hpc : s.pc = .timePop) :
    s.timeWorld.InnerCustody cfg ∧ s.timeWorld.slots.lost = s.slots.lost := by
  have hf : s.pc ≠ .fault := by rw [hpc]; simp
  have hno : s.pc.hand = false := by rw [hpc]; rfl
  unfold InnerState.timeWorld
  dsimp only
  split
  · rename_i hnone
    exact h.of_pop hf hno rfl fun _ => by rw [hnone]; rfl
  rename_i i hi
  split
  · let t : InnerState := { s with slots := s.slots.pop .inner .qInnerSend }
    obtain ⟨hslots, hpc'⟩ := t.write_slots
      (s.inner.table.fd2be (toShort (s.list i).fd)) (s.list i).wire .timeFree
    refine h.of_pop hf hno hslots fun hf' => ?_
    rw [hslots, hpc'.resolve_right hf']
    exact congrArg Option.isSome hi
  · exact h.of_pop hf hno rfl fun _ => by rw [hi]; rfl

/-- The inner thread goes on. -/
theorem innerNext (h : s.InnerCustody cfg) (hstep : s.innerNext = some s') :
    s'.InnerCustody cfg ∧ s.Accounted s' (s.pushes .inner) := by
  unfold InnerState.innerNext at hstep
  cases hpc : s.pc <;> rw [hpc] at hstep
  case idle => exact absurd hstep (by simp)
  case connect => exact absurd hstep (by simp)
  case fault => exact absurd hstep (by simp)
  -- At each place it is known whether the next statement pushes, and to which ring.
  all_goals obtain rfl := Option.some.inj hstep
  case readLoop be =>
    have hpush : s.pushes .inner = none := by simp only [pushes, hpc]
    rw [hpush]
    exact h.readLoop hpc
  case readPush be =>
    have hpush : s.pushes .inner = some .qInnerRecv := by simp only [pushes, hpc]
    rw [hpush]
    exact h.of_push (by rw [hpc]; rfl) rfl rfl
  case closeAlloc fd reset =>
    have hpush : s.pushes .inner = none := by simp only [pushes, hpc]
    rw [hpush]
    exact h.closeAlloc hpc
  case closePush reset =>
    have hpush : s.pushes .inner = some .qInnerRecv := by simp only [pushes, hpc]
    rw [hpush]
    exact h.of_push (by rw [hpc]; rfl) rfl rfl
  case timePop =>
    have hpush : s.pushes .inner = none := by simp only [pushes, hpc]
    rw [hpush]
    split
    · exact h.timeWorld hpc
    · exact h.timeLogic hpc
  case timeFree =>
    have hpush : s.pushes .inner = none := by simp only [pushes, hpc]
    rw [hpush]
    obtain ⟨i, hi⟩ := h.inner_hand_some (by rw [hpc]; rfl)
    obtain ⟨-, hhand, -, hlost, hcons⟩ := h.conserved.free_spec hi
    refine ⟨⟨hcons, fun _ => ?_⟩, hlost⟩
    show ((s.slots.free .inner).hand .inner).isSome = false
    rw [hhand, Function.update_self]
    rfl

/-- `static_write_begin` takes a slot, if it has none yet. -/
theorem staticWriteBegin (h : s.InnerCustody cfg) (fd id : Option Double) :
    (s.staticWriteBegin fd id).InnerCustody cfg ∧
      (s.staticWriteBegin fd id).slots.lost = s.slots.lost := by
  -- The slots after `alloc`, or after none.
  obtain ⟨t, ht, hcons, hhand, hlost⟩ : ∃ t,
      (if (s.slots.hand .writer).isNone then s.slots.alloc .writer else s.slots) = t ∧
        t.Conserved cfg.cap (fun _ => cfg.cap) ∧ t.hand .inner = s.slots.hand .inner ∧
        t.lost = s.slots.lost := by
    refine ⟨_, rfl, ?_⟩
    split
    · rename_i hnone
      rcases h.conserved.alloc_spec (Option.isNone_iff_eq_none.mp hnone) with
        ⟨-, heq⟩ | ⟨i, l, -, -, hhand, -, hlost, hcons⟩
      · rw [heq]
        exact ⟨h.conserved, rfl, rfl⟩
      · refine ⟨hcons, ?_, hlost⟩
        rw [hhand, Function.update_of_ne (by decide)]
    · exact ⟨h.conserved, rfl, rfl⟩
  have hsame : ∀ list, ({ s with slots := t, list := list } : InnerState).InnerCustody cfg :=
    fun list => h.of_other hcons hhand rfl
  unfold InnerState.staticWriteBegin
  rw [ht]
  dsimp only
  split
  · exact ⟨hsame _, hlost⟩
  · exact ⟨hsame _, hlost⟩
  rename_i i fd hi
  split
  · exact ⟨hsame _, hlost⟩
  -- The first number of a message always fits.
  · have hfits : ∀ m : MsgInner, ∀ d, ({ m with fd := fd.castUShort, buf_len := 0 }.writeInt d).1 =
        true := fun m d => rfl
    rw [if_pos (hfits _ _)]
    exact ⟨hsame _, hlost⟩

/-- What a step does to the slots: it keeps the custody, and only a `push` can lose a slot. -/
theorem step_spec (h : s.InnerCustody cfg) (hstep : step s a = some s') :
    s'.InnerCustody cfg ∧ s.Accounted s' (s.pushes a) := by
  -- The callbacks that have no slot in hand.
  have hidle : ∀ {pc : InnerPc}, s.pc = pc → pc ≠ .fault → pc.hand = false → s.Local s' →
      s'.InnerCustody cfg ∧ s'.slots.lost = s.slots.lost :=
    fun hpc hf hno hl => h.of_local (by rw [hpc]; exact hf) (by rw [hpc]; exact hno) hl
  cases a with
  | accept fd =>
    obtain ⟨⟨hpc, -⟩, hstep⟩ := Option.ite_none_right_eq_some.mp hstep
    obtain rfl := Option.some.inj hstep
    exact hidle hpc (by simp) rfl ⟨rfl, by rw [hpc]; rfl⟩
  | read be bytes =>
    simp only [step] at hstep
    split at hstep
    · exact absurd hstep (by simp)
    obtain ⟨⟨hpc, -⟩, hstep⟩ := Option.ite_none_right_eq_some.mp hstep
    obtain rfl := Option.some.inj hstep
    exact hidle hpc (by simp) rfl ⟨rfl, rfl⟩
  | event be nEvents =>
    simp only [step] at hstep
    split at hstep
    · exact absurd hstep (by simp)
    obtain ⟨⟨hpc, -⟩, hstep⟩ := Option.ite_none_right_eq_some.mp hstep
    obtain rfl := Option.some.inj hstep
    exact hidle hpc (by simp) rfl (cbEvent_local be nEvents)
  | tick =>
    obtain ⟨hpc, hstep⟩ := Option.ite_none_right_eq_some.mp hstep
    obtain rfl := Option.some.inj hstep
    refine hidle hpc (by simp) rfl ?_
    split
    · exact ⟨rfl, rfl⟩
    · exact cbTimeLogic_local
  | connect created r =>
    obtain ⟨hpc, hstep⟩ := Option.ite_none_right_eq_some.mp hstep
    obtain rfl := Option.some.inj hstep
    exact hidle hpc (by simp) rfl (connect_local created r)
  | inner => exact h.innerNext hstep
  | setConnect =>
    -- The logic thread writes members that have nothing to do with slots.
    obtain rfl := Option.some.inj hstep
    exact ⟨h.of_other h.conserved rfl rfl, rfl⟩
  | closeConnect =>
    obtain rfl := Option.some.inj hstep
    exact ⟨h.of_other h.conserved rfl rfl, rfl⟩
  | writeBegin fd id =>
    obtain rfl := Option.some.inj hstep
    exact h.staticWriteBegin fd id
  | writeInt d =>
    obtain rfl := Option.some.inj hstep
    unfold staticWriteInt writeMsg
    split <;> exact ⟨h.of_other h.conserved rfl rfl, rfl⟩
  | writeBlock str =>
    obtain rfl := Option.some.inj hstep
    unfold staticWriteBlock writeMsg
    split <;> exact ⟨h.of_other h.conserved rfl rfl, rfl⟩
  | writeEnd =>
    -- Only here a slot is pushed to the ring that may be full.
    obtain rfl := Option.some.inj hstep
    unfold staticWriteEnd pushes
    cases hw : s.slots.hand .writer with
    | none => exact ⟨h, rfl⟩
    | some i =>
      obtain ⟨-, hhand, -, hcons, -⟩ := h.conserved.push_spec (r := .qInnerSend) hw
      refine ⟨h.of_other hcons ?_ rfl, rfl, ?_⟩
      · show (s.slots.push .writer .qInnerSend).hand .inner = _
        rw [hhand, Function.update_of_ne (by decide)]
      · show (s.slots.hand .writer).isSome = true
        rw [hw]
        rfl
  | handle =>
    -- An empty ring leaves the state as it is; otherwise the slot passes to the hand of the reader.
    obtain ⟨hnone, hstep⟩ := Option.ite_none_right_eq_some.mp hstep
    obtain rfl := Option.some.inj hstep
    rcases h.conserved.pop_spec (r := .qInnerRecv) (Option.isNone_iff_eq_none.mp hnone) with
      ⟨-, heq⟩ | ⟨i, l, -, -, hhand, -, -, hlost, hcons⟩
    · have hsame : s.handlePop = s := by rw [handlePop, heq]
      rw [hsame]
      exact ⟨h, rfl⟩
    · refine ⟨h.of_other hcons ?_ rfl, hlost⟩
      show (s.slots.pop .reader .qInnerRecv).hand .inner = _
      rw [hhand, Function.update_of_ne (by decide)]
  | handled =>
    obtain ⟨hsome, hstep⟩ := Option.ite_none_right_eq_some.mp hstep
    obtain rfl := Option.some.inj hstep
    obtain ⟨i, hi⟩ := Option.isSome_iff_exists.mp hsome
    obtain ⟨-, hhand, -, hlost, hcons⟩ := h.conserved.free_spec hi
    refine ⟨h.of_other hcons ?_ rfl, hlost⟩
    show (s.slots.free .reader).hand .inner = _
    rw [hhand, Function.update_of_ne (by decide)]

end InnerCustody

/-- The slots are in custody in every state of every run. -/
theorem run_innerCustody {ok : InnerState → InnerAction → Prop} (hcap : 0 < cfg.cap)
    (run : Run cfg ok s) : s.InnerCustody cfg :=
  run.invariant (init_innerCustody hcap) fun _ _ _ _ h _ hstep => (h.step_spec hstep).1

/-- The runs in which no slot is lost are those whose steps satisfy the condition. -/
theorem run_innerRoom_iff (hcap : 0 < cfg.cap) :
    Run cfg (InnerRoom cfg) s ↔ Run cfg anyStep s ∧ s.slots.lost = [] := by
  apply Reach.iff_of_step (fun s : InnerState => s.slots.lost = []) rfl
  intro s a s' run hstep
  have h := run_innerCustody hcap run
  have hacc := (h.step_spec hstep).2
  cases hpush : s.pushes a with
  | none =>
    rw [hpush] at hacc
    have hroom : InnerRoom cfg s a := by
      intro r hr
      rw [hpush] at hr
      exact absurd hr (by simp)
    have heq : s'.slots.lost = s.slots.lost := hacc
    rw [heq]
    exact ⟨fun hlost => ⟨hlost, hroom⟩, fun hlost => hlost.1⟩
  | some r =>
    rw [hpush] at hacc
    obtain ⟨hslots, hsome⟩ := hacc
    obtain ⟨i, hi⟩ := Option.isSome_iff_exists.mp hsome
    have hiff := h.conserved.push_lost_iff (r := r) hi
    have hroom : InnerRoom cfg s a ↔ (s.slots.ring r).toList.length + 1 < cfg.cap := by
      unfold InnerRoom
      rw [hpush]
      simp
    rw [hslots, hroom, ← hiff]
    constructor
    · intro hlost'
      -- What is lost stays lost, so nothing was lost before.
      have hgrow : s.slots.lost <+: (s.slots.push r.pusher r).lost := by
        unfold Slots.push
        dsimp only
        split
        · exact List.prefix_rfl
        · exact List.prefix_append ..
      rw [hlost'] at hgrow
      have hlost := List.prefix_nil.mp hgrow
      exact ⟨hlost, hlost'.trans hlost.symm⟩
    · rintro ⟨hlost, heq⟩
      exact heq.trans hlost

end InnerState

end Catse
