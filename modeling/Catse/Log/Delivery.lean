import Catse.Log.Machine

/-!
# The lines of the log path

The log thread is never ahead of `q_list`: when it is behind the two tests of `getfront`, there is a
line at the front, and it writes this line and takes it off. So what it has written are the lines
that the logic thread has passed on, in their order and each once, but for those whose number is no
index of `li`, and what the logic thread has passed on are the lines of the calls that had a cell.

`Logs` says this between any two statements. Each kind of step has one lemma that says how it keeps
`Logs`.
-/

namespace Catse

namespace LogCall

open ThreadLog

/-- Where a call of `write` finds room, the line is what it adds to the queue when it runs without
an interruption. -/
theorem lua_line {tonumber : List UInt8 → Option Double} {q q' : LogQueue} {buf : ℕ → UInt8}
    {stack : List LogArg} {u : Option Urgent} (hroom : q.nodes.length + 1 < q.cap)
    (h : write tonumber q buf stack = some (q', u)) :
    q'.nodes.map .ofNode = q.nodes.map .ofNode ++ (lua tonumber buf stack).line.toList := by
  rw [write] at h
  unfold line result
  split at h
  case h_1 hid =>
    rw [← (Prod.mk.inj (Option.some.inj h)).1]
    simp [hid]
  case h_2 id hid =>
    rw [if_neg (by omega)] at h
    split at h
    case h_1 n l hconcat =>
      split_ifs at h with hneg
      · rw [← (Prod.mk.inj (Option.some.inj h)).1]
        simp [hid, hconcat, hneg]
      · rw [← (Prod.mk.inj (Option.some.inj h)).1]
        simp [hid, hconcat, hneg]
    case h_2 t l hconcat =>
      rw [← (Prod.mk.inj (Option.some.inj h)).1]
      simp [hid, hconcat]
    case h_3 => exact absurd h (by simp)

end LogCall

namespace LogInfo

/-- What is put in a file behind the time is the line. -/
theorem record_line {t : LogInfo} {name : List UInt8} {isNew : Bool} {w : LogClock}
    {buf : List UInt8} :
    (t.record name isNew w buf).line = if w.str_time = [] then none else some buf := by
  unfold record
  by_cases h : w.str_time = []
  · simp only [if_pos h]
  · simp only [if_neg h]

/-- A line is put in the file if the file is open then, and the clock has a text. -/
theorem write_line {t : LogInfo} {opened : List UInt8} {w : LogClock} {buf : List UInt8} :
    (t.write opened w buf).2.2.bind (·.line) =
      if (t.write opened w buf).1.file = true ∧ w.str_time ≠ [] then some buf else none := by
  unfold write
  by_cases hopen : (LogTable.openFile w.opens (LogTable.updateFile w.curTime w.bufTime t)).file
  · simp only [if_pos hopen, Option.bind_some, record_line]
    by_cases hstr : w.str_time = []
    · rw [if_pos hstr, if_neg fun h => h.2 hstr]
    · rw [if_neg hstr, if_pos ⟨hopen, hstr⟩]
  · simp only [if_neg hopen]
    rw [if_neg fun h => hopen h.1]
    rfl

/-- A file that can be opened is open then. -/
theorem write_opens {t : LogInfo} {opened : List UInt8} {w : LogClock} {buf : List UInt8}
    (h : w.opens = true) : (t.write opened w buf).1.file = true := by
  simp [write, LogTable.openFile, h]

end LogInfo

namespace MessageQueueThreads

variable {α : Type} {q q' : MessageQueueThreads α}

/-- `getback` gives the cell at the end, or refuses. -/
theorem step_getback (h : q.step .getback = some q') :
    q.put = .idle ∧ (q' = q ∨ q' = { q with put := .slot none }) := by
  simp only [step, putStep] at h
  split at h
  case h_1 hput =>
    refine ⟨hput, ?_⟩
    split_ifs at h with hfull
    · exact Or.inl (Option.some.inj h).symm
    · exact Or.inr (Option.some.inj h).symm
  all_goals simp_all

/-- A store into the cell. -/
theorem step_store {x : α} (h : q.step (.store x) = some q') :
    q'.put = .slot (some x) ∧ q'.take = q.take ∧ q'.pushed = q.pushed ∧ q'.popped = q.popped := by
  simp only [step, putStep] at h
  split at h
  case h_2 x' p ha hput =>
    obtain rfl := MessageQueueAction.store.inj ha
    obtain rfl := Option.some.inj h
    exact ⟨rfl, rfl, rfl, rfl⟩
  all_goals simp_all

/-- The cell is given up. -/
theorem step_giveUp (h : q.step .giveUp = some q') : q' = { q with put := .idle } := by
  simp only [step, putStep] at h
  split at h
  case h_3 => exact (Option.some.inj h).symm
  all_goals simp_all

/-- `push` up to and including its test, which finds room. -/
theorem Inv.step_push {cap : ℕ} (hq : q.Inv cap) (h : q.step .push = some q') :
    ∃ x, q.put = .slot (some x) ∧ q' = { q with put := .publish x } := by
  simp only [MessageQueueThreads.step, MessageQueueThreads.putStep] at h
  split at h
  case h_4 x _ hput =>
    obtain ⟨hroom, -⟩ := hq.slot _ hput
    have hfull : (q.ring.back + 1) % q.ring.cap ≠ q.ring.front := by
      intro he
      have := hq.flows.full_iff.mp he
      omega
    rw [if_neg hfull] at h
    exact ⟨x, hput, (Option.some.inj h).symm⟩
  all_goals simp_all

/-- The rest of `push`: the item is passed on, and `max_used` is kept. -/
theorem step_pushNext (h : q.step .pushNext = some q') :
    q'.take = q.take ∧ q'.popped = q.popped ∧
      ((∃ x, q.put = .publish x ∧ q'.put = .used ∧ q'.pushed = q.pushed ++ [x]) ∨
        (q.put = .used ∧ q'.put = .idle ∧ q'.pushed = q.pushed)) := by
  simp only [step, putStep] at h
  split at h
  case h_5 x _ hput =>
    obtain rfl := Option.some.inj h
    exact ⟨rfl, rfl, Or.inl ⟨x, hput, rfl, rfl⟩⟩
  case h_6 _ hput =>
    obtain rfl := Option.some.inj h
    exact ⟨rfl, rfl, Or.inr ⟨hput, rfl, rfl⟩⟩
  all_goals simp_all

/-- Outside `push`, and in it behind the store of `back`, no item is on its way into the ring. -/
theorem no_item (h : q.put = .idle ∨ q.put = .used) {P : α → Prop} (x : α)
    (hx : q.put = .slot (some x) ∨ q.put = .publish x) : P x := by
  obtain hput | hput := h
  · rw [hput] at hx
    exact absurd hx (by simp)
  · rw [hput] at hx
    exact absurd hx (by simp)

/-- `getfront`. -/
theorem step_getfront (h : q.step .getfront = some q') : q' = q.getfront := by
  simp only [step, takeStep] at h
  split at h
  all_goals first | exact (Option.some.inj h).symm | simp_all

/-- `getfront` finds the item that it has found before. -/
theorem Inv.getfront_slot {cap : ℕ} (hq : q.Inv cap) (h : q.take = .slot) :
    q.getfront.take = .slot := by
  have hlt := hq.got h
  have hne : ¬ q.ring.front = q.ring.back := by
    intro he
    have := hq.flows.empty_iff.mp he
    omega
  exact if_neg hne

/-- A load from the cell at the front, behind `getfront`. -/
theorem step_load (htake : q.take = .slot) (h : q.step .load = some q') :
    q' = { q with take := .loaded (q.ring.q q.ring.front) } := by
  simp only [step, takeStep, htake] at h
  exact (Option.some.inj h).symm

/-- `pop` up to and including its test, which finds the item. -/
theorem Inv.step_pop {cap : ℕ} {ret : Option α} (hq : q.Inv cap) (htake : q.take = .loaded ret)
    (h : q.step .pop = some q') : q' = { q with take := .retire ret } := by
  obtain ⟨hlt, -⟩ := hq.loaded ret (Or.inl htake)
  have hne : ¬ q.ring.front = q.ring.back := by
    intro he
    have := hq.flows.empty_iff.mp he
    omega
  simp only [MessageQueueThreads.step, MessageQueueThreads.takeStep, htake, if_neg hne] at h
  exact (Option.some.inj h).symm

/-- The rest of `pop`. -/
theorem step_popNext {ret : Option α} (htake : q.take = .retire ret)
    (h : q.step .popNext = some q') :
    q'.put = q.put ∧ q'.take = .idle ∧ q'.pushed = q.pushed ∧ q'.popped = q.popped ++ [ret] := by
  simp only [step, takeStep, htake] at h
  obtain rfl := Option.some.inj h
  exact ⟨rfl, rfl, rfl, rfl⟩

end MessageQueueThreads

namespace LogState

variable {cap : ℕ} {s s' : LogState}

/-- How many lines the log thread has come to: those that are popped, and the one that is being
popped. -/
def reached (s : LogState) : ℕ :=
  match s.logPc with
  | .pop => s.queue.popped.length + 1
  | .popNext => s.queue.popped.length + 1
  | _ => s.queue.popped.length

/-- Where the log thread is in `do_queue` it has the cell that it needs. -/
def Has (pc : LogPc) (take : TakePc LogLine) : Prop :=
  match pc with
  | .idle => take = .idle
  | .test => take = .idle
  | .again => take = .slot
  | .write => take = .slot
  | .pop => ∃ ret, take = .loaded ret
  | .popNext => ∃ ret, take = .retire ret

/-- The lines that `log_info::write` has been called with. -/
def lines (s : LogState) : List LogLine := s.history.written.map (·.1)

/-- The lines that the calls have passed on. -/
def passed (s : LogState) : List LogLine := s.history.kept.filterMap LogCall.line

/-- What holds between any two statements. -/
structure Logs (cap : ℕ) (s : LogState) : Prop where
  queue : s.queue.Inv cap
  line : ∀ x, s.queue.put = .slot (some x) ∨ s.queue.put = .publish x →
    ∃ c, s.call = some c ∧ c.line = some x
  outside : s.queue.put = .idle ∨ s.queue.put = .used → s.call = none
  pushed : s.queue.pushed = s.passed
  has : Has s.logPc s.queue.take
  written : s.lines = (s.queue.pushed.take s.reached).filter inLi

theorem init_logs (hcap : 0 < cap) : (init cap).Logs cap where
  queue := MessageQueueThreads.inv_init hcap
  line x h := absurd h (by simp [init, MessageQueueThreads.init])
  outside _ := rfl
  pushed := rfl
  has := rfl
  written := rfl

namespace Logs

/-- The log thread is not ahead. -/
theorem reached_le (h : s.Logs cap) : s.reached ≤ s.queue.pushed.length := by
  have hle := h.queue.flows.le
  have hhas := h.has
  unfold reached
  cases hpc : s.logPc with
  | pop =>
    rw [hpc] at hhas
    obtain ⟨ret, htake⟩ := hhas
    obtain ⟨hlt, -⟩ := h.queue.loaded ret (Or.inl htake)
    exact hlt
  | popNext =>
    rw [hpc] at hhas
    obtain ⟨ret, htake⟩ := hhas
    obtain ⟨hlt, -⟩ := h.queue.loaded ret (Or.inr htake)
    exact hlt
  | _ => exact hle

/-- A step of the logic thread, which may pass lines on. -/
theorem ofPut (h : s.Logs cap) (hqueue : s'.queue.Inv cap)
    (htake : s'.queue.take = s.queue.take) (hpopped : s'.queue.popped = s.queue.popped)
    (hpc : s'.logPc = s.logPc) (hwritten : s'.history.written = s.history.written)
    (hmore : s.queue.pushed <+: s'.queue.pushed)
    (hpushed : s'.queue.pushed = s'.passed)
    (hline : ∀ x, s'.queue.put = .slot (some x) ∨ s'.queue.put = .publish x →
      ∃ c, s'.call = some c ∧ c.line = some x)
    (houtside : s'.queue.put = .idle ∨ s'.queue.put = .used → s'.call = none) :
    s'.Logs cap := by
  have hreached : s'.reached = s.reached := by
    unfold reached
    rw [hpc, hpopped]
  constructor
  · exact hqueue
  · exact hline
  · exact houtside
  · exact hpushed
  · rw [hpc, htake]
    exact h.has
  · obtain ⟨more, hmore⟩ := hmore
    rw [hreached, ← hmore, List.take_append_of_le_length h.reached_le, ← h.written]
    exact congrArg (List.map (·.1)) hwritten

/-- A step of the log thread that writes nothing of `q_list`. -/
theorem ofTake (h : s.Logs cap) (hqueue : s'.queue.Inv cap) (hput : s'.queue.put = s.queue.put)
    (hpushed : s'.queue.pushed = s.queue.pushed) (hcall : s'.call = s.call)
    (hhistory : s'.history = s.history) (hhas : Has s'.logPc s'.queue.take)
    (hreached : s'.reached = s.reached) : s'.Logs cap := by
  constructor
  · exact hqueue
  · rw [hput, hcall]
    exact h.line
  · rw [hput, hcall]
    exact h.outside
  · rw [passed, hpushed, hhistory]
    exact h.pushed
  · exact hhas
  · rw [lines, hpushed, hhistory, hreached]
    exact h.written

/-! ## The steps of the logic thread -/

theorem start (h : s.Logs cap) {c : LogCall} (hs : s.start c = some s') : s'.Logs cap := by
  unfold LogState.start at hs
  cases hcall : s.call with
  | some _ =>
    simp only [hcall] at hs
    exact absurd hs (by simp)
  | none =>
    simp only [hcall] at hs
    obtain ⟨queue, hq, hs⟩ := Option.bind_eq_some_iff.mp hs
    have hinv := h.queue.step hq
    obtain ⟨hput, rfl | rfl⟩ := MessageQueueThreads.step_getback hq
    · -- The ring is full, and the call has no cell.
      simp only [hput] at hs
      split at hs
      · exact absurd hs (by simp)
      · rw [← Option.some.inj hs]
        exact h.ofPut hinv rfl rfl rfl rfl (List.prefix_refl _) h.pushed
          (MessageQueueThreads.no_item (Or.inl hput)) fun _ => rfl
    · rw [← Option.some.inj hs]
      refine h.ofPut hinv rfl rfl rfl rfl (List.prefix_refl _) h.pushed ?_ ?_
      · intro x hx
        exact absurd hx (by simp)
      · intro hx
        exact absurd hx (by simp)

theorem fill (h : s.Logs cap) (hs : s.fill = some s') : s'.Logs cap := by
  unfold LogState.fill at hs
  cases hcall : s.call with
  | none =>
    simp only [hcall] at hs
    exact absurd hs (by simp)
  | some c =>
    simp only [hcall] at hs
    cases hres : c.result with
    | line l =>
      -- The cell has the line of this call.
      simp only [hres] at hs
      obtain ⟨queue, hq, rfl⟩ := Option.map_eq_some_iff.mp hs
      obtain ⟨hput, htake, hpushed, hpopped⟩ := MessageQueueThreads.step_store hq
      have hmore : s.queue.pushed <+: queue.pushed := by rw [hpushed]
      refine h.ofPut (h.queue.step hq) htake hpopped rfl rfl hmore (hpushed.trans h.pushed) ?_ ?_
      · intro x hx
        have hx' : queue.put = .slot (some x) ∨ queue.put = .publish x := hx
        have hlx : l = x := by simpa [hput] using hx'
        refine ⟨c, rfl, ?_⟩
        rw [LogCall.line, hres, hlx]
      · intro hx
        have hx' : queue.put = .idle ∨ queue.put = .used := hx
        rw [hput] at hx'
        exact absurd hx' (by simp)
    | refused =>
      -- The cell is given back, and the call leaves no line.
      simp only [hres] at hs
      obtain ⟨queue, hq, rfl⟩ := Option.map_eq_some_iff.mp hs
      have hinv := h.queue.step hq
      obtain rfl := MessageQueueThreads.step_giveUp hq
      have hline : c.line = none := by rw [LogCall.line, hres]
      refine h.ofPut hinv rfl rfl rfl rfl (List.prefix_refl _) ?_
        (MessageQueueThreads.no_item (Or.inl rfl)) fun _ => rfl
      show s.queue.pushed = (s.history.kept ++ [c]).filterMap LogCall.line
      rw [List.filterMap_append, h.pushed]
      simp [passed, hline]
    | overrun =>
      simp only [hres] at hs
      exact absurd hs (by simp)

theorem push (h : s.Logs cap) (hs : s.step .push = some s') : s'.Logs cap := by
  obtain ⟨queue, hq, rfl⟩ := Option.map_eq_some_iff.mp hs
  have hinv := h.queue.step hq
  obtain ⟨x, hput, rfl⟩ := h.queue.step_push hq
  refine h.ofPut hinv rfl rfl rfl rfl (List.prefix_refl _) h.pushed ?_ ?_
  · intro y hy
    have hxy : x = y := by simpa using hy
    rw [← hxy]
    exact h.line x (Or.inl hput)
  · intro hy
    exact absurd hy (by simp)

theorem pushNext (h : s.Logs cap) (hs : s.pushNext = some s') : s'.Logs cap := by
  obtain ⟨queue, hq, rfl⟩ := Option.map_eq_some_iff.mp hs
  have hinv := h.queue.step hq
  obtain ⟨htake, hpopped, ⟨x, hput, hput', hpushed⟩ | ⟨hput, hput', hpushed⟩⟩ :=
    MessageQueueThreads.step_pushNext hq
  · -- With `back` the line is on its way, and the call that it comes from is over.
    obtain ⟨c, hcall, hline⟩ := h.line x (Or.inr hput)
    simp only [hcall]
    refine h.ofPut hinv htake hpopped rfl rfl ⟨[x], hpushed.symm⟩ ?_
      (MessageQueueThreads.no_item (Or.inr hput')) fun _ => rfl
    show queue.pushed = (s.history.kept ++ [c]).filterMap LogCall.line
    rw [hpushed, h.pushed, List.filterMap_append]
    simp [passed, hline]
  · have hcall : s.call = none := h.outside (Or.inr hput)
    simp only [hcall]
    have hmore : s.queue.pushed <+: queue.pushed := by rw [hpushed]
    exact h.ofPut hinv htake hpopped rfl rfl hmore (hpushed.trans h.pushed)
      (MessageQueueThreads.no_item (Or.inl hput')) fun _ => rfl

/-! ## The steps of the log thread -/

theorem round (h : s.Logs cap) {hot : Bool} (hs : s.round hot = some s') : s'.Logs cap := by
  rw [LogState.round, Option.ite_none_right_eq_some, Option.some.injEq] at hs
  obtain ⟨hpc, rfl⟩ := hs
  have hhas := h.has
  rw [hpc] at hhas
  refine h.ofTake h.queue rfl rfl rfl rfl hhas ?_
  simp only [reached, hpc]

theorem test (h : s.Logs cap) (hs : s.test = some s') : s'.Logs cap := by
  rw [LogState.test, Option.ite_none_right_eq_some] at hs
  obtain ⟨hpc, hs⟩ := hs
  obtain ⟨queue, hq, rfl⟩ := Option.map_eq_some_iff.mp hs
  have hinv := h.queue.step hq
  obtain rfl := MessageQueueThreads.step_getfront hq
  by_cases hempty : s.queue.ring.front = s.queue.ring.back
  · -- `do_queue` is over.
    have htake : s.queue.getfront.take = .idle := if_pos hempty
    simp only [htake]
    refine h.ofTake hinv rfl rfl rfl rfl htake ?_
    simp only [reached, hpc]
    rfl
  · have htake : s.queue.getfront.take = .slot := if_neg hempty
    simp only [htake]
    refine h.ofTake hinv rfl rfl rfl rfl htake ?_
    simp only [reached, hpc]
    rfl

theorem again (h : s.Logs cap) (hs : s.again = some s') : s'.Logs cap := by
  rw [LogState.again, Option.ite_none_right_eq_some] at hs
  obtain ⟨hpc, hs⟩ := hs
  obtain ⟨queue, hq, rfl⟩ := Option.map_eq_some_iff.mp hs
  have hinv := h.queue.step hq
  obtain rfl := MessageQueueThreads.step_getfront hq
  have hhas := h.has
  rw [hpc] at hhas
  refine h.ofTake hinv rfl rfl rfl rfl (h.queue.getfront_slot hhas) ?_
  simp only [reached, hpc]
  rfl

/-- The line that is loaded is the next one, and it is written. -/
theorem write (h : s.Logs cap) {w : LogClock} (hs : s.write w = some s') : s'.Logs cap := by
  rw [LogState.write, Option.ite_none_right_eq_some] at hs
  obtain ⟨hpc, hs⟩ := hs
  obtain ⟨queue, hq, hs⟩ := Option.bind_eq_some_iff.mp hs
  have hinv := h.queue.step hq
  have hhas := h.has
  rw [hpc] at hhas
  have hlt := h.queue.got hhas
  obtain rfl := MessageQueueThreads.step_load hhas hq
  have hload := h.queue.flows.load hlt
  simp only [hload, Option.some.injEq] at hs
  rw [hload] at hinv
  obtain ⟨x, hx⟩ : ∃ x, x = s.queue.pushed[s.queue.popped.length] := ⟨_, rfl⟩
  rw [← hx] at hs hinv
  have hreached : s.reached = s.queue.popped.length := by simp only [reached, hpc]
  have hwritten : (s.queue.pushed.take (s.queue.popped.length + 1)).filter inLi =
      s.lines ++ if inLi x then [x] else [] := by
    rw [List.take_add_one, List.getElem?_eq_getElem hlt, ← hx, List.filter_append, h.written,
      hreached]
    by_cases hli : inLi x
    · simp [hli]
    · simp [hli]
  rw [← hs]
  -- A line whose number is no index of `li` is taken off, but not written.
  unfold writeLine
  by_cases hli : inLi x
  · rw [if_pos hli] at hwritten ⊢
    refine ⟨hinv, h.line, h.outside, h.pushed, ⟨_, rfl⟩, ?_⟩
    refine Eq.trans ?_ hwritten.symm
    exact List.map_append
  · rw [if_neg hli] at hwritten ⊢
    rw [List.append_nil] at hwritten
    exact ⟨hinv, h.line, h.outside, h.pushed, ⟨_, rfl⟩, hwritten.symm⟩

theorem pop (h : s.Logs cap) (hs : s.pop = some s') : s'.Logs cap := by
  rw [LogState.pop, Option.ite_none_right_eq_some] at hs
  obtain ⟨hpc, hs⟩ := hs
  obtain ⟨queue, hq, rfl⟩ := Option.map_eq_some_iff.mp hs
  have hinv := h.queue.step hq
  have hhas := h.has
  rw [hpc] at hhas
  obtain ⟨ret, htake⟩ := hhas
  obtain rfl := h.queue.step_pop htake hq
  refine h.ofTake hinv rfl rfl rfl rfl ⟨ret, rfl⟩ ?_
  simp only [reached, hpc]

theorem popNext (h : s.Logs cap) (hs : s.popNext = some s') : s'.Logs cap := by
  rw [LogState.popNext, Option.ite_none_right_eq_some] at hs
  obtain ⟨hpc, hs⟩ := hs
  obtain ⟨queue, hq, rfl⟩ := Option.map_eq_some_iff.mp hs
  have hhas := h.has
  rw [hpc] at hhas
  obtain ⟨ret, htake⟩ := hhas
  obtain ⟨hput, htake', hpushed, hpopped⟩ := MessageQueueThreads.step_popNext htake hq
  refine h.ofTake (h.queue.step hq) hput hpushed rfl rfl htake' ?_
  simp only [reached, hpc, hpopped, List.length_append, List.length_singleton]

theorem io (h : s.Logs cap) {w : LogClock} {x : LogLine} (hs : s.io w x = some s') :
    s'.Logs cap := by
  rw [LogState.io, Option.ite_none_right_eq_some, Option.some.injEq] at hs
  obtain ⟨hpc, rfl⟩ := hs
  by_cases hli : inLi x
  · rw [if_pos hli]
    exact h.ofTake h.queue rfl rfl rfl rfl h.has rfl
  · rw [if_neg hli]
    exact h

/-- A step. -/
theorem step (h : s.Logs cap) {a : LogAction} (hs : s.step a = some s') : s'.Logs cap := by
  cases a with
  | call c => exact h.start hs
  | fill => exact h.fill hs
  | push => exact h.push hs
  | pushNext => exact h.pushNext hs
  | round hot => exact h.round hs
  | test => exact h.test hs
  | again => exact h.again hs
  | write w => exact h.write hs
  | pop => exact h.pop hs
  | popNext => exact h.popNext hs
  | io w x => exact h.io hs
  | reg filename head divTime isJson =>
    obtain rfl := Option.some.inj hs
    exact h.ofTake h.queue rfl rfl rfl rfl h.has rfl

end Logs

/-- It holds in every state of every run. -/
theorem run_logs (hcap : 0 < cap) (run : Run cap s) : s.Logs cap :=
  run.invariant (init_logs hcap) fun _ _ _ _ h _ hs => h.step hs

/-! ## What is put in the files -/

/-- Only `log_info::write` puts something in a file. -/
theorem step_written {a : LogAction} (hs : s.step a = some s') :
    s'.history.written = s.history.written ∨ ∃ w x, a = .write w ∧
      s'.history.written = s.history.written ++ [(x, (s.writeInfo w x).2)] := by
  cases a with
  | call c =>
    -- A call begins without touching the files, whatever becomes of its line.
    simp only [step, start] at hs
    split at hs
    · exact absurd hs (by simp)
    · obtain ⟨queue, -, hs⟩ := Option.bind_eq_some_iff.mp hs
      split at hs
      · rw [← Option.some.inj hs]
        exact Or.inl rfl
      · split at hs
        · exact absurd hs (by simp)
        · rw [← Option.some.inj hs]
          exact Or.inl rfl
  | fill =>
    simp only [step, fill] at hs
    split at hs
    · exact absurd hs (by simp)
    · split at hs
      · obtain ⟨queue, -, rfl⟩ := Option.map_eq_some_iff.mp hs
        exact Or.inl rfl
      · obtain ⟨queue, -, rfl⟩ := Option.map_eq_some_iff.mp hs
        exact Or.inl rfl
      · exact absurd hs (by simp)
  | push =>
    obtain ⟨queue, -, rfl⟩ := Option.map_eq_some_iff.mp hs
    exact Or.inl rfl
  | pushNext =>
    obtain ⟨queue, -, rfl⟩ := Option.map_eq_some_iff.mp hs
    split
    all_goals exact Or.inl rfl
  | round hot =>
    rw [step, round, Option.ite_none_right_eq_some, Option.some.injEq] at hs
    obtain ⟨-, rfl⟩ := hs
    exact Or.inl rfl
  | test =>
    rw [step, test, Option.ite_none_right_eq_some] at hs
    obtain ⟨queue, -, rfl⟩ := Option.map_eq_some_iff.mp hs.2
    split
    all_goals exact Or.inl rfl
  | again =>
    rw [step, again, Option.ite_none_right_eq_some] at hs
    obtain ⟨queue, -, rfl⟩ := Option.map_eq_some_iff.mp hs.2
    exact Or.inl rfl
  | write w =>
    -- The line of a number without an entry in `li` is dropped.
    rw [step, write, Option.ite_none_right_eq_some] at hs
    obtain ⟨queue, -, hs⟩ := Option.bind_eq_some_iff.mp hs.2
    split at hs
    · obtain rfl := Option.some.inj hs
      unfold writeLine
      split_ifs with hli
      · exact Or.inr ⟨w, _, rfl, rfl⟩
      · exact Or.inl rfl
    · exact absurd hs (by simp)
  | pop =>
    rw [step, pop, Option.ite_none_right_eq_some] at hs
    obtain ⟨queue, -, rfl⟩ := Option.map_eq_some_iff.mp hs.2
    exact Or.inl rfl
  | popNext =>
    rw [step, popNext, Option.ite_none_right_eq_some] at hs
    obtain ⟨queue, -, rfl⟩ := Option.map_eq_some_iff.mp hs.2
    exact Or.inl rfl
  | io w x =>
    -- The lines of the other queue are not part of the history.
    rw [step, io, Option.ite_none_right_eq_some, Option.some.injEq] at hs
    obtain ⟨-, rfl⟩ := hs
    split_ifs
    all_goals exact Or.inl rfl
  | reg filename head divTime isJson =>
    obtain rfl := Option.some.inj hs
    exact Or.inl rfl

/-- What a run has put in the files, line by line. -/
def records (s : LogState) : List (List UInt8) :=
  s.history.written.filterMap fun p => p.2.bind (·.line)

/-- The files can be opened and the clock has a text, in the steps of the log thread. -/
def Opens (_ : LogState) : LogAction → Prop
  | .write w => w.opens = true ∧ w.str_time ≠ []
  | _ => True

instance (s : LogState) : DecidablePred s.Opens
  | .write w => inferInstanceAs (Decidable (w.opens = true ∧ w.str_time ≠ []))
  | .call _ | .fill | .push | .pushNext | .round _ | .test | .again | .pop | .popNext | .io ..
  | .reg .. => .isTrue trivial

/-- The lines in the files are among those that are written, in their order. -/
theorem records_sublist (run : Run cap s) : s.records.Sublist (s.lines.map (·.bytes)) := by
  refine run.invariant (I := fun s => s.records.Sublist (s.lines.map (·.bytes)))
    (List.Sublist.refl _) ?_
  intro s a s' _ ih _ hs
  obtain hwritten | ⟨w, x, -, hwritten⟩ := step_written hs
  · rw [records, lines, hwritten]
    exact ih
  · rw [records, lines, hwritten, List.filterMap_append, List.map_append, List.map_append]
    refine ih.append ?_
    simp only [writeInfo, List.filterMap_cons, List.filterMap_nil, LogInfo.write_line]
    split_ifs
    · exact List.Sublist.refl _
    · exact List.nil_sublist _

/-- While files can be opened, every line that is written is in a file. -/
theorem records_eq (run : Reach step (init cap) Opens s) :
    s.records = s.lines.map (·.bytes) := by
  refine run.invariant (I := fun s => s.records = s.lines.map (·.bytes)) rfl ?_
  intro s a s' _ ih hok hs
  obtain hwritten | ⟨w, x, rfl, hwritten⟩ := step_written hs
  · rw [records, lines, hwritten]
    exact ih
  · obtain ⟨hopens, hstr⟩ := hok
    have hopen : ((s.table.li x.id.toNat).write (s.opened x.id.toNat) w x.bytes).1.file = true :=
      LogInfo.write_opens hopens
    rw [records, lines, hwritten, List.filterMap_append, List.map_append, List.map_append]
    refine congrArg₂ (· ++ ·) ih ?_
    simp only [writeInfo, List.filterMap_cons, List.filterMap_nil, LogInfo.write_line]
    rw [if_pos ⟨hopen, hstr⟩]
    rfl

/-- In every interleaving of the logic thread and the log thread: what the log thread has written is
a prefix of the lines that the calls have passed on, less than `cap` behind, without those whose
number is no index of `li`; the files have none but these lines, in their order and whole; and they
have all of them while they can be opened. -/
theorem lines_logged (hcap : 0 < cap) :
    (∀ s, Run cap s →
      s.lines = (s.passed.take s.reached).filter inLi ∧ s.reached ≤ s.passed.length ∧
        s.passed.length < s.reached + cap ∧ s.records.Sublist (s.lines.map (·.bytes))) ∧
    ∀ s, Reach step (init cap) Opens s →
      s.records = ((s.passed.take s.reached).filter inLi).map (·.bytes) := by
  have hlines : ∀ s, Run cap s → s.lines = (s.passed.take s.reached).filter inLi := by
    intro s run
    have h := run_logs hcap run
    rw [← h.pushed]
    exact h.written
  constructor
  · intro s run
    have h := run_logs hcap run
    have hroom := h.queue.flows.room
    have hle : s.queue.popped.length ≤ s.reached := by
      unfold reached
      split
      all_goals omega
    refine ⟨hlines s run, ?_, ?_, records_sublist run⟩
    · rw [← h.pushed]
      exact h.reached_le
    · rw [← h.pushed]
      rw [h.queue.cap_eq] at hroom
      omega
  · intro s run
    rw [← hlines s run.any]
    exact records_eq run

/-- C++ code logs `A` while Lua code has an entry for it, and the line is in the file. -/
def oneLine : List LogAction :=
  [.reg (Printf.literal "log/a") [] 0 false, .call (.c 0 (Printf.literal "A")), .fill, .push,
    .pushNext, .round false, .test, .again,
    .write ⟨7, [], Printf.literal "2020-01-01 00:00:00,", [], false, true, false⟩]

theorem lines_logged_one : ∃ s : LogState, Reach step (init 2) Opens s ∧
    s.records = [Printf.literal "A\n"] ∧
    s.records = ((s.passed.take s.reached).filter inLi).map (·.bytes) := by
  have hexec : (exec step (init 2) oneLine).map records = some [Printf.literal "A\n"] := by
    decide +kernel
  obtain ⟨s, hs, hrecords⟩ := Option.map_eq_some_iff.mp hexec
  have hok : execOk step Opens (init 2) oneLine := by
    decide +kernel
  have run : Reach step (init 2) Opens s := reach_of_exec .start hok hs
  exact ⟨s, run, hrecords, (lines_logged (by decide)).2 s run⟩

end LogState

end Catse
