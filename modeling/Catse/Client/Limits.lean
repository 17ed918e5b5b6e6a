import Catse.Client.Framing
import Catse.Logic.PkWindows

/-!
# The rate limit and the connections

`cb_read` asks `check_pk_limit` about each packet by the descriptor that it arrived on. The table of
the rate limit is its own: `cb_listener` and `close_connect` do not touch it, and it has half as
many descriptors as the tables of `thread_io`.

The steps of the client path call its two functions and leave it alone otherwise (`run_pk`). Two
histories after which `cb_listener` registers a connection on the same descriptor treat the new
client alike exactly if what they have left of the intervals of the descriptor is the same from then
on (`fresh_quota_iff`).
-/

namespace Catse

namespace PkLimit

variable {l l' : PkLimit} {fd id t now : ℤ} {ps : List (ℤ × ℤ)}

/-- Which of the packets of `fd` are accepted, given as their times with their ids. -/
def verdicts (fd : ℤ) (l : PkLimit) : List (ℤ × ℤ) → List Bool
  | [] => []
  | (t, id) :: ps =>
    ((l.checkPkLimit t fd id).1 = .ok) :: verdicts fd (l.checkPkLimit t fd id).2 ps

/-- The id is in the table, and the number and the length of its interval are positive. -/
structure Limited (l : PkLimit) (id : ℤ) : Prop where
  id_range : 0 ≤ id ∧ id < idMax
  cnt_pos : 0 < l.cnt id
  second_pos : 0 < l.second id

/-- For each limited id, what is left of the interval of `fd` from `now` on is the same. -/
def SameLeft (fd now : ℤ) (l l' : PkLimit) : Prop :=
  ∀ id, l.Limited id →
    Window.SameFrom (l.cnt id) (l.second id) now (l.window fd id) (l'.window fd id)

/-- An interval that nothing has been counted in is the one that the table was zeroed with. -/
def UnusedZero (l : PkLimit) : Prop := ∀ fd id, l.last_cnt fd id = 0 → l.last_time fd id = 0

/-- A call keeps this, since an interval starts with a packet that it counts. -/
theorem UnusedZero.call (h : l.UnusedZero) (hl : l.InRange) (k : PkCall) :
    (l.call k).UnusedZero := by
  intro fd id
  show ((l.call k).window fd id).used = 0 → ((l.call k).window fd id).start = 0
  have hkept : (l.window fd id).used = 0 → (l.window fd id).start = 0 := h fd id
  rcases window_call_cases hl k fd id with heq | ⟨t, -, -, -, heq⟩ <;> rw [heq]
  · exact hkept
  · have hused : 0 ≤ (l.window fd id).used := (hl.used fd id).1
    rcases (l.window fd id).call_cases (l.cnt id) (l.second id) t with
      ⟨-, hw⟩ | ⟨-, -, hw⟩ | ⟨-, -, hw⟩ <;> rw [hw]
    · exact fun hzero => absurd hzero one_ne_zero
    · exact hkept
    · intro hzero
      dsimp only at hzero
      omega

theorem UnusedZero.after (h : l.UnusedZero) (hl : l.InRange) (calls : List PkCall) :
    (l.after calls).UnusedZero := by
  induction calls generalizing l with
  | nil => exact h
  | cons k calls ih => exact ih (h.call hl k) (hl.call k)

/-- The verdicts on packets of one limited id are those of its window. -/
theorem verdicts_eq_decisions (hl : l.InRange) (hfd : 0 ≤ fd ∧ fd < fdMax) (hlim : l.Limited id)
    (ts : List ℤ) : verdicts fd l (ts.map fun t => (t, id)) =
      (l.window fd id).decisions (l.cnt id) (l.second id) ts := by
  induction ts generalizing l with
  | nil => rfl
  | cons t ts ih =>
    obtain ⟨hid, hc, hs⟩ := hlim
    obtain ⟨hok, hwindow⟩ := check_eq_call hl hfd hid hc hs t
    obtain ⟨hcnt, hsecond⟩ := l.check_limits t fd id
    have hrest := ih (hl.call (.check t fd id)) ⟨hid, by rwa [PkLimit.call, hcnt],
      by rwa [PkLimit.call, hsecond]⟩
    rw [PkLimit.call, hcnt, hsecond, hwindow] at hrest
    rw [List.map_cons, verdicts, Window.decisions, hrest, hok]
    cases ((l.window fd id).call (l.cnt id) (l.second id) t).1 with
    | true => rfl
    | false => rfl

/-- A packet is treated alike where what is left is the same, and it leaves the same. -/
theorem SameLeft.check (h : SameLeft fd now l l') (hl : l.InRange) (hl' : l'.InRange)
    (hcnt : l.cnt = l'.cnt) (hsecond : l.second = l'.second) (ht : now ≤ t) (id : ℤ) :
    (l.checkPkLimit t fd id).1 = (l'.checkPkLimit t fd id).1 ∧
      SameLeft fd t (l.checkPkLimit t fd id).2 (l'.checkPkLimit t fd id).2 := by
  obtain ⟨hkeep, hkeep'⟩ := l.check_limits t fd id
  have hother : ∀ id', id' ≠ id → l.Limited id' →
      Window.SameFrom (l.cnt id') (l.second id') t ((l.checkPkLimit t fd id).2.window fd id')
        ((l'.checkPkLimit t fd id).2.window fd id') := by
    intro id' hne hlim
    have hnot : ¬(fd = fd ∧ id = id') := fun hsame => hne hsame.2.symm
    rw [check_window_of_ne hnot, check_window_of_ne hnot]
    exact (h id' hlim).mono ht
  by_cases hlim : (0 ≤ fd ∧ fd < fdMax) ∧ (0 ≤ id ∧ id < idMax) ∧ 0 < l.cnt id ∧ 0 < l.second id
  · obtain ⟨hfd, hid, hc, hs⟩ := hlim
    obtain ⟨hok, hwindow⟩ := check_eq_call hl hfd hid hc hs t
    obtain ⟨hok', hwindow'⟩ :=
      check_eq_call hl' hfd hid (hcnt ▸ hc) (hsecond ▸ hs) t
    rw [← hcnt, ← hsecond] at hok' hwindow'
    obtain ⟨hsame, hnext⟩ := (h id ⟨hid, hc, hs⟩).call ht
    refine ⟨by rw [hok, hok', hsame], ?_⟩
    rintro id' ⟨hid', hc', hs'⟩
    rw [hkeep] at hc'
    rw [hkeep'] at hs'
    rw [hkeep, hkeep']
    by_cases hne : id' = id
    · subst hne
      rw [hwindow, hwindow']
      exact hnext
    · exact hother id' hne ⟨hid', hc', hs'⟩
  · -- The tables are not looked at.
    rcases l.checkPkLimit_cases t fd id with ⟨heq, -⟩ | ⟨hlim', -⟩
    case inr => exact absurd hlim' hlim
    rcases l'.checkPkLimit_cases t fd id with ⟨heq', -⟩ | ⟨hlim', -⟩
    case inr =>
      rw [← hcnt, ← hsecond] at hlim'
      exact absurd hlim' hlim
    constructor
    · unfold checkPkLimit
      rw [← hcnt, ← hsecond]
      by_cases hfd : 0 ≤ fd ∧ fd < fdMax
      case neg => rw [if_pos hfd, if_pos hfd]
      by_cases hid : 0 ≤ id ∧ id < idMax
      case neg => rw [if_neg (not_not.mpr hfd), if_neg (not_not.mpr hfd), if_pos hid, if_pos hid]
      rw [if_neg (not_not.mpr hfd), if_neg (not_not.mpr hfd), if_neg (not_not.mpr hid),
        if_neg (not_not.mpr hid)]
      by_cases hc : l.cnt id ≤ 0
      · rw [if_pos hc, if_pos hc]
      have hs : l.second id ≤ 0 :=
        not_lt.mp fun hs => hlim ⟨hfd, hid, not_le.mp hc, hs⟩
      rw [if_neg hc, if_neg hc, if_pos hs, if_pos hs]
    · rw [heq, heq']
      exact fun id' hlim' => (h id' hlim').mono ht

/-- So are packets that come later. -/
theorem SameLeft.verdicts (h : SameLeft fd now l l') (hl : l.InRange) (hl' : l'.InRange)
    (hcnt : l.cnt = l'.cnt) (hsecond : l.second = l'.second)
    (hsorted : (ps.map Prod.fst).Pairwise (· ≤ ·)) (hfrom : ∀ t ∈ ps.map Prod.fst, now ≤ t) :
    verdicts fd l ps = PkLimit.verdicts fd l' ps := by
  induction ps generalizing l l' now with
  | nil => rfl
  | cons p ps ih =>
    obtain ⟨t, id⟩ := p
    obtain ⟨hle, hsorted⟩ := List.pairwise_cons.mp hsorted
    obtain ⟨hsame, hnext⟩ := h.check hl hl' hcnt hsecond (hfrom t List.mem_cons_self) id
    obtain ⟨hkeep, hkeep'⟩ := l.check_limits t fd id
    obtain ⟨hkept, hkept'⟩ := l'.check_limits t fd id
    have hrest := ih hnext (hl.call (.check t fd id)) (hl'.call (.check t fd id))
      (hkeep.trans (hcnt.trans hkept.symm)) (hkeep'.trans (hsecond.trans hkept'.symm)) hsorted hle
    rw [PkLimit.verdicts, PkLimit.verdicts, hsame, hrest]

/-- A descriptor that is not in the table is refused, and so are all of its packets. -/
theorem check_out (h : fdMax ≤ fd) (l : PkLimit) (t id : ℤ) :
    l.checkPkLimit t fd id = (.fd_invalid, l) :=
  if_pos fun hin => absurd hin.2 (not_lt.mpr h)

theorem verdicts_out (h : fdMax ≤ fd) (l : PkLimit) (ps : List (ℤ × ℤ)) :
    verdicts fd l ps = ps.map fun _ => false := by
  induction ps with
  | nil => rfl
  | cons p ps ih =>
    rw [verdicts, check_out h, ih]
    rfl

/-- Two tables with the same limits accept the same packets of `fd` from now on exactly if the
descriptor is not in the table, or what is left of its intervals is the same. -/
theorem verdicts_eq_iff (hl : l.InRange) (hl' : l'.InRange) (hz : l.UnusedZero)
    (hz' : l'.UnusedZero) (hcnt : l.cnt = l'.cnt) (hsecond : l.second = l'.second) (hfd : 0 ≤ fd)
    (hnow : 0 < now) :
    (∀ ps : List (ℤ × ℤ), (ps.map Prod.fst).Pairwise (· ≤ ·) → (∀ t ∈ ps.map Prod.fst, now ≤ t) →
        verdicts fd l ps = verdicts fd l' ps) ↔
      fdMax ≤ fd ∨ SameLeft fd now l l' := by
  constructor
  · intro h
    rcases le_or_gt fdMax fd with hout | hin
    · exact .inl hout
    right
    intro id hlim
    have halike : Window.Alike (l.cnt id) (l.second id) now (l.window fd id)
        (l'.window fd id) := by
      intro ts hsorted hfrom
      have htimes : (ts.map fun t => (t, id)).map Prod.fst = ts := by
        rw [List.map_map]
        exact List.map_id ts
      have hverdicts := h (ts.map fun t => (t, id)) (by rwa [htimes]) (by rwa [htimes])
      rw [verdicts_eq_decisions hl ⟨hfd, hin⟩ hlim, verdicts_eq_decisions hl' ⟨hfd, hin⟩
        ⟨hlim.id_range, hcnt ▸ hlim.cnt_pos, hsecond ▸ hlim.second_pos⟩, ← hcnt, ← hsecond]
        at hverdicts
      exact hverdicts
    -- A window that nothing is counted in has not started now.
    have hlate : ∀ l : PkLimit, l.UnusedZero →
        (l.window fd id).used = 0 → (l.window fd id).start ≠ now := by
      intro l hz hused hstart
      have hzero : (l.window fd id).start = 0 := hz fd id hused
      omega
    exact (Window.alike_iff hlim.cnt_pos hlim.second_pos (hlate l hz) (hlate l' hz')).mp halike
  · rintro (hout | hsame) ps hsorted hfrom
    · rw [verdicts_out hout, verdicts_out hout]
    · exact hsame.verdicts hl hl' hcnt hsecond hsorted hfrom

end PkLimit

/-- The time that a `cb_read` has read from the clock, or `0`. -/
def IoPc.curTime : IoPc → ℤ
  | .readLoop _ t => t
  | .readAlloc _ t _ _ _ => t
  | .readPush _ t => t
  | _ => 0

/-- The descriptor, the id and the time of a packet that `check_pk_limit` has just accepted. -/
def IoPc.passed : IoPc → Option (ℤ × ℤ × ℤ)
  | .readAlloc _ t fd id _ => some (fd, id, t)
  | _ => none

namespace ClientState

variable {cfg : ClientConfig} {s s' : ClientState} {a : ClientAction}

/-! ## The calls of `check_pk_limit` -/

/-- An iteration of the loop of `cb_read` does not get to the rate limit, or it checks a packet of
its connection, and goes on to `alloc` if this is accepted. -/
theorem readLoop_check (s : ClientState) (be : ℕ) (t now : ℤ) :
    ((s.readLoop be t now).pk = s.pk ∧ (s.readLoop be t now).ioPc.passed = none ∧
        ((s.readLoop be t now).ioPc.curTime = 0 ∨ (s.readLoop be t now).ioPc.curTime = t)) ∨
      ∃ b id len, s.io.bes be = some b ∧
        (s.readLoop be t now).pk =
          (s.pk.checkPkLimit (if t = 0 then now else t) b.fd id).2 ∧
        (s.readLoop be t now).ioPc =
          if (s.pk.checkPkLimit (if t = 0 then now else t) b.fd id).1 ≠ .ok then
            .readLoop be (if t = 0 then now else t)
          else .readAlloc be (if t = 0 then now else t) b.fd id len := by
  cases hb : s.io.bes be with
  | none =>
    rw [readLoop_none hb]
    exact .inl ⟨rfl, rfl, .inl rfl⟩
  | some b =>
    rcases readLoop_spec hb t now with
      heq | ⟨pc, heq, rfl | rfl⟩ | ⟨reason, heq⟩ | ⟨_, id, len, rfl, heq⟩ <;> rw [heq]
    · exact .inl ⟨rfl, rfl, .inl rfl⟩
    · exact .inl ⟨rfl, rfl, .inl rfl⟩
    · exact .inl ⟨rfl, rfl, .inr rfl⟩
    · exact .inl ⟨rfl, rfl, .inl rfl⟩
    · exact .inr ⟨b, id, len, rfl, rfl, rfl⟩

/-- A step of the io thread other than an iteration of that loop keeps the tables of the rate limit,
accepts no packet, and reads no clock. -/
theorem step_io_check {now : ℤ} (hstep : step cfg s (.io now) = some s') :
    (∃ be t, s.ioPc = .readLoop be t ∧ s' = s.readLoop be t now) ∨
      s'.pk = s.pk ∧ s'.ioPc.passed = none ∧
        (s'.ioPc.curTime = 0 ∨ s'.ioPc.curTime = s.ioPc.curTime) := by
  have heq := step_io_eq hstep
  cases hpc : s.ioPc with
  | readLoop be t =>
    -- Here alone the limit is asked.
    rw [hpc] at heq
    exact .inl ⟨be, t, rfl, heq⟩
  | idle =>
    rw [hpc] at heq
    exact heq.elim
  | crashed =>
    rw [hpc] at heq
    exact heq.elim
  | readAlloc be t fd id len =>
    obtain ⟨recv, pc, hgo, rfl | rfl | rfl⟩ := readAlloc_eq s be t fd id len <;>
      simp only [hpc, hgo] at heq <;> rw [heq]
    · exact .inr ⟨rfl, rfl, .inl rfl⟩
    · exact .inr ⟨rfl, rfl, .inl rfl⟩
    · exact .inr ⟨rfl, rfl, .inr rfl⟩
  | readPush be t =>
    -- Back to the loop with the time that this call of `cb_read` has read.
    simp only [hpc] at heq
    rw [heq]
    exact .inr ⟨rfl, rfl, .inr rfl⟩
  | readFree =>
    simp only [hpc] at heq
    rw [heq]
    exact .inr ⟨rfl, rfl, .inl rfl⟩
  | closeAlloc be fd reason real_reason =>
    obtain ⟨recv, pc, hgo, rfl | rfl⟩ := closeAlloc_eq cfg s be fd reason real_reason <;>
      simp only [hpc, hgo] at heq <;> rw [heq] <;> exact .inr ⟨rfl, rfl, .inl rfl⟩
  | closePush =>
    simp only [hpc] at heq
    rw [heq]
    exact .inr ⟨rfl, rfl, .inl rfl⟩
  | timePop =>
    obtain ⟨slots, pc, hgo, rfl | rfl⟩ := timePop_eq s <;>
      simp only [hpc, hgo] at heq <;> rw [heq] <;> exact .inr ⟨rfl, rfl, .inl rfl⟩
  | timeSend =>
    obtain ⟨io, pc, hgo, -, ⟨rfl, -⟩ | ⟨last, rfl⟩⟩ := timeSend_eq s <;>
      simp only [hpc, hgo] at heq <;> rw [heq] <;> exact .inr ⟨rfl, rfl, .inl rfl⟩
  | timeFree last =>
    obtain ⟨slots, pc, hgo, rfl | rfl⟩ := timeFree_eq s last <;>
      simp only [hpc, hgo] at heq <;> rw [heq] <;> exact .inr ⟨rfl, rfl, .inl rfl⟩

/-- The logic thread sets a limit, or leaves the tables of the rate limit alone. -/
theorem step_logic_check (ha : a.thread = .logic) (hstep : step cfg s a = some s') :
    s'.pk = s.pk ∨ ∃ key second cnt, s.pk.setLimit key second cnt = some s'.pk := by
  cases a with
  | logic =>
    have heq := step_logic_eq hstep
    generalize s.sendPc = sendPc at heq
    generalize s.logicPc = logicPc at heq
    cases sendPc with
    | push => rw [heq]; exact .inl rfl
    | free => rw [heq]; exact .inl rfl
    | idle =>
      cases logicPc with
      | idle => rw [heq]; exact .inl rfl
      | sampledRecv cg => rw [heq]; exact .inl rfl
      | sampled cg gg =>
        obtain ⟨recv, pc, hgo⟩ := take_eq s cg gg
        simp only [hgo] at heq
        rw [heq]
        exact .inl rfl
      | handling => rw [heq]; exact .inl rfl
      | fault => exact heq.elim
  | send k proto_id written =>
    obtain ⟨-, hstep⟩ := Option.ite_none_right_eq_some.mp hstep
    obtain ⟨send, pc, heq⟩ := sendAlloc_eq s k proto_id written
    rw [← Option.some.inj hstep, heq]
    exact .inl rfl
  | setLimit key second cnt =>
    obtain ⟨-, hstep⟩ := Option.ite_none_right_eq_some.mp hstep
    obtain ⟨pk', hpk, rfl⟩ := Option.map_eq_some_iff.mp hstep
    exact .inr ⟨key, second, cnt, hpk⟩
  | _ => cases ha

/-- So does the io thread when it is called, and it has not read the clock then. -/
theorem step_call_check (ha : a.thread = .io) (hnot : ∀ now, a ≠ .io now)
    (hstep : step cfg s a = some s') : s'.pk = s.pk ∧ s'.ioPc.curTime = 0 := by
  cases a with
  | accept fd =>
    obtain ⟨⟨hidle, -⟩, hstep⟩ := Option.ite_none_right_eq_some.mp hstep
    obtain rfl := Option.some.inj hstep
    exact ⟨rfl, by rw [hidle]; rfl⟩
  | read be bytes =>
    obtain ⟨b, -, hidle, -, ⟨-, rfl⟩ | ⟨-, rfl⟩⟩ := step_read_eq hstep
    · exact ⟨rfl, by rw [hidle]; rfl⟩
    · rcases cbRead_cases cfg s be b bytes with
        ⟨-, reason, heq⟩ | ⟨-, heq⟩ | ⟨-, -, heq⟩ | ⟨-, e, -, heq⟩ <;> rw [heq]
      · exact ⟨rfl, rfl⟩
      · exact ⟨rfl, rfl⟩
      · exact ⟨rfl, rfl⟩
      · exact ⟨rfl, by rw [hidle]; rfl⟩
  | event be n =>
    obtain ⟨b, reason, -, -, rfl⟩ := step_event_eq hstep
    exact ⟨rfl, rfl⟩
  | tick =>
    obtain ⟨-, hstep⟩ := Option.ite_none_right_eq_some.mp hstep
    obtain rfl := Option.some.inj hstep
    exact ⟨rfl, rfl⟩
  | io now => exact absurd rfl (hnot now)
  | _ => cases ha

/-- A step calls `check_pk_limit` or `set_limit`, or leaves their tables alone. -/
theorem step_pk (hstep : step cfg s a = some s') : s'.pk = s.pk ∨ ∃ k, s'.pk = s.pk.call k := by
  cases hthread : a.thread with
  | logic =>
    rcases step_logic_check hthread hstep with heq | ⟨key, second, cnt, heq⟩
    · exact .inl heq
    · right
      refine ⟨.setLimit key second cnt, ?_⟩
      rw [PkLimit.call, heq]
      rfl
  | io =>
    by_cases hio : ∃ now, a = .io now
    case neg => exact .inl (step_call_check hthread (not_exists.mp hio) hstep).1
    obtain ⟨now, rfl⟩ := hio
    rcases step_io_check hstep with ⟨be, t, -, rfl⟩ | ⟨heq, -⟩
    · rcases s.readLoop_check be t now with ⟨heq, -⟩ | ⟨b, id, len, -, heq, -⟩
      · exact .inl heq
      · exact .inr ⟨.check _ b.fd id, heq⟩
    · exact .inl heq

/-- The tables of the rate limit are what calls of its two functions have made of them. -/
theorem run_pk {ok : ClientState → ClientAction → Prop} (run : Run cfg ok s) :
    ∃ calls, s.pk = PkLimit.init.after calls := by
  refine run.invariant (I := fun s => ∃ calls, s.pk = PkLimit.init.after calls) ⟨[], rfl⟩ ?_
  rintro s a s' - ⟨calls, hcalls⟩ - hstep
  rcases step_pk hstep with heq | ⟨k, heq⟩
  · exact ⟨calls, heq.trans hcalls⟩
  · refine ⟨calls ++ [k], ?_⟩
    rw [heq, hcalls, PkLimit.after_append]
    rfl

/-! ## A new connection -/

/-- A run has ended with `cb_listener`, which has registered a connection on `fd`. -/
def Listened (cfg : ClientConfig) (fd : ℤ) (s' : ClientState) : Prop :=
  ∃ s, Run cfg anyStep s ∧ step cfg s (.accept fd) = some s' ∧
    (s.io.table.fdAdd fd s.io.created).1 = true

/-- Two histories that end with a new connection on the same descriptor, under the same limits.
Packets that come on it from `now` on are accepted and refused alike in both exactly if the
descriptor is outside the table of the rate limit, or earlier clients have left the same of every
interval there. -/
theorem fresh_quota_iff {fd now : ℤ} {s₁ s₂ : ClientState} (h₁ : Listened cfg fd s₁)
    (h₂ : Listened cfg fd s₂) (hcnt : s₁.pk.cnt = s₂.pk.cnt) (hsecond : s₁.pk.second = s₂.pk.second)
    (hnow : 0 < now) :
    (∀ ps : List (ℤ × ℤ), (ps.map Prod.fst).Pairwise (· ≤ ·) → (∀ t ∈ ps.map Prod.fst, now ≤ t) →
        PkLimit.verdicts fd s₁.pk ps = PkLimit.verdicts fd s₂.pk ps) ↔
      PkLimit.fdMax ≤ fd ∨ PkLimit.SameLeft fd now s₁.pk s₂.pk := by
  have hafter : ∀ s, Listened cfg fd s → 0 ≤ fd ∧ s.pk.InRange ∧ s.pk.UnusedZero := by
    rintro s ⟨s₀, run, hstep, -⟩
    obtain ⟨⟨-, hfd, -⟩, -⟩ := Option.ite_none_right_eq_some.mp hstep
    obtain ⟨calls, hcalls⟩ := run_pk (run.next trivial hstep)
    rw [hcalls]
    have hzero : PkLimit.init.UnusedZero := fun _ _ _ => rfl
    exact ⟨hfd, PkLimit.init_inRange.after calls, hzero.after PkLimit.init_inRange calls⟩
  obtain ⟨hfd, hrange₁, hzero₁⟩ := hafter s₁ h₁
  obtain ⟨-, hrange₂, hzero₂⟩ := hafter s₂ h₂
  exact PkLimit.verdicts_eq_iff hrange₁ hrange₂ hzero₁ hzero₂ hcnt hsecond hfd hnow

/-- One packet of id `1` is allowed in a second. -/
def onePerSecond : List ClientAction :=
  [.setLimit 0x3FF0000000000000 0x408F400000000000 0x3FF0000000000000]

/-- A client connects on descriptor `5`, sends a packet at time `5000`, and hangs up. -/
def comesAndGoes : List ClientAction :=
  [.accept 5, .read 0 upgradeRequest, .read 0 emptyPacket, .io 5000, .io 5000, .io 5000, .io 5000,
    .event 0 0x11, .io 5000, .io 5000]

/-- The states before and after `cb_listener`, behind a list of actions. -/
def listens (cfg : ClientConfig) (fd : ℤ) (as : List ClientAction) :
    Option (ClientState × ClientState) :=
  (exec (step cfg) (init cfg) as).bind fun s => (step cfg s (.accept fd)).map fun s' => (s, s')

/-- A history with a new connection on descriptor `5`, and what this finds. -/
theorem exists_listened {as : List ClientAction} {cnt second : ℤ → ℤ} {start used : ℤ}
    (hlimits : (listens (smallConfig 4) 5 as).map (fun r => (r.2.pk.cnt, r.2.pk.second)) =
      some (cnt, second))
    (hfields : (listens (smallConfig 4) 5 as).map (fun r =>
        ((r.1.io.table.fdAdd 5 r.1.io.created).1, r.2.pk.last_time 5 1, r.2.pk.last_cnt 5 1)) =
      some (true, start, used)) :
    ∃ s, Listened (smallConfig 4) 5 s ∧ s.pk.cnt = cnt ∧ s.pk.second = second ∧
      s.pk.window 5 1 = ⟨start, used⟩ := by
  obtain ⟨⟨s, s'⟩, hr, hlimits⟩ := Option.map_eq_some_iff.mp hlimits
  rw [hr] at hfields
  obtain ⟨hadd, hwindow⟩ := Prod.mk.inj (Option.some.inj hfields)
  obtain ⟨rfl, rfl⟩ := Prod.mk.inj hwindow
  obtain ⟨hcnt, hsecond⟩ := Prod.mk.inj hlimits
  obtain ⟨s₀, hs₀, hr⟩ := Option.bind_eq_some_iff.mp hr
  obtain ⟨s₁, hs₁, hr⟩ := Option.map_eq_some_iff.mp hr
  obtain ⟨rfl, rfl⟩ := Prod.mk.inj hr
  exact ⟨s₁, ⟨s₀, reach_of_exec .start (execOk_any _ _ as) hs₀, hs₁, hadd⟩, hcnt, hsecond, rfl⟩

set_option maxRecDepth 10000 in
/-- What another connection on the descriptor finds after that client, and without it. -/
theorem exists_reused :
    (∃ s, Listened (smallConfig 4) 5 s ∧ s.pk.cnt = Function.update (fun _ => 0) 1 1 ∧
        s.pk.second = Function.update (fun _ => 0) 1 1000 ∧ s.pk.window 5 1 = ⟨5000, 1⟩) ∧
      ∃ s, Listened (smallConfig 4) 5 s ∧ s.pk.cnt = Function.update (fun _ => 0) 1 1 ∧
        s.pk.second = Function.update (fun _ => 0) 1 1000 ∧ s.pk.window 5 1 = ⟨0, 0⟩ := by
  have hused : (listens (smallConfig 4) 5 (onePerSecond ++ comesAndGoes)).map (fun r =>
      (r.2.pk.cnt, r.2.pk.second)) =
      some (Function.update (fun _ => 0) 1 1, Function.update (fun _ => 0) 1 1000) := by rfl
  have hfresh : (listens (smallConfig 4) 5 onePerSecond).map (fun r =>
      (r.2.pk.cnt, r.2.pk.second)) =
      some (Function.update (fun _ => 0) 1 1, Function.update (fun _ => 0) 1 1000) := by rfl
  exact ⟨exists_listened hused (by decide +kernel), exists_listened hfresh (by decide +kernel)⟩

/-- A second after the packet of the first client, its successor has the quota of a new one. -/
theorem fresh_quota_iff_later :
    ∃ s₁ s₂, Listened (smallConfig 4) 5 s₁ ∧ Listened (smallConfig 4) 5 s₂ ∧
      s₁.pk.window 5 1 ≠ s₂.pk.window 5 1 ∧
      ∀ ps : List (ℤ × ℤ), (ps.map Prod.fst).Pairwise (· ≤ ·) →
        (∀ t ∈ ps.map Prod.fst, 6000 ≤ t) →
        PkLimit.verdicts 5 s₁.pk ps = PkLimit.verdicts 5 s₂.pk ps := by
  obtain ⟨⟨s₁, h₁, hcnt₁, hsecond₁, hwindow₁⟩, s₂, h₂, hcnt₂, hsecond₂, hwindow₂⟩ := exists_reused
  have hleft : PkLimit.SameLeft 5 6000 s₁.pk s₂.pk := by
    rintro id ⟨-, hpos, -⟩
    rw [hcnt₁] at hpos
    by_cases hid : id = 1
    · rw [hid, hsecond₁, hwindow₁, hwindow₂]
      exact .inl ⟨by decide, by decide⟩
    · rw [Function.update_of_ne hid] at hpos
      exact absurd hpos (lt_irrefl 0)
  refine ⟨s₁, s₂, h₁, h₂, ?_, ?_⟩
  · rw [hwindow₁, hwindow₂]
    exact fun heq => absurd (congrArg Window.start heq) (by decide)
  · exact (fresh_quota_iff h₁ h₂ (hcnt₁.trans hcnt₂.symm) (hsecond₁.trans hsecond₂.symm)
      (by decide)).mpr (.inr hleft)

/-- Within that second it is refused what a new client is allowed. -/
theorem fresh_quota_iff_reused :
    ∃ s₁ s₂, Listened (smallConfig 4) 5 s₁ ∧ Listened (smallConfig 4) 5 s₂ ∧
      s₁.pk.cnt = s₂.pk.cnt ∧ s₁.pk.second = s₂.pk.second ∧
      PkLimit.verdicts 5 s₁.pk [(5001, 1)] = [false] ∧
      PkLimit.verdicts 5 s₂.pk [(5001, 1)] = [true] := by
  obtain ⟨⟨s₁, h₁, hcnt₁, hsecond₁, hwindow₁⟩, s₂, h₂, hcnt₂, hsecond₂, hwindow₂⟩ := exists_reused
  refine ⟨s₁, s₂, h₁, h₂, hcnt₁.trans hcnt₂.symm, hsecond₁.trans hsecond₂.symm, ?_, ?_⟩
  · obtain ⟨hstart, hused⟩ := Window.mk.inj hwindow₁
    rw [PkLimit.verdicts, PkLimit.verdicts, PkLimit.checkPkLimit, hcnt₁, hsecond₁, hstart, hused]
    rfl
  · obtain ⟨hstart, hused⟩ := Window.mk.inj hwindow₂
    rw [PkLimit.verdicts, PkLimit.verdicts, PkLimit.checkPkLimit, hcnt₂, hsecond₂, hstart, hused]
    rfl

end ClientState

end Catse
