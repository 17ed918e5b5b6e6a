import Catse.Lib.Windows
import Catse.Logic.PkLimit
import Mathlib.Data.List.Induction

/-!
# What the rate limit of `pk_limit.h` allows

The interval that `check_pk_limit` keeps for a descriptor and an id is a window (`PkLimit.window`)
that starts at an accepted packet, and a check of a limited id is a call of it (`check_eq_call`). So
at most twice `cnt` packets are accepted in any interval of `second` milliseconds, and a packet is
refused only when `cnt` others have been accepted since less than that ago (`rate_limit`).

The calls come in any order, for all descriptors and ids, and `set_limit` between them.
-/

namespace Catse

/-- A call of `check_pk_limit`, or of `set_limit` by a script. -/
inductive PkCall where
  | check (cur_time fd id : ℤ)
  | setLimit (key second cnt : Double)

namespace PkLimit

/-- The tables after a call. A call of `set_limit` that raises an error has changed nothing. -/
def call (l : PkLimit) : PkCall → PkLimit
  | .check cur_time fd id => (l.checkPkLimit cur_time fd id).2
  | .setLimit key second cnt => (l.setLimit key second cnt).getD l

/-- The tables after some calls. -/
def after (l : PkLimit) (calls : List PkCall) : PkLimit := calls.foldl call l

/-- The times of the checks for `fd` and `id`. -/
def checked (fd id : ℤ) : List PkCall → List ℤ
  | [] => []
  | .check t fd' id' :: calls => if fd' = fd ∧ id' = id then t :: checked fd id calls
      else checked fd id calls
  | .setLimit _ _ _ :: calls => checked fd id calls

/-- The times of those that return `err_ok`. -/
def accepted (fd id : ℤ) (l : PkLimit) : List PkCall → List ℤ
  | [] => []
  | .check t fd' id' :: calls =>
    if (fd' = fd ∧ id' = id) ∧ (l.checkPkLimit t fd id).1 = .ok then
      t :: accepted fd id (l.call (.check t fd' id')) calls
    else accepted fd id (l.call (.check t fd' id')) calls
  | .setLimit key second cnt :: calls =>
    accepted fd id (l.call (.setLimit key second cnt)) calls

/-- The calls other than checks for other descriptors or ids. -/
def concerns (fd id : ℤ) : PkCall → Bool
  | .check _ fd' id' => fd' = fd ∧ id' = id
  | .setLimit _ _ _ => true

/-- The limit of `id` is `c` packets in `s` milliseconds before the calls and after each. -/
def Held (id c s : ℤ) (l : PkLimit) : List PkCall → Prop
  | [] => l.cnt id = c ∧ l.second id = s
  | k :: calls => (l.cnt id = c ∧ l.second id = s) ∧ Held id c s (l.call k) calls

/-- The interval that is kept for `fd` and `id`. -/
def window (l : PkLimit) (fd id : ℤ) : Window ℤ := ⟨l.last_time fd id, l.last_cnt fd id⟩

/-- No entry of the tables is out of its range. -/
structure InRange (l : PkLimit) : Prop where
  cnt_le : ∀ id, l.cnt id ≤ 127
  used : ∀ fd id, 0 ≤ l.last_cnt fd id ∧ l.last_cnt fd id ≤ 127

variable {l : PkLimit} {fd id c s t : ℤ} {calls : List PkCall}

/-! ## A check -/

/-- What a check does: it refuses, or accepts without counting, and changes nothing, or it finds a
limit and calls the window. -/
theorem checkPkLimit_cases (l : PkLimit) (t fd id : ℤ) :
    ((l.checkPkLimit t fd id).2 = l ∧ (l.checkPkLimit t fd id).1 ≠ .too_fast ∧
        ¬((0 ≤ fd ∧ fd < fdMax) ∧ (0 ≤ id ∧ id < idMax) ∧ 0 < l.cnt id ∧ 0 < l.second id)) ∨
      (((0 ≤ fd ∧ fd < fdMax) ∧ (0 ≤ id ∧ id < idMax) ∧ 0 < l.cnt id ∧ 0 < l.second id) ∧
        l.checkPkLimit t fd id =
          if t < l.last_time fd id + l.second id ∧ l.cnt id ≤ l.last_cnt fd id then (.too_fast, l)
          else (.ok, { l with
            last_time := if l.last_time fd id + l.second id ≤ t then
                Function.update l.last_time fd (Function.update (l.last_time fd) id t)
              else l.last_time
            last_cnt := Function.update l.last_cnt fd (Function.update (l.last_cnt fd) id
              (toChar ((if l.last_time fd id + l.second id ≤ t then 0 else l.last_cnt fd id) +
                1))) })) := by
  rw [checkPkLimit]
  by_cases hfd : 0 ≤ fd ∧ fd < fdMax
  case neg =>
    rw [if_pos hfd]
    exact .inl ⟨rfl, nofun, fun h => hfd h.1⟩
  by_cases hid : 0 ≤ id ∧ id < idMax
  case neg =>
    rw [if_neg (not_not.mpr hfd), if_pos hid]
    exact .inl ⟨rfl, nofun, fun h => hid h.2.1⟩
  rw [if_neg (not_not.mpr hfd), if_neg (not_not.mpr hid)]
  by_cases hcnt : l.cnt id ≤ 0
  · rw [if_pos hcnt]
    exact .inl ⟨rfl, nofun, fun h => absurd h.2.2.1 (not_lt.mpr hcnt)⟩
  rw [if_neg hcnt]
  by_cases hsecond : l.second id ≤ 0
  · rw [if_pos hsecond]
    exact .inl ⟨rfl, nofun, fun h => absurd h.2.2.2 (not_lt.mpr hsecond)⟩
  rw [if_neg hsecond]
  exact .inr ⟨⟨hfd, hid, not_le.mp hcnt, not_le.mp hsecond⟩, rfl⟩

/-- The limits are set by `set_limit` alone. -/
theorem check_limits (l : PkLimit) (t fd id : ℤ) :
    (l.checkPkLimit t fd id).2.cnt = l.cnt ∧ (l.checkPkLimit t fd id).2.second = l.second := by
  rcases l.checkPkLimit_cases t fd id with ⟨heq, -⟩ | ⟨-, heq⟩
  · rw [heq]
    exact ⟨rfl, rfl⟩
  · rw [heq]
    split_ifs <;> exact ⟨rfl, rfl⟩

/-- A check for another descriptor or id leaves the window as it is. -/
theorem check_window_of_ne {fd' id' : ℤ} (h : ¬(fd' = fd ∧ id' = id)) :
    (l.checkPkLimit t fd' id').2.window fd id = l.window fd id := by
  have hupdate : ∀ (f : ℤ → ℤ → ℤ) (n : ℤ),
      Function.update f fd' (Function.update (f fd') id' n) fd id = f fd id := by
    intro f n
    by_cases hfd : fd = fd'
    · subst hfd
      have hid : id ≠ id' := fun hid => h ⟨rfl, hid.symm⟩
      rw [Function.update_self, Function.update_of_ne hid]
    · rw [Function.update_of_ne hfd]
  rcases l.checkPkLimit_cases t fd' id' with ⟨heq, -⟩ | ⟨-, heq⟩
  · rw [heq]
  · rw [heq]
    unfold window
    split_ifs with hfull hover
    · rfl
    · simp only [hupdate]
    · simp only [hupdate]

/-- A check of a limited id calls the window. -/
theorem check_eq_call (hl : l.InRange) (hfd : 0 ≤ fd ∧ fd < fdMax) (hid : 0 ≤ id ∧ id < idMax)
    (hc : 0 < l.cnt id) (hs : 0 < l.second id) (t : ℤ) :
    (l.checkPkLimit t fd id).1 =
        (if ((l.window fd id).call (l.cnt id) (l.second id) t).1 then .ok else .too_fast) ∧
      (l.checkPkLimit t fd id).2.window fd id =
        ((l.window fd id).call (l.cnt id) (l.second id) t).2 := by
  rcases l.checkPkLimit_cases t fd id with ⟨-, -, hnot⟩ | ⟨-, heq⟩
  · exact absurd ⟨hfd, hid, hc, hs⟩ hnot
  have hcnt := hl.cnt_le id
  have hused := hl.used fd id
  rcases (l.window fd id).call_cases (l.cnt id) (l.second id) t with
    ⟨hover, hw⟩ | ⟨hopen, hfull, hw⟩ | ⟨hopen, hroom, hw⟩ <;> rw [heq, hw]
  · change l.last_time fd id + l.second id ≤ t at hover
    rw [if_neg fun h => absurd h.1 (not_lt.mpr hover), if_pos hover, if_pos hover]
    refine ⟨rfl, ?_⟩
    unfold window
    simp only [Function.update_self, zero_add]
    rfl
  · change t < l.last_time fd id + l.second id at hopen
    change l.cnt id ≤ l.last_cnt fd id at hfull
    rw [if_pos ⟨hopen, hfull⟩]
    exact ⟨rfl, rfl⟩
  · change t < l.last_time fd id + l.second id at hopen
    change l.last_cnt fd id < l.cnt id at hroom
    -- The counter stays below the limit, and so in the range of a `char`.
    have hchar : toChar (l.last_cnt fd id + 1) = l.last_cnt fd id + 1 :=
      toChar_of_range (by omega)
    rw [if_neg fun h => absurd h.2 (not_le.mpr hroom), if_neg (not_le.mpr hopen),
      if_neg (not_le.mpr hopen), hchar]
    refine ⟨rfl, ?_⟩
    unfold window
    simp only [Function.update_self]

/-! ## Calls -/

theorem setLimit_getD_window (l : PkLimit) (key second cnt : Double) (fd id : ℤ) :
    ((l.setLimit key second cnt).getD l).window fd id = l.window fd id := by
  unfold setLimit
  split_ifs <;> rfl

/-- What a call does to one window: it leaves it, or it is a check of a limited id, and calls it. -/
theorem window_call_cases (hl : l.InRange) (k : PkCall) (fd id : ℤ) :
    (l.call k).window fd id = l.window fd id ∨
      ∃ t, k = .check t fd id ∧ 0 < l.cnt id ∧
        (l.checkPkLimit t fd id).1 =
          (if ((l.window fd id).call (l.cnt id) (l.second id) t).1 then .ok else .too_fast) ∧
        (l.call k).window fd id = ((l.window fd id).call (l.cnt id) (l.second id) t).2 := by
  cases k with
  | setLimit key second cnt => exact .inl (l.setLimit_getD_window key second cnt fd id)
  | check t fd' id' =>
    by_cases hsame : fd' = fd ∧ id' = id
    case neg => exact .inl (check_window_of_ne hsame)
    obtain ⟨rfl, rfl⟩ := hsame
    rcases l.checkPkLimit_cases t fd' id' with ⟨heq, -⟩ | ⟨⟨hfd, hid, hc, hs⟩, -⟩
    · exact .inl (congrArg (PkLimit.window · fd' id') heq)
    · exact .inr ⟨t, rfl, hc, check_eq_call hl hfd hid hc hs t⟩

theorem cnt_call_le (h : ∀ id, l.cnt id ≤ 127) (k : PkCall) (id : ℤ) : (l.call k).cnt id ≤ 127 := by
  cases k with
  | check t fd id' =>
    show (l.checkPkLimit t fd id').2.cnt id ≤ 127
    rw [(l.check_limits t fd id').1]
    exact h id
  | setLimit key second cnt =>
    have hchar := cnt.castChar_range
    show ((l.setLimit key second cnt).getD l).cnt id ≤ 127
    rw [setLimit]
    by_cases hkey : 0 ≤ key.castShort ∧ key.castShort < idMax
    · rw [if_neg (not_not.mpr hkey)]
      show Function.update l.cnt key.castShort cnt.castChar id ≤ 127
      by_cases hid : id = key.castShort
      · rw [hid, Function.update_self]
        omega
      · rw [Function.update_of_ne hid]
        exact h id
    · rw [if_pos hkey]
      exact h id

/-- The entries stay in their ranges. -/
theorem InRange.call (h : l.InRange) (k : PkCall) : (l.call k).InRange := by
  refine ⟨cnt_call_le h.cnt_le k, fun fd id => ?_⟩
  have hused : 0 ≤ (l.window fd id).used ∧ (l.window fd id).used ≤ 127 := h.used fd id
  show 0 ≤ ((l.call k).window fd id).used ∧ ((l.call k).window fd id).used ≤ 127
  rcases window_call_cases h k fd id with heq | ⟨t, -, -, -, heq⟩ <;> rw [heq]
  · exact hused
  · have hle := h.cnt_le id
    rcases (l.window fd id).call_cases (l.cnt id) (l.second id) t with
      ⟨-, hw⟩ | ⟨-, -, hw⟩ | ⟨-, hroom, hw⟩ <;> rw [hw]
    · exact ⟨zero_le_one, by norm_num⟩
    · exact hused
    · dsimp only
      omega

theorem init_inRange : init.InRange :=
  ⟨fun _ => by norm_num [init], fun _ _ => by norm_num [init]⟩

theorem after_append (l : PkLimit) (h calls : List PkCall) :
    l.after (h ++ calls) = (l.after h).after calls :=
  List.foldl_append

/-- After any calls the entries are in their ranges. -/
theorem InRange.after (h : l.InRange) (calls : List PkCall) : (l.after calls).InRange := by
  induction calls generalizing l with
  | nil => exact h
  | cons k calls ih => exact ih (h.call k)

theorem checked_append (fd id : ℤ) (h calls : List PkCall) :
    checked fd id (h ++ calls) = checked fd id h ++ checked fd id calls := by
  induction h with
  | nil => rfl
  | cons k h ih =>
    cases k with
    | check t fd' id' =>
      rw [List.cons_append, checked, checked, ih]
      split_ifs <;> rfl
    | setLimit key second cnt => exact ih

theorem accepted_append (fd id : ℤ) (l : PkLimit) (h calls : List PkCall) :
    accepted fd id l (h ++ calls) = accepted fd id l h ++ accepted fd id (l.after h) calls := by
  induction h generalizing l with
  | nil => rfl
  | cons k h ih =>
    cases k with
    | check t fd' id' =>
      rw [List.cons_append, accepted, accepted, ih]
      split_ifs <;> rfl
    | setLimit key second cnt => exact ih _

theorem Held.middle {before rest : List PkCall} (held : Held id c s l (before ++ rest)) :
    (l.after before).cnt id = c ∧ (l.after before).second id = s := by
  induction before generalizing l with
  | nil =>
    cases rest with
    | nil => exact held
    | cons k rest => exact held.1
  | cons k before ih => exact ih held.2

/-- Under a limit that is held, the accepted times are those of the window. -/
theorem accepted_eq_admitted (hl : l.InRange) (hfd : 0 ≤ fd ∧ fd < fdMax)
    (hid : 0 ≤ id ∧ id < idMax) (hc : 0 < c) (hs : 0 < s) (held : Held id c s l calls) :
    accepted fd id l calls = (l.window fd id).admitted c s (checked fd id calls) := by
  induction calls generalizing l with
  | nil => rfl
  | cons k calls ih =>
    obtain ⟨⟨hcnt, hsecond⟩, hrest⟩ := held
    have hnext := ih (hl.call k) hrest
    cases k with
    | check t fd' id' =>
      rw [accepted, checked, hnext]
      by_cases hsame : fd' = fd ∧ id' = id
      · obtain ⟨rfl, rfl⟩ := hsame
        obtain ⟨hok, hwindow⟩ := check_eq_call hl hfd hid (hcnt ▸ hc) (hsecond ▸ hs) t
        rw [hcnt, hsecond] at hok hwindow
        have hself : fd' = fd' ∧ id' = id' := ⟨rfl, rfl⟩
        rw [if_pos hself, Window.admitted, PkLimit.call, hwindow, hok]
        cases ((l.window fd' id').call c s t).1 with
        | true => simp
        | false => simp
      · rw [if_neg fun h => hsame h.1, if_neg hsame, PkLimit.call, check_window_of_ne hsame]
    | setLimit key second cnt =>
      rw [accepted, checked, hnext, PkLimit.call, setLimit_getD_window]

/-! ## Why a check is refused -/

/-- The interval starts at zero or at a check, and the packets that it counts have been accepted
since then. -/
structure Counts (w : Window ℤ) (checks oks : List ℤ) : Prop where
  start : w.start = 0 ∨ w.start ∈ checks
  used : w.used ≤ (oks.filter (w.start ≤ ·)).length

section Counts

variable {w : Window ℤ} {checks oks : List ℤ}

theorem Counts.append (h : Counts w checks oks) (checks' oks' : List ℤ) :
    Counts w (checks ++ checks') (oks ++ oks') := by
  refine ⟨h.start.imp_right (List.mem_append_left _), ?_⟩
  rw [List.filter_append, List.length_append]
  push_cast
  exact h.used.trans (le_add_of_nonneg_right (Int.natCast_nonneg _))

theorem Counts.start_le (h : Counts w checks oks) (hpos : 0 ≤ t) (hlast : ∀ t' ∈ checks, t' ≤ t) :
    w.start ≤ t := by
  rcases h.start with hzero | hmem
  · rwa [hzero]
  · exact hlast _ hmem

theorem length_filter_snoc {a : ℤ} (h : a ≤ t) (ts : List ℤ) :
    (((ts ++ [t]).filter (a ≤ ·)).length : ℤ) = (ts.filter (a ≤ ·)).length + 1 := by
  simp [h]

/-- A call at a time that is not before the others. -/
theorem Counts.call (h : Counts w checks oks) (hpos : 0 ≤ t) (hlast : ∀ t' ∈ checks, t' ≤ t)
    (c s : ℤ) :
    Counts (w.call c s t).2 (checks ++ [t]) (oks ++ if (w.call c s t).1 then [t] else []) := by
  rcases w.call_cases c s t with ⟨-, hw⟩ | ⟨-, -, hw⟩ | ⟨-, -, hw⟩ <;> rw [hw]
  · refine ⟨.inr (List.mem_append_right _ (List.mem_singleton_self t)), ?_⟩
    rw [if_pos rfl, length_filter_snoc le_rfl]
    exact le_add_of_nonneg_left (Int.natCast_nonneg _)
  · exact h.append [t] _
  · refine ⟨h.start.imp_right (List.mem_append_left _), ?_⟩
    rw [if_pos rfl, length_filter_snoc (h.start_le hpos hlast)]
    exact add_le_add_left h.used 1

end Counts

/-- After any calls the window counts what has been accepted. -/
theorem counts_after (hsorted : (checked fd id calls).Pairwise (· ≤ ·))
    (hpos : ∀ t ∈ checked fd id calls, 0 ≤ t) :
    Counts ((init.after calls).window fd id) (checked fd id calls) (accepted fd id init calls) := by
  induction calls using List.reverseRecOn with
  | nil => exact ⟨.inl rfl, le_rfl⟩
  | append_singleton calls k ih =>
    rw [checked_append] at hsorted hpos ⊢
    obtain ⟨hsorted, -, hlast⟩ := List.pairwise_append.mp hsorted
    have hcounts := ih hsorted fun t ht => hpos t (List.mem_append_left _ ht)
    have hrange : (init.after calls).InRange := init_inRange.after calls
    rw [accepted_append, after_append]
    generalize init.after calls = l at hcounts hrange ⊢
    show Counts ((l.call k).window fd id) _ _
    rcases window_call_cases hrange k fd id with heq | ⟨t, rfl, -, hok, heq⟩ <;> rw [heq]
    · exact hcounts.append _ _
    have htimes : checked fd id [.check t fd id] = [t] := if_pos ⟨rfl, rfl⟩
    have hones : accepted fd id l [.check t fd id] =
        if ((l.window fd id).call (l.cnt id) (l.second id) t).1 then [t] else [] := by
      rw [accepted, accepted, hok]
      cases ((l.window fd id).call (l.cnt id) (l.second id) t).1 with
      | true => exact if_pos ⟨⟨rfl, rfl⟩, rfl⟩
      | false => exact if_neg fun h => by cases h.2
    rw [htimes] at hlast hpos ⊢
    rw [hones]
    exact hcounts.call (hpos t (List.mem_append_right _ (List.mem_singleton_self t)))
      (fun t' ht' => hlast t' ht' t (List.mem_singleton_self t)) _ _

/-! ## Other descriptors and ids -/

/-- The tables agree on what checks for `fd` and `id` look at. -/
structure Agree (fd id : ℤ) (l l' : PkLimit) : Prop where
  cnt : l.cnt = l'.cnt
  second : l.second = l'.second
  window : l.window fd id = l'.window fd id

theorem Agree.check {l' : PkLimit} (h : Agree fd id l l') (t : ℤ) :
    (l.checkPkLimit t fd id).1 = (l'.checkPkLimit t fd id).1 ∧
      Agree fd id (l.checkPkLimit t fd id).2 (l'.checkPkLimit t fd id).2 := by
  have hstart : l.last_time fd id = l'.last_time fd id := congrArg Window.start h.window
  have hused : l.last_cnt fd id = l'.last_cnt fd id := congrArg Window.used h.window
  obtain ⟨hcnt, hsecond⟩ := l.check_limits t fd id
  obtain ⟨hcnt', hsecond'⟩ := l'.check_limits t fd id
  have hcases := l'.checkPkLimit_cases t fd id
  rw [← h.cnt, ← h.second, ← hstart, ← hused] at hcases
  rcases l.checkPkLimit_cases t fd id with ⟨heq, -, hnot⟩ | ⟨hlimit, heq⟩
  · rcases hcases with ⟨heq', -⟩ | ⟨hlimit, -⟩
    case inr => exact absurd hlimit hnot
    refine ⟨?_, by rw [heq, heq']; exact h⟩
    simp only [checkPkLimit, h.cnt, h.second, hstart, hused]
    split_ifs <;> rfl
  · rcases hcases with ⟨-, -, hnot⟩ | ⟨-, heq'⟩
    · exact absurd hlimit hnot
    refine ⟨?_, hcnt.trans (h.cnt.trans hcnt'.symm), hsecond.trans (h.second.trans hsecond'.symm),
      ?_⟩
    · rw [heq, heq']
      split_ifs <;> rfl
    · rw [heq, heq']
      split_ifs
      · exact h.window
      · simp only [PkLimit.window, Function.update_self]
      · simp only [PkLimit.window, Function.update_self, hstart]

theorem Agree.call {l' : PkLimit} (h : Agree fd id l l') (k : PkCall) :
    Agree fd id (l.call k) (l'.call k) := by
  cases k with
  | check t fd' id' =>
    by_cases hsame : fd' = fd ∧ id' = id
    · obtain ⟨rfl, rfl⟩ := hsame
      exact (h.check t).2
    · obtain ⟨hcnt, hsecond⟩ := l.check_limits t fd' id'
      obtain ⟨hcnt', hsecond'⟩ := l'.check_limits t fd' id'
      refine ⟨hcnt.trans (h.cnt.trans hcnt'.symm), hsecond.trans (h.second.trans hsecond'.symm),
        ?_⟩
      exact (check_window_of_ne hsame).trans (h.window.trans (check_window_of_ne hsame).symm)
  | setLimit key second cnt =>
    obtain ⟨hcnt, hsecond, hwindow⟩ := h
    by_cases hkey : ¬(0 ≤ key.castShort ∧ key.castShort < idMax)
    · simp only [PkLimit.call, PkLimit.setLimit, if_pos hkey]
      exact ⟨hcnt, hsecond, hwindow⟩
    · simp only [PkLimit.call, PkLimit.setLimit, if_neg hkey]
      exact ⟨congrArg (Function.update · _ _) hcnt, congrArg (Function.update · _ _) hsecond,
        hwindow⟩

/-- A check for another descriptor or id leaves what the others look at. -/
theorem agree_check_of_ne {fd' id' : ℤ} (h : ¬(fd' = fd ∧ id' = id)) (t : ℤ) :
    Agree fd id (l.checkPkLimit t fd' id').2 l :=
  ⟨(l.check_limits t fd' id').1, (l.check_limits t fd' id').2, check_window_of_ne h⟩

/-- The checks for other descriptors and ids make no difference. -/
theorem accepted_filter {l' : PkLimit} (h : Agree fd id l l') (calls : List PkCall) :
    accepted fd id l calls = accepted fd id l' (calls.filter (concerns fd id)) := by
  induction calls generalizing l l' with
  | nil => rfl
  | cons k calls ih =>
    cases k with
    | check t fd' id' =>
      by_cases hsame : fd' = fd ∧ id' = id
      · have hmine : concerns fd id (.check t fd' id') = true := decide_eq_true hsame
        rw [List.filter_cons_of_pos hmine, accepted, accepted, (h.check t).1, ih (h.call _)]
      · have hother : ¬concerns fd id (.check t fd' id') = true := by
          rw [concerns, decide_eq_true_eq]
          exact hsame
        rw [List.filter_cons_of_neg hother, accepted, if_neg fun hok => hsame hok.1]
        have hleft := agree_check_of_ne (l := l) hsame t
        exact ih ⟨hleft.cnt.trans h.cnt, hleft.second.trans h.second, hleft.window.trans h.window⟩
    | setLimit key second cnt =>
      rw [List.filter_cons_of_pos rfl, accepted, accepted]
      exact ih (h.call _)

/-! ## The rate limit -/

/-- The calls `calls` come after `h`, and hold the limit of `id` at `c` packets in `s` milliseconds.
At most `2 * c` packets are accepted in any interval of `s` milliseconds. Where the times count
from 1970, a packet is refused as too fast only if `c` others have been accepted since a moment less
than `s` earlier. Other packets change nothing, and whatever the calls, no counter leaves the range
of a `char`. -/
theorem rate_limit {h : List PkCall} (hfd : 0 ≤ fd ∧ fd < fdMax) (hid : 0 ≤ id ∧ id < idMax)
    (hc : 1 ≤ c) (hs : 0 < s) (held : Held id c s (init.after h) calls)
    (hsorted : (checked fd id (h ++ calls)).Pairwise (· ≤ ·)) :
    (∀ a, (((accepted fd id (init.after h) calls).filter
        fun t => a ≤ t ∧ t < a + s).length : ℤ) ≤ 2 * c) ∧
      ((∀ t ∈ checked fd id (h ++ calls), 0 ≤ t) →
        ∀ before t rest, calls = before ++ .check t fd id :: rest →
          ((init.after (h ++ before)).checkPkLimit t fd id).1 = .too_fast →
            ∃ m, t - s < m ∧ m ≤ t ∧
              c ≤ ((accepted fd id init (h ++ before)).filter (m ≤ ·)).length) ∧
      (∀ l calls, accepted fd id l calls = accepted fd id l (calls.filter (concerns fd id))) ∧
      ∀ calls fd id,
        0 ≤ (init.after calls).last_cnt fd id ∧ (init.after calls).last_cnt fd id ≤ 127 := by
  refine ⟨fun a => ?_, ?_, fun l calls => accepted_filter ⟨rfl, rfl, rfl⟩ calls,
    fun calls fd id => (init_inRange.after calls).used fd id⟩
  · have hrange := init_inRange.after h
    rw [checked_append] at hsorted
    rw [accepted_eq_admitted hrange hfd hid (by omega) hs held]
    exact Window.length_admitted_le hc (hrange.used fd id).1 (List.pairwise_append.mp hsorted).2.1 a
  · rintro hpos before t rest rfl hrefused
    have htimes : checked fd id (h ++ (before ++ .check t fd id :: rest)) =
        checked fd id (h ++ before) ++ t :: checked fd id rest := by
      rw [← List.append_assoc, checked_append, checked, if_pos ⟨rfl, rfl⟩]
    rw [htimes] at hsorted hpos
    obtain ⟨hsorted, -, hlast⟩ := List.pairwise_append.mp hsorted
    have hcounts := counts_after hsorted fun t' ht' => hpos t' (List.mem_append_left _ ht')
    obtain ⟨hcnt, hsecond⟩ := held.middle
    rw [← after_append] at hcnt hsecond
    have hrange := init_inRange.after (h ++ before)
    obtain ⟨hok, -⟩ := check_eq_call hrange hfd hid (by omega) (by omega) t
    rw [hcnt, hsecond, hrefused] at hok
    obtain ⟨hopen, hfull⟩ := Window.of_refused (c := c) (s := s) (t := t)
      (w := (init.after (h ++ before)).window fd id) (by
        by_contra haccept
        rw [if_pos (Bool.eq_true_of_not_eq_false haccept)] at hok
        cases hok)
    -- The moment is the start of the interval, which is not over.
    refine ⟨((init.after (h ++ before)).window fd id).start, sub_lt_iff_lt_add.mpr hopen, ?_,
      hfull.trans hcounts.used⟩
    exact hcounts.start_le (hpos t (List.mem_append_right _ List.mem_cons_self))
      fun t' ht' => hlast t' ht' t List.mem_cons_self

/-- Two packets in a second are allowed, and the third is refused. -/
theorem rate_limit_third :
    let h : List PkCall := [.setLimit 0x3FF0000000000000 0x408F400000000000 0x4000000000000000]
    let calls : List PkCall := [.check 5000 7 1, .check 5001 8 1, .check 5002 7 1, .check 5003 7 1]
    (∀ a, (((accepted 7 1 (init.after h) calls).filter
        fun t => a ≤ t ∧ t < a + 1000).length : ℤ) ≤ 2 * 2) ∧
      ((init.after (h ++ calls.take 3)).checkPkLimit 5003 7 1).1 = .too_fast ∧
      ∃ m, 5003 - 1000 < m ∧ m ≤ 5003 ∧
        (2 : ℤ) ≤ ((accepted 7 1 init (h ++ calls.take 3)).filter (m ≤ ·)).length := by
  intro h calls
  have held : Held 1 2 1000 (init.after h) calls := by
    simp only [calls, Held]
    decide +kernel
  have hrefused : ((init.after (h ++ calls.take 3)).checkPkLimit 5003 7 1).1 = .too_fast := by
    decide +kernel
  have hfd : 0 ≤ (7 : ℤ) ∧ (7 : ℤ) < fdMax := by decide
  obtain ⟨hbound, hwhy, -⟩ := rate_limit hfd (by decide) (by decide) (by decide) held (by decide)
  exact ⟨hbound, hrefused, hwhy (by decide) (calls.take 3) 5003 [] rfl hrefused⟩

end PkLimit

end Catse
