import Catse.Lib.Bytes
import Mathlib.Data.Finset.Card
import Mathlib.Data.List.Nodup
import Mathlib.Logic.Function.Basic

/-!
# The log files of `thread_log.h`

`reg` gives a log name the index of its entry in `li`, and `update_file` puts a suffix behind the
name that the entry has stored. `reg` takes an entry for that of its name when the buffer begins
with the name, whether the buffer holds this name, a longer one, or a shorter one with its suffix.

The entry of a name always begins with it, so a name that comes again is found there or before. In a
run the ids tell the names apart exactly where the first entry that begins with a name is the one of
this name (`ids_eq_iff_names_eq`).
-/

namespace Catse

/-- `log_info`, with the 128 bytes of `filename`. -/
structure LogInfo where
  file : Bool
  filename : List UInt8
  filename_len : ℕ
  div_time : ℤ
  is_json : Bool
  last_time_div : ℤ
  head : List UInt8

/-- The part of `thread_log` that `reg` and `write` use. -/
structure LogTable where
  li : ℕ → LogInfo
  li_len : ℕ

namespace LogTable

/-- `".log"` with its NUL. -/
def log : List UInt8 := [46, 108, 111, 103, 0]

/-- `update_file`, where `strftime` gives `bufTime`. -/
def updateFile (curTime : ℤ) (bufTime : List UInt8) (t : LogInfo) : LogInfo :=
  if t.div_time = 0 then
    if t.file then t
    else if 128 < t.filename_len + log.length then t
    else { t with filename := overwrite t.filename t.filename_len log }
  else if curTime < toInt32 (t.last_time_div + t.div_time) then t
  else
    let t := { t with last_time_div := toInt32 curTime, file := false }
    if bufTime.length = 0 then t
    else if 128 < t.filename_len + bufTime.length + log.length then t
    else
      let filename := overwrite t.filename t.filename_len bufTime
      { t with filename := overwrite filename (t.filename_len + bufTime.length) log }

/-- The test `!memcmp(filename, li[i].filename, filename_len)`. -/
def begins (s : LogTable) (filename : List UInt8) (i : ℕ) : Bool :=
  decide ((s.li i).filename.take filename.length = filename)

/-- `reg`. The strings are without their NUL. -/
def reg (s : LogTable) (filename head : List UInt8) (divTime : ℤ) (isJson : Bool) : ℕ × LogTable :=
  if 256 ≤ s.li_len then (0, s)
  else if 128 < filename.length + 1 then (0, s)
  else
    match (List.range s.li_len).find? (s.begins filename) with
    | some i => (i, s)
    | none =>
      let info := s.li s.li_len
      let info := { info with
        filename := overwrite info.filename 0 (filename ++ [0])
        filename_len := filename.length }
      if 512 ≤ head.length then (0, { s with li := Function.update s.li s.li_len info })
      else
        let info := { info with head := head }
        if divTime < 0 then (0, { s with li := Function.update s.li s.li_len info })
        else
          let info := { info with div_time := divTime, is_json := isJson }
          (s.li_len,
            { s with li := Function.update s.li s.li_len info, li_len := s.li_len + 1 })

/-- The file is opened by `log_info::write`, if it can be. -/
def openFile (opens : Bool) (t : LogInfo) : LogInfo := { t with file := t.file || opens }

/-- What happens to the table: a call of `reg`, a line that is written to an entry, and the files
that are closed to be opened again. -/
inductive Event where
  | reg (filename head : List UInt8) (divTime : ℤ) (isJson : Bool)
  | write (id : ℕ) (curTime : ℤ) (bufTime : List UInt8) (opens : Bool)
  | hot

/-- The table after an event. A line for an id that is no index of `li` is dropped. -/
def step (s : LogTable) : Event → LogTable
  | .reg filename head divTime isJson => (s.reg filename head divTime isJson).2
  | .write id curTime bufTime opens =>
    if id < 256 then
      { s with
        li := Function.update s.li id (openFile opens (updateFile curTime bufTime (s.li id))) }
    else s
  | .hot => { s with li := fun i => if i < s.li_len then { s.li i with file := false } else s.li i }

/-- The table after a run. -/
def run (s : LogTable) (es : List Event) : LogTable := es.foldl step s

/-- The names that are given to `reg` in a run, each with the id that comes back. -/
def calls (s : LogTable) : List Event → List (List UInt8 × ℕ)
  | [] => []
  | .reg filename head divTime isJson :: es =>
    (filename, (s.reg filename head divTime isJson).1) ::
      calls (s.step (.reg filename head divTime isJson)) es
  | e :: es => calls (s.step e) es

/-- `li` before the first call: all zeros. -/
def init : LogTable := ⟨fun _ => ⟨false, List.replicate 128 0, 0, 0, false, 0, []⟩, 0⟩

/-- The name under which an entry has been registered. -/
def name (s : LogTable) (i : ℕ) : List UInt8 := (s.li i).filename.take (s.li i).filename_len

/-- A name that `reg` is called with, and a head and an interval that it takes. -/
def IsValid : Event → Prop
  | .reg filename head divTime _ =>
    filename ≠ [] ∧ filename.length ≤ 127 ∧ 0 ∉ filename ∧ head.length < 512 ∧ 0 ≤ divTime
  | _ => True

/-- The first entry that begins with a name that is registered is the one of this name. -/
def FindsOwn (s : LogTable) : Event → Prop
  | .reg filename _ _ _ =>
    ∀ i ∈ (List.range s.li_len).find? (s.begins filename), s.name i = filename
  | _ => True

instance : DecidablePred IsValid
  | .reg filename head divTime _ =>
    inferInstanceAs (Decidable (filename ≠ [] ∧ filename.length ≤ 127 ∧ 0 ∉ filename ∧
      head.length < 512 ∧ 0 ≤ divTime))
  | .write .. => .isTrue trivial
  | .hot => .isTrue trivial

instance (s : LogTable) : DecidablePred s.FindsOwn
  | .reg filename _ _ _ =>
    inferInstanceAs (Decidable (∀ i ∈ (List.range s.li_len).find? (s.begins filename),
      s.name i = filename))
  | .write .. => .isTrue trivial
  | .hot => .isTrue trivial

/-! ## One event -/

/-- The buffers have their size, and the names end in them. -/
def Sized (s : LogTable) : Prop :=
  ∀ i, (s.li i).filename.length = 128 ∧ (s.li i).filename_len < 128

theorem take_overwrite_of_le {buf bs : List UInt8} {off n : ℕ} (hn : n ≤ off)
    (h : off ≤ buf.length) : (overwrite buf off bs).take n = buf.take n := by
  rw [overwrite, List.append_assoc, List.take_append_of_le_length, List.take_take, min_eq_left hn]
  rw [List.length_take, min_eq_left h]
  exact hn

/-- `update_file` keeps the name and what is written behind it stays in the buffer. -/
theorem updateFile_keeps (curTime : ℤ) (bufTime : List UInt8) {t : LogInfo}
    (ht : t.filename.length = 128 ∧ t.filename_len < 128) :
    (updateFile curTime bufTime t).filename_len = t.filename_len ∧
      (updateFile curTime bufTime t).filename.length = 128 ∧
        (updateFile curTime bufTime t).filename.take t.filename_len =
          t.filename.take t.filename_len := by
  have hlog : log.length = 5 := rfl
  simp only [updateFile]
  split_ifs with h1 h2 h3 h4 h5 h6
  · exact ⟨rfl, ht.1, rfl⟩
  · exact ⟨rfl, ht.1, rfl⟩
  · exact ⟨rfl, (length_overwrite (by omega)).trans ht.1, take_overwrite_of_le le_rfl (by omega)⟩
  · exact ⟨rfl, ht.1, rfl⟩
  · exact ⟨rfl, ht.1, rfl⟩
  · exact ⟨rfl, ht.1, rfl⟩
  · have hlen : (overwrite t.filename t.filename_len bufTime).length = 128 :=
      (length_overwrite (by omega)).trans ht.1
    refine ⟨rfl, (length_overwrite (by omega)).trans hlen, ?_⟩
    rw [take_overwrite_of_le (by omega) (by omega), take_overwrite_of_le le_rfl (by omega)]

theorem length_name {s : LogTable} (hs : s.Sized) (i : ℕ) :
    (s.name i).length = (s.li i).filename_len := by
  have := hs i
  rw [name, List.length_take]
  omega

/-- An entry begins with the name under which it has been registered. -/
theorem begins_name {s : LogTable} (hs : s.Sized) (i : ℕ) : s.begins (s.name i) i = true := by
  rw [begins, length_name hs]
  exact decide_eq_true rfl

/-- An event other than a call of `reg` keeps the names. -/
theorem step_keeps {s : LogTable} (hs : s.Sized) {e : Event}
    (he : ∀ filename head divTime isJson, e ≠ .reg filename head divTime isJson) :
    (s.step e).li_len = s.li_len ∧ (s.step e).Sized ∧ ∀ i, (s.step e).name i = s.name i := by
  cases e with
  | reg filename head divTime isJson => exact absurd rfl (he filename head divTime isJson)
  | write id curTime bufTime opens =>
    rw [step]
    split_ifs with hid
    · obtain ⟨hlen, hsize, htake⟩ := updateFile_keeps curTime bufTime (hs id)
      refine ⟨rfl, fun i => ?_, fun i => ?_⟩
      · rcases eq_or_ne i id with rfl | hne
        · simp only [Function.update_self, openFile]
          exact ⟨hsize, hlen ▸ (hs i).2⟩
        · simp only [Function.update_of_ne hne]
          exact hs i
      · rcases eq_or_ne i id with rfl | hne
        · simp only [name, Function.update_self, openFile]
          rw [hlen]
          exact htake
        · simp only [name, Function.update_of_ne hne]
    · exact ⟨rfl, hs, fun i => rfl⟩
  | hot =>
    refine ⟨rfl, fun i => ?_, fun i => ?_⟩
    · simp only [step]
      split_ifs <;> exact hs i
    · simp only [step, name]
      split_ifs <;> rfl

/-- A call of `reg` gives back the first entry that begins with the name. -/
theorem reg_found {s : LogTable} {filename head : List UInt8} {divTime : ℤ} {isJson : Bool}
    (hroom : s.li_len < 256) (hlen : filename.length ≤ 127) {i : ℕ}
    (h : (List.range s.li_len).find? (s.begins filename) = some i) :
    s.reg filename head divTime isJson = (i, s) := by
  rw [reg, if_neg (by omega), if_neg (by omega), h]

/-- A call of `reg` where no entry begins with the name makes one. -/
theorem reg_new {s : LogTable} (hs : s.Sized) {filename head : List UInt8} {divTime : ℤ}
    {isJson : Bool} (hroom : s.li_len < 256)
    (hvalid : IsValid (.reg filename head divTime isJson))
    (h : (List.range s.li_len).find? (s.begins filename) = none) :
    (s.reg filename head divTime isJson).1 = s.li_len ∧
      (s.reg filename head divTime isJson).2.li_len = s.li_len + 1 ∧
        (s.reg filename head divTime isJson).2.Sized ∧
          (s.reg filename head divTime isJson).2.name s.li_len = filename ∧
            ∀ i, i ≠ s.li_len → (s.reg filename head divTime isJson).2.name i = s.name i := by
  obtain ⟨-, hlen, -, hhead, hdiv⟩ := hvalid
  have hsize := (hs s.li_len).1
  have hfit : 0 + (filename ++ [0]).length ≤ (s.li s.li_len).filename.length := by
    rw [hsize, List.length_append, List.length_singleton]
    omega
  rw [reg, if_neg (by omega), if_neg (by omega), h]
  simp only [if_neg (not_le.mpr hhead), if_neg (not_lt.mpr hdiv)]
  refine ⟨trivial, trivial, fun i => ?_, ?_, fun i hne => ?_⟩
  · rcases eq_or_ne i s.li_len with rfl | hne
    · simp only [Function.update_self]
      exact ⟨(length_overwrite hfit).trans hsize, by omega⟩
    · simp only [Function.update_of_ne hne]
      exact hs i
  · simp only [name, Function.update_self]
    rw [overwrite, List.take_zero, List.nil_append, List.append_assoc, List.take_left]
  · simp only [name, Function.update_of_ne hne]

/-! ## Runs -/

/-- What holds behind the calls `done`, whatever their ids: each entry has come from a call with its
name, and no two entries have one name. -/
structure Inv (s : LogTable) (done : List (List UInt8 × ℕ)) : Prop where
  sized : s.Sized
  entries : ∀ i < s.li_len, (s.name i, i) ∈ done
  distinct : ∀ i < s.li_len, ∀ j < s.li_len, s.name i = s.name j → i = j

/-- All calls have been given the entry of their name. -/
def Exact (s : LogTable) (done : List (List UInt8 × ℕ)) : Prop :=
  ∀ p ∈ done, p.2 < s.li_len ∧ s.name p.2 = p.1

/-- In a run each call of `reg` finds its own entry, if it finds one. -/
def RunFindsOwn (s : LogTable) : List Event → Prop
  | [] => True
  | e :: es => s.FindsOwn e ∧ RunFindsOwn (s.step e) es

/-- The names that are given to `reg` in a run. -/
def regNames : List Event → List (List UInt8)
  | [] => []
  | .reg filename _ _ _ :: es => filename :: regNames es
  | _ :: es => regNames es

/-- Two calls have the same id exactly if they have the same name. -/
def IdsTellNames (done : List (List UInt8 × ℕ)) : Prop :=
  ∀ p ∈ done, ∀ q ∈ done, p.2 = q.2 ↔ p.1 = q.1

/-- There are no more entries than names. -/
theorem Inv.li_len_le {s : LogTable} {done : List (List UInt8 × ℕ)} (h : s.Inv done) :
    s.li_len ≤ (done.map Prod.fst).toFinset.card := by
  have hinj : Set.InjOn s.name (Finset.range s.li_len) := fun i hi j hj hij =>
    h.distinct i (Finset.mem_range.mp hi) j (Finset.mem_range.mp hj) hij
  calc s.li_len = ((Finset.range s.li_len).image s.name).card := by
        rw [Finset.card_image_of_injOn hinj, Finset.card_range]
    _ ≤ (done.map Prod.fst).toFinset.card := by
        refine Finset.card_le_card fun x hx => ?_
        obtain ⟨i, hi, rfl⟩ := Finset.mem_image.mp hx
        exact List.mem_toFinset.mpr
          (List.mem_map.mpr ⟨_, h.entries i (Finset.mem_range.mp hi), rfl⟩)

theorem Exact.idsTellNames {s : LogTable} {done : List (List UInt8 × ℕ)} (h : s.Inv done)
    (he : s.Exact done) : IdsTellNames done := by
  intro p hp q hq
  obtain ⟨hlt, hname⟩ := he p hp
  obtain ⟨hlt', hname'⟩ := he q hq
  rw [← hname, ← hname']
  exact ⟨fun hid => hid ▸ rfl, h.distinct p.2 hlt q.2 hlt'⟩

/-- An event that is no call of `reg` keeps the invariant. -/
theorem Inv.keeps {s : LogTable} {done : List (List UInt8 × ℕ)} (h : s.Inv done) {e : Event}
    (he : ∀ filename head divTime isJson, e ≠ .reg filename head divTime isJson) :
    (s.step e).Inv done ∧ (s.Exact done → (s.step e).Exact done) := by
  obtain ⟨hlen, hsized, hname⟩ := step_keeps h.sized he
  refine ⟨⟨hsized, fun i hi => ?_, fun i hi j hj hij => ?_⟩, fun hx p hp => ?_⟩
  · rw [hname]
    exact h.entries i (hlen ▸ hi)
  · rw [hname, hname] at hij
    exact h.distinct i (hlen ▸ hi) j (hlen ▸ hj) hij
  · rw [hlen, hname]
    exact hx p hp

/-- A call of `reg` keeps the invariant, and gives the entry of its name if it finds that. -/
theorem Inv.reg {s : LogTable} {done : List (List UInt8 × ℕ)} (h : s.Inv done)
    {filename head : List UInt8} {divTime : ℤ} {isJson : Bool} (hroom : s.li_len < 256)
    (hvalid : IsValid (.reg filename head divTime isJson)) :
    (s.reg filename head divTime isJson).2.Inv
        (done ++ [(filename, (s.reg filename head divTime isJson).1)]) ∧
      (s.Exact done → s.FindsOwn (.reg filename head divTime isJson) →
        (s.reg filename head divTime isJson).2.Exact
          (done ++ [(filename, (s.reg filename head divTime isJson).1)])) := by
  rcases hfind : (List.range s.li_len).find? (s.begins filename) with - | i
  · obtain ⟨hid, hlen, hsized, hself, hname⟩ := reg_new h.sized hroom hvalid hfind
    -- No entry that is found means that no entry has this name.
    have hne (i : ℕ) (hi : i < s.li_len) : s.name i ≠ filename := fun hi' => by
      have hnone := List.find?_eq_none.mp hfind i (List.mem_range.mpr hi)
      exact hnone (hi' ▸ begins_name h.sized i)
    rw [hid]
    generalize (s.reg filename head divTime isJson).2 = s' at hlen hsized hself hname ⊢
    have hcases (i : ℕ) (hi : i < s'.li_len) :
        i = s.li_len ∨ i < s.li_len ∧ s'.name i = s.name i := by
      rcases eq_or_ne i s.li_len with heq | hlt
      · exact .inl heq
      · exact .inr ⟨by omega, hname i hlt⟩
    refine ⟨⟨hsized, fun i hi => ?_, fun i hi j hj hij => ?_⟩, fun hx _ p hp => ?_⟩
    · -- Only the new entry has the new name.
      rcases hcases i hi with rfl | ⟨hi, hi'⟩
      · rw [hself]
        exact List.mem_append_right _ (List.mem_singleton.mpr rfl)
      · rw [hi']
        exact List.mem_append_left _ (h.entries i hi)
    · rcases hcases i hi with rfl | ⟨hi, hi'⟩ <;> rcases hcases j hj with rfl | ⟨hj, hj'⟩
      · rfl
      · exact absurd (hj'.symm.trans (hij.symm.trans hself)) (hne j hj)
      · exact absurd (hi'.symm.trans (hij.trans hself)) (hne i hi)
      · exact h.distinct i hi j hj (hi'.symm.trans (hij.trans hj'))
    · rcases List.mem_append.mp hp with hp | hp
      · obtain ⟨hlt, hp⟩ := hx p hp
        exact ⟨by omega, (hname p.2 hlt.ne).trans hp⟩
      · rw [List.mem_singleton.mp hp]
        exact ⟨by omega, hself⟩
  · -- An entry that is found is returned as it is.
    have hi := List.mem_range.mp (List.mem_of_find?_eq_some hfind)
    rw [reg_found hroom hvalid.2.1 hfind]
    refine ⟨⟨h.sized, fun j hj => List.mem_append_left _ (h.entries j hj), h.distinct⟩,
      fun hx hown p hp => ?_⟩
    rcases List.mem_append.mp hp with hp | hp
    · exact hx p hp
    · rw [List.mem_singleton.mp hp]
      exact ⟨hi, hown i hfind⟩

/-- A run behind calls that have been given their own entries. -/
theorem idsTellNames_append_iff {s : LogTable} {done : List (List UInt8 × ℕ)} (h : s.Inv done)
    (hx : s.Exact done) {es : List Event} (hvalid : ∀ e ∈ es, IsValid e)
    (hcount : (done.map Prod.fst ++ regNames es).toFinset.card < 256) :
    IdsTellNames (done ++ s.calls es) ↔ s.RunFindsOwn es := by
  induction es generalizing s done with
  | nil =>
    rw [calls, List.append_nil]
    exact iff_of_true (hx.idsTellNames h) trivial
  | cons e es ih =>
    obtain ⟨hvalid, hvalids⟩ := List.forall_mem_cons.mp hvalid
    cases e with
    | reg filename head divTime isJson =>
      have hroom : s.li_len < 256 := by
        refine lt_of_le_of_lt (h.li_len_le.trans (Finset.card_le_card ?_)) hcount
        rw [List.toFinset_append]
        exact Finset.subset_union_left
      obtain ⟨hinv, hexact⟩ := h.reg hroom hvalid
      rw [calls, RunFindsOwn]
      by_cases hown : s.FindsOwn (.reg filename head divTime isJson)
      · rw [and_iff_right hown]
        rw [regNames] at hcount
        have hrest := ih hinv (hexact hx hown) hvalids (by
          rwa [List.map_append, List.append_assoc])
        rwa [List.append_assoc] at hrest
      · -- The entry that it finds has come from a call with another name.
        refine iff_of_false (fun hids => hown fun i hi => ?_) fun hmeets => hown hmeets.1
        have hlt := List.mem_range.mp (List.mem_of_find?_eq_some hi)
        refine (hids _ (List.mem_append_left _ (h.entries i hlt)) (filename, i)
          (List.mem_append_right _ ?_)).mp rfl
        rw [reg_found hroom hvalid.2.1 hi]
        exact List.mem_cons_self
    | write id curTime bufTime opens =>
      obtain ⟨hinv, hexact⟩ := h.keeps (e := .write id curTime bufTime opens) fun _ _ _ _ h => by
        cases h
      exact (ih hinv (hexact hx) hvalids hcount).trans (and_iff_right trivial).symm
    | hot =>
      obtain ⟨hinv, hexact⟩ := h.keeps (e := .hot) fun _ _ _ _ h => by cases h
      exact (ih hinv (hexact hx) hvalids hcount).trans (and_iff_right trivial).symm

theorem init_inv : init.Inv [] where
  sized := fun _ => ⟨List.length_replicate .., Nat.zero_lt_succ 127⟩
  entries := fun i hi => absurd hi (Nat.not_lt_zero i)
  distinct := fun i hi => absurd hi (Nat.not_lt_zero i)

/-- In a run two calls of `reg` have the same id exactly if they have the same name, as long as each
call finds the entry of its own name where it finds one, and in no other run. -/
theorem ids_tell_names_iff {es : List Event} (hvalid : ∀ e ∈ es, IsValid e)
    (hcount : (regNames es).toFinset.card < 256) :
    (∀ p ∈ init.calls es, ∀ q ∈ init.calls es, p.2 = q.2 ↔ p.1 = q.1) ↔ init.RunFindsOwn es :=
  idsTellNames_append_iff init_inv (fun _ hp => absurd hp List.not_mem_nil) hvalid hcount

/-- The names `"b"` and `"a"`, a line for the second, and the names again. -/
def twoLogs : List Event :=
  [.reg [98] [] 0 false, .reg [97] [] 0 false, .write 1 0 [] true, .reg [97] [] 0 false,
    .reg [98] [] 0 false]

theorem ids_tell_names_twoLogs :
    init.RunFindsOwn twoLogs ∧
      ∀ p ∈ init.calls twoLogs, ∀ q ∈ init.calls twoLogs, p.2 = q.2 ↔ p.1 = q.1 := by
  have hfinds : init.RunFindsOwn twoLogs :=
    ⟨by decide, by decide, trivial, by decide, by decide, trivial⟩
  exact ⟨hfinds, (ids_tell_names_iff (by decide) (by decide)).mpr hfinds⟩

/-- `"ab"` is registered before `"a"`. -/
theorem prefix_same_id :
    ¬∀ p ∈ init.calls [.reg [97, 98] [] 0 false, .reg [97] [] 0 false],
      ∀ q ∈ init.calls [.reg [97, 98] [] 0 false, .reg [97] [] 0 false], p.2 = q.2 ↔ p.1 = q.1 := by
  decide

end LogTable

end Catse
