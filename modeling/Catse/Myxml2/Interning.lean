import Catse.Lib.Bytes
import Catse.Lib.Loops
import Catse.Lib.Memory
import Catse.Lib.SortedArray
import Catse.Myxml2.Strings
import Mathlib.Algebra.BigOperators.Group.Finset.Basic
import Mathlib.Algebra.Order.BigOperators.Group.Finset

/-!
# The memory of `getStr`

`Strings` has what `getStr` of `myxml2` does to strings. This module has how it does it: `set` is an
array of pointers into `buf`, which is filled from its start and has no terminators written to it,
so that a string ends where the zeros of a fresh buffer begin. `StrTable.Rep` says that the memory
holds a table of `Strings`. Each call keeps it and returns the same pointer or fails in the same way
(`StrTable.getStr_sim`), so that what is known of the tables is known of the memory
(`getStr_interns`).
-/

namespace Catse.Myxml2

open SortedTable SortedArray

/-- A C string, without its terminator. -/
@[ext]
structure CString where
  bytes : List UInt8
  noZero : (0 : UInt8) ∉ bytes
  deriving DecidableEq

/-- The static data of `getStr`, with a pointer into `buf` as its offset. -/
structure StrTable where
  set : ℕ → ℕ
  setlen : ℕ
  buf : ℕ → UInt8
  buflen : ℕ

namespace StrTable

/-- `sizeof(set) / sizeof(*set)`. -/
def setSize : ℕ := 65536

/-- `sizeof(buf)`. -/
def bufSize : ℕ := 2^22

/-- Static data are zero before the first call. -/
def init : StrTable := ⟨fun _ => 0, 0, fun _ => 0, 0⟩

/-- The string at an offset of `buf`. -/
def str (t : StrTable) (p : ℕ) : List UInt8 := cstrAt t.buf p (bufSize - p)

/-- The string that a pointer points to. -/
def textOf (t : StrTable) : StrPtr → List UInt8
  | .fix w => w.text
  | .buf p => t.str p

/-- The table after `str` is copied to the end of the used part of `buf`, with a pointer to it at
the place `a` of `set`. -/
def enter (t : StrTable) (a : ℕ) (str : List UInt8) (len : ℕ) : StrTable where
  set := Function.update (moveUp t.set a t.setlen) a t.buflen
  setlen := t.setlen + 1
  buf := storeAt t.buf t.buflen (str.take len)
  buflen := t.buflen + len + 1

/-- `getStr`. -/
def getStr (str : CString) (t : StrTable) : Except Fail (StrPtr × StrTable) :=
  match VarType.fix.find? fun w => strcmp str.bytes w.text = 0 with
  | some w => .ok (.fix w, t)
  | none =>
    let r := bisect (fun c => strcmp str.bytes (t.str (t.set c))) 0 (t.setlen - 1)
    match r.hit with
    | some c => .ok (.buf (t.set c), t)
    | none =>
      if setSize ≤ t.setlen then .error .setFull
      else
        let len := toInt32 str.bytes.length
        -- The sum is compared with a size, so that a negative one is too large.
        if t.buflen + len < 0 ∨ bufSize ≤ t.buflen + len then .error .bufFull
        else if len < 0 then .error .undefined
        else .ok (.buf t.buflen, t.enter r.a.toNat str.bytes len.toNat)

/-- The table is sorted by `strcmp`, without repetitions. -/
def Sorted (t : StrTable) : Prop :=
  ∀ i j, i < j → j < t.setlen → strcmp (t.str (t.set i)) (t.str (t.set j)) < 0

/-! ## What the memory holds -/

/-- The memory holds a table: the strings lie in the used part of `buf` with the zeros behind them,
and there are zeros from there on. -/
structure Rep (t : StrTable) (s : Intern) : Prop where
  set : elements t.set t.setlen = s.set
  buflen : t.buflen = s.buflen
  holds : ∀ p ∈ s.set, HoldsStr t.buf p (s.text p)
  inside : ∀ p ∈ s.set, p + (s.text p).length < t.buflen
  noZero : ∀ p ∈ s.set, (0 : UInt8) ∉ s.text p
  free : ∀ i, t.buflen ≤ i → t.buf i = 0
  size : t.buflen ≤ bufSize

theorem rep_init : init.Rep .init where
  set := rfl
  buflen := rfl
  holds := fun _ hp => absurd hp List.not_mem_nil
  inside := fun _ hp => absurd hp List.not_mem_nil
  noZero := fun _ hp => absurd hp List.not_mem_nil
  free := fun _ _ => rfl
  size := Nat.zero_le _

variable {t : StrTable} {s : Intern}

/-- What is read at a pointer of the table is its string. -/
theorem Rep.str_eq (h : t.Rep s) {p : ℕ} (hp : p ∈ s.set) : t.str p = s.text p := by
  have hin := h.inside p hp
  have hsize := h.size
  exact cstrAt_eq (h.holds p hp) (h.noZero p hp) (by omega)

theorem Rep.textOf_eq (h : t.Rep s) {p : StrPtr} (hp : s.Valid p) : t.textOf p = s.textOf p := by
  cases p with
  | fix w => rfl
  | buf p => exact h.str_eq hp

/-- The search of the code is that of the table. -/
theorem Rep.lookup_eq (h : t.Rep s) (str : List UInt8) :
    lookup (fun p => strcmp str (s.text p)) s.set =
      lookup (fun p => strcmp str (t.str p)) (elements t.set t.setlen) := by
  rw [h.set, lookup, lookup]
  refine search_congr fun i hi => ?_
  rw [probe_eq hi, probe_eq hi, h.str_eq (List.getElem_mem hi)]

/-- The strings of a sorted table. -/
theorem Rep.sorted (h : t.Rep s) (hs : s.WF) : t.Sorted := by
  have hwf := hs.sorted
  rw [← h.set, pairwise_elements] at hwf
  intro i j hij hj
  have hmem : ∀ k < t.setlen, t.set k ∈ s.set := fun k hk =>
    h.set ▸ mem_elements.mpr ⟨k, hk, rfl⟩
  rw [h.str_eq (hmem i (hij.trans hj)), h.str_eq (hmem j hj), strcmp_neg_iff]
  exact hwf i j hij hj

/-- A string that is copied to the end of the used part ends in the first zero behind it. -/
theorem holds_storeAt {mem : ℕ → UInt8} {off : ℕ} (h : ∀ i, off ≤ i → mem i = 0)
    (bs : List UInt8) : HoldsStr (storeAt mem off bs) off bs := by
  intro i _
  rw [storeAt_add, h _ (Nat.le_add_right off i)]

/-- A new string is entered as in the table. -/
theorem Rep.enter (h : t.Rep s) (hs : s.WF) {a : ℕ} (ha : a ≤ t.setlen) {str : List UInt8}
    (hstr : (0 : UInt8) ∉ str) (hlen : t.buflen + str.length < bufSize) :
    (t.enter a str str.length).Rep (s.enter a str) := by
  have hbuf : (t.enter a str str.length).buf = storeAt t.buf t.buflen str := by
    rw [StrTable.enter, List.take_length]
  have hmem : ∀ p ∈ (s.enter a str).set, p = t.buflen ∨ p ∈ s.set := fun p hp =>
    h.buflen ▸ Intern.mem_enter.mp hp
  have hnew : (s.enter a str).text t.buflen = str := h.buflen ▸ Intern.text_enter_self s a str
  have hold : ∀ p ∈ s.set, (s.enter a str).text p = s.text p := fun p hp =>
    Intern.text_enter_of_mem hs.lt a str hp
  constructor
  · show elements _ (t.setlen + 1) = s.set.take a ++ s.buflen :: s.set.drop a
    rw [StrTable.enter, elements_insert t.set ha, h.set, h.buflen]
  · show t.buflen + str.length + 1 = s.buflen + str.length + 1
    rw [h.buflen]
  · intro p hp
    rw [hbuf]
    rcases hmem p hp with rfl | hp
    · rw [hnew]
      exact holds_storeAt h.free str
    · -- The copy begins behind the strings that there are.
      rw [hold p hp]
      intro i hi
      have hin := h.inside p hp
      rw [storeAt_of_lt t.buf str (by omega)]
      exact h.holds p hp i hi
  · intro p hp
    show p + _ < t.buflen + str.length + 1
    rcases hmem p hp with rfl | hp
    · rw [hnew]
      exact Nat.lt_succ_self _
    · have hin := h.inside p hp
      rw [hold p hp]
      omega
  · intro p hp
    rcases hmem p hp with rfl | hp
    · rw [hnew]
      exact hstr
    · rw [hold p hp]
      exact h.noZero p hp
  · intro i hi
    have hi' : t.buflen + str.length + 1 ≤ i := hi
    obtain ⟨k, rfl⟩ : ∃ k, i = t.buflen + k := ⟨i - t.buflen, by omega⟩
    rw [hbuf, storeAt_add, List.getD_eq_getElem?_getD, List.getElem?_eq_none (by omega)]
    exact h.free _ (Nat.le_add_right _ k)
  · show t.buflen + str.length + 1 ≤ bufSize
    exact hlen

/-- A call on the memory and a call on the table fail in the same way, or return the same pointer
and leave memory that holds the table. -/
theorem getStr_sim (h : t.Rep s) (hs : s.WF) (str : CString) (hlen : str.bytes.length < 2^31) :
    (∃ e, t.getStr str = .error e ∧ Myxml2.getStr str.bytes s = .error e) ∨
      ∃ p t' s', t.getStr str = .ok (p, t') ∧ Myxml2.getStr str.bytes s = .ok (p, s') ∧
        t'.Rep s' := by
  have hlen32 : toInt32 str.bytes.length = str.bytes.length := toInt32_of_range (by omega)
  -- The loop over the fixed texts finds the same one.
  have hfix : (VarType.fix.find? fun w => strcmp str.bytes w.text = 0) =
      VarType.fix.find? fun w => w.text = str.bytes := by
    refine congrArg (VarType.fix.find? ·) (funext fun w => decide_eq_decide.mpr ?_)
    rw [strcmp_eq_zero_iff, eq_comm]
  unfold StrTable.getStr Myxml2.getStr
  rw [hfix]
  cases VarType.fix.find? fun w => w.text = str.bytes with
  | some w => exact .inr ⟨_, _, _, rfl, rfl, h⟩
  | none =>
    dsimp only
    cases hl : lookup (fun p => strcmp str.bytes (s.text p)) s.set with
    | found c =>
      -- Both searches end at the same place of the sorted table.
      have hl' := hl
      rw [h.lookup_eq] at hl'
      obtain ⟨a, b, hr, -⟩ := bisect_of_found hl'
      have hc : c < t.setlen := by
        have := (lookup_found hl').choose
        rwa [length_elements] at this
      have hget : s.set.getD c 0 = t.set c := by
        rw [← h.set, List.getD_eq_getElem?_getD, getElem?_elements t.set hc]
        rfl
      rw [hr]
      dsimp only
      rw [hget]
      exact .inr ⟨_, _, _, rfl, rfl, h⟩
    | absent a =>
      have hl' := hl
      rw [h.lookup_eq] at hl'
      obtain ⟨hr, ha⟩ := bisect_of_absent hl'
      have hset : s.set.length = t.setlen := by rw [← h.set, length_elements]
      rw [hr, hset, ← h.buflen, hlen32]
      dsimp only
      -- The two checks of the limits, in their order.
      by_cases hfull : setSize ≤ t.setlen
      · exact .inl ⟨.setFull, if_pos hfull, if_pos hfull⟩
      by_cases hbig : bufSize ≤ t.buflen + str.bytes.length
      · refine .inl ⟨.bufFull, ?_, ?_⟩
        · rw [if_neg hfull, if_pos (.inr (by omega))]
        · exact (if_neg hfull).trans (if_pos hbig)
      · refine .inr ⟨.buf t.buflen, t.enter a str.bytes str.bytes.length, s.enter a str.bytes,
          ?_, ?_, h.enter hs ha str.noZero (Nat.lt_of_not_le hbig)⟩
        · rw [if_neg hfull, if_neg (by omega), if_neg (by omega), Int.toNat_natCast,
            Int.toNat_natCast]
        · exact (if_neg hfull).trans (if_neg hbig)

end StrTable

/-! ## The limits -/

/-- The strings that calls with the arguments `strs` enter. -/
def entered (strs : List CString) : Finset (List UInt8) :=
  ((strs.map CString.bytes).filter fun str => ∀ w ∈ VarType.fix, w.text ≠ str).toFinset

/-- The limits of `getStr`: the number of the strings that are entered, and the number of their
bytes with terminators. -/
structure Within (strs : List CString) : Prop where
  count : (entered strs).card ≤ StrTable.setSize
  bytes : ∑ str ∈ entered strs, (str.length + 1) ≤ StrTable.bufSize

theorem mem_entered {strs : List CString} {x : List UInt8} :
    x ∈ entered strs ↔ (∃ str ∈ strs, str.bytes = x) ∧ ∀ w : VarType, w.text ≠ x := by
  simp only [entered, List.mem_toFinset, List.mem_filter, List.mem_map, decide_eq_true_eq]
  exact and_congr_right fun _ => ⟨fun h w => h w w.mem_fix, fun h w _ => h w⟩

theorem entered_append_subset (strs strs' : List CString) :
    entered strs ⊆ entered (strs ++ strs') := by
  intro x hx
  obtain ⟨⟨str, hstr, heq⟩, hx⟩ := mem_entered.mp hx
  exact mem_entered.mpr ⟨⟨str, List.mem_append_left _ hstr, heq⟩, hx⟩

theorem Within.of_append {strs strs' : List CString} (h : Within (strs ++ strs')) :
    Within strs where
  count := (Finset.card_le_card (entered_append_subset strs strs')).trans h.count
  bytes := (Finset.sum_le_sum_of_subset (entered_append_subset strs strs')).trans h.bytes

/-- A call with a literal enters nothing. -/
theorem entered_snoc_of_fix (strs : List CString) {str : CString} {w : VarType}
    (hw : w.text = str.bytes) : entered (strs ++ [str]) = entered strs := by
  refine Finset.Subset.antisymm (fun x hx => ?_) (entered_append_subset strs _)
  obtain ⟨⟨y, hy, rfl⟩, hx⟩ := mem_entered.mp hx
  rcases List.mem_append.mp hy with hy | hy
  · exact mem_entered.mpr ⟨⟨y, hy, rfl⟩, hx⟩
  · rw [List.mem_singleton.mp hy] at hx
    exact absurd hw (hx w)

/-- A call with another string enters that string. -/
theorem entered_snoc (strs : List CString) {str : CString}
    (hw : ∀ w : VarType, w.text ≠ str.bytes) :
    entered (strs ++ [str]) = insert str.bytes (entered strs) := by
  ext x
  rw [Finset.mem_insert, mem_entered, mem_entered]
  constructor
  · rintro ⟨⟨y, hy, rfl⟩, hx⟩
    rcases List.mem_append.mp hy with hy | hy
    · exact .inr ⟨⟨y, hy, rfl⟩, hx⟩
    · exact .inl (congrArg CString.bytes (List.mem_singleton.mp hy))
  · rintro (rfl | ⟨⟨y, hy, rfl⟩, hx⟩)
    · exact ⟨⟨str, List.mem_append_right _ (List.mem_singleton_self str), rfl⟩, hw⟩
    · exact ⟨⟨y, List.mem_append_left _ hy, rfl⟩, hx⟩

/-- A call fails for a string that is new, at a limit. -/
theorem getStr_ok_iff (str : List UInt8) (s : Intern) :
    (∃ p s', getStr str s = .ok (p, s')) ↔
      ¬((∀ w : VarType, w.text ≠ str) ∧
        (∃ a, lookup (fun q => strcmp str (s.text q)) s.set = .absent a) ∧
          (65536 ≤ s.set.length ∨ 2^22 ≤ s.buflen + str.length)) := by
  unfold getStr
  cases hfix : VarType.fix.find? fun t => t.text = str with
  | some w =>
    have htext : w.text = str := by simpa using List.find?_some hfix
    exact ⟨fun _ h => h.1 w htext, fun _ => ⟨_, _, rfl⟩⟩
  | none =>
    have hnew : ∀ w : VarType, w.text ≠ str := fun w hw =>
      List.find?_eq_none.mp hfix w w.mem_fix (decide_eq_true hw)
    cases hl : lookup (fun q => strcmp str (s.text q)) s.set with
    | found c => exact ⟨fun _ ⟨_, ⟨a, ha⟩, _⟩ => absurd ha (by simp), fun _ => ⟨_, _, rfl⟩⟩
    | absent a =>
      dsimp only
      constructor
      · rintro ⟨p, s', hr⟩ ⟨-, -, hlim⟩
        split_ifs at hr with hset hbuf
        exact hlim.elim hset hbuf
      · intro hlim
        obtain ⟨hset, hbuf⟩ := not_or.mp fun h => hlim ⟨hnew, ⟨a, rfl⟩, h⟩
        exact ⟨_, _, (if_neg hset).trans (if_neg hbuf)⟩

/-- The table after calls with the arguments `strs`, which have returned `ps`. -/
structure Counted (strs : List CString) (ps : List StrPtr) (s : Intern) : Prop where
  wf : s.WF
  texts : ∀ x, (∃ p ∈ s.set, s.text p = x) ↔ x ∈ entered strs
  length : s.set.length = (entered strs).card
  buflen : s.buflen = ∑ str ∈ entered strs, (str.length + 1)
  returned : List.Forall₂ (fun str p => s.Valid p ∧ s.textOf p = str.bytes) strs ps

theorem counted_init : Counted [] [] .init where
  wf := Intern.wf_init
  texts := fun x => by simp [Intern.init, entered]
  length := rfl
  buflen := rfl
  returned := List.Forall₂.nil

variable {strs : List CString} {ps : List StrPtr} {s : Intern}

/-- A string that the search does not find has not been entered. -/
theorem Counted.not_mem_entered (h : Counted strs ps s) {str : List UInt8} {a : ℕ}
    (hl : lookup (fun q => strcmp str (s.text q)) s.set = .absent a) : str ∉ entered strs := by
  intro hmem
  obtain ⟨p, hp, htext⟩ := (h.texts str).mpr hmem
  obtain ⟨c, hc⟩ := lookup_of_mem (compares_strcmp s.text str) h.wf.sorted hp
    (congrArg strKey htext)
  rw [hl] at hc
  cases hc

/-- A call within the limits succeeds, and the table counts it. -/
theorem Counted.getStr (h : Counted strs ps s) {str : CString} (hw : Within (strs ++ [str])) :
    ∃ p s', getStr str.bytes s = .ok (p, s') ∧ Counted (strs ++ [str]) (ps ++ [p]) s' := by
  -- Neither limit is reached, as the table has what was entered and no more.
  have hok : ∃ p s', Myxml2.getStr str.bytes s = .ok (p, s') := by
    rw [getStr_ok_iff]
    rintro ⟨hnew, ⟨a, hl⟩, hlim⟩
    have hnot := h.not_mem_entered hl
    have hcount := hw.count
    have hbytes := hw.bytes
    rw [entered_snoc strs hnew, Finset.card_insert_of_notMem hnot, ← h.length] at hcount
    rw [entered_snoc strs hnew, Finset.sum_insert hnot, ← h.buflen] at hbytes
    unfold StrTable.setSize at hcount
    unfold StrTable.bufSize at hbytes
    omega
  obtain ⟨p, s', hr⟩ := hok
  obtain ⟨hwf, hext, hvalid, htext⟩ := getStr_spec h.wf hr
  have hps : List.Forall₂ (fun str p => s'.Valid p ∧ s'.textOf p = str.bytes)
      (strs ++ [str]) (ps ++ [p]) := by
    refine List.rel_append (h.returned.imp fun x q hq => ?_) (.cons ⟨hvalid, htext⟩ .nil)
    obtain ⟨hv, ht⟩ := hext q hq.1
    exact ⟨hv, ht.trans hq.2⟩
  refine ⟨p, s', hr, ?_⟩
  obtain ⟨w, hfix, rfl, rfl⟩ | ⟨hnew, ⟨q, hq, hstr, rfl, rfl⟩ | ⟨a, hl, rfl, rfl⟩⟩ :=
    getStr_cases hr
  · -- A fixed text, a text that is there, or a new one.
    have hsame := entered_snoc_of_fix strs hfix
    exact ⟨hwf, hsame ▸ h.texts, hsame ▸ h.length, hsame ▸ h.buflen, hps⟩
  · have hmem : str.bytes ∈ entered strs := (h.texts _).mp ⟨q, hq, hstr⟩
    have hsame : entered (strs ++ [str]) = entered strs := by
      rw [entered_snoc strs hnew, Finset.insert_eq_of_mem hmem]
    exact ⟨hwf, hsame ▸ h.texts, hsame ▸ h.length, hsame ▸ h.buflen, hps⟩
  · have hnot := h.not_mem_entered hl
    refine ⟨hwf, fun x => ?_, ?_, ?_, hps⟩
    · rw [entered_snoc strs hnew, Finset.mem_insert, ← h.texts x]
      constructor
      · rintro ⟨q, hq, rfl⟩
        rcases Intern.mem_enter.mp hq with rfl | hq
        · exact .inl (Intern.text_enter_self s a str.bytes)
        · exact .inr ⟨q, hq, (Intern.text_enter_of_mem h.wf.lt a str.bytes hq).symm⟩
      · rintro (rfl | ⟨q, hq, rfl⟩)
        · exact ⟨s.buflen, Intern.mem_enter.mpr (.inl rfl), Intern.text_enter_self s a _⟩
        · exact ⟨q, Intern.mem_enter.mpr (.inr hq), Intern.text_enter_of_mem h.wf.lt a _ hq⟩
    · rw [entered_snoc strs hnew, Finset.card_insert_of_notMem hnot, ← h.length]
      show (s.set.take a ++ s.buflen :: s.set.drop a).length = _
      rw [List.length_append, List.length_cons, ← Nat.add_assoc, ← List.length_append,
        List.take_append_drop]
    · rw [entered_snoc strs hnew, Finset.sum_insert hnot, ← h.buflen]
      show s.buflen + str.bytes.length + 1 = _
      omega

/-- A call that succeeds is within the limits. -/
theorem Counted.within (h : Counted strs ps s) (hw : Within strs) {str : CString}
    (hok : ∃ p s', Myxml2.getStr str.bytes s = .ok (p, s')) : Within (strs ++ [str]) := by
  by_cases hnew : ∀ w : VarType, w.text ≠ str.bytes
  · by_cases hmem : str.bytes ∈ entered strs
    · have hsame : entered (strs ++ [str]) = entered strs := by
        rw [entered_snoc strs hnew, Finset.insert_eq_of_mem hmem]
      exact ⟨hsame ▸ hw.count, hsame ▸ hw.bytes⟩
    · have habsent : ∃ a, lookup (fun q => strcmp str.bytes (s.text q)) s.set = .absent a := by
        cases hl : lookup (fun q => strcmp str.bytes (s.text q)) s.set with
        | absent a => exact ⟨a, rfl⟩
        | found c =>
          obtain ⟨hc, h0⟩ := lookup_found hl
          have htext := (strcmp_eq_zero_iff _ _).mp h0
          exact absurd ((h.texts _).mp ⟨_, List.getElem_mem hc, htext.symm⟩) hmem
      have hlim : ¬(65536 ≤ s.set.length ∨ 2^22 ≤ s.buflen + str.bytes.length) := fun hlim =>
        (getStr_ok_iff _ _).mp hok ⟨hnew, habsent, hlim⟩
      constructor
      · rw [entered_snoc strs hnew, Finset.card_insert_of_notMem hmem, ← h.length]
        unfold StrTable.setSize
        omega
      · rw [entered_snoc strs hnew, Finset.sum_insert hmem, ← h.buflen]
        unfold StrTable.bufSize
        omega
  · obtain ⟨w, hw'⟩ := not_forall.mp hnew
    have hsame := entered_snoc_of_fix strs (not_not.mp hw')
    exact ⟨hsame ▸ hw.count, hsame ▸ hw.bytes⟩

/-! ## Runs -/

/-- A string of calls within the limits has a length that an `int` holds. -/
theorem Within.length_lt (h : Within strs) {str : CString} (hstr : str ∈ strs) :
    str.bytes.length < 2^31 := by
  by_cases hnew : ∀ w : VarType, w.text ≠ str.bytes
  · have hmem : str.bytes ∈ entered strs := mem_entered.mpr ⟨⟨str, hstr, rfl⟩, hnew⟩
    have hle : str.bytes.length + 1 ≤ ∑ x ∈ entered strs, (x.length + 1) :=
      Finset.single_le_sum (fun x _ => Nat.zero_le (x.length + 1)) hmem
    have hbytes := h.bytes
    unfold StrTable.bufSize at hbytes
    omega
  · obtain ⟨w, hw⟩ := not_forall.mp hnew
    rw [← not_not.mp hw]
    cases w <;> decide

/-- The calls of a run within the limits succeed, and the memory holds a table that counts them. -/
theorem calls_spec (h : Within strs) :
    ∃ ps t s, mapState StrTable.getStr strs .init = .ok (ps, t) ∧ t.Rep s ∧ Counted strs ps s := by
  induction strs using List.reverseRecOn with
  | nil => exact ⟨[], .init, .init, rfl, StrTable.rep_init, counted_init⟩
  | append_singleton strs str ih =>
    obtain ⟨ps, t, s, hrun, hrep, hcount⟩ := ih h.of_append
    obtain ⟨p, s', hr, hcount'⟩ := hcount.getStr h
    have hlen := h.length_lt (List.mem_append_right strs (List.mem_singleton_self str))
    obtain ⟨e, -, herr⟩ | ⟨p', t', s'', ht, hs, hrep'⟩ :=
      StrTable.getStr_sim hrep hcount.wf str hlen
    · rw [herr] at hr
      cases hr
    · rw [hs] at hr
      cases hr
      exact ⟨ps ++ [p], t', s', mapState_snoc hrun ht, hrep', hcount'⟩

/-- The limits are those of the code, for strings whose length an `int` holds. -/
theorem within_iff (hlen : ∀ str ∈ strs, str.bytes.length < 2^31) :
    Within strs ↔ ∃ ps t, mapState StrTable.getStr strs .init = .ok (ps, t) := by
  constructor
  · intro h
    obtain ⟨ps, t, -, hrun, -⟩ := calls_spec h
    exact ⟨ps, t, hrun⟩
  · rintro ⟨ps, t, hrun⟩
    induction strs using List.reverseRecOn generalizing ps t with
    | nil => exact ⟨Nat.zero_le _, Nat.zero_le _⟩
    | append_singleton strs str ih =>
      obtain ⟨ps', t', p, hrun', hr⟩ := mapState_of_snoc hrun
      have hw := ih (fun x hx => hlen x (List.mem_append_left _ hx)) ps' t' hrun'
      obtain ⟨ps'', t'', s, hrun'', hrep, hcount⟩ := calls_spec hw
      rw [hrun'] at hrun''
      cases hrun''
      refine hcount.within hw ?_
      have hstr := hlen str (List.mem_append_right strs (List.mem_singleton_self str))
      obtain ⟨e, he, -⟩ | ⟨q, -, s', -, hs, -⟩ :=
        StrTable.getStr_sim hrep hcount.wf str hstr
      · rw [hr] at he
        cases he
      · exact ⟨q, s', hs⟩

/-- What is related has the same places. -/
theorem getElem?_of_forall₂ {α β : Type} {R : α → β → Prop} {l : List α} {ys : List β}
    (h : List.Forall₂ R l ys) (i : ℕ) :
    l[i]? = none ∧ ys[i]? = none ∨ ∃ x y, l[i]? = some x ∧ ys[i]? = some y ∧ R x y := by
  induction h generalizing i with
  | nil => exact .inl ⟨rfl, rfl⟩
  | cons hxy _ ih =>
    cases i with
    | zero => exact .inr ⟨_, _, rfl, rfl, hxy⟩
    | succ i => exact ih i

/-- Calls return the same pointer when their arguments are the same. -/
theorem Counted.eq_iff (h : Counted strs ps s) (i j : ℕ) :
    ps[i]? = ps[j]? ↔ strs[i]? = strs[j]? := by
  have heq : ∀ {x y : CString} {p q : StrPtr}, s.Valid p ∧ s.textOf p = x.bytes →
      s.Valid q ∧ s.textOf q = y.bytes → (p = q ↔ x = y) := by
    intro x y p q hp hq
    constructor
    · rintro rfl
      exact CString.ext (hp.2.symm.trans hq.2)
    · rintro rfl
      exact h.wf.textOf_injective hp.1 hq.1 (hp.2.trans hq.2.symm)
  obtain ⟨hi, hi'⟩ | ⟨x, p, hi, hi', hx⟩ := getElem?_of_forall₂ h.returned i
  · obtain ⟨hj, hj'⟩ | ⟨y, q, hj, hj', hy⟩ := getElem?_of_forall₂ h.returned j
    · simp only [hi, hi', hj, hj']
    · simp only [hi, hi', hj, hj', reduceCtorEq]
  · obtain ⟨hj, hj'⟩ | ⟨y, q, hj, hj', hy⟩ := getElem?_of_forall₂ h.returned j
    · simp only [hi, hi', hj, hj', reduceCtorEq]
    · simp only [hi, hi', hj, hj', Option.some.injEq]
      exact heq hx hy

/-- Calls within the limits succeed. Two of them return the same pointer if and only if their
arguments are the same, and after each of them the table is sorted, and the pointers that have been
returned point to the arguments. -/
theorem getStr_interns (strs : List CString) (h : Within strs) :
    ∃ ps t, mapState StrTable.getStr strs .init = .ok (ps, t) ∧
      (∀ i j : ℕ, ps[i]? = ps[j]? ↔ strs[i]? = strs[j]?) ∧
      ∀ k ≤ strs.length, ∃ tk, mapState StrTable.getStr (strs.take k) .init = .ok (ps.take k, tk) ∧
        tk.Sorted ∧
        List.Forall₂ (fun str p => tk.textOf p = str.bytes) (strs.take k) (ps.take k) := by
  obtain ⟨ps, t, s, hrun, -, hcount⟩ := calls_spec h
  refine ⟨ps, t, hrun, hcount.eq_iff, fun k hk => ?_⟩
  have hwithin : Within (strs.take k) := by
    rw [← List.take_append_drop k strs] at h
    exact h.of_append
  obtain ⟨psk, tk, sk, hrunk, hrep, hcountk⟩ := calls_spec hwithin
  obtain ⟨t', htake⟩ := mapState_take hrun k
  rw [htake] at hrunk
  cases hrunk
  refine ⟨tk, htake, hrep.sorted hcountk.wf, hcountk.returned.imp fun str p hp => ?_⟩
  rw [hrep.textOf_eq hp.1, hp.2]

/-- The second of two equal strings is found, and a word is a literal. -/
theorem getStr_interns_twice :
    ∃ ps t, mapState StrTable.getStr [⟨bytes "b", by decide⟩, ⟨bytes "a", by decide⟩,
        ⟨bytes "b", by decide⟩, ⟨bytes "string", by decide⟩] .init = .ok (ps, t) ∧
      ps[0]? = ps[2]? ∧ ps[0]? ≠ ps[1]? := by
  obtain ⟨ps, t, hrun, heq, -⟩ := getStr_interns [⟨bytes "b", by decide⟩, ⟨bytes "a", by decide⟩,
    ⟨bytes "b", by decide⟩, ⟨bytes "string", by decide⟩] ⟨by decide +kernel, by decide +kernel⟩
  exact ⟨ps, t, hrun, (heq 0 2).mpr rfl, fun h => absurd ((heq 0 1).mp h) (by decide)⟩

end Catse.Myxml2
