import Catse.Logic.Lz77
import Mathlib.Data.Finset.Lattice.Fold
import Mathlib.Order.Interval.Finset.Nat
import Mathlib.Order.Lattice.Nat
import Mathlib.Algebra.Order.Interval.Finset.SuccPred
import Mathlib.Data.Nat.SuccPred

/-!
# What `zip` writes

`emissions` is the main loop of `zip` without the tests for room: the places that the loop visits,
each with what it writes there. `zip` puts the bytes of these into its buffer until it is full
(`zip_eq_put`), so that the size of `zipped` decides what it returns.

A match takes three bytes for at least three of the input, and a byte takes one, or two when it is
the escape byte. So the output is no longer than the input with its escape bytes counted twice
(`zip_bound`).

The loop over `k` breaks at the length that two places have in common (`breakAt_eq`), as long as it
is below its limit of `258`. Beyond it the loop ends without a break, and the place is passed over.
The search therefore finds the longest of the matches of at most `257` bytes (`search_eq_sup`),
which is not what a match may have of the longest one (`copies_longest_iff`).
-/

namespace Catse

namespace Lz77

/-! ## The loop without its tests for room -/

/-- What `zip` writes at a place: a match, with `maxx` and `ans`, or a byte. -/
inductive Emitted where
  | copy (maxx ans : ℕ)
  | byte (b : UInt8)
deriving DecidableEq

/-- The bytes written. -/
def Emitted.bytes : Emitted → List UInt8
  | .copy maxx ans => [sp, UInt8.ofNat (maxx - 2), UInt8.ofNat (ans - 1)]
  | .byte b => if b = sp then [sp, 0] else [b]

/-- The loop of `lz77::zip` from `i` on, with the places that it visits. -/
def emissions (input : List UInt8) (i : ℕ) : List (ℕ × Emitted) :=
  if h : i < input.length then
    let best := search input i
    if 2 < best.1 then (i, .copy best.1 best.2) :: emissions input (i + best.1)
    else (i, .byte input[i]) :: emissions input (i + 1)
  else []
termination_by input.length - i
decreasing_by all_goals grind

/-- The output of `zip` into a buffer without an end. -/
def zipped (input : List UInt8) : List UInt8 := (emissions input 0).flatMap (·.2.bytes)

/-- Putting some bytes and then others. -/
theorem put_append (out_cap : ℕ) (out bs cs : List UInt8) :
    put out_cap out (bs ++ cs) =
      match put out_cap out bs with
      | (false, out) => (false, out)
      | (true, out) => put out_cap out cs := by
  induction bs generalizing out with
  | nil => rfl
  | cons b bs ih =>
    rw [List.cons_append, put, put]
    -- Without room for the first byte the others are not tried.
    by_cases hfull : out_cap ≤ out.length
    · rw [if_pos hfull, if_pos hfull]
    · rw [if_neg hfull, if_neg hfull, ih]

/-- `put` returns false exactly when there is no room for all the bytes. -/
theorem put_false_iff {out_cap : ℕ} {out : List UInt8} (bs : List UInt8)
    (hroom : out.length ≤ out_cap) :
    (put out_cap out bs).1 = false ↔ out_cap < out.length + bs.length := by
  induction bs generalizing out with
  | nil =>
    rw [put, List.length_nil, add_zero]
    exact iff_of_false Bool.noConfusion (by omega)
  | cons b bs ih =>
    rw [put, List.length_cons]
    by_cases hfull : out_cap ≤ out.length
    · rw [if_pos hfull]
      exact iff_of_true rfl (by omega)
    · -- There is room for this byte, and the others come behind it.
      have hlen : (out ++ [b]).length = out.length + 1 := by
        rw [List.length_append, List.length_singleton]
      rw [if_neg hfull, ih (by omega), hlen]
      omega

/-- The loop puts what is written at the places that it visits into the buffer. -/
theorem zipLoop_eq_put (out_cap : ℕ) (input : List UInt8) (i : ℕ) (out : List UInt8) :
    zipLoop out_cap input i out = put out_cap out ((emissions input i).flatMap (·.2.bytes)) := by
  -- Induction along the iterations of the loop.
  induction hn : input.length - i using Nat.strong_induction_on generalizing i out with
  | _ n ih =>
  rw [zipLoop, emissions]
  by_cases hlt : i < input.length
  · rw [dif_pos hlt, dif_pos hlt]
    dsimp only
    by_cases hmatch : 2 < (search input i).1
    · rw [if_pos hmatch, if_pos hmatch, List.flatMap_cons, put_append, Emitted.bytes]
      cases put out_cap out
          [sp, UInt8.ofNat ((search input i).1 - 2), UInt8.ofNat ((search input i).2 - 1)] with
      | mk all mid =>
      cases all with
      -- Without room the loop returns, and nothing else is put.
      | false => rfl
      | true => exact ih _ (by omega) (i + (search input i).1) mid rfl
    · rw [if_neg hmatch, if_neg hmatch, List.flatMap_cons, put_append, Emitted.bytes]
      cases put out_cap out (if input[i] = sp then [sp, 0] else [input[i]]) with
      | mk all mid =>
      cases all with
      | false => rfl
      | true => exact ih _ (by omega) (i + 1) mid rfl
  · rw [dif_neg hlt, dif_neg hlt]
    rfl

theorem zip_eq_put (out_cap : ℕ) (input : List UInt8) :
    zip out_cap input = put out_cap [] (zipped input) :=
  zipLoop_eq_put out_cap input 0 []

/-! ## The size of the output -/

/-- From a place on, the output is no longer than the input with its escape bytes counted twice. -/
theorem length_emissions_le (input : List UInt8) (i : ℕ) :
    ((emissions input i).flatMap (·.2.bytes)).length ≤
      (input.drop i).length + (input.drop i).count sp := by
  induction hn : input.length - i using Nat.strong_induction_on generalizing i with
  | _ n ih =>
  rw [emissions]
  by_cases hlt : i < input.length
  · rw [dif_pos hlt]
    dsimp only
    by_cases hmatch : 2 < (search input i).1
    · -- Three bytes for a match of at least three.
      rw [if_pos hmatch, List.flatMap_cons, List.length_append]
      have hfits := (search_found hlt (by omega)).fits
      have hrest := ih _ (by omega) (i + (search input i).1) rfl
      -- The escape byte may be among those of the match, which only helps.
      have hcount : (input.drop (i + (search input i).1)).count sp ≤ (input.drop i).count sp := by
        rw [← List.drop_drop]
        exact (List.drop_sublist _ _).count_le sp
      have hbytes : (Emitted.copy (search input i).1 (search input i).2).bytes.length = 3 := rfl
      rw [List.length_drop] at hrest ⊢
      dsimp only
      omega
    · -- A byte, once or twice.
      rw [if_neg hmatch, List.flatMap_cons, List.length_append]
      have hrest := ih _ (by omega) (i + 1) rfl
      have hcons : input.drop i = input[i] :: input.drop (i + 1) := List.drop_eq_getElem_cons hlt
      have hbytes : (Emitted.byte input[i]).bytes.length = 1 + if input[i] = sp then 1 else 0 := by
        rw [Emitted.bytes]
        split_ifs <;> rfl
      rw [hcons, List.length_cons, List.count_cons]
      dsimp only
      rw [hbytes]
      simp only [beq_iff_eq]
      omega
  · rw [dif_neg hlt]
    exact Nat.zero_le _

/-- What is written at a place is what the search says of it. -/
theorem mem_emissions {input : List UInt8} {i n : ℕ} {e : Emitted}
    (h : (n, e) ∈ emissions input i) :
    ∃ hlt : n < input.length,
      e = if 2 < (search input n).1 then .copy (search input n).1 (search input n).2
        else .byte input[n] := by
  induction hn : input.length - i using Nat.strong_induction_on generalizing i with
  | _ m ih =>
  rw [emissions] at h
  by_cases hlt : i < input.length
  · rw [dif_pos hlt] at h
    dsimp only at h
    by_cases hmatch : 2 < (search input i).1
    · rw [if_pos hmatch] at h
      rcases List.mem_cons.mp h with hhead | htail
      · cases hhead
        -- The place itself.
        exact ⟨hlt, (if_pos hmatch).symm⟩
      · exact ih _ (by omega) htail rfl
    · rw [if_neg hmatch] at h
      rcases List.mem_cons.mp h with hhead | htail
      · cases hhead
        exact ⟨hlt, (if_neg hmatch).symm⟩
      · exact ih _ (by omega) htail rfl
  · rw [dif_neg hlt] at h
    exact absurd h List.not_mem_nil

/-- What is written as a match has been found by the search at that place. -/
theorem found_of_mem_emissions {input : List UInt8} {i n maxx ans : ℕ}
    (h : (n, Emitted.copy maxx ans) ∈ emissions input i) :
    2 < maxx ∧ Found input n maxx ans := by
  obtain ⟨hlt, he⟩ := mem_emissions h
  by_cases hmatch : 2 < (search input n).1
  · rw [if_pos hmatch] at he
    cases he
    exact ⟨hmatch, search_found hlt (by omega)⟩
  · rw [if_neg hmatch] at he
    cases he

/-- `zip` writes no more than the input with its escape bytes counted twice, the length and the
distance of a match fit into their bytes, and `zip` fails exactly when what it has to write does not
fit. -/
theorem zip_bound (input : List UInt8) :
    ((zipped input).length ≤ input.length + input.count sp ∧
      (zipped input).length ≤ 2 * input.length) ∧
    (∀ i maxx ans, (i, Emitted.copy maxx ans) ∈ emissions input 0 →
      (1 ≤ (maxx : ℤ) - 2 ∧ (maxx : ℤ) - 2 ≤ 255) ∧ (0 ≤ (ans : ℤ) - 1 ∧ (ans : ℤ) - 1 ≤ 255)) ∧
    ∀ out_cap, (zip out_cap input).1 = false ↔ out_cap < (zipped input).length := by
  have hlen : (zipped input).length ≤ input.length + input.count sp := length_emissions_le input 0
  refine ⟨⟨hlen, ?_⟩, ?_, ?_⟩
  · have hcount : input.count sp ≤ input.length := List.count_le_length
    omega
  · intro i maxx ans hmem
    obtain ⟨hmatch, hfound⟩ := found_of_mem_emissions hmem
    -- `ans` is within the window of `256`, and `maxx` below the limit of `258`.
    have hpos := hfound.ans_pos
    have hle := hfound.ans_le
    have hmax := hfound.maxx_le
    omega
  · intro out_cap
    rw [zip_eq_put, put_false_iff _ (Nat.zero_le _), List.length_nil, Nat.zero_add]

/-- Five escape bytes take less than twice their number: the last four are a match. -/
example : zipped [124, 124, 124, 124, 124] = [124, 0, 124, 2, 0] := by decide +kernel

/-! ## The longest match -/

/-- The number of bytes from `i` on that are those from `d` places before, up to the end of the
input. -/
def commonLength (input : List UInt8) (i d : ℕ) : ℕ :=
  (((input.drop i).zip (input.drop (i - d))).takeWhile fun p => p.1 == p.2).length

/-- The most bytes from `i` on that are those before, over the distances of the window. -/
def longest (input : List UInt8) (i : ℕ) : ℕ :=
  (Finset.Icc 1 (min i 256)).sup (commonLength input i)

/-- Two lists agree up to the end of what they have in common, and no further. -/
theorem takeWhile_zip_spec (l m : List UInt8) {n : ℕ}
    (hn : ((l.zip m).takeWhile fun p => p.1 == p.2).length = n) :
    n ≤ l.length ∧ (∀ k < n, l[k]? = m[k]?) ∧ (n < l.length → n < m.length → l[n]? ≠ m[n]?) := by
  induction l generalizing m n with
  | nil =>
    -- One list ends.
    subst hn
    exact ⟨le_rfl, fun k hk => absurd hk (Nat.not_lt_zero k), fun h => absurd h (Nat.not_lt_zero 0)⟩
  | cons a l ih =>
    cases m with
    | nil =>
      subst hn
      refine ⟨Nat.zero_le _, fun k hk => absurd hk (Nat.not_lt_zero k), fun _ h => ?_⟩
      exact absurd h (Nat.not_lt_zero 0)
    | cons b m =>
      rw [List.zip_cons_cons, List.takeWhile_cons] at hn
      by_cases hab : a = b
      · -- One more byte in common.
        rw [if_pos (beq_iff_eq.mpr hab), List.length_cons] at hn
        obtain ⟨hle, hsame, hend⟩ := ih m rfl
        rw [← hn]
        refine ⟨Nat.succ_le_succ hle, ?_, fun hl hm => ?_⟩
        · intro k hk
          cases k with
          | zero => rw [List.getElem?_cons_zero, List.getElem?_cons_zero, hab]
          | succ k => exact hsame k (Nat.lt_of_succ_lt_succ hk)
        · exact hend (Nat.lt_of_succ_lt_succ hl) (Nat.lt_of_succ_lt_succ hm)
      · rw [if_neg (fun h => hab (beq_iff_eq.mp h)), List.length_nil] at hn
        subst hn
        refine ⟨Nat.zero_le _, fun k hk => absurd hk (Nat.not_lt_zero k), fun _ _ h => ?_⟩
        rw [List.getElem?_cons_zero, List.getElem?_cons_zero] at h
        exact hab (Option.some.inj h)

/-- The bytes in common are within the input, they are the same, and no byte behind them is. -/
theorem commonLength_spec {input : List UInt8} {i d : ℕ} (hi : i < input.length) :
    i + commonLength input i d ≤ input.length ∧
      (∀ k < commonLength input i d, input[i + k]? = input[i - d + k]?) ∧
      (i + commonLength input i d < input.length →
        input[i + commonLength input i d]? ≠ input[i - d + commonLength input i d]?) := by
  obtain ⟨hle, hsame, hend⟩ := takeWhile_zip_spec (input.drop i) (input.drop (i - d)) rfl
  change commonLength input i d ≤ _ at hle
  change ∀ k < commonLength input i d, _ at hsame
  change commonLength input i d < _ → commonLength input i d < _ →
    (input.drop i)[commonLength input i d]? ≠ (input.drop (i - d))[commonLength input i d]? at hend
  simp only [List.length_drop, List.getElem?_drop] at hle hsame hend
  refine ⟨by omega, hsame, fun hlt => hend (by omega) (by omega)⟩

/-- The loop over `k` breaks where the bytes in common end, below its limit. -/
theorem breakAt_eq {input : List UInt8} {i d : ℕ} (hi : i < input.length) :
    breakAt input i (i - d) =
      if commonLength input i d < 258 then some (commonLength input i d) else none := by
  obtain ⟨hfits, hsame, hend⟩ := commonLength_spec (d := d) hi
  -- Before the end of what is in common neither test of the loop holds.
  have hbefore : ∀ k < commonLength input i d,
      (decide (input.length ≤ i + k) || input[i + k]? != input[i - d + k]?) = false := by
    intro k hk
    rw [hsame k hk, bne_self_eq_false, Bool.or_false, decide_eq_false_iff_not]
    omega
  by_cases hlt : commonLength input i d < 258
  · -- There the bytes differ, or the input ends.
    have hat : (decide (input.length ≤ i + commonLength input i d) ||
        input[i + commonLength input i d]? != input[i - d + commonLength input i d]?) = true := by
      by_cases hmore : i + commonLength input i d < input.length
      · rw [bne_iff_ne.mpr (hend hmore), Bool.or_true]
      · rw [decide_eq_true (by omega), Bool.true_or]
    rw [if_pos hlt, breakAt, List.find?_range_eq_some]
    refine ⟨hat, List.mem_range.mpr hlt, fun k hk => ?_⟩
    rw [hbefore k hk]
    rfl
  · -- The limit comes first, and the loop does not break.
    rw [if_neg hlt, breakAt, List.find?_range_eq_none]
    intro k hk
    rw [hbefore k (by omega)]
    rfl

/-- After some of the distances `maxx` is the largest length in common that the loop over `k` broke
at. -/
theorem foldl_searchStep {input : List UInt8} {i : ℕ} (hi : i < input.length) (n : ℕ) :
    (((List.range n).map fun n => i - 1 - n).foldl (searchStep input i) (0, 0)).1 =
      ((Finset.Icc 1 n).filter (commonLength input i · < 258)).sup (commonLength input i) := by
  induction n with
  | zero => rfl
  | succ n ih =>
    have hj : i - 1 - n = i - (n + 1) := by omega
    have hinsert : Finset.Icc 1 (n + 1) = insert (n + 1) (Finset.Icc 1 n) :=
      (Finset.insert_Icc_right_eq_Icc_add_one (by omega)).symm
    rw [List.range_succ, List.map_append, List.foldl_append, List.map_singleton, List.foldl_cons,
      List.foldl_nil, hinsert, Finset.filter_insert, searchStep, hj, breakAt_eq hi]
    by_cases hlt : commonLength input i (n + 1) < 258
    · -- The loop breaks: the larger one is kept.
      rw [if_pos hlt, if_pos hlt, Finset.sup_insert, ← ih]
      dsimp only
      split_ifs with hlonger
      · exact (max_eq_left hlonger.le).symm
      · exact (max_eq_right (not_lt.mp hlonger)).symm
    · -- The loop ends without a break, and `maxx` is as before.
      rw [if_neg hlt, if_neg hlt]
      exact ih

/-- The length that the search finds is the largest of those in common that the loop over `k` breaks
at. -/
theorem search_eq_sup {input : List UInt8} {i : ℕ} (hi : i < input.length) :
    (search input i).1 = ((Finset.Icc 1 (min i 256)).filter (commonLength input i · < 258)).sup
      (commonLength input i) :=
  foldl_searchStep hi (min i 256)

/-- The search finds as much of the longest match as the format has exactly when this is all of it,
or when another one is of that length. -/
theorem search_eq_min_iff {input : List UInt8} {i : ℕ} (hi : i < input.length) :
    (search input i).1 = min (longest input i) 257 ↔
      longest input i ≤ 257 ∨
        ∃ d ∈ Finset.Icc 1 (min i 256), commonLength input i d = 257 := by
  have hle : (search input i).1 ≤ longest input i := by
    rw [search_eq_sup hi]
    exact Finset.sup_mono (Finset.filter_subset _ _)
  constructor
  · intro heq
    rw [or_iff_not_imp_left]
    intro hlong
    -- The length `257` is found, and so it is one of those that are compared.
    have h257 : (search input i).1 = 257 := by omega
    rw [search_eq_sup hi] at h257
    have hne : ((Finset.Icc 1 (min i 256)).filter (commonLength input i · < 258)).Nonempty := by
      rw [Finset.nonempty_iff_ne_empty]
      intro hempty
      rw [hempty] at h257
      cases h257
    obtain ⟨d, hd, hsup⟩ := Finset.exists_mem_eq_sup _ hne (commonLength input i)
    exact ⟨d, Finset.mem_of_mem_filter d hd, hsup.symm.trans h257⟩
  · rintro (hshort | ⟨d, hd, hcommon⟩)
    · -- Every length is below the limit.
      have hall : (Finset.Icc 1 (min i 256)).filter (commonLength input i · < 258) =
          Finset.Icc 1 (min i 256) := by
        rw [Finset.filter_eq_self]
        intro d hd
        have hd' : commonLength input i d ≤ longest input i := Finset.le_sup hd
        omega
      rw [search_eq_sup hi, hall, min_eq_left hshort]
      rfl
    · -- The other one is found, and nothing longer can be.
      have hmem : d ∈ (Finset.Icc 1 (min i 256)).filter (commonLength input i · < 258) :=
        Finset.mem_filter.mpr ⟨hd, by omega⟩
      have hfound : commonLength input i d ≤ (search input i).1 := by
        rw [search_eq_sup hi]
        exact Finset.le_sup hmem
      have hmax : (search input i).1 ≤ 257 := by
        rw [search_eq_sup hi]
        refine Finset.sup_le fun d' hd' => ?_
        have hlt := (Finset.mem_filter.mp hd').2
        omega
      omega

/-- The main loop of `zip` visits a place. -/
def Visits (input : List UInt8) (i : ℕ) : Prop := ∃ e, (i, e) ∈ emissions input 0

/-- Where the longest match has three bytes or more, `zip` writes a match as long as the format has
of it, if and only if the longest match has at most `257` bytes or another one has just these. -/
theorem copies_longest_iff {input : List UInt8} {i : ℕ} (h : Visits input i) :
    (3 ≤ longest input i →
      ∃ ans, (i, Emitted.copy (min (longest input i) 257) ans) ∈ emissions input 0) ↔
    (longest input i ≤ 257 ∨ ∃ d ∈ Finset.Icc 1 (min i 256), commonLength input i d = 257) := by
  obtain ⟨e, hmem⟩ := h
  obtain ⟨hlt, he⟩ := mem_emissions hmem
  rw [← search_eq_min_iff hlt]
  constructor
  · intro hcopy
    by_cases hlong : 3 ≤ longest input i
    · -- The place has one token only, so the match is the one that the search found.
      obtain ⟨ans, hmem'⟩ := hcopy hlong
      obtain ⟨_, hcopied⟩ := mem_emissions hmem'
      by_cases hmatch : 2 < (search input i).1
      · rw [if_pos hmatch] at hcopied
        exact (Emitted.copy.inj hcopied).1.symm
      · rw [if_neg hmatch] at hcopied
        cases hcopied
    · -- Nothing to find.
      exact (search_eq_min_iff hlt).mpr (.inl (by omega))
  · intro hsearch hlong
    rw [if_pos (by omega)] at he
    rw [← hsearch]
    exact ⟨(search input i).2, he ▸ hmem⟩

/-- Five times the same byte: the four behind the first are a match. -/
theorem copies_longest_short :
    ∃ ans, (1, Emitted.copy (min (longest [97, 97, 97, 97, 97] 1) 257) ans) ∈
      emissions [97, 97, 97, 97, 97] 0 :=
  (copies_longest_iff ⟨.copy 4 1, by decide +kernel⟩).mpr (.inl (by decide +kernel))
    (by decide +kernel)

/-- A byte `259` times: the match of `258` bytes behind the first one is passed over, and the byte
is written as itself. -/
theorem byte_for_longest : ∃ input i, Visits input i ∧ 3 ≤ longest input i ∧
    ¬ ∃ ans, (i, Emitted.copy (min (longest input i) 257) ans) ∈ emissions input 0 := by
  have hemits : emissions (List.replicate 259 97) 0 =
      [(0, .byte 97), (1, .byte 97), (2, .copy 257 1)] := by decide +kernel
  have hlongest : longest (List.replicate 259 97) 1 = 258 := by decide +kernel
  refine ⟨List.replicate 259 97, 1, ⟨.byte 97, ?_⟩, ?_, ?_⟩
  · rw [hemits]
    decide
  · rw [hlongest]
    decide
  · rintro ⟨ans, hmem⟩
    rw [hemits, hlongest] at hmem
    have hnot : ∀ e, (1, e) ∈ [(0, Emitted.byte 97), (1, .byte 97), (2, .copy 257 1)] →
        e = .byte 97 := by
      intro e he
      simpa using he
    cases hnot _ hmem

end Lz77

end Catse
