import Catse.Logic.Handshake

/-!
# Where `get_key` writes

`get_key` copies what stands between the name of the header and the end of its line to `key`, and
the magic string behind it, without a look at how long this is. `keyWrites` lists these copies. They
stay within `key` and leave it terminated exactly when the value that is found has less than `92`
bytes and `key` has a zero behind it and the magic string (`getKey_in_bounds_iff`). The value that
is found is one of the C string that starts with the request, which goes on behind a request without
a zero byte.
-/

namespace Catse

namespace Websocket

/-- The copies that `get_key` makes to `key`: the place of each, and its bytes. -/
def keyWrites (w : Websocket) : Outcome (List (ℕ × List UInt8)) :=
  match strstr (w.cstr keySize) keyStrBegin with
  | none => .done []
  | some str1 =>
    match strstr (w.cstr (keySize + str1)) keyStrEnd with
    | none => .crash
    | some d =>
      let n := d - keyStrBegin.length
      let key := (List.range n).map fun i => w.mem (keySize + str1 + keyStrBegin.length + i)
      .done [(0, key), (n, magicStr)]

/-- `get_key` makes these copies, one after the other, and has found a key when there are any. -/
theorem getKey_eq_keyWrites (w : Websocket) :
    w.getKey =
      match w.keyWrites with
      | .crash => .crash
      | .done writes => .done
          (!writes.isEmpty, writes.foldl (fun w p => w.writeKey p.1 p.2) w) := by
  unfold getKey keyWrites
  cases strstr (w.cstr keySize) keyStrBegin with
  | none => rfl
  | some str1 =>
    dsimp only
    cases strstr (w.cstr (keySize + str1)) keyStrEnd with
    | none => rfl
    | some d => rfl

/-- What `get_key` should keep to: it reports that there is no key, or its copies end within `key`
and leave a zero there. A crash is neither. -/
def KeyInBounds (w : Websocket) : Prop :=
  match w.getKey, w.keyWrites with
  | .done (false, _), _ => True
  | .done (true, w'), .done writes =>
    (∀ p ∈ writes, p.1 + p.2.length ≤ keySize) ∧ 0 ∈ w'.key
  | _, _ => False

/-- The C string that `get_key` gets for a request in `buf`: it ends at a zero byte of the request,
and otherwise it goes on with what earlier calls have left. -/
def seen (w : Websocket) (request : List UInt8) : List UInt8 :=
  if 0 ∈ request then visible request else request ++ w.left request

/-- The copies for a value that is found. -/
theorem keyWrites_value {w : Websocket} {v : List UInt8}
    (h : firstValue (w.cstr keySize) = some v) :
    w.keyWrites = .done [(0, v), (v.length, magicStr)] := by
  obtain ⟨str1, d, hname, hend, hlength, hbytes⟩ := found_of_firstValue h
  unfold keyWrites
  rw [hname]
  dsimp only
  rw [hend]
  dsimp only
  rw [hbytes, hlength]

/-- Two copies one behind the other, which end within `key`. -/
theorem key_writeKey {w : Websocket} (hw : w.Sized) {v : List UInt8}
    (hfit : v.length + magicStr.length ≤ keySize) :
    ((w.writeKey 0 v).writeKey v.length magicStr).key =
      v ++ magicStr ++ w.key.drop (v.length + magicStr.length) := by
  have hall := append_writeKey_writeKey hw (hfit.trans (Nat.le_add_right _ _))
  have hkey := hw.key
  rw [List.drop_append_of_le_length (by omega), ← List.append_assoc] at hall
  -- Both sides are the first `128` bytes of the same list.
  refine (List.append_inj hall ?_).1
  rw [hw.writeKey.writeKey.key, List.length_append, List.length_append, List.length_drop]
  omega

/-- The copies of `get_key` are within `key` and leave a zero there, or there are none, exactly when
no header's name is found, or a value with so few bytes that `key` has room and a zero behind it and
the magic string. -/
theorem getKey_in_bounds_iff {w : Websocket} (hw : w.Sized) {request : List UInt8}
    (hmax : request.length ≤ bufSize) :
    (w.copyout request request.length).KeyInBounds ↔
      ¬ keyStrBegin <:+: w.seen request ∨
        ∃ v, firstValue (w.seen request) = some v ∧ v.length + magicStr.length < keySize ∧
          0 ∈ w.key.drop (v.length + magicStr.length) := by
  have hsized : (w.copyout request request.length).Sized := hw.copyout hmax
  have hseen : (w.copyout request request.length).cstr keySize = w.seen request :=
    cstr_copyout hw request
  have hkey : (w.copyout request request.length).key = w.key := rfl
  rw [← hseen, ← hkey]
  generalize w.copyout request request.length = w' at hsized
  unfold KeyInBounds
  by_cases hname : strstr (w'.cstr keySize) keyStrBegin = none
  · rw [getKey_none hname]
    exact iff_of_true trivial (.inl (strstr_eq_none_iff.mp hname))
  · -- The name is there.
    have hinfix : keyStrBegin <:+: w'.cstr keySize := by
      by_contra hnot
      exact hname (strstr_eq_none_iff.mpr hnot)
    cases hvalue : firstValue (w'.cstr keySize) with
    | none =>
      -- No line end behind the name: the copy has a negative length.
      rw [getKey_crash hname hvalue]
      refine iff_of_false not_false ?_
      rintro (hnot | ⟨v, hv, -⟩)
      · exact hnot hinfix
      · cases hv
    | some v =>
      have hnonzero := ne_zero_of_firstValue hvalue
      -- Neither the value nor the magic string holds a zero, so it lies behind them.
      have hzero : ∀ rest, 0 ∈ v ++ magicStr ++ rest ↔ (0 : UInt8) ∈ rest := by
        intro rest
        have hv : (0 : UInt8) ∉ v := fun h => hnonzero 0 h rfl
        have hmagic : (0 : UInt8) ∉ magicStr := by decide
        simp [hv, hmagic]
      rw [getKey_value hvalue, keyWrites_value hvalue]
      dsimp only
      constructor
      · rintro ⟨hfits, hterminated⟩
        have hfit : v.length + magicStr.length ≤ keySize := hfits (v.length, magicStr) (by simp)
        rw [key_writeKey hsized hfit, hzero] at hterminated
        -- A zero is left, so `key` is not full.
        have hroom := List.length_pos_of_mem hterminated
        rw [List.length_drop, hsized.key] at hroom
        exact .inr ⟨v, rfl, by omega, hterminated⟩
      · rintro (hnot | ⟨v', hv', hroom, hterminated⟩)
        · exact absurd hinfix hnot
        · obtain rfl : v = v' := Option.some.inj hv'
          refine ⟨?_, ?_⟩
          · intro p hp
            rcases List.mem_cons.mp hp with rfl | hp
            · show 0 + v.length ≤ keySize
              omega
            · rw [List.mem_singleton.mp hp]
              -- The magic string ends where the second copy does.
              exact hroom.le
          · rw [key_writeKey hsized hroom.le, hzero]
            exact hterminated

/-- A request with a key of `24` bytes, as browsers send them. -/
theorem getKey_in_bounds_browser :
    (init.copyout (keyRequest (List.replicate 24 65))
      (keyRequest (List.replicate 24 65)).length).KeyInBounds := by
  have hw : init.Sized := ⟨List.length_replicate, List.length_replicate⟩
  refine (getKey_in_bounds_iff hw (by decide)).mpr (.inr ?_)
  have hvalue : firstValue (init.seen (keyRequest (List.replicate 24 65))) =
      some (List.replicate 24 65) := by decide +kernel
  exact ⟨_, hvalue, by decide, by decide +kernel⟩

/-- A request with a key of `93` bytes: the copies write the first byte of `buf`. -/
theorem getKey_out_of_bounds : init.Sized ∧
    (keyRequest (List.replicate 93 65)).length ≤ bufSize ∧
    retStr2 <:+ keyRequest (List.replicate 93 65) ∧
    ¬ (init.copyout (keyRequest (List.replicate 93 65))
      (keyRequest (List.replicate 93 65)).length).KeyInBounds := by
  have hvalue : firstValue ((init.copyout (keyRequest (List.replicate 93 65))
      (keyRequest (List.replicate 93 65)).length).cstr keySize) = some (List.replicate 93 65) := by
    decide +kernel
  refine ⟨⟨List.length_replicate, List.length_replicate⟩, by decide, by decide, ?_⟩
  unfold KeyInBounds
  rw [getKey_value hvalue, keyWrites_value hvalue]
  rintro ⟨hfits, -⟩
  have hfit : (List.replicate 93 (65 : UInt8)).length + magicStr.length ≤ keySize :=
    hfits (_, magicStr) (by simp)
  exact absurd hfit (by decide)

end Websocket

end Catse
