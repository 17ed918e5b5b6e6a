import Catse.Proto.RoundTrip

/-!
# The round trip of unsigned integers

The four branches for a `uint` agree on its bytes: the writer converts the number to an unsigned
integer and writes it in four bytes, and the reader reads four bytes with `read_int`. But `read_int`
gives an `int`, which `lua_pushnumber` converts as it is. So a number below `2^31` comes back, and
any other comes back as itself minus `2^32` (`reread_uint`).

For a table that conforms to a template with `uint` fields, all of these keep their values exactly
if each of those that last is below `2^31` (`uint_same_iff`). One does not last if a later field of
the template has its name, as a double may: then what is read for that field stays.
-/

namespace Catse

open LuaM ProtoParser

/-- The value is one of the type, where a `uint` is an integer in `0..2^32-1`. -/
def ProtoType.InRange : ProtoType → LuaVal → Prop
  | uint, .number d => ∃ n : ℤ, (0 ≤ n ∧ n < 2^32) ∧ d = .ofInt n
  | ty, v => ty.Fits v

/-- Integers have patterns of their own. -/
theorem Double.ofInt_inj {n m : ℤ} (hn : n.natAbs < 2^53) (hm : m.natAbs < 2^53)
    (h : ofInt n = ofInt m) : n = m := by
  have htrunc := congrArg trunc h
  rw [trunc_ofInt hn, trunc_ofInt hm] at htrunc
  exact Option.some.inj htrunc

theorem encodes_inRange : Encodes ProtoType.InRange where
  encode ty v hv := by
    cases ty with
    | uint =>
      cases v with
      | number d => exact ⟨_, rfl⟩
      | _ => exact hv.elim
    | _ => exact encodes_fits.encode _ v hv
  count := encodes_fits.count

/-- A `uint` is read back as it is exactly if it is below `2^31`. -/
theorem reread_uint {v : LuaVal} (hv : ProtoType.uint.InRange v) :
    ProtoType.uint.reread v = v ↔ ∃ n : ℤ, (0 ≤ n ∧ n < 2^31) ∧ v = .number (.ofInt n) := by
  cases v with
  | number d =>
    obtain ⟨n, hn, rfl⟩ := hv
    -- It is written modulo `2^32`, and those four bytes are read as a signed integer.
    have hread : ProtoType.uint.reread (.number (.ofInt n)) = .number (.ofInt (toInt32 n)) := by
      calc ProtoType.uint.reread (.number (.ofInt n))
          = .number (.ofInt (toInt32 (Double.ofInt n).castUnsigned)) := rfl
        _ = .number (.ofInt (toInt32 (n % 2^32))) := by
          rw [Double.castUnsigned_ofInt (by omega)]
        _ = .number (.ofInt (toInt32 n)) := by rw [toInt32_emod]
    have hrange := toInt32_range n
    rw [hread]
    constructor
    · intro hsame
      -- The signed integer is the number itself.
      have heq : toInt32 n = n :=
        Double.ofInt_inj (by omega) (by omega) (LuaVal.number.inj hsame)
      exact ⟨n, ⟨hn.1, by omega⟩, rfl⟩
    · rintro ⟨m, hm, hnm⟩
      obtain rfl : n = m := Double.ofInt_inj (by omega) (by omega) (LuaVal.number.inj hnm)
      rw [toInt32_of_range (by omega)]
  | _ => exact hv.elim

/-- A value of any other type is. -/
theorem ProtoType.InRange.reread {ty : ProtoType} (hty : ty ≠ .uint) {v : LuaVal}
    (hv : ty.InRange v) : ty.reread v = v := by
  cases ty with
  | uint => exact absurd rfl hty
  | _ => exact ProtoType.Fits.reread hv

/-- The stores of the leaves leave each `uint` with its value exactly if those that last are below
`2^31`. -/
theorem uint_leaves_iff {h h₁ : LuaHeap} {φ τ : List LuaKey → ℕ} {Q : List LuaKey → Prop}
    (htables : Tables Q τ h₁) {L : List Leaf} (hL : ∀ x ∈ L, Q x.place)
    (hrange : ∀ x ∈ L, x.type.InRange (h (φ x.place) x.key)) :
    (∀ x ∈ L, x.type = .uint →
      h₁.setAll (L.map (Leaf.store h φ τ)) (τ x.place) x.key = h (φ x.place) x.key) ↔
    ∀ x : Leaf, x.Lasts L → x.type = .uint →
      ∃ n : ℤ, (0 ≤ n ∧ n < 2^31) ∧ h (φ x.place) x.key = .number (.ofInt n) := by
  constructor
  · intro hsame x hx huint
    -- A leaf that lasts is what is found at its place.
    have hread := (setAll_lasts htables hL hx).symm.trans (hsame x hx.mem huint)
    have hin := hrange x hx.mem
    rw [huint] at hread hin
    exact (reread_uint hin).mp hread
  · intro hsmall x hx _
    obtain ⟨y, hy, hplace, hkey⟩ := exists_lasts hx
    have hin := hrange y hy.mem
    -- What stays is read for the last leaf of the place, whether or not that is a `uint`.
    rw [← hplace, ← hkey, setAll_lasts htables hL hy]
    by_cases huint : y.type = .uint
    · have hy' := hsmall y hy huint
      rw [huint] at hin ⊢
      exact (reread_uint hin).mpr hy'
    · exact hin.reread huint

/-- For every tree, and every table that conforms to it with each `uint` in `0..2^32-1` and has an
encoding that fits a message: `write_msg_dfs` returns zero and has written the encoding. From a
packet of these bytes `read_msg_dfs` reads it into any skeleton of tables, returns true and has read
all. Each `uint` then has its value there exactly if each of those that last is below `2^31`. -/
theorem uint_same_iff (junk : ℕ → ℕ → UInt8) {adj : ℕ → List ProtoAttr} {proto_id fuel : ℕ}
    {T : Template} (hT : Unfolds adj (adj proto_id) T) (hfuel : T.depth < fuel)
    (hadj : ∀ n, ∀ pa ∈ adj n, pa.cnt < 2^15) {s : LuaState Writing} {r : ℕ} {st : List LuaVal}
    (hst : s.stack = .table r :: st) (hempty : s.data.msg.Wrote [])
    (hconf : T.ConformsBy ProtoType.InRange s.heap r)
    (hlen : ∀ e, T.encode s.heap r = some e → e.length ≤ MsgSend.bufSize) :
    ∃ e s', T.encode s.heap r = some e ∧ (writeMsgDfs adj fuel proto_id).run s = .ok 0 s' ∧
      s'.data.msg.Wrote e ∧
      ∀ (t : LuaState Reading) τ st', Tables T.HasTable τ t.heap →
        t.stack = .table (τ []) :: st' → t.data.msg.front = 0 →
        t.data.msg.back = s'.data.msg.buf_len → t.data.msg.buf.take e.length = e →
        ∃ t', (readMsgDfs junk adj fuel proto_id).run t = .ok true t' ∧
          t'.data.msg.hasReadAll = true ∧
          ((∀ x ∈ T.leaves s.heap (placeRef s.heap r) [], x.type = .uint →
              t'.heap (τ x.place) x.key = s.heap (placeRef s.heap r x.place) x.key) ↔
            ∀ x : Leaf, x.Lasts (T.leaves s.heap (placeRef s.heap r) []) → x.type = .uint →
              ∃ n : ℤ, (0 ≤ n ∧ n < 2^31) ∧
                s.heap (placeRef s.heap r x.place) x.key = .number (.ofInt n)) := by
  have hcounts : T.Counts := hT.counts hadj (hadj proto_id)
  have hu := inUse_usedPlace s.heap r T
  obtain ⟨e, he⟩ := hconf.encode encodes_inRange hcounts
  obtain ⟨ret, s', w, hwrite, -, hw, hres⟩ := writeMsgDfs_outcome hT hfuel hst hempty
  rw [he] at hres
  obtain ⟨rfl, -, hwhole⟩ := hres
  have hfit := hlen e he
  have hsize : MsgSend.bufSize = 16384 := rfl
  -- The message has the whole encoding, since it fits.
  obtain rfl : w = e := hwhole (by rw [List.length_nil]; omega)
  refine ⟨w, s', he, hwrite, hw, fun t τ st' htables htst hfront hback hbuf => ?_⟩
  -- The packet holds what was written, and reading it stores the leaves one by one.
  have ht : t.data.msg.Carries w :=
    MsgRecv.carries_new hfront (hback.trans hw.buf_len_eq) (by omega) hbuf
  obtain ⟨t', hrun, hall, hheap, -, hused⟩ :=
    readMsgDfs_encode junk hT hfuel he (hconf.countsIn hcounts) htables htst ht
  have hrange := hconf.leaves (p := []) encodes_inRange hu.source hcounts
  refine ⟨t', hrun, hall, ?_⟩
  rw [hheap]
  exact uint_leaves_iff (htables.mono hu.place) hused hrange

/-- A node with one field, a `uint`. -/
def uintAdj : ℕ → List ProtoAttr
  | 1 => [⟨.uint, 0, 0, [117]⟩]
  | _ => []

/-- Its tree. -/
def uintTemplate : Template := .leaf [117] 0 .uint .done

theorem unfolds_uint : Unfolds uintAdj (uintAdj 1) uintTemplate := .leaf rfl .done

/-- A table that has `n` there. -/
def uintTable (n : ℤ) : LuaHeap := fun _ _ => .number (.ofInt n)

theorem uintTable_conforms {n : ℤ} (hn : 0 ≤ n ∧ n < 2^32) :
    uintTemplate.ConformsBy ProtoType.InRange (uintTable n) 0 :=
  ⟨⟨n, hn, rfl⟩, trivial⟩

/-- `2^31` is written, and read back as `-2^31`. -/
theorem uint_read_negative :
    uintTemplate.ConformsBy ProtoType.InRange (uintTable (2^31)) 0 ∧
    (∃ s', (writeMsgDfs uintAdj 1 1).run (messageOf (uintTable (2^31))) = .ok 0 s' ∧
      s'.data.msg.Wrote [128, 0, 0, 0]) ∧
    ∃ t', (readMsgDfs (fun _ _ => 0) uintAdj 1 1).run (packetOf uintTemplate [128, 0, 0, 0]) =
      .ok true t' ∧
      t'.heap (uintTemplate.placeIdx []) (.str [117]) = .number (.ofInt (-2^31)) ∧
      (.number (.ofInt (-2^31)) : LuaVal) ≠ .number (.ofInt (2^31)) := by
  have hdepth : uintTemplate.depth < 1 := by decide
  have henc : uintTemplate.encode (uintTable (2^31)) 0 = some [128, 0, 0, 0] := by decide +kernel
  have hread : (match (readMsgDfs (fun _ _ => 0) uintAdj 1 1).run
      (packetOf uintTemplate [128, 0, 0, 0]) with
    | .ok b t' => decide (b = true ∧
        t'.heap (uintTemplate.placeIdx []) (.str [117]) = .number (.ofInt (-2^31)))
    | .error _ _ => false) = true := by decide +kernel
  refine ⟨uintTable_conforms (by norm_num),
    writeMsgDfs_messageOf unfolds_uint hdepth henc (by decide), ?_⟩
  cases hrun : (readMsgDfs (fun _ _ => 0) uintAdj 1 1).run
      (packetOf uintTemplate [128, 0, 0, 0]) with
  | ok b t' =>
    rw [hrun] at hread
    obtain ⟨rfl, hvalue⟩ := of_decide_eq_true hread
    exact ⟨t', rfl, hvalue, by decide +kernel⟩
  | error e t' =>
    rw [hrun] at hread
    cases hread

/-- The number below it comes back. -/
theorem uint_same_iff_below : ∃ t',
    (readMsgDfs (fun _ _ => 0) uintAdj 1 1).run (packetOf uintTemplate [127, 255, 255, 255]) =
      .ok true t' ∧
      t'.heap (uintTemplate.placeIdx []) (.str [117]) = .number (.ofInt (2^31 - 1)) := by
  have hdepth : uintTemplate.depth < 1 := by decide
  have hadj : ∀ n, ∀ pa ∈ uintAdj n, pa.cnt < 2^15 := by
    intro n pa hpa
    unfold uintAdj at hpa
    split at hpa
    · rw [List.mem_singleton.mp hpa]
      norm_num
    · cases hpa
  have henc : uintTemplate.encode (uintTable (2^31 - 1)) 0 = some [127, 255, 255, 255] := by
    decide +kernel
  have hlen : ∀ e, uintTemplate.encode (messageOf (uintTable (2^31 - 1))).heap 0 = some e →
      e.length ≤ MsgSend.bufSize := by
    intro e he
    rw [← Option.some.inj (henc.symm.trans he)]
    decide
  obtain ⟨e, s', he, -, hwrote, hread⟩ := uint_same_iff (fun _ _ => 0) unfolds_uint hdepth hadj
    (s := messageOf (uintTable (2^31 - 1))) rfl (messageOf_empty _)
    (uintTable_conforms (by norm_num)) hlen
  -- The packet is the message that was written.
  obtain rfl := Option.some.inj (henc.symm.trans he)
  obtain ⟨t', hrun, -, hiff⟩ := hread (packetOf uintTemplate [127, 255, 255, 255]) _ []
    uintTemplate.tables_skeleton rfl rfl hwrote.buf_len_eq.symm rfl
  have hsame := hiff.mpr fun x _ _ => ⟨2^31 - 1, by norm_num, rfl⟩
  exact ⟨t', hrun, hsame ⟨[], .str [117], .uint⟩ (List.mem_singleton.mpr rfl) rfl⟩

end Catse
