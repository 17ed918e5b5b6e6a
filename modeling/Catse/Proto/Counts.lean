import Catse.Proto.Decode

/-!
# The counts that the packet writer writes

`Template.written` is what `write_msg_dfs` writes for a table, piece by piece: each number, each
count of an array with the `cnt` of its field, and each string behind its length. A piece is allowed
if the reader takes it: a count in `0..cnt`, and a length that is the number of the bytes behind it.

The lengths are always allowed, since all of the string is in the message. The counts need not be.
The writer takes the count of an array from its element 0, casts it to a short and writes it as it
is, where the reader compares it with `cnt`. So what is written is allowed, and read back, exactly
if each of these elements is in `0..cnt` (`written_allowed_iff`, `written_accepted_iff`).
-/

namespace Catse

open LuaM ProtoParser

/-- A piece of a message. -/
inductive Written where
  | number (bytes : List UInt8)
  | count (len cnt : ℤ)
  | string (len : ℤ) (bytes : List UInt8)
  deriving DecidableEq

namespace Written

/-- Its bytes. -/
def bytes : Written → List UInt8
  | number bytes => bytes
  | count len _ => beInt 2 len
  | string len bytes => beInt 2 len ++ bytes

/-- The reader takes the piece: a count is in `0..cnt`, and a length is that of the string. -/
def Allowed : Written → Prop
  | number _ => True
  | count len cnt => 0 ≤ len ∧ len ≤ cnt
  | string len bytes => len = bytes.length

end Written

/-- What is written for a value of the type. -/
def ProtoType.written : ProtoType → LuaVal → List Written
  | string, .string str => [.string (toShort str.bytes.length) str.bytes]
  | ty, v => [.number ((ty.encode v).getD [])]

/-- What is written for an array. -/
def writtenArray (h : LuaHeap) (cnt : ℤ) (item : LuaVal → List Written) : LuaVal → List Written
  | .table r =>
    match h r (.int 0) with
    | .number d => .count d.castShort cnt ::
        (List.range d.castShort.toNat).flatMap fun j : ℕ => item (h r (.int (j + 1)))
    | _ => []
  | _ => []

/-- What is written for a struct. -/
def writtenStruct (fields : ℕ → List Written) : LuaVal → List Written
  | .table r => fields r
  | _ => []

/-- What is written for the table `r`. -/
def Template.written (h : LuaHeap) : Template → ℕ → List Written
  | done, _ => []
  | leaf name cnt ty rest, r =>
    (if cnt < 2 then ty.written else writtenArray h cnt ty.written) (h r (.str name)) ++
      rest.written h r
  | node name cnt sub rest, r =>
    (if cnt < 2 then writtenStruct (sub.written h)
      else writtenArray h cnt (writtenStruct (sub.written h))) (h r (.str name)) ++
      rest.written h r

/-- The bytes `e` are those of the pieces `ws`, and if they fit into a message then the pieces are
allowed exactly if `ok` holds. -/
structure Writings (e : List UInt8) (ws : List Written) (ok : Prop) : Prop where
  bytes : ws.flatMap Written.bytes = e
  allowed : e.length ≤ MsgSend.bufSize → ((∀ w ∈ ws, w.Allowed) ↔ ok)

section Writings

variable {e e' : List UInt8} {ws ws' : List Written} {ok ok' : Prop}

theorem writings_nil : Writings [] [] True where
  bytes := rfl
  allowed _ := iff_of_true (fun _ hw => absurd hw List.not_mem_nil) trivial

/-- One piece after the other. -/
theorem Writings.append (hw : Writings e ws ok) (hw' : Writings e' ws' ok') :
    Writings (e ++ e') (ws ++ ws') (ok ∧ ok') where
  bytes := by rw [List.flatMap_append, hw.bytes, hw'.bytes]
  allowed hlen := by
    rw [List.length_append] at hlen
    rw [List.forall_mem_append, hw.allowed (by omega), hw'.allowed (by omega)]

theorem Writings.congr (hw : Writings e ws ok) (hok : ok ↔ ok') : Writings e ws ok' where
  bytes := hw.bytes
  allowed hlen := (hw.allowed hlen).trans hok

/-- A scalar is always allowed. The length of a string that fits into a message is one of a
short. -/
theorem ProtoType.writings {ty : ProtoType} {v : LuaVal} (he : ty.encode v = some e) :
    Writings e (ty.written v) True := by
  -- A number is its bytes, and nothing is asked of them.
  have hnumber : Writings e [.number ((ty.encode v).getD [])] True := by
    rw [he, Option.getD_some]
    exact ⟨List.append_nil e, fun _ => iff_of_true (List.forall_mem_singleton.mpr trivial) trivial⟩
  cases v with
  | string str =>
    cases ty with
    | string =>
      cases he
      refine ⟨List.append_nil _, fun hlen => iff_of_true ?_ trivial⟩
      -- A string that fits into a message has a length that a short holds.
      have hsize : MsgSend.bufSize = 16384 := rfl
      rw [List.length_append] at hlen
      exact List.forall_mem_singleton.mpr (toShort_of_range (by omega))
    | _ => exact hnumber
  | _ => cases ty <;> exact hnumber

/-- The elements of an array, of which `n` are left. -/
theorem writings_elems {item : LuaVal → Option (List UInt8)} {get : ℕ → LuaVal}
    {ws : LuaVal → List Written} {ok : LuaVal → Prop} {n j : ℕ}
    (hitem : ∀ v e, item v = some e → Writings e (ws v) (ok v))
    (he : encodeElems item get n j = some e) :
    Writings e ((List.range' j n).flatMap fun i => ws (get i))
      (∀ i, j ≤ i → i < j + n → ok (get i)) := by
  induction n generalizing j e with
  | zero =>
    cases he
    exact writings_nil.congr (iff_of_true trivial fun i hj hi => absurd hi (by omega))
  | succ n ih =>
    obtain ⟨a, b, ha, hb, rfl⟩ := joinBytes_eq_some.mp he
    apply ((hitem _ _ ha).append (ih hb)).congr
    constructor
    · rintro ⟨hfirst, hrest⟩ i hj hi
      -- The first element, or one of those behind it.
      rcases eq_or_lt_of_le hj with rfl | hlt
      · exact hfirst
      · exact hrest i hlt (by omega)
    · intro hall
      exact ⟨hall j le_rfl (by omega), fun i hj hi => hall i (by omega) (by omega)⟩

/-- An array is allowed if its count and its elements are. -/
theorem writings_array {h : LuaHeap} {item : LuaVal → Option (List UInt8)}
    {ws : LuaVal → List Written} {ok : LuaVal → Prop} {v : LuaVal} (cnt : ℤ)
    (hitem : ∀ v e, item v = some e → Writings e (ws v) (ok v))
    (he : encodeArray h item v = some e) :
    Writings e (writtenArray h cnt ws v) (ArrayCounts h cnt ok v) := by
  obtain ⟨r, d, e', rfl, hd, he', rfl⟩ := encodeArray_inv he
  have hcount : Writings (beInt 2 d.castShort) [.count d.castShort cnt]
      (0 ≤ d.castShort ∧ d.castShort ≤ cnt) :=
    ⟨List.append_nil _, fun _ => List.forall_mem_singleton⟩
  have helems := writings_elems hitem he'
  rw [← List.range_eq_range'] at helems
  -- The count comes first, and then the elements it announces.
  have hwritten : writtenArray h cnt ws (.table r) = [.count d.castShort cnt] ++
      (List.range d.castShort.toNat).flatMap fun j : ℕ => ws (h r (.int (j + 1))) := by
    unfold writtenArray
    dsimp only
    rw [hd]
    rfl
  rw [hwritten]
  apply (hcount.append helems).congr
  unfold ArrayCounts
  dsimp only
  rw [hd]
  simp only [Nat.zero_le, forall_const, Nat.zero_add]

/-- A struct is allowed if its fields are. -/
theorem writings_struct {fields : ℕ → Option (List UInt8)} {ws : ℕ → List Written} {ok : ℕ → Prop}
    {v : LuaVal} (hfields : ∀ r e, fields r = some e → Writings e (ws r) (ok r))
    (he : encodeStruct fields v = some e) :
    Writings e (writtenStruct ws v) (StructCounts ok v) := by
  obtain ⟨r, rfl, hr⟩ := encodeStruct_inv he
  exact hfields r e hr

/-- The bytes of the encoding are those of what is written, and this is allowed exactly if the
counts of the table are. -/
theorem Template.writings {h : LuaHeap} {T : Template} {r : ℕ} (he : T.encode h r = some e) :
    Writings e (T.written h r) (T.CountsIn h r) := by
  induction T generalizing r e with
  | done =>
    cases he
    exact writings_nil
  | leaf name cnt ty rest ih =>
    obtain ⟨a, b, ha, hb, rfl⟩ := joinBytes_eq_some.mp he
    refine Writings.append ?_ (ih hb)
    by_cases hcnt : cnt < 2
    · -- A field that is no array.
      simp only [if_pos hcnt] at ha ⊢
      exact ProtoType.writings ha
    · -- An array of scalars.
      simp only [if_neg hcnt] at ha ⊢
      exact writings_array cnt (fun _ _ => ProtoType.writings) ha
  | node name cnt sub rest ihsub ih =>
    obtain ⟨a, b, ha, hb, rfl⟩ := joinBytes_eq_some.mp he
    refine Writings.append ?_ (ih hb)
    by_cases hcnt : cnt < 2
    · simp only [if_pos hcnt] at ha ⊢
      exact writings_struct (fun _ _ => ihsub) ha
    · simp only [if_neg hcnt] at ha ⊢
      exact writings_array cnt (fun _ _ => writings_struct fun _ _ => ihsub) ha

end Writings

/-- For every tree and every table for which `write_msg_dfs` returns zero and whose encoding fits
the message: the message holds what was written, piece by piece. All pieces are allowed, and
`read_msg_dfs` reads the message into any skeleton of tables, returns true and has read all, exactly
if each array that was written has an element 0 that is, as a short, in `0..cnt`. -/
theorem written_accepted_iff {adj : ℕ → List ProtoAttr} {proto_id fuel : ℕ} {T : Template}
    (hT : Unfolds adj (adj proto_id) T) (hfuel : T.depth < fuel) {s s' : LuaState Writing} {r : ℕ}
    {st : List LuaVal} (hst : s.stack = .table r :: st) (hempty : s.data.msg.Wrote [])
    (hrun : (writeMsgDfs adj fuel proto_id).run s = .ok 0 s')
    (hfits : ∀ e, T.encode s.heap r = some e → e.length ≤ MsgSend.bufSize) :
    ∃ e, s'.data.msg.Wrote e ∧ e = (T.written s.heap r).flatMap Written.bytes ∧
      (((∀ w ∈ T.written s.heap r, w.Allowed) ∧
        ∀ junk (t : LuaState Reading) τ st', Tables T.HasTable τ t.heap →
          t.stack = .table (τ []) :: st' → t.data.msg.front = 0 →
          t.data.msg.back = s'.data.msg.buf_len → t.data.msg.buf.take e.length = e →
          ∃ t', (readMsgDfs junk adj fuel proto_id).run t = .ok true t' ∧
            t'.data.msg.hasReadAll = true) ↔
        T.CountsIn s.heap r) := by
  obtain ⟨ret, s'', e, hrun', -, hwrote, hres⟩ := writeMsgDfs_outcome hT hfuel hst hempty
  rw [hrun] at hrun'
  cases hrun'
  cases henc : T.encode s.heap r with
  | none =>
    rw [henc] at hres
    -- Without an encoding the result is not zero.
    exact absurd rfl hres
  | some e' =>
    rw [henc] at hres
    have hlen := hfits e' henc
    -- The message is written whole, since the encoding fits.
    obtain rfl : e = e' := hres.2.2 (by rw [List.length_nil, zero_add]; exact hlen)
    have hpieces := T.writings henc
    refine ⟨e, hwrote, hpieces.bytes.symm, ?_⟩
    rw [hpieces.allowed hlen]
    constructor
    · exact fun h => h.1
    · intro hcounts
      refine ⟨hcounts, fun junk t τ st' htables htst hfront hback hbuf => ?_⟩
      have hsize : MsgSend.bufSize = 16384 := rfl
      -- A packet of these bytes is read back, which only the counts can prevent.
      have ht : t.data.msg.Carries e :=
        MsgRecv.carries_new hfront (hback.trans hwrote.buf_len_eq) (by omega) hbuf
      obtain ⟨t', hread, hall, -⟩ :=
        readMsgDfs_encode junk hT hfuel henc hcounts htables htst ht
      exact ⟨t', hread, hall⟩

/-- A node with one field, an array of at most two bytes. -/
def countAdj : ℕ → List ProtoAttr
  | 1 => [⟨.byte, 2, 0, [98]⟩]
  | _ => []

/-- Its tree. -/
def countTemplate : Template := .leaf [98] 2 .byte .done

theorem unfolds_count : Unfolds countAdj (countAdj 1) countTemplate := .leaf rfl .done

/-- A table with an array of sevens that says to have `n` elements. -/
def countTable (n : ℤ) (r : ℕ) (k : LuaKey) : LuaVal :=
  if r = 0 then (if k = .str [98] then .table 1 else .nil)
  else if k = .int 0 then .number (.ofInt n)
  else .number (.ofInt 7)

/-- An array with the element 0 three, of two elements at most, is written with that count, and the
message is refused. -/
theorem count_over_written : ∃ s',
    (writeMsgDfs countAdj 1 1).run (messageOf (countTable 3)) = .ok 0 s' ∧
      s'.data.msg.Wrote [0, 3, 7, 7, 7] ∧
      .count 3 2 ∈ countTemplate.written (countTable 3) 0 ∧ ¬(Written.count 3 2).Allowed ∧
      ∃ t', (readMsgDfs (fun _ _ => 0) countAdj 1 1).run
        (packetOf countTemplate [0, 3, 7, 7, 7]) = .ok false t' := by
  have hdepth : countTemplate.depth < 1 := by decide
  have henc : countTemplate.encode (countTable 3) 0 = some [0, 3, 7, 7, 7] := by decide +kernel
  have hwritten : .count 3 2 ∈ countTemplate.written (countTable 3) 0 := by decide +kernel
  -- The reader refuses the count before it reads an element.
  have hrefused : (match (readMsgDfs (fun _ _ => 0) countAdj 1 1).run
      (packetOf countTemplate [0, 3, 7, 7, 7]) with
    | .ok b _ => b == false
    | .error _ _ => false) = true := by decide +kernel
  obtain ⟨s', hrun, hwrote⟩ := writeMsgDfs_messageOf unfolds_count hdepth henc (by decide)
  refine ⟨s', hrun, hwrote, hwritten, fun hcount => absurd hcount.2 (by norm_num), ?_⟩
  cases hread : (readMsgDfs (fun _ _ => 0) countAdj 1 1).run
      (packetOf countTemplate [0, 3, 7, 7, 7]) with
  | ok b t' =>
    rw [hread] at hrefused
    exact ⟨t', by rw [eq_of_beq hrefused]⟩
  | error e t' =>
    rw [hread] at hrefused
    cases hrefused

/-- With two elements it is written and read back. -/
theorem written_accepted_iff_two :
    (∀ w ∈ countTemplate.written (countTable 2) 0, w.Allowed) ∧
      ∃ t', (readMsgDfs (fun _ _ => 0) countAdj 1 1).run (packetOf countTemplate [0, 2, 7, 7]) =
        .ok true t' ∧ t'.data.msg.hasReadAll = true := by
  have hdepth : countTemplate.depth < 1 := by decide
  have henc : countTemplate.encode (countTable 2) 0 = some [0, 2, 7, 7] := by decide +kernel
  have hfits : ∀ e, countTemplate.encode (messageOf (countTable 2)).heap 0 = some e →
      e.length ≤ MsgSend.bufSize := by
    intro e he
    rw [← Option.some.inj (henc.symm.trans he)]
    decide
  have hcounts : countTemplate.CountsIn (countTable 2) 0 := by
    refine ⟨?_, trivial⟩
    show (0 ≤ (Double.ofInt 2).castShort ∧ (Double.ofInt 2).castShort ≤ 2) ∧ _
    rw [Double.castShort_ofInt (by norm_num)]
    exact ⟨by norm_num, fun _ _ => trivial⟩
  obtain ⟨s', hrun, hwrote⟩ := writeMsgDfs_messageOf unfolds_count hdepth henc (by decide)
  obtain ⟨e, -, hbytes, hiff⟩ := written_accepted_iff unfolds_count hdepth
    (s := messageOf (countTable 2)) rfl (messageOf_empty _) hrun hfits
  -- The message is the encoding.
  obtain rfl : e = [0, 2, 7, 7] := hbytes.trans (countTemplate.writings henc).bytes
  obtain ⟨hallowed, hread⟩ := hiff.mpr hcounts
  exact ⟨hallowed, hread _ (packetOf countTemplate [0, 2, 7, 7]) _ []
    countTemplate.tables_skeleton rfl rfl hwrote.buf_len_eq.symm rfl⟩

end Catse
