import Catse.Client.Machine
import Catse.Proto.Template
import Mathlib.Algebra.Order.Ring.Star

/-!
# What the packet writer writes

The encoding of a Lua table (`Template.encode`) is what the fields of the template ask for: each
integer in network order at its width, a double as its eight bytes, a string behind its length, an
array behind its count, and a struct as its fields. There is none where a value has the wrong type.

`write_msg_dfs` always returns, and returns zero exactly if there is an encoding
(`Template.writes_write`). Whether the encoding fits into the message makes no difference to the
result, since the writes that do not fit are skipped without a word. If it fits then the message
holds it, and so the message that `unicast`, `broadcast` or `multicast` pushes is never truncated
exactly if it does (`sent_whole_iff`).
-/

namespace Catse

open LuaM ProtoParser

/-! ## The encoding -/

/-- One encoding after the other. -/
def joinBytes (x y : Option (List UInt8)) : Option (List UInt8) :=
  x.bind fun a => y.map fun b => a ++ b

/-- The encoding of a value of the type. -/
def ProtoType.encode : ProtoType → LuaVal → Option (List UInt8)
  | byte, .number d => some (beInt 1 d.castChar)
  | short, .number d => some (beInt 2 d.castShort)
  | int, .number d => some (beInt 4 d.castUnsigned)
  | uint, .number d => some (beInt 4 d.castUnsigned)
  | double, .number d => some (beBytes 8 d.toNat)
  | string, .string str => some (beInt 2 (toShort str.bytes.length) ++ str.bytes)
  | _, _ => none

/-- The encoding of the `n` elements of an array from the index `j` on. -/
def encodeElems (item : LuaVal → Option (List UInt8)) (get : ℕ → LuaVal) :
    ℕ → ℕ → Option (List UInt8)
  | 0, _ => some []
  | n + 1, j => joinBytes (item (get j)) (encodeElems item get n (j + 1))

/-- The encoding of an array, whose length is its element 0. -/
def encodeArray (h : LuaHeap) (item : LuaVal → Option (List UInt8)) : LuaVal → Option (List UInt8)
  | .table r =>
    match h r (.int 0) with
    | .number d =>
      joinBytes (some (beInt 2 d.castShort))
        (encodeElems item (fun j => h r (.int (j + 1))) d.castShort.toNat 0)
    | _ => none
  | _ => none

/-- The encoding of a struct, given that of its table. -/
def encodeStruct (fields : ℕ → Option (List UInt8)) : LuaVal → Option (List UInt8)
  | .table r => fields r
  | _ => none

/-- The encoding of the table `r`. -/
def Template.encode (h : LuaHeap) : Template → ℕ → Option (List UInt8)
  | done, _ => some []
  | leaf name cnt ty rest, r =>
    joinBytes ((if cnt < 2 then ty.encode else encodeArray h ty.encode) (h r (.str name)))
      (rest.encode h r)
  | node name cnt sub rest, r =>
    joinBytes ((if cnt < 2 then encodeStruct (sub.encode h)
      else encodeArray h (encodeStruct (sub.encode h))) (h r (.str name))) (rest.encode h r)

/-! ## The writer -/

/-- A write appends its bytes if they fit, and writes nothing otherwise. -/
theorem MsgSend.Wrote.writeBytes_any {m : MsgSend} {w a : List UInt8} (h : m.Wrote w) {k : ℤ}
    (hk : k = a.length) (ha : a.length < 2^31) :
    ∃ w', (m.writeBytes a k).Wrote w' ∧ (w.length + a.length ≤ bufSize → w' = w ++ a) := by
  rcases Nat.lt_or_ge bufSize (w.length + a.length) with hfull | hfit
  · rw [h.writeBytes_skip hk ha hfull]
    exact ⟨w, h, fun hfit => absurd hfit (by omega)⟩
  · exact ⟨w ++ a, h.writeBytes hk hfit, fun _ => rfl⟩

/-- The code returns, and it returns zero exactly if there is an encoding. Then the stack is as
before, and if the encoding fits behind the bytes `w` of the message it is written there. -/
def Outcome (m : WriteM ℤ) (s : LuaState Writing) (w : List UInt8) (enc : Option (List UInt8)) :
    Prop :=
  ∃ ret s' w', m.run s = .ok ret s' ∧ s'.heap = s.heap ∧ s'.data.msg.Wrote w' ∧
    match enc with
    | none => ret ≠ 0
    | some e => ret = 0 ∧ s'.stack = s.stack ∧
      (w.length + e.length ≤ MsgSend.bufSize → w' = w ++ e)

/-- The code writes the value on top of the stack. -/
def Writes (m : WriteM ℤ) (enc : LuaHeap → LuaVal → Option (List UInt8)) : Prop :=
  ∀ s v st w, s.stack = v :: st → s.data.msg.Wrote w → Outcome m s w (enc s.heap v)

section Outcome

variable {m : WriteM ℤ} {s : LuaState Writing} {w a : List UInt8} {e e' : Option (List UInt8)}

/-- Nothing is written. -/
theorem outcome_return (hw : s.data.msg.Wrote w) : Outcome (pure 0) s w (some []) :=
  ⟨0, s, w, rfl, rfl, hw, rfl, rfl, fun _ => (List.append_nil w).symm⟩

/-- A write, and what follows it. -/
theorem outcome_write {f : MsgSend → MsgSend}
    (hf : ∃ w', (f s.data.msg).Wrote w' ∧ (w.length + a.length ≤ MsgSend.bufSize → w' = w ++ a))
    (hm : ∀ w', (f s.data.msg).Wrote w' →
      Outcome m { s with data := { s.data with msg := f s.data.msg } } w' e) :
    Outcome (write f >>= fun _ => m) s w (joinBytes (some a) e) := by
  obtain ⟨w₁, hw₁, hfits₁⟩ := hf
  obtain ⟨ret, s', w₂, hrun, hheap, hw₂, hres⟩ := hm w₁ hw₁
  refine ⟨ret, s', w₂, hrun, hheap, hw₂, ?_⟩
  cases e with
  | none => exact hres
  | some b =>
    obtain ⟨hret, hstack, hfits₂⟩ := hres
    refine ⟨hret, hstack, fun hfit => ?_⟩
    rw [List.length_append] at hfit
    have hfirst := hfits₁ (by omega)
    rw [hfits₂ (by rw [hfirst, List.length_append]; omega), hfirst, List.append_assoc]

/-- A value is put on the stack, written and popped, unless that has failed, and then the code goes
on. -/
theorem outcome_item {get : WriteM Unit} {v : LuaVal} {rest : WriteM ℤ}
    (hget : get.run s = .ok () { s with stack := v :: s.stack })
    (hm : Outcome m { s with stack := v :: s.stack } w e)
    (hrest : ∀ s' w', s'.heap = s.heap → s'.stack = s.stack → s'.data.msg.Wrote w' →
      Outcome rest s' w' e') :
    Outcome (get >>= fun _ => m >>= fun ret =>
      if ret ≠ 0 then pure ret else pop >>= fun _ => rest) s w (joinBytes e e') := by
  obtain ⟨ret, t, w₁, hrun, hheap, hw₁, hres⟩ := hm
  cases e with
  | none =>
    refine ⟨ret, t, w₁, ?_, hheap, hw₁, hres⟩
    rw [run_bind hget, run_bind hrun, if_pos hres]
    rfl
  | some a =>
    obtain ⟨hret, hstack, hfits₁⟩ := hres
    obtain ⟨ret', s', w₂, hrun', hheap', hw₂, hres'⟩ :=
      hrest { t with stack := s.stack } w₁ hheap rfl hw₁
    refine ⟨ret', s', w₂, ?_, hheap'.trans hheap, hw₂, ?_⟩
    · rw [run_bind hget, run_bind hrun, if_neg (not_not.mpr hret), run_bind (run_pop hstack), hrun']
    · cases e' with
      | none => exact hres'
      | some b =>
        obtain ⟨hret', hstack', hfits₂⟩ := hres'
        refine ⟨hret', hstack', fun hfit => ?_⟩
        rw [List.length_append] at hfit
        have hfirst := hfits₁ (by omega)
        rw [hfits₂ (by rw [hfirst, List.length_append]; omega), hfirst, List.append_assoc]

/-- A value of another type makes the code return an error. -/
theorem outcome_checkType {name : List UInt8} {t ret : ℤ} {v : LuaVal} {st : List LuaVal}
    (hst : s.stack = v :: st) (hw : s.data.msg.Wrote w) (hret : 0 < ret)
    (hbad : v.type ≠ t → e = none) (hm : v.type = t → Outcome m s w e) :
    Outcome (checkType name t ret m) s w e := by
  rcases eq_or_ne v.type t with htype | htype
  · have hrun : (checkType name t ret m).run s = m.run s := by
      unfold checkType
      rw [run_bind (run_type hst), if_neg (not_not.mpr htype)]
    obtain ⟨ret', s', w', hrun', hres⟩ := hm htype
    exact ⟨ret', s', w', hrun.trans hrun', hres⟩
  · have hrun : (checkType name t ret m).run s =
        .ok (ret * 100 + v.type) { s with data := { s.data with err_name := name } } := by
      unfold checkType
      rw [run_bind (run_type hst), if_pos htype]
      rfl
    refine ⟨_, _, w, hrun, rfl, hw, ?_⟩
    rw [hbad htype]
    have htype0 := v.type_nonneg
    exact (by omega : ret * 100 + v.type ≠ 0)

end Outcome

/-! ## Scalars -/

/-- A number of a width of its own. -/
theorem outcome_number {s : LuaState Writing} {w : List UInt8} {d : Double} {st : List LuaVal}
    (hst : s.stack = .number d :: st) (hw : s.data.msg.Wrote w) {f : Double → MsgSend → MsgSend}
    {bytes : Double → List UInt8} (hlen : (bytes d).length ≤ 8)
    (hf : ∀ m, f d m = m.writeBytes (bytes d) (bytes d).length) :
    Outcome (checknumber >>= fun d => write (f d) >>= fun _ => pure 0) s w (some (bytes d)) := by
  have hwrite : ∃ w', (f d s.data.msg).Wrote w' ∧
      (w.length + (bytes d).length ≤ MsgSend.bufSize → w' = w ++ bytes d) := by
    rw [hf]
    exact hw.writeBytes_any rfl (by omega)
  have hout := outcome_write (s := s) (m := pure 0) (e := some []) hwrite
    fun w' hw' => outcome_return hw'
  unfold Outcome at hout ⊢
  rw [run_bind (run_checknumber hst)]
  simpa [joinBytes] using hout

/-- A string behind its length. -/
theorem outcome_lstring {s : LuaState Writing} {w : List UInt8} {str : LuaString}
    {st : List LuaVal} (hst : s.stack = .string str :: st) (hw : s.data.msg.Wrote w) :
    Outcome writeLstring s w (some (beInt 2 (toShort str.bytes.length) ++ str.bytes)) := by
  have hlen := str.length_lt
  have hint : toInt32 str.bytes.length = str.bytes.length := toInt32_of_range (by omega)
  have hrun : writeLstring.run s =
      (write (·.writeShort (toShort str.bytes.length)) >>= fun _ =>
        write (·.writeString str.bytes (toInt32 str.bytes.length)) >>= fun _ => pure 0).run s :=
    run_bind (run_checklstring hst)
  generalize toShort str.bytes.length = len at hrun ⊢
  have hshort : ∃ w', (s.data.msg.writeShort len).Wrote w' ∧
      (w.length + (beInt 2 len).length ≤ MsgSend.bufSize → w' = w ++ beInt 2 len) := by
    apply hw.writeBytes_any
    · rw [length_beInt]
      rfl
    · rw [length_beInt]
      norm_num
  have hchars : ∀ (t : LuaState Writing) w', t.data.msg.Wrote w' →
      Outcome (write (·.writeString str.bytes (toInt32 str.bytes.length)) >>= fun _ => pure 0) t w'
        (joinBytes (some str.bytes) (some [])) := by
    intro t w' hw'
    apply outcome_write
    · unfold MsgSend.writeString
      rw [hint, Int.toNat_natCast, List.take_length]
      exact hw'.writeBytes_any rfl hlen
    · exact fun w'' hw'' => outcome_return hw''
  have hout := outcome_write (f := (·.writeShort len)) hshort fun w' hw' => hchars _ w' hw'
  have hjoin : joinBytes (some (beInt 2 len)) (joinBytes (some str.bytes) (some [])) =
      some (beInt 2 len ++ str.bytes) := by
    simp [joinBytes]
  rw [hjoin] at hout
  unfold Outcome at hout ⊢
  rwa [hrun]

section Value

variable (name : List UInt8) {ret : ℤ}

/-- A number is written, after the check that it is one. -/
theorem writes_number (ty : ProtoType) (bytes : Double → List UInt8)
    {f : Double → MsgSend → MsgSend}
    (hret : 0 < ret) (hnumber : ∀ d, ty.encode (.number d) = some (bytes d))
    (hother : ∀ v : LuaVal, v.type ≠ LuaVal.tNumber → ty.encode v = none)
    (hlen : ∀ d, (bytes d).length ≤ 8)
    (hf : ∀ d m, f d m = m.writeBytes (bytes d) (bytes d).length) :
    Writes (checkType name LuaVal.tNumber ret
      (checknumber >>= fun d => write (f d) >>= fun _ => pure 0)) fun _ => ty.encode := by
  intro s v st w hst hw
  apply outcome_checkType hst hw hret (hother v)
  intro htype
  obtain ⟨d, rfl⟩ := LuaVal.eq_number_of_type htype
  rw [hnumber]
  exact outcome_number hst hw (hlen d) (hf d)

/-- An integer of `k` bytes, `cast` of a number. -/
theorem writes_integer (ty : ProtoType) (k : ℕ) (cast : Double → ℤ) {f : ℤ → MsgSend → MsgSend}
    (hret : 0 < ret) (hk : k ≤ 8)
    (hnumber : ∀ d, ty.encode (.number d) = some (beInt k (cast d)))
    (hother : ∀ v : LuaVal, v.type ≠ LuaVal.tNumber → ty.encode v = none)
    (hf : ∀ n m, f n m = m.writeBytes (beInt k n) k) :
    Writes (checkType name LuaVal.tNumber ret
      (checknumber >>= fun d => write (f (cast d)) >>= fun _ => pure 0)) fun _ => ty.encode := by
  apply writes_number name ty (fun d => beInt k (cast d)) hret hnumber hother
  · intro d
    rw [length_beInt]
    exact hk
  · intro d m
    rw [length_beInt]
    exact hf (cast d) m

/-- A value that is no number has no encoding as one. -/
theorem encode_of_not_number {ty : ProtoType} (hty : ty ≠ .string) (v : LuaVal)
    (hv : v.type ≠ LuaVal.tNumber) : ty.encode v = none := by
  cases v with
  | number d => exact absurd rfl hv
  | string str =>
    cases ty with
    | string => exact absurd rfl hty
    | _ => rfl
  | _ => cases ty <;> rfl

/-- A value that is no string has no encoding as one. -/
theorem encode_of_not_string (v : LuaVal) (hv : v.type ≠ LuaVal.tString) :
    ProtoType.string.encode v = none := by
  cases v with
  | string str => exact absurd rfl hv
  | _ => rfl

theorem writes_byte (hret : 0 < ret) :
    Writes (checkType name LuaVal.tNumber ret writeByte) fun _ => ProtoType.byte.encode :=
  writes_integer name .byte 1 Double.castChar hret (by norm_num) (fun _ => rfl)
    (encode_of_not_number (by decide)) (f := fun n m => m.writeByte n) fun _ _ => rfl

theorem writes_short (hret : 0 < ret) :
    Writes (checkType name LuaVal.tNumber ret writeShort) fun _ => ProtoType.short.encode :=
  writes_integer name .short 2 Double.castShort hret (by norm_num) (fun _ => rfl)
    (encode_of_not_number (by decide)) (f := fun n m => m.writeShort n) fun _ _ => rfl

theorem writes_int (hret : 0 < ret) :
    Writes (checkType name LuaVal.tNumber ret writeInt) fun _ => ProtoType.int.encode :=
  writes_integer name .int 4 Double.castUnsigned hret (by norm_num) (fun _ => rfl)
    (encode_of_not_number (by decide)) (f := fun n m => m.writeInt n) fun _ _ => rfl

theorem writes_uint (hret : 0 < ret) :
    Writes (checkType name LuaVal.tNumber ret writeInt) fun _ => ProtoType.uint.encode :=
  writes_integer name .uint 4 Double.castUnsigned hret (by norm_num) (fun _ => rfl)
    (encode_of_not_number (by decide)) (f := fun n m => m.writeInt n) fun _ _ => rfl

theorem writes_double (hret : 0 < ret) :
    Writes (checkType name LuaVal.tNumber ret writeDouble) fun _ => ProtoType.double.encode := by
  apply writes_number name .double (fun d => beBytes 8 d.toNat) hret (fun _ => rfl)
    (encode_of_not_number (by decide))
  · intro d
    rw [length_beBytes]
  · intro d m
    rw [length_beBytes]
    rfl

theorem writes_string (hret : 0 < ret) :
    Writes (checkType name LuaVal.tString ret writeLstring) fun _ => ProtoType.string.encode := by
  intro s v st w hst hw
  apply outcome_checkType hst hw hret (encode_of_not_string v)
  intro htype
  obtain ⟨str, rfl⟩ := LuaVal.eq_string_of_type htype
  exact outcome_lstring hst hw

/-- A scalar of any type. -/
theorem writes_scalar (ty : ProtoType) : Writes (writeScalar name ty) fun _ => ty.encode := by
  cases ty with
  | byte => exact writes_byte name (by norm_num)
  | short => exact writes_short name (by norm_num)
  | int => exact writes_int name (by norm_num)
  | uint => exact writes_uint name (by norm_num)
  | double => exact writes_double name (by norm_num)
  | string => exact writes_string name (by norm_num)

/-- An element of an array of scalars of any type. -/
theorem writes_elem (ty : ProtoType) : Writes (writeElem name ty) fun _ => ty.encode := by
  cases ty with
  | byte => exact writes_byte name (by norm_num)
  | short => exact writes_short name (by norm_num)
  | int => exact writes_int name (by norm_num)
  | uint => exact writes_uint name (by norm_num)
  | double => exact writes_double name (by norm_num)
  | string => exact writes_string name (by norm_num)

end Value

/-! ## Arrays and structs -/

section Array

variable {elem : WriteM ℤ} {item : LuaHeap → LuaVal → Option (List UInt8)}

/-- The elements of an array whose table `r` is on top of the stack. -/
theorem outcome_elems (helem : Writes elem item) (n j : ℕ) {s : LuaState Writing} {r : ℕ}
    {st : List LuaVal} {w : List UInt8} (hst : s.stack = .table r :: st)
    (hw : s.data.msg.Wrote w) :
    Outcome (writeElems elem n j) s w
      (encodeElems (item s.heap) (fun j => s.heap r (.int (j + 1))) n j) := by
  induction n generalizing j s w with
  | zero => exact outcome_return hw
  | succ n ih =>
    apply outcome_item (run_rawgeti hst (j + 1)) (helem _ _ s.stack w rfl hw)
    intro s' w' hheap hstack hw'
    have hrest := ih (j + 1) (hstack.trans hst) hw'
    rwa [hheap] at hrest

/-- An array. -/
theorem writes_array (name : List UInt8) (helem : Writes elem item) :
    Writes (writeArray name elem) fun h => encodeArray h (item h) := by
  intro s v st w hst hw
  have htable : (istable : WriteM Bool).run s = .ok v.isTable s := run_istable hst
  unfold writeArray
  cases hv : v.isTable with
  | false =>
    -- The value is no table.
    have henc : encodeArray s.heap (item s.heap) v = none := by
      cases v with
      | table r => cases hv
      | _ => rfl
    rw [hv] at htable
    refine ⟨14, { s with data := { s.data with err_name := name } }, w, ?_, rfl, hw, ?_⟩
    · rw [run_bind htable]
      rfl
    · dsimp only
      rw [henc]
      exact (by norm_num : (14 : ℤ) ≠ 0)
  | true =>
    obtain ⟨r, rfl⟩ := LuaVal.eq_table_of_isTable hv
    rw [hv] at htable
    have hget : (rawgeti 0 : WriteM Unit).run s =
        .ok () { s with stack := s.heap r (.int 0) :: s.stack } := run_rawgeti hst 0
    have htype : (type : WriteM ℤ).run { s with stack := s.heap r (.int 0) :: s.stack } =
        .ok (s.heap r (.int 0)).type { s with stack := s.heap r (.int 0) :: s.stack } :=
      run_type rfl
    rcases eq_or_ne (s.heap r (.int 0)).type LuaVal.tNumber with hnumber | hnumber
    · obtain ⟨d, hd⟩ := LuaVal.eq_number_of_type hnumber
      -- The length is on the stack when its type is checked, and popped before it is written.
      have hshort : ∃ w', (s.data.msg.writeShort d.castShort).Wrote w' ∧
          (w.length + (beInt 2 d.castShort).length ≤ MsgSend.bufSize →
            w' = w ++ beInt 2 d.castShort) := by
        apply hw.writeBytes_any
        · rw [length_beInt]
          rfl
        · rw [length_beInt]
          norm_num
      have hwrite := outcome_write (f := (·.writeShort d.castShort)) hshort fun w' hw' =>
        outcome_elems helem d.castShort.toNat 0 hst hw'
      have henc : encodeArray s.heap (item s.heap) (.table r) =
          joinBytes (some (beInt 2 d.castShort))
            (encodeElems (item s.heap) (fun j => s.heap r (.int (j + 1))) d.castShort.toNat 0) := by
        dsimp only [encodeArray]
        rw [hd]
      dsimp only
      rw [henc]
      unfold Outcome at hwrite ⊢
      have hcheck : (checknumber : WriteM Double).run
          { s with stack := s.heap r (.int 0) :: s.stack } =
          .ok d { s with stack := s.heap r (.int 0) :: s.stack } :=
        run_checknumber (by rw [hd])
      have hpop : (pop : WriteM Unit).run { s with stack := s.heap r (.int 0) :: s.stack } =
          .ok () s := run_pop rfl
      rw [run_bind htable, if_pos rfl, run_bind hget]
      unfold checkType
      rw [run_bind htype, if_neg (not_not.mpr hnumber), run_bind hcheck, run_bind hpop]
      exact hwrite
    · -- The element 0 is no number.
      have henc : encodeArray s.heap (item s.heap) (.table r) = none := by
        dsimp only [encodeArray]
        split
        · rename_i d hd
          rw [hd] at hnumber
          exact absurd rfl hnumber
        · rfl
      refine ⟨7 * 100 + (s.heap r (.int 0)).type, { s with
        stack := s.heap r (.int 0) :: s.stack
        data := { s.data with err_name := name } }, w, ?_, rfl, hw, ?_⟩
      · rw [run_bind htable, if_pos rfl, run_bind hget]
        unfold checkType
        rw [run_bind htype, if_pos hnumber]
        rfl
      · dsimp only
        rw [henc]
        have htype0 := (s.heap r (.int 0)).type_nonneg
        exact (by omega : 7 * 100 + (s.heap r (.int 0)).type ≠ 0)

/-- A struct, or an element of an array of structs. -/
theorem writes_struct {fields : WriteM ℤ} {enc : LuaHeap → ℕ → Option (List UInt8)}
    (hfields : ∀ (s : LuaState Writing) r st w, s.stack = .table r :: st → s.data.msg.Wrote w →
      Outcome fields s w (enc s.heap r)) :
    Writes (writeBody fields) fun h => encodeStruct (enc h) := by
  intro s v st w hst hw
  have htop : (gettop : WriteM ℕ).run s = .ok s.stack.length s := rfl
  have htable : (istable : WriteM Bool).run s = .ok v.isTable s := run_istable hst
  unfold writeBody
  cases hv : v.isTable with
  | false =>
    have henc : encodeStruct (enc s.heap) v = none := by
      cases v with
      | table r => cases hv
      | _ => rfl
    rw [hv] at htable
    refine ⟨15, s, w, ?_, rfl, hw, ?_⟩
    · rw [run_bind htop, run_bind htable]
      rfl
    · dsimp only
      rw [henc]
      exact (by norm_num : (15 : ℤ) ≠ 0)
  | true =>
    obtain ⟨r, rfl⟩ := LuaVal.eq_table_of_isTable hv
    rw [hv] at htable
    obtain ⟨ret, s', w', hrun, hheap, hw', hres⟩ := hfields s r st w hst hw
    dsimp only [encodeStruct]
    cases henc : enc s.heap r with
    | none =>
      rw [henc] at hres
      refine ⟨ret, s', w', ?_, hheap, hw', hres⟩
      rw [run_bind htop, run_bind htable, if_pos rfl, run_bind hrun, if_pos hres]
      rfl
    | some e =>
      rw [henc] at hres
      obtain ⟨hret, hstack, hfits⟩ := hres
      have htop' : (gettop : WriteM ℕ).run s' = .ok s'.stack.length s' := rfl
      -- Everything that was pushed has been popped, so the heights are the same.
      refine ⟨0, s', w', ?_, hheap, hw', rfl, hstack, hfits⟩
      rw [run_bind htop, run_bind htable, if_pos rfl, run_bind hrun, if_neg (not_not.mpr hret),
        run_bind htop', hstack, if_neg (not_not.mpr rfl)]
      rfl

end Array

/-- The fields of a table are written as the template says. -/
theorem Template.outcome_write (T : Template) {s : LuaState Writing} {r : ℕ} {st : List LuaVal}
    {w : List UInt8} (hst : s.stack = .table r :: st) (hw : s.data.msg.Wrote w) :
    Outcome T.write s w (T.encode s.heap r) := by
  induction T generalizing s r st w with
  | done => exact outcome_return hw
  | leaf name cnt ty rest ih =>
    -- One value, or as many as the length of the array.
    have hfield : Writes
      (if cnt < 2 then writeScalar name ty else writeArray name (writeElem name ty))
        fun h => if cnt < 2 then ty.encode else encodeArray h ty.encode := by
      by_cases hcnt : cnt < 2
      · simp only [if_pos hcnt]
        exact writes_scalar name ty
      · simp only [if_neg hcnt]
        exact writes_array name (writes_elem name ty)
    apply outcome_item (run_getfield hst name) (hfield _ _ s.stack w rfl hw)
    intro s' w' hheap hstack hw'
    rw [← hheap]
    exact ih (hstack.trans hst) hw'
  | node name cnt sub rest ihsub ih =>
    -- The same with the body of a struct for the value.
    have hsub : Writes (writeBody sub.write) fun h => encodeStruct (sub.encode h) :=
      writes_struct fun _ _ _ _ hst hw => ihsub hst hw
    have hfield : Writes
        (if cnt < 2 then writeBody sub.write else writeArray name (writeBody sub.write))
        fun h => if cnt < 2 then encodeStruct (sub.encode h)
          else encodeArray h (encodeStruct (sub.encode h)) := by
      by_cases hcnt : cnt < 2
      · simp only [if_pos hcnt]
        exact hsub
      · simp only [if_neg hcnt]
        exact writes_array name hsub
    apply outcome_item (run_getfield hst name) (hfield _ _ s.stack w rfl hw)
    intro s' w' hheap hstack hw'
    rw [← hheap]
    exact ih (hstack.trans hst) hw'

/-- `write_msg_dfs` returns, and it returns zero exactly if there is an encoding. -/
theorem writeMsgDfs_outcome {adj : ℕ → List ProtoAttr} {proto_id fuel : ℕ} {T : Template}
    (hT : Unfolds adj (adj proto_id) T) (hfuel : T.depth < fuel) {s : LuaState Writing} {r : ℕ}
    {st : List LuaVal} {w : List UInt8} (hst : s.stack = .table r :: st)
    (hw : s.data.msg.Wrote w) :
    Outcome (writeMsgDfs adj fuel proto_id) s w (T.encode s.heap r) := by
  rw [Template.writeMsgDfs_eq hT hfuel]
  have hwrites : Writes (writeBody T.write) fun h => encodeStruct (T.encode h) :=
    writes_struct fun _ _ _ _ hst hw => T.outcome_write hst hw
  exact hwrites s (.table r) st w hst hw

/-! ## What is sent -/

/-- What `unicast`, `multicast` and `broadcast` go on with: the bytes and `buf_len`, or none for an
error code, after which they free the message. -/
def writeResult (adj : ℕ → List ProtoAttr) (fuel proto_id : ℕ) (s : LuaState Writing) :
    Option (List UInt8 × ℤ) :=
  match (writeMsgDfs adj fuel proto_id).run s with
  | .ok ret s' => if ret ≠ 0 then none else some (s'.data.msg.buf, s'.data.msg.buf_len)
  | .error _ _ => none

/-- What is pushed has the bytes that were written. -/
theorem SendKind.wrote_write {k : SendKind} {m m' msg : MsgSend} {proto_id : ℤ} {w : List UInt8}
    (h : k.write m proto_id (some (msg.buf, msg.buf_len)) = some m') :
    m'.Wrote w ↔ msg.Wrote w := by
  have hsame : m'.buf = msg.buf ∧ m'.buf_len = msg.buf_len := by
    unfold SendKind.write at h
    cases k with
    | unicast fd =>
      simp only [Option.map_some, Option.some.injEq] at h
      rw [← h]
      unfold MsgSend.pushFd
      split <;> exact ⟨rfl, rfl⟩
    | broadcast =>
      simp only [Option.map_some, Option.some.injEq] at h
      rw [← h]
      exact ⟨rfl, rfl⟩
    | multicast fds =>
      simp only [Option.map_some] at h
      obtain ⟨a, -, ha⟩ := Option.bind_eq_some_iff.mp h
      rw [← Option.some.inj ha]
      exact ⟨rfl, rfl⟩
  constructor
  · rintro ⟨h1, h2, h3, h4⟩
    rw [hsame.1] at h2 h4
    rw [hsame.2] at h1
    exact ⟨h1, h2, h3, h4⟩
  · rintro ⟨h1, h2, h3, h4⟩
    rw [← hsame.1] at h2 h4
    rw [← hsame.2] at h1
    exact ⟨h1, h2, h3, h4⟩

/-- For every tree and every table, given the message empty: a message that is pushed holds the
encoding of the table, and for a table whose encoding does not fit an error code is returned,
exactly if the table has no encoding that does not fit. -/
theorem sent_whole_iff {adj : ℕ → List ProtoAttr} {proto_id fuel : ℕ} {T : Template}
    (hT : Unfolds adj (adj proto_id) T) (hfuel : T.depth < fuel) {s : LuaState Writing} {r : ℕ}
    {st : List LuaVal} (hst : s.stack = .table r :: st) (hempty : s.data.msg.Wrote []) :
    ((∀ (k : SendKind) m m' id, k.write m id (writeResult adj fuel proto_id s) = some m' →
        ∃ e, T.encode s.heap r = some e ∧ m'.Wrote e) ∧
      ∀ e, T.encode s.heap r = some e → MsgSend.bufSize < e.length →
        ∃ ret s', (writeMsgDfs adj fuel proto_id).run s = .ok ret s' ∧ ret ≠ 0) ↔
    ∀ e, T.encode s.heap r = some e → e.length ≤ MsgSend.bufSize := by
  obtain ⟨ret, s', w', hrun, -, hw', hres⟩ := writeMsgDfs_outcome hT hfuel hst hempty
  constructor
  · rintro ⟨-, hrefused⟩ e he
    by_contra hlen
    obtain ⟨ret', s'', hrun', hne⟩ := hrefused e he (Nat.not_le.mp hlen)
    -- There is an encoding, so zero was returned.
    rw [he] at hres
    rw [hrun] at hrun'
    cases hrun'
    exact hne hres.1
  · intro hfits
    constructor
    · intro k m m' id hpush
      unfold writeResult at hpush
      rw [hrun] at hpush
      dsimp only at hpush
      cases henc : T.encode s.heap r with
      | none =>
        -- The error code makes the caller free the message.
        rw [henc] at hres
        rw [if_pos hres] at hpush
        cases k with
        | multicast fds =>
          obtain ⟨a, -, ha⟩ := Option.bind_eq_some_iff.mp hpush
          cases ha
        | _ => cases hpush
      | some e =>
        rw [henc] at hres
        -- The message is pushed, and holds the encoding since that fits.
        obtain ⟨hret, -, hwhole⟩ := hres
        rw [if_neg (not_not.mpr hret)] at hpush
        refine ⟨e, rfl, (SendKind.wrote_write hpush).mpr ?_⟩
        have hlen := hfits e henc
        have heq : w' = e := hwhole (by simpa using hlen)
        rwa [heq] at hw'
    · intro e he hlen
      exact absurd (hfits e he) (Nat.not_le.mpr hlen)

/-- A node with one field, a string. -/
def stringAdj : ℕ → List ProtoAttr
  | 1 => [⟨.string, 0, 0, [115]⟩]
  | _ => []

/-- Its tree. -/
def stringTemplate : Template := .leaf [115] 0 .string .done

theorem unfolds_string : Unfolds stringAdj (stringAdj 1) stringTemplate := .leaf rfl .done

/-- A string of `n` zeros. -/
def zeros (n : ℕ) (hn : n < 2^31) : LuaString := ⟨List.replicate n 0, by simpa using hn⟩

/-- A table with that string, and an empty message. -/
def stringMessage (n : ℕ) (hn : n < 2^31) : LuaState Writing where
  heap _ _ := .string (zeros n hn)
  stack := [.table 0]
  strIndex _ := .nil
  data := ⟨⟨List.replicate MsgSend.bufSize 0, 0, 0, [], 0⟩, []⟩

theorem stringMessage_empty (n : ℕ) (hn : n < 2^31) : (stringMessage n hn).data.msg.Wrote [] :=
  MsgSend.wrote_nil rfl (List.length_replicate ..)

theorem encode_stringMessage (n : ℕ) (hn : n < 2^31) :
    stringTemplate.encode (stringMessage n hn).heap 0 =
      some (beInt 2 (toShort n) ++ List.replicate n 0) := by
  simp [stringTemplate, Template.encode, joinBytes, ProtoType.encode, stringMessage, zeros]

/-- A string of 16383 bytes does not fit behind its length. The error code is zero, and what is
pushed is not the encoding. -/
theorem truncated_message_sent : ∃ e m',
    stringTemplate.encode (stringMessage 16383 (by norm_num)).heap 0 = some e ∧
      SendKind.broadcast.write (stringMessage 16383 (by norm_num)).data.msg 1
        (writeResult stringAdj 1 1 (stringMessage 16383 (by norm_num))) = some m' ∧
      ¬m'.Wrote e := by
  have hdepth : stringTemplate.depth < 1 := by decide
  obtain ⟨ret, s', w', hrun, -, hw', hres⟩ := writeMsgDfs_outcome unfolds_string hdepth rfl
    (stringMessage_empty 16383 (by norm_num))
  have henc := encode_stringMessage 16383 (by norm_num)
  rw [henc] at hres
  have hsent : writeResult stringAdj 1 1 (stringMessage 16383 (by norm_num)) =
      some (s'.data.msg.buf, s'.data.msg.buf_len) := by
    unfold writeResult
    rw [hrun]
    exact if_neg (not_not.mpr hres.1)
  rw [hsent]
  refine ⟨_, _, henc, rfl, fun hwhole => ?_⟩
  have hle := hwhole.le
  rw [List.length_append, length_beInt, List.length_replicate] at hle
  exact absurd hle (by decide)

/-- A string of two bytes is sent as it is. -/
theorem sent_whole_iff_short : ∃ m',
    SendKind.broadcast.write (stringMessage 2 (by norm_num)).data.msg 1
      (writeResult stringAdj 1 1 (stringMessage 2 (by norm_num))) = some m' ∧
    m'.Wrote [0, 2, 0, 0] := by
  have hdepth : stringTemplate.depth < 1 := by decide
  have henc : stringTemplate.encode (stringMessage 2 (by norm_num)).heap 0 = some [0, 2, 0, 0] := by
    decide
  have hiff := sent_whole_iff unfolds_string hdepth rfl (stringMessage_empty 2 (by norm_num))
  have hfits : ∀ e, stringTemplate.encode (stringMessage 2 (by norm_num)).heap 0 = some e →
      e.length ≤ MsgSend.bufSize := by
    intro e he
    rw [henc] at he
    rw [← Option.some.inj he]
    decide
  have hsome : (SendKind.broadcast.write (stringMessage 2 (by norm_num)).data.msg 1
      (writeResult stringAdj 1 1 (stringMessage 2 (by norm_num)))).isSome = true := by
    decide +kernel
  obtain ⟨m', hpush⟩ := Option.isSome_iff_exists.mp hsome
  obtain ⟨e, he, hwhole⟩ := (hiff.mpr hfits).1 _ _ m' 1 hpush
  rw [henc] at he
  exact ⟨m', hpush, Option.some.inj he ▸ hwhole⟩

end Catse
