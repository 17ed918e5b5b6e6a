import Catse.Proto.Template

/-!
# Reads stay inside of the packet

A read that finds too few bytes sets `back` to `-1`, and `read_msg_dfs` goes on. `InPacket` is what
holds of a packet of `len` bytes all the same, however the reading goes on: nothing outside of
`buf[0, len)` is touched, the cursor is where the bytes that were read end, and once a read has
failed `back` stays `-1`, so that `has_read_all` is false. Since all of this concerns single reads,
it follows for `read_msg_dfs` from what it is made of (`ReadRel`), and with it the termination.
-/

namespace Catse

open LuaM ProtoParser

/-- A relation between the packets before and after, which every step of `read_msg_dfs` keeps. -/
structure ReadRel (Q : Reading → Reading → Prop) : Prop where
  refl : ∀ d, Q d d
  trans : ∀ d d' d'', Q d d' → Q d' d'' → Q d d''
  read : ∀ d k, 0 ≤ k →
    Q d ⟨(d.msg.readBytes k).2, d.log ++ [.access d.msg.front k (!d.msg.short k)]⟩
  note : ∀ d e, (∀ off size ok, e ≠ .access off size ok) → Q d { d with log := d.log ++ [e] }

/-- The two switches over the types read alike. -/
theorem ProtoParser.readElemValue_eq (junk : ℕ → ℕ → UInt8) (ty : ProtoType) :
    readElemValue junk ty = readScalarValue junk ty := by
  cases ty <;> rfl

namespace ReadRel

variable {Q : Reading → Reading → Prop} (hQ : ReadRel Q)
include hQ

/-- What the API does to the stack and the tables keeps the relation. -/
theorem keeps_effect {α : Type} {k : ℤ} {m : ReadM α} (h : Effect k m) :
    Keeps (fun s s' => Q s.data s'.data) m :=
  h.keeps hQ.refl

theorem keeps_return {α : Type} (a : α) :
    Keeps (fun s s' => Q s.data s'.data) (pure a : ReadM α) :=
  keeps_pure (fun _ => hQ.refl _) a

theorem keeps_seq {α β : Type} {x : ReadM α} {f : α → ReadM β}
    (hx : Keeps (fun s s' => Q s.data s'.data) x)
    (hf : ∀ a, Keeps (fun s s' => Q s.data s'.data) (f a)) :
    Keeps (fun s s' => Q s.data s'.data) (x >>= f) :=
  keeps_bind (R := fun s s' => Q s.data s'.data) (fun _ _ _ h h' => hQ.trans _ _ _ h h') hx
    fun _ a _ _ => hf a

/-- What ends a part that has been read. -/
theorem keeps_effect_true {k : ℤ} {m : ReadM Unit} (h : Effect k m) :
    Keeps (fun s s' => Q s.data s'.data) (m >>= fun _ => pure true) :=
  hQ.keeps_seq (hQ.keeps_effect h) fun _ => hQ.keeps_return true

/-- So do the reads of a width of their own. -/
theorem keeps_read {α : Type} {k : ℤ} {f : MsgRecv → α × MsgRecv} (hk : 0 ≤ k)
    (hf : ∀ m, (f m).2 = (m.readBytes k).2) :
    Keeps (fun s s' => Q s.data s'.data) (ProtoParser.read k f) := by
  intro s
  have hread := hQ.read s.data k hk
  rw [← hf] at hread
  exact hread

theorem keeps_readShort : Keeps (fun s s' => Q s.data s'.data) readShort :=
  hQ.keeps_read (by norm_num) fun _ => rfl

theorem keeps_note {e : ReadEvent} (he : ∀ off size ok, e ≠ .access off size ok) :
    Keeps (fun s s' => Q s.data s'.data) (ProtoParser.note e) :=
  fun s => hQ.note s.data e he

variable (junk : ℕ → ℕ → UInt8)

/-- A string is only read when its length is not negative. -/
theorem keeps_readChars (len : ℤ) : Keeps (fun s s' => Q s.data s'.data) (readChars junk len) := by
  unfold readChars
  by_cases hlen : len < 0
  · rw [if_pos hlen]
    exact hQ.keeps_return false
  · rw [if_neg hlen]
    apply keeps_ite (hQ.keeps_return false)
    have hread : Keeps (fun s s' => Q s.data s'.data) (ProtoParser.readString junk len) := by
      intro s
      have hbytes := hQ.read s.data len (Int.not_lt.mp hlen)
      have heq : (s.data.msg.readString len).2 = (s.data.msg.readBytes len).2 := by
        unfold MsgRecv.readString
        rw [if_neg hlen]
      rw [← heq] at hbytes
      exact hbytes
    apply hQ.keeps_seq hread
    intro buf
    exact hQ.keeps_effect_true (effect_pushlstring buf)

theorem keeps_readLstring : Keeps (fun s s' => Q s.data s'.data) (readLstring junk) := by
  apply hQ.keeps_seq hQ.keeps_readShort
  intro len
  apply hQ.keeps_seq (hQ.keeps_note (by simp))
  intro _
  exact hQ.keeps_readChars junk len

theorem keeps_readScalarValue (ty : ProtoType) :
    Keeps (fun s s' => Q s.data s'.data) (readScalarValue junk ty) := by
  have hnumber : ∀ {α : Type} {k : ℤ} {f : MsgRecv → α × MsgRecv} {g : α → LuaVal}, 0 ≤ k →
      (∀ m, (f m).2 = (m.readBytes k).2) → Keeps (fun s s' => Q s.data s'.data)
        (ProtoParser.read k f >>= fun n => push (g n) >>= fun _ => pure true) := by
    intro α k f g hk hf
    apply hQ.keeps_seq (hQ.keeps_read hk hf)
    intro n
    exact hQ.keeps_effect_true (effect_push _)
  cases ty with
  | byte => exact hnumber (by norm_num) fun _ => rfl
  | short => exact hnumber (by norm_num) fun _ => rfl
  | int => exact hnumber (by norm_num) fun _ => rfl
  | uint => exact hnumber (by norm_num) fun _ => rfl
  | double => exact hnumber (by norm_num) fun _ => rfl
  | string => exact hQ.keeps_readLstring junk

theorem keeps_readScalar (name : List UInt8) (ty : ProtoType) :
    Keeps (fun s s' => Q s.data s'.data) (readScalar junk name ty) := by
  apply hQ.keeps_seq (hQ.keeps_readScalarValue junk ty)
  intro b
  apply keeps_ite _ (hQ.keeps_return false)
  exact hQ.keeps_effect_true (effect_setfield name)

theorem keeps_readElem (ty : ProtoType) (j : ℕ) :
    Keeps (fun s s' => Q s.data s'.data) (readElem junk ty j) := by
  unfold readElem
  rw [readElemValue_eq]
  apply hQ.keeps_seq (hQ.keeps_readScalarValue junk ty)
  intro b
  apply keeps_ite _ (hQ.keeps_return false)
  exact hQ.keeps_effect_true (effect_rawseti _)

omit junk in
theorem keeps_readElems {elem : ℕ → ReadM Bool}
    (helem : ∀ j, Keeps (fun s s' => Q s.data s'.data) (elem j)) (n j : ℕ) :
    Keeps (fun s s' => Q s.data s'.data) (readElems elem n j) := by
  induction n generalizing j with
  | zero => exact hQ.keeps_return true
  | succ n ih =>
    apply hQ.keeps_seq (helem j)
    intro b
    exact keeps_ite (ih (j + 1)) (hQ.keeps_return false)

omit junk in
theorem keeps_readArray (name : List UInt8) (cnt : ℤ) {elem : ℕ → ReadM Bool}
    (helem : ∀ j, Keeps (fun s s' => Q s.data s'.data) (elem j)) :
    Keeps (fun s s' => Q s.data s'.data) (readArray name cnt elem) := by
  apply hQ.keeps_seq hQ.keeps_readShort
  intro len
  apply hQ.keeps_seq (hQ.keeps_note (by simp))
  intro _
  apply keeps_ite (hQ.keeps_return false)
  apply hQ.keeps_seq (hQ.keeps_effect (effect_getfield name))
  intro _
  apply hQ.keeps_seq (hQ.keeps_effect effect_istable)
  intro isTable
  apply keeps_ite _ (hQ.keeps_effect (effect_raise 0 _))
  apply hQ.keeps_seq (hQ.keeps_effect (effect_push _))
  intro _
  apply hQ.keeps_seq (hQ.keeps_effect (effect_rawseti _))
  intro _
  apply hQ.keeps_seq (hQ.keeps_readElems helem _ _)
  intro b
  apply keeps_ite _ (hQ.keeps_return false)
  exact hQ.keeps_effect_true effect_pop

omit junk in
theorem keeps_readStruct (name : List UInt8) {sub : ReadM Bool}
    (hsub : Keeps (fun s s' => Q s.data s'.data) sub) :
    Keeps (fun s s' => Q s.data s'.data) (readStruct name sub) := by
  apply hQ.keeps_seq (hQ.keeps_effect (effect_getfield name))
  intro _
  apply hQ.keeps_seq hsub
  intro b
  apply keeps_ite _ (hQ.keeps_return false)
  exact hQ.keeps_effect_true effect_pop

omit junk in
theorem keeps_readStructElem (name : List UInt8) {sub : ReadM Bool}
    (hsub : Keeps (fun s s' => Q s.data s'.data) sub) (j : ℕ) :
    Keeps (fun s s' => Q s.data s'.data) (readStructElem name sub j) := by
  apply hQ.keeps_seq (hQ.keeps_effect (effect_rawgeti _))
  intro _
  apply hQ.keeps_seq (hQ.keeps_effect effect_istable)
  intro isTable
  apply keeps_ite _ (hQ.keeps_effect (effect_raise 0 _))
  apply hQ.keeps_seq hsub
  intro _
  exact hQ.keeps_effect_true effect_pop

omit junk in
theorem keeps_readBody {fields : ReadM Bool}
    (hfields : Keeps (fun s s' => Q s.data s'.data) fields) :
    Keeps (fun s s' => Q s.data s'.data) (readBody fields) := by
  apply hQ.keeps_seq (hQ.keeps_effect effect_gettop)
  intro top_old
  apply hQ.keeps_seq hfields
  intro b
  apply keeps_ite _ (hQ.keeps_return false)
  apply hQ.keeps_seq (hQ.keeps_effect effect_gettop)
  intro top_new
  exact keeps_ite (hQ.keeps_effect (effect_raise 0 _)) (hQ.keeps_return true)

/-- The relation is kept by the reading of a whole tree, which ends. -/
theorem keeps_template (T : Template) :
    Keeps (fun s s' => Q s.data s'.data) (T.read junk) := by
  induction T with
  | done => exact hQ.keeps_return true
  | leaf name cnt ty rest ih =>
    have hfield : Keeps (fun s s' => Q s.data s'.data)
        (if cnt < 2 then readScalar junk name ty else readArray name cnt (readElem junk ty)) :=
      keeps_ite (hQ.keeps_readScalar junk name ty)
        (hQ.keeps_readArray name cnt (hQ.keeps_readElem junk ty))
    apply hQ.keeps_seq hfield
    intro b
    exact keeps_ite ih (hQ.keeps_return false)
  | node name cnt sub rest ihsub ih =>
    have hsub := hQ.keeps_readBody ihsub
    have hfield : Keeps (fun s s' => Q s.data s'.data)
        (if cnt < 2 then readStruct name (readBody (sub.read junk))
          else readArray name cnt (readStructElem name (readBody (sub.read junk)))) :=
      keeps_ite (hQ.keeps_readStruct name hsub)
        (hQ.keeps_readArray name cnt (hQ.keeps_readStructElem name hsub))
    apply hQ.keeps_seq hfield
    intro b
    exact keeps_ite ih (hQ.keeps_return false)

end ReadRel

/-- A read has found too few bytes. -/
def Reading.Failed (d : Reading) : Prop := 0 ≤ d.msg.front ∧ d.msg.back = -1

/-- Once a read has failed, no later one succeeds. -/
theorem readRel_failed : ReadRel fun d d' => d.Failed → d'.Failed where
  refl _ h := h
  trans _ _ _ h h' hd := h' (h hd)
  read d k hk h := by
    obtain ⟨hfront, hback⟩ := h
    have hshort : d.msg.short k = true := decide_eq_true (by omega)
    unfold MsgRecv.readBytes
    rw [if_pos hshort]
    exact ⟨hfront, rfl⟩
  note _ _ _ h := h

/-! ## What the reads touch -/

/-- The number of bytes that an event has consumed. -/
def ReadEvent.consumed : ReadEvent → ℤ
  | .access _ size true => size
  | _ => 0

/-- What holds of a packet of `len` bytes while it is read. -/
structure InPacket (len : ℤ) (d : Reading) : Prop where
  back : d.msg.back = len ∨ d.msg.back = -1
  front : 0 ≤ d.msg.front ∧ d.msg.front ≤ len
  inside : ∀ off size, .access off size true ∈ d.log → 0 ≤ off ∧ 0 ≤ size ∧ off + size ≤ len
  failed : ∀ off size, .access off size false ∈ d.log → d.msg.back = -1
  consumed : d.msg.front = (d.log.map ReadEvent.consumed).sum

/-- Nothing has been read of a new packet. -/
theorem inPacket_new {len : ℤ} {d : Reading} (hlen : 0 ≤ len) (hback : d.msg.back = len)
    (hfront : d.msg.front = 0) (hlog : d.log = []) : InPacket len d where
  back := .inl hback
  front := ⟨hfront.ge, hfront.le.trans hlen⟩
  inside off size h := by
    rw [hlog] at h
    exact absurd h (by simp)
  failed off size h := by
    rw [hlog] at h
    exact absurd h (by simp)
  consumed := by
    rw [hfront, hlog]
    rfl

/-- Every step of the reading keeps this. -/
theorem readRel_inPacket {len : ℤ} (hlen : len ≤ 512) :
    ReadRel fun d d' => InPacket len d → InPacket len d' where
  refl _ h := h
  trans _ _ _ h h' hd := h' (h hd)
  read d k hk h := by
    obtain ⟨hfront, hle⟩ := h.front
    unfold MsgRecv.readBytes
    cases hshort : d.msg.short k with
    | true =>
      -- Too few bytes are left: nothing is touched.
      refine ⟨.inr rfl, ⟨hfront, hle⟩, fun off size hmem => ?_, fun _ _ _ => rfl, ?_⟩
      · rcases List.mem_append.mp hmem with hmem | hmem
        · exact h.inside off size hmem
        · simp at hmem
      · show d.msg.front = _
        rw [List.map_append, List.sum_append, ← h.consumed]
        simp [ReadEvent.consumed]
    | false =>
      -- There are enough bytes, so no read has failed before.
      have henough : d.msg.front + k ≤ d.msg.back := by
        have := of_decide_eq_false hshort
        omega
      have hback : d.msg.back = len := by
        rcases h.back with hback | hback
        · exact hback
        · omega
      -- The cursor stays within the packet, so the short does not wrap.
      have hshort16 : toShort (d.msg.front + k) = d.msg.front + k :=
        toShort_of_range (by omega)
      refine ⟨.inl hback, ?_, fun off size hmem => ?_, fun off size hmem => ?_, ?_⟩
      · show 0 ≤ toShort (d.msg.front + k) ∧ toShort (d.msg.front + k) ≤ len
        omega
      · rcases List.mem_append.mp hmem with hmem | hmem
        · exact h.inside off size hmem
        · simp only [Bool.not_false, List.mem_singleton, ReadEvent.access.injEq] at hmem
          omega
      · rcases List.mem_append.mp hmem with hmem | hmem
        · exact h.failed off size hmem
        · simp at hmem
      · show toShort (d.msg.front + k) = _
        rw [hshort16, List.map_append, List.sum_append, ← h.consumed]
        simp [ReadEvent.consumed]
  note d e he h := by
    have hmem : ∀ off size ok,
      .access off size ok ∈ d.log ++ [e] → .access off size ok ∈ d.log := by
      intro off size ok hmem
      rcases List.mem_append.mp hmem with hmem | hmem
      · exact hmem
      · exact absurd (List.mem_singleton.mp hmem).symm (he off size ok)
    refine ⟨h.back, h.front, fun off size hin => h.inside off size (hmem off size true hin),
      fun off size hin => h.failed off size (hmem off size false hin), ?_⟩
    show d.msg.front = _
    rw [List.map_append, List.sum_append, ← h.consumed]
    cases e with
    | access off size ok => exact absurd rfl (he off size ok)
    | count => simp [ReadEvent.consumed]
    | strLen => simp [ReadEvent.consumed]

/-- For every tree and every packet of at most 512 bytes, `msg_ex::read` comes to an end, and
whether it returns or raises an error: the reads that find their bytes touch `buf[0, len)` only. If
it reports success then every read has found its bytes, and exactly `len` bytes were consumed. -/
theorem reads_within_packet (junk : ℕ → ℕ → UInt8) {adj : ℕ → List ProtoAttr}
    {proto_id fuel : ℕ} {T : Template} (hT : Unfolds adj (adj proto_id) T) (hfuel : T.depth < fuel)
    {len : ℤ} (hlen : 0 ≤ len ∧ len ≤ 512) {s : LuaState Reading} (hfront : s.data.msg.front = 0)
    (hback : s.data.msg.back = len) (hlog : s.data.log = []) :
    match (msgExRead junk adj fuel proto_id).run s with
    | .error e s' =>
      e ≠ .outOfFuel ∧
        ∀ off size, .access off size true ∈ s'.data.log → 0 ≤ off ∧ 0 ≤ size ∧ off + size ≤ len
    | .ok n s' =>
      (∀ off size, .access off size true ∈ s'.data.log → 0 ≤ off ∧ 0 ≤ size ∧ off + size ≤ len) ∧
        (n = 0 → (∀ off size, .access off size false ∉ s'.data.log) ∧ s'.data.msg.front = len ∧
          (s'.data.log.map ReadEvent.consumed).sum = len) := by
  have hQ := readRel_inPacket hlen.2
  have hstart : InPacket len s.data := inPacket_new hlen.1 hback hfront hlog
  have hdfs : Keeps (fun s s' => InPacket len s.data → InPacket len s'.data)
      (readMsgDfs junk adj fuel proto_id) := by
    rw [Template.readMsgDfs_eq junk hT hfuel]
    exact hQ.keeps_readBody (hQ.keeps_template junk T)
  have hread : Keeps (fun s s' => InPacket len s.data → InPacket len s'.data)
      (msgExRead junk adj fuel proto_id) := by
    have hfail : Keeps (fun s s' => InPacket len s.data → InPacket len s'.data)
        (push (.boolean true) >>= fun _ => pure 1 : ReadM ℕ) := by
      apply hQ.keeps_seq (hQ.keeps_effect (effect_push _))
      intro _
      exact hQ.keeps_return 1
    apply hQ.keeps_seq hdfs
    intro b
    apply keeps_ite _ hfail
    have hall : Keeps (fun s s' => InPacket len s.data → InPacket len s'.data)
        (hasReadAll : ReadM Bool) := fun _ hs => hs
    apply hQ.keeps_seq hall
    intro _
    exact keeps_ite (hQ.keeps_return 0) hfail
  have hrun := hread s
  cases hres : (msgExRead junk adj fuel proto_id).run s with
  | error e s' =>
    rw [hres] at hrun
    exact ⟨hrun.1, (hrun.2 hstart).inside⟩
  | ok n s' =>
    rw [hres] at hrun
    have hend := hrun hstart
    refine ⟨hend.inside, fun hn => ?_⟩
    rw [hn] at hres
    have hall := ((msgExRead_success_iff junk).mp hres).2
    -- After a failed read `back` is `-1`, and the cursor is not there.
    have hlen' : s'.data.msg.back = len := by
      rcases hend.back with hb | hb
      · exact hb
      · have := hend.front.1
        omega
    refine ⟨fun off size hmem => ?_, hall.symm.trans hlen', ?_⟩
    · have := hend.failed off size hmem
      omega
    · rw [← hend.consumed]
      exact hall.symm.trans hlen'

/-- A packet of two bytes for a node with one field, a short. -/
def shortAdj : ℕ → List ProtoAttr
  | 1 => [⟨.short, 0, 0, [97]⟩]
  | _ => []

/-- The packet, and a table without fields. -/
def shortPacket : LuaState Reading where
  heap _ _ := .nil
  stack := [.table 0]
  strIndex _ := .nil
  data := ⟨⟨[1, 2], 2, 0, 0, 0, 0⟩, []⟩

/-- It is read to its end. -/
theorem reads_within_packet_short : ∃ s',
    (msgExRead (fun _ _ => 0) shortAdj 1 1).run shortPacket = .ok 0 s' ∧
      (∀ off size, .access off size false ∉ s'.data.log) ∧ s'.data.msg.front = 2 := by
  have hT : Unfolds shortAdj (shortAdj 1) (.leaf [97] 0 .short .done) := .leaf rfl .done
  have hdepth : (Template.leaf [97] 0 .short .done).depth < 1 := by decide
  have hreads := reads_within_packet (fun _ _ => 0) hT hdepth
    (⟨by norm_num, by norm_num⟩ : (0 : ℤ) ≤ 2 ∧ (2 : ℤ) ≤ 512) (s := shortPacket) rfl rfl rfl
  have heval : (match (msgExRead (fun _ _ => 0) shortAdj 1 1).run shortPacket with
    | .ok n _ => n == 0
    | .error _ _ => false) = true := by decide +kernel
  cases hrun : (msgExRead (fun _ _ => 0) shortAdj 1 1).run shortPacket with
  | error e s' =>
    rw [hrun] at heval
    cases heval
  | ok n s' =>
    rw [hrun] at heval hreads
    obtain rfl : n = 0 := eq_of_beq heval
    obtain ⟨hok, hfront, -⟩ := hreads.2 rfl
    exact ⟨s', rfl, hok, hfront⟩

end Catse
