import Catse.Proto.Accept
import Catse.Proto.Skeleton

/-!
# What becomes of a bad count

With all the tables in place, the reader not only agrees with the scan when it returns, it returns
as the scan says (`Completes`): no call is made with a wrong operand, and no error is raised. So
where the scan goes on behind a bad count of an element of an array of structs and comes to the end
of the packet, `msg_ex::read` reports success (`bad_count_refused_iff`).
-/

namespace Catse

open LuaM ProtoParser

section Completes

-- The places of the tables, the table of each place, and the place at which the reader works.
variable {P : List LuaKey → Prop} {τ : List LuaKey → ℕ} {p : List LuaKey}

/-- The run returns `b` behind what it has read, with the stack and the tables in place. -/
def Reaches (P : List LuaKey → Prop) (τ : List LuaKey → ℕ) (m : ReadM Bool) (s : LuaState Reading)
    (b : Bool) (rest : List UInt8) : Prop :=
  ∃ s', m.run s = .ok b s' ∧ s'.stack = s.stack ∧ Tables P τ s'.heap ∧ s'.data.msg.Holds rest

/-- The code returns as the scan says. -/
def Completes (P : List LuaKey → Prop) (τ : List LuaKey → ℕ) (p : List LuaKey) (m : ReadM Bool)
    (sc : List UInt8 → Scan) : Prop :=
  ∀ s st bs, Tables P τ s.heap → s.stack = .table (τ p) :: st → s.data.msg.Holds bs →
    match sc bs with
    | .ok rest _ => Reaches P τ m s true rest
    | .fails rest => Reaches P τ m s false rest
    | .stuck => True

variable {m m' : ReadM Bool} {sc sc' : List UInt8 → Scan}

/-- Nothing is read. -/
theorem completes_return : Completes P τ p (pure true) fun bs => .ok bs false :=
  fun s _ _ hh _ hs => ⟨s, rfl, rfl, hh, hs⟩

/-- One part after the other. -/
theorem Completes.seq (h : Completes P τ p m sc) (h' : Completes P τ p m' sc') :
    Completes P τ p (m >>= fun b => if b then m' else pure false)
      fun bs => (sc bs).andThen sc' := by
  intro s st bs hh hst hs
  have hfirst := h s st bs hh hst hs
  dsimp only [Scan.andThen]
  cases heq : sc bs with
  | stuck => trivial
  | fails rest =>
    rw [heq] at hfirst
    obtain ⟨t, hrun, hstack, hheap, hrest⟩ := hfirst
    exact ⟨t, run_bind hrun, hstack, hheap, hrest⟩
  | ok rest dropped =>
    rw [heq] at hfirst
    obtain ⟨t, hrun, hstack, hheap, hrest⟩ := hfirst
    have hsecond := h' t st rest hheap (hstack.trans hst) hrest
    dsimp only
    cases heq' : sc' rest with
    | stuck => trivial
    | fails rest' =>
      rw [heq'] at hsecond
      obtain ⟨u, hrun', hstack', hheap', hrest'⟩ := hsecond
      exact ⟨u, (run_bind hrun).trans hrun', hstack'.trans hstack, hheap', hrest'⟩
    | ok rest' dropped' =>
      rw [heq'] at hsecond
      obtain ⟨u, hrun', hstack', hheap', hrest'⟩ := hsecond
      exact ⟨u, (run_bind hrun).trans hrun', hstack'.trans hstack, hheap', hrest'⟩

/-- The loop with the comparison of the heights. -/
theorem Completes.body (h : Completes P τ p m sc) : Completes P τ p (readBody m) sc := by
  intro s st bs hh hst hs
  have hloop := h s st bs hh hst hs
  have htop : (gettop : ReadM ℕ).run s = .ok s.stack.length s := rfl
  cases heq : sc bs with
  | stuck => trivial
  | fails rest =>
    rw [heq] at hloop
    obtain ⟨t, hrun, hstack, hheap, hrest⟩ := hloop
    refine ⟨t, ?_, hstack, hheap, hrest⟩
    unfold readBody
    rw [run_bind htop, run_bind hrun]
    rfl
  | ok rest dropped =>
    rw [heq] at hloop
    obtain ⟨t, hrun, hstack, hheap, hrest⟩ := hloop
    have htop' : (gettop : ReadM ℕ).run t = .ok t.stack.length t := rfl
    refine ⟨t, ?_, hstack, hheap, hrest⟩
    unfold readBody
    rw [run_bind htop, run_bind hrun, if_pos rfl, run_bind htop', hstack,
      if_neg (not_not.mpr rfl)]
    rfl

/-- A struct. -/
theorem Completes.struct (hp : P p) {name : List UInt8} (hk : P (p ++ [.str name]))
    (h : Completes P τ (p ++ [.str name]) m sc) :
    Completes P τ p (readStruct name m) fun bs => (sc bs).inside := by
  intro s st bs hh hst hs
  have hget := run_field hh hp hk hst
  have hsub := h { s with stack := .table (τ (p ++ [.str name])) :: s.stack } s.stack bs hh rfl hs
  dsimp only
  cases heq : sc bs with
  | stuck => trivial
  | fails rest => trivial
  | ok rest dropped =>
    rw [heq] at hsub
    obtain ⟨t, hrun, hstack, hheap, hrest⟩ := hsub
    refine ⟨{ t with stack := s.stack }, ?_, rfl, hheap, hrest⟩
    unfold readStruct
    rw [run_bind hget, run_bind hrun, if_pos rfl, run_bind (run_pop hstack)]
    rfl

/-- An element of an array of structs returns true even if its fields return false. -/
theorem Completes.structElem (hp : P p) {name : List UInt8} {j : ℕ} (hk : P (p ++ [.int (j + 1)]))
    (h : Completes P τ (p ++ [.int (j + 1)]) m sc) :
    Completes P τ p (readStructElem name m j) fun bs => (sc bs).caught := by
  intro s st bs hh hst hs
  have hget := run_index hh hp hk hst
  have hsub := h { s with stack := .table (τ (p ++ [.int (j + 1)])) :: s.stack }
    s.stack bs hh rfl hs
  -- Whatever the recursive call returns, the element is popped.
  have hdrop : ∀ b rest,
      Reaches P τ m { s with stack := .table (τ (p ++ [.int (j + 1)])) :: s.stack } b rest →
      Reaches P τ (readStructElem name m j) s true rest := by
    rintro b rest ⟨t, hrun, hstack, hheap, hrest⟩
    refine ⟨{ t with stack := s.stack }, ?_, rfl, hheap, hrest⟩
    unfold readStructElem
    rw [run_bind hget, run_bind (run_istable_table rfl), if_pos rfl, run_bind hrun,
      run_bind (run_pop hstack)]
    rfl
  dsimp only
  cases heq : sc bs with
  | stuck => trivial
  | fails rest =>
    rw [heq] at hsub
    exact hdrop false rest hsub
  | ok rest dropped =>
    rw [heq] at hsub
    exact hdrop true rest hsub

/-- The elements of an array, of which there are at most `cnt`. -/
theorem Completes.elems {elem : ℕ → ReadM Bool} {n j : ℕ}
    (h : ∀ i, j ≤ i → i < j + n → Completes P τ p (elem i) sc) :
    Completes P τ p (readElems elem n j) (Scan.times sc n) := by
  induction n generalizing j with
  | zero => exact completes_return
  | succ n ih =>
    apply (h j le_rfl (by omega)).seq
    apply ih
    intro i hj hi
    exact h i (by omega) (by omega)

/-- A count or a length is read, and the code goes on with it. -/
theorem Completes.short {f : ℤ → ReadM Bool} {g : ℤ → List UInt8 → Scan}
    (h : ∀ len, -2^15 ≤ len ∧ len < 2^15 → Completes P τ p (f len) (g len)) :
    Completes P τ p (readShort >>= f) fun bs => Scan.short bs g := by
  intro s st bs hh hst hs
  obtain ⟨e, d, -, -, hshort⟩ := run_readShort hs
  dsimp only [Scan.short]
  rcases hshort with ⟨hle, hd, hval⟩ | ⟨hlt, -, -⟩
  · rw [if_neg (by omega)]
    have hrest := h _ (toShort_range (ofBE (bs.take 2))) { s with data := d } st _ hh hst hd
    unfold Reaches at hrest ⊢
    rw [run_bind hval]
    exact hrest
  · rw [if_pos hlt]
    trivial

/-- The entries of the record make no difference. -/
theorem Completes.noted (h : Completes P τ p m sc) (e : ReadEvent) :
    Completes P τ p (note e >>= fun _ => m) sc := by
  intro s st bs hh hst hs
  have hrest := h { s with data := { s.data with log := s.data.log ++ [e] } } st bs hh hst hs
  unfold Reaches at hrest ⊢
  rw [run_bind (run_note e)]
  exact hrest

/-- The code returns false. -/
theorem completes_refuse : Completes P τ p (pure false) Scan.fails :=
  fun s _ _ hh _ hs => ⟨s, rfl, rfl, hh, hs⟩

/-- An array. -/
theorem Completes.array {elem : ℕ → ReadM Bool} (hp : P p) {name : List UInt8}
    (hk : P (p ++ [.str name])) (h0 : ¬P (p ++ [.str name] ++ [.int 0])) {cnt : ℤ}
    (h : ∀ j : ℕ, (j : ℤ) < cnt → Completes P τ (p ++ [.str name]) (elem j) sc) :
    Completes P τ p (readArray name cnt elem) (Scan.array cnt sc) := by
  unfold readArray
  apply Completes.short
  intro len _
  apply Completes.noted
  by_cases hcnt : 0 ≤ len ∧ len ≤ cnt
  · simp only [hcnt, and_self, not_true_eq_false, if_false, if_true]
    intro s st bs hh hst hs
    have hget := run_field hh hp hk hst
    -- The length is stored in the table of the array.
    have hset : (rawseti 0 : ReadM Unit).run
        { s with stack := .number (.ofInt len) :: .table (τ (p ++ [.str name])) :: s.stack } =
        .ok () { s with
          heap := s.heap.set (τ (p ++ [.str name])) (.int 0) (.number (.ofInt len))
          stack := .table (τ (p ++ [.str name])) :: s.stack } := run_rawseti rfl 0
    have helems : Completes P τ (p ++ [.str name]) (readElems elem len.toNat 0)
        (Scan.times sc len.toNat) := by
      apply Completes.elems
      intro i _ hi
      exact h i (by omega)
    have hitems := helems
      { s with
        heap := s.heap.set (τ (p ++ [.str name])) (.int 0) (.number (.ofInt len))
        stack := .table (τ (p ++ [.str name])) :: s.stack } s.stack bs (hh.set hk h0 _) rfl hs
    dsimp only
    cases heq : Scan.times sc len.toNat bs with
    | stuck => trivial
    | fails rest => trivial
    | ok rest dropped =>
      rw [heq] at hitems
      obtain ⟨t, hrun, hstack, hheap, hrest⟩ := hitems
      refine ⟨{ t with stack := s.stack }, ?_, rfl, hheap, hrest⟩
      rw [run_bind hget, run_bind (run_istable_table rfl), if_pos rfl, run_bind (run_push _),
        run_bind hset, run_bind hrun, if_pos rfl, run_bind (run_pop hstack)]
      rfl
  · simp only [hcnt, not_false_eq_true, if_true, if_false]
    exact completes_refuse

/-- Bytes are read, and what is made of them is stored. -/
theorem completes_bytes {α : Type} {k : ℕ} {x : ReadM α} (hx : ReadsBytes k x)
    {rest : α → ReadM Unit} (hp : P p) {key : LuaKey} (hkey : ¬P (p ++ [key]))
    (hrest : ∀ s a t st, x.run s = .ok a t → t.stack = .table (τ p) :: st →
      ∃ v, (rest a).run t = .ok () { t with heap := t.heap.set (τ p) key v }) :
    Completes P τ p (x >>= fun a => rest a >>= fun _ => pure true) (Scan.bytes k) := by
  intro s st bs hh hst hs
  obtain ⟨a, hrun⟩ := hx s
  obtain ⟨v, hstore⟩ := hrest s a _ st hrun hst
  unfold Scan.bytes
  rcases hs.readBytes_cases k with ⟨hle, m', hread, hm'⟩ | ⟨hlt, -⟩
  · rw [if_neg (by omega)]
    rw [hread] at hrun hstore
    refine ⟨_, (run_bind hrun).trans (run_bind hstore), rfl, hh.set hp hkey v, hm'⟩
  · rw [if_pos hlt]
    trivial

section Value

variable (junk : ℕ → ℕ → UInt8) {store : ReadM Unit} {key : LuaKey}

/-- A scalar, or an element of an array of scalars. -/
theorem completes_store (ty : ProtoType) (hstore : Stores store key) (hp : P p)
    (hkey : ¬P (p ++ [key])) :
    Completes P τ p (readScalarValue junk ty >>= fun b =>
      if b then store >>= fun _ => pure true else pure false) (Scan.value ty) := by
  refine readScalarValue_cases junk (F := fun m sc => Completes P τ p (m >>= fun b =>
    if b then store >>= fun _ => pure true else pure false) sc) ?_ ?_ ty
  · intro α k f g hf
    have hrest : ∀ s a t st, (ProtoParser.read k f).run s = .ok a t →
        t.stack = .table (τ p) :: st → ∃ v, (push (g a) >>= fun _ => store : ReadM Unit).run t =
          .ok () { t with heap := t.heap.set (τ p) key v } := by
      intro s a t st _ hst
      refine ⟨g a, ?_⟩
      rw [run_bind (run_push _), hstore _ _ _ st (by rw [hst]), hst]
    have hbytes := completes_bytes (readsBytes_read hf) hp hkey hrest
    simpa only [bind_assoc, pure_bind, if_true] using hbytes
  · show Completes P τ p (readLstring junk >>= _) _
    unfold readLstring
    simp only [bind_assoc]
    apply Completes.short
    intro len hlen
    apply Completes.noted
    by_cases h0 : len < 0
    · simp only [if_pos h0]
      unfold readChars
      simp only [if_pos h0, pure_bind, Bool.false_eq_true, if_false]
      exact completes_refuse
    · simp only [if_neg h0]
      obtain ⟨n, rfl⟩ := Int.eq_ofNat_of_zero_le (Int.not_lt.mp h0)
      have hrest : ∀ s a t st, (readString junk n).run s = .ok a t →
          t.stack = .table (τ p) :: st →
          ∃ v, (pushlstring a >>= fun _ => store : ReadM Unit).run t =
            .ok () { t with heap := t.heap.set (τ p) key v } := by
        intro s a t st hrun hst
        -- The characters were read, so they are no more than a short says.
        have hlength : a.length < 2^31 := by
          have := length_readString junk hrun
          omega
        refine ⟨.string ⟨a, hlength⟩, ?_⟩
        unfold pushlstring
        rw [dif_pos hlength, run_bind (run_push _), hstore _ _ _ st (by rw [hst]), hst]
      have hbytes := completes_bytes (readsBytes_readString junk n) hp hkey hrest
      rw [readChars_eq junk (by omega), Int.toNat_natCast]
      simpa only [bind_assoc, pure_bind, if_true] using hbytes

theorem completes_readScalar (name : List UInt8) (ty : ProtoType) (hp : P p)
    (hkey : ¬P (p ++ [.str name])) : Completes P τ p (readScalar junk name ty) (Scan.value ty) :=
  completes_store junk ty (stores_setfield name) hp hkey

theorem completes_readElem (ty : ProtoType) {j : ℕ} (hp : P p) (hkey : ¬P (p ++ [.int (j + 1)])) :
    Completes P τ p (readElem junk ty j) (Scan.value ty) := by
  unfold readElem
  rw [readElemValue_eq]
  exact completes_store junk ty (stores_rawseti _) hp hkey

end Value

/-- With the tables of the template in place, the whole loop over the fields returns as the scan
says. -/
theorem Template.completes_read (junk : ℕ → ℕ → UInt8) (T : Template) {p : List LuaKey}
    (htable : ∀ q, T.HasTable q → P (p ++ q)) (hvalue : ∀ q, T.HasValue q → ¬P (p ++ q)) :
    Completes P τ p (T.read junk) T.scan := by
  induction T generalizing p with
  | done => exact completes_return
  | leaf name cnt ty rest ih =>
    have hp : P p := by simpa using htable [] .root
    have hfield : Completes P τ p
        (if cnt < 2 then readScalar junk name ty else readArray name cnt (readElem junk ty))
        (fun bs => if cnt < 2 then Scan.value ty bs else Scan.array cnt (Scan.value ty) bs) := by
      by_cases hcnt : cnt < 2
      · simp only [if_pos hcnt]
        exact completes_readScalar junk name ty hp (hvalue _ (.scalar hcnt))
      · simp only [if_neg hcnt]
        -- The table of the array is there, and the items are values.
        have hk := htable _ (.array hcnt)
        apply Completes.array hp hk
        · have := hvalue _ (.count hcnt)
          rwa [List.append_assoc]
        · intro j hj
          apply completes_readElem junk ty hk
          have := hvalue _ (.item hcnt hj)
          rwa [List.append_assoc]
    exact hfield.seq (ih (fun q hq => htable q (.leafRest hq)) fun q hq => hvalue q (.leafRest hq))
  | node name cnt sub rest ihsub ih =>
    have hp : P p := by simpa using htable [] .root
    have hfield : Completes P τ p
        (if cnt < 2 then readStruct name (readBody (sub.read junk))
          else readArray name cnt (readStructElem name (readBody (sub.read junk))))
        (fun bs => if cnt < 2 then (sub.scan bs).inside
          else Scan.array cnt (fun bs => (sub.scan bs).caught) bs) := by
      by_cases hcnt : cnt < 2
      · simp only [if_pos hcnt]
        have hsub := ihsub (p := p ++ [.str name])
          (fun q hq => by simpa using htable _ (.struct hcnt hq))
          (fun q hq => by simpa using hvalue _ (.struct hcnt hq))
        exact hsub.body.struct hp (htable _ (.struct hcnt .root))
      · simp only [if_neg hcnt]
        have hk := htable _ (.structs hcnt)
        apply Completes.array hp hk
        · have := hvalue _ (.structCount hcnt)
          rwa [List.append_assoc]
        · intro j hj
          have hsub := ihsub (p := p ++ [.str name] ++ [.int (j + 1)])
            (fun q hq => by simpa using htable _ (.elem hcnt hj hq))
            (fun q hq => by simpa using hvalue _ (.elem hcnt hj hq))
          have hj' := htable _ (.elem hcnt hj .root)
          apply hsub.body.structElem hk
          rwa [List.append_assoc]
    exact hfield.seq (ih (fun q hq => htable q (.nodeRest hq)) fun q hq => hvalue q (.nodeRest hq))

end Completes

/-! ## What the reader reports -/

/-- With all tables in place, a packet that the scan passes to its end is reported as a success. -/
theorem success_of_scan (junk : ℕ → ℕ → UInt8) {adj : ℕ → List ProtoAttr} {proto_id fuel : ℕ}
    {T : Template} (hT : Unfolds adj (adj proto_id) T) (hfuel : T.depth < fuel) {bs : List UInt8}
    {dropped : Bool} (hscan : T.scan bs = .ok [] dropped) {s : LuaState Reading}
    {τ : List LuaKey → ℕ} {st : List LuaVal} (hs : s.data.msg.Holds bs)
    (htables : Tables T.HasTable τ s.heap) (hst : s.stack = .table (τ []) :: st)
    (hapart : ∀ p, T.HasValue p → ¬T.HasTable p) :
    ∃ s', (msgExRead junk adj fuel proto_id).run s = .ok 0 s' := by
  have hcompletes : Completes T.HasTable τ [] (T.read junk) T.scan :=
    T.completes_read junk (fun _ hq => hq) hapart
  have hread := hcompletes.body s st bs htables hst hs
  rw [hscan] at hread
  obtain ⟨s', hrun, -, -, hnil⟩ := hread
  refine ⟨s', (msgExRead_success_iff junk).mpr ⟨?_, ?_⟩⟩
  · rw [Template.readMsgDfs_eq junk hT hfuel]
    exact hrun
  · have hback := hnil.back_eq
    rw [List.length_nil] at hback
    omega

/-- For every tree and every packet of at most 512 bytes: unless a bad count or length of an element
of an array of structs is dropped and the rest of the packet reads to its end, a packet for which
`msg_ex::read` reports success is one of the grammar, and all the counts and lengths that were read
are allowed. If it is, and the tables for the packet are in place, then success is reported although
they are not. -/
theorem bad_count_refused_iff (junk : ℕ → ℕ → UInt8) {adj : ℕ → List ProtoAttr}
    {proto_id fuel : ℕ} {T : Template} (hT : Unfolds adj (adj proto_id) T) (hfuel : T.depth < fuel)
    {bs : List UInt8} {s : LuaState Reading} (hs : s.data.msg.Holds bs) (hlog : s.data.log = []) :
    (¬T.Drops bs → ∀ s', (msgExRead junk adj fuel proto_id).run s = .ok 0 s' →
      (∀ e ∈ s'.data.log, e.Good) ∧ T.Packet bs) ∧
    (∀ τ st, Tables T.HasTable τ s.heap → s.stack = .table (τ []) :: st →
      (∀ p, T.HasValue p → ¬T.HasTable p) →
      ((∀ s', (msgExRead junk adj fuel proto_id).run s = .ok 0 s' →
        (∀ e ∈ s'.data.log, e.Good) ∧ T.Packet bs) ↔ ¬T.Drops bs)) := by
  have hsound : ¬T.Drops bs → ∀ s', (msgExRead junk adj fuel proto_id).run s = .ok 0 s' →
      (∀ e ∈ s'.data.log, e.Good) ∧ T.Packet bs := by
    intro hdrops s' hrun
    obtain ⟨dropped, hscan, hgood⟩ := success_scan junk hT hfuel hs hlog hrun
    cases dropped with
    | true => exact absurd hscan hdrops
    | false =>
      obtain ⟨a, ha, hpacket⟩ := T.within_scan bs [] hscan
      rw [List.append_nil] at ha
      exact ⟨hgood.mpr rfl, ha ▸ hpacket⟩
  refine ⟨hsound, fun τ st htables hst hapart => ⟨fun hall hdrops => ?_, hsound⟩⟩
  obtain ⟨s', hrun⟩ := success_of_scan junk hT hfuel hdrops hs htables hst hapart
  obtain ⟨dropped, hscan, hgood⟩ := success_scan junk hT hfuel hs hlog hrun
  have hd : dropped = true := by
    rw [hdrops] at hscan
    injection hscan with _ hd
    exact hd.symm
  have hfalse := hgood.mp (hall s' hrun).1
  rw [hd] at hfalse
  cases hfalse

/-- A node with an array `a` of structs, which have an array `b` of bytes. -/
def nestedAdj : ℕ → List ProtoAttr
  | 1 => [⟨.byte, 2, 2, [97]⟩]
  | 2 => [⟨.byte, 2, 0, [98]⟩]
  | _ => []

/-- Its tree. -/
def nestedTemplate : Template := .node [97] 2 (.leaf [98] 2 .byte .done) .done

theorem unfolds_nested : Unfolds nestedAdj (nestedAdj 1) nestedTemplate :=
  .node (by decide) (.leaf rfl .done) .done

/-- A packet for it, with its tables. -/
def nestedPacket (bs : List UInt8) : LuaState Reading where
  heap := nestedTemplate.skeleton
  stack := [.table (nestedTemplate.placeIdx [])]
  strIndex _ := .nil
  data := ⟨⟨bs, bs.length, 0, 0, 0, 0⟩, []⟩

theorem nestedPacket_holds {bs : List UInt8} (hlen : bs.length ≤ 512) :
    (nestedPacket bs).data.msg.Holds bs :=
  MsgRecv.holds_new rfl rfl hlen List.take_length

/-- Its values are not where its tables are. -/
theorem nestedTemplate_apart (p : List LuaKey) (hvalue : nestedTemplate.HasValue p) :
    ¬nestedTemplate.HasTable p := by
  intro htable
  have hp : p ∈ nestedTemplate.places := Template.mem_places htable
  have hplaces : nestedTemplate.places = [[.str [97]], [.str [97], .int 1, .str [98]],
    [.str [97], .int 1], [.str [97], .int 2, .str [98]], [.str [97], .int 2], []] := by decide
  rw [hplaces] at hp
  cases hvalue with
  | struct hcnt _ => exact absurd hcnt (by norm_num)
  | structCount _ => simp at hp
  | elem _ _ h =>
    cases h with
    | scalar hcnt => exact absurd hcnt (by norm_num)
    | count _ => simp at hp
    | item _ _ => simp at hp
    | leafRest h => cases h
  | nodeRest h => cases h

/-- An element whose array is said to have five elements, of two at most, is accepted. -/
theorem bad_count_accepted : ∃ s',
    (msgExRead (fun _ _ => 0) nestedAdj 3 1).run (nestedPacket [0, 1, 0, 5]) = .ok 0 s' ∧
      ¬∀ e ∈ s'.data.log, e.Good := by
  have heval : (match (msgExRead (fun _ _ => 0) nestedAdj 3 1).run (nestedPacket [0, 1, 0, 5]) with
    | .ok n s' => decide (n = 0 ∧ ¬∀ e ∈ s'.data.log, e.Good)
    | .error _ _ => false) = true := by decide +kernel
  cases hrun : (msgExRead (fun _ _ => 0) nestedAdj 3 1).run (nestedPacket [0, 1, 0, 5]) with
  | ok n s' =>
    rw [hrun] at heval
    obtain ⟨rfl, hbad⟩ := of_decide_eq_true heval
    exact ⟨s', rfl, hbad⟩
  | error e s' =>
    rw [hrun] at heval
    cases heval

/-- An allowed packet is accepted within the grammar, and that packet is accepted outside of it. -/
theorem bad_count_refused_iff_nested :
    (∀ s', (msgExRead (fun _ _ => 0) nestedAdj 3 1).run (nestedPacket [0, 1, 0, 1, 7]) = .ok 0 s' →
      (∀ e ∈ s'.data.log, e.Good) ∧ nestedTemplate.Packet [0, 1, 0, 1, 7]) ∧
    ¬∀ s', (msgExRead (fun _ _ => 0) nestedAdj 3 1).run (nestedPacket [0, 1, 0, 5]) = .ok 0 s' →
      (∀ e ∈ s'.data.log, e.Good) ∧ nestedTemplate.Packet [0, 1, 0, 5] := by
  constructor
  · exact (bad_count_refused_iff _ unfolds_nested (by decide) (nestedPacket_holds (by decide))
      rfl).1 (by decide)
  · have hdepth : nestedTemplate.depth < 3 := by decide
    have hholds : (nestedPacket [0, 1, 0, 5]).data.msg.Holds [0, 1, 0, 5] :=
      nestedPacket_holds (by decide)
    have hiff := (bad_count_refused_iff (fun _ _ => 0) unfolds_nested hdepth hholds rfl).2 _ []
      nestedTemplate.tables_skeleton rfl nestedTemplate_apart
    exact fun hall => hiff.mp hall (by decide)

end Catse
