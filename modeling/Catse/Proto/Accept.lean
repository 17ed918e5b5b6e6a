import Catse.Proto.Bounds
import Catse.Proto.Grammar

/-!
# What the packet reader accepts

`Follows m sc` says that the code `m`, when it returns, has come where the scan `sc` has, unless a
read has failed or something has been left on the stack. Both of these last: a failed read keeps
`has_read_all` false, and a stack that has grown does not shrink again before the comparison of its
heights. The code is put together from its parts in the same way as the scan, and there is one lemma
for each way of putting parts together.

So when `msg_ex::read` reports success the scan has come to the end of the packet, and the counts
and lengths that were read are all allowed exactly if the scan has dropped nothing (`success_scan`).
-/

namespace Catse

open LuaM ProtoParser

/-- The grammar allows the count or the length. -/
def ReadEvent.Good : ReadEvent → Prop
  | .access .. => True
  | .count len cnt => 0 ≤ len ∧ len ≤ cnt
  | .strLen len => 0 ≤ len

instance (e : ReadEvent) : Decidable e.Good := by
  cases e <;> unfold ReadEvent.Good <;> infer_instance

/-- The code has come where the scan has. -/
def Agree (s : LuaState Reading) (b : Bool) (s' : LuaState Reading) (sc : Scan) : Prop :=
  ∃ evs, s'.data.log = s.data.log ++ evs ∧
    match sc with
    | .ok rest dropped =>
      b = true ∧ s'.data.msg.Holds rest ∧ ((∀ e ∈ evs, e.Good) ↔ dropped = false)
    | .fails rest => b = false ∧ s'.data.msg.Holds rest ∧ ¬∀ e ∈ evs, e.Good
    | .stuck => False

/-- What was read before, if it is allowed, makes no difference. -/
theorem Agree.prepend {s t s' : LuaState Reading} {b : Bool} {sc : Scan} (h : Agree t b s' sc)
    {evs : List ReadEvent} (hlog : t.data.log = s.data.log ++ evs) (hgood : ∀ e ∈ evs, e.Good) :
    Agree s b s' sc := by
  obtain ⟨evs', hlog', hsc⟩ := h
  have hiff : (∀ e ∈ evs ++ evs', e.Good) ↔ ∀ e ∈ evs', e.Good := by
    rw [List.forall_mem_append]
    exact and_iff_right hgood
  refine ⟨evs ++ evs', by rw [hlog', hlog, List.append_assoc], ?_⟩
  cases sc with
  | ok rest dropped => rwa [hiff]
  | fails rest => rwa [hiff]
  | stuck => exact hsc

/-- The stack and the tables make no difference. -/
theorem Agree.of_data {s s' t t' : LuaState Reading} {b : Bool} {sc : Scan} (h : Agree t b t' sc)
    (hs : t.data = s.data) (hs' : s'.data = t'.data) : Agree s b s' sc := by
  unfold Agree at h ⊢
  rwa [hs', ← hs]

/-- The code does what the scan does, as far as it matters. -/
structure Follows (m : ReadM Bool) (sc : List UInt8 → Scan) : Prop where
  failed : Keeps (fun s s' => s.data.Failed → s'.data.Failed) m
  grows : ∀ s b s', m.run s = .ok b s' → s.stack.length ≤ s'.stack.length
  agree : ∀ s bs b s', s.data.msg.Holds bs → m.run s = .ok b s' →
    s'.data.Failed ∨ s.stack.length < s'.stack.length ∨
      (s'.stack.length = s.stack.length ∧ Agree s b s' (sc bs))

/-! ## How the parts are put together -/

section Compose

variable {m m' : ReadM Bool} {sc sc' : List UInt8 → Scan}

/-- Nothing is read. -/
theorem follows_return : Follows (pure true) fun bs => .ok bs false where
  failed := readRel_failed.keeps_return true
  grows s b s' hrun := by
    cases hrun
    exact le_rfl
  agree s bs b s' hs hrun := by
    cases hrun
    exact .inr (.inr ⟨rfl, [], (List.append_nil _).symm, rfl, hs, by simp⟩)

/-- One part after the other, of which the second is skipped if the first returns false. -/
theorem Follows.seq (h : Follows m sc) (h' : Follows m' sc') :
    Follows (m >>= fun b => if b then m' else pure false) fun bs => (sc bs).andThen sc' where
  failed := by
    apply readRel_failed.keeps_seq h.failed
    intro b
    exact keeps_ite h'.failed (readRel_failed.keeps_return false)
  grows s b s' hrun := by
    obtain ⟨c, t, hfirst, hrun⟩ := bind_inv hrun
    have hgrows := h.grows s c t hfirst
    cases c with
    | false =>
      cases hrun
      exact hgrows
    | true => exact hgrows.trans (h'.grows t b s' hrun)
  agree s bs b s' hs hrun := by
    obtain ⟨c, t, hfirst, hrun⟩ := bind_inv hrun
    rcases h.agree s bs c t hs hfirst with hfailed | hlonger | ⟨hsame, evs, hlog, hsc⟩
    · -- A failed read stays failed.
      left
      cases c with
      | false =>
        cases hrun
        exact hfailed
      | true => exact h'.failed.of_run hrun hfailed
    · -- What was left on the stack stays there.
      right
      left
      cases c with
      | false =>
        cases hrun
        exact hlonger
      | true => exact hlonger.trans_le (h'.grows t b s' hrun)
    cases heq : sc bs with
    | stuck =>
      rw [heq] at hsc
      exact hsc.elim
    | fails rest =>
      rw [heq] at hsc
      -- The first part has refused, and the second one is not run.
      obtain ⟨rfl, hsc⟩ := hsc
      cases hrun
      exact .inr (.inr ⟨hsame, evs, hlog, rfl, hsc⟩)
    | ok rest dropped =>
      rw [heq] at hsc
      -- Both parts have been run.
      obtain ⟨rfl, hrest, hgood⟩ := hsc
      rcases h'.agree t rest b s' hrest hrun with hfailed | hlonger | ⟨hsame', evs', hlog', hsc'⟩
      · exact .inl hfailed
      · exact .inr (.inl (hsame ▸ hlonger))
      right
      right
      refine ⟨hsame'.trans hsame, evs ++ evs', by rw [hlog', hlog, List.append_assoc], ?_⟩
      dsimp only [Scan.andThen]
      cases heq' : sc' rest with
      | stuck =>
        rw [heq'] at hsc'
        exact hsc'.elim
      | fails rest' =>
        rw [heq'] at hsc'
        obtain ⟨hb, hrest', hbad⟩ := hsc'
        exact ⟨hb, hrest', fun hall => hbad fun e he => hall e (List.mem_append_right evs he)⟩
      | ok rest' dropped' =>
        rw [heq'] at hsc'
        obtain ⟨hb, hrest', hgood'⟩ := hsc'
        refine ⟨hb, hrest', ?_⟩
        rw [List.forall_mem_append, hgood, hgood', Bool.or_eq_false_iff]

/-- The code works on something that it puts on the stack, and takes away unless it fails. -/
theorem Follows.within {before after : ReadM Unit} (hbefore : Effect 1 before)
    (hafter : Effect (-1) after) (h : Follows m sc) :
    Follows (before >>= fun _ => m >>= fun b =>
      if b then after >>= fun _ => pure true else pure false) fun bs => (sc bs).inside where
  failed := by
    apply readRel_failed.keeps_seq (readRel_failed.keeps_effect hbefore)
    intro _
    apply readRel_failed.keeps_seq h.failed
    intro b
    apply keeps_ite _ (readRel_failed.keeps_return false)
    exact readRel_failed.keeps_effect_true hafter
  grows s b s' hrun := by
    obtain ⟨_, t, hput, hrun⟩ := bind_inv hrun
    have hup := (hbefore.of_run hput).1
    obtain ⟨c, u, hm, hrun⟩ := bind_inv hrun
    have hgrows := h.grows t c u hm
    cases c with
    | false =>
      cases hrun
      omega
    | true =>
      obtain ⟨_, v, htake, hrun⟩ := bind_inv hrun
      have hdown := (hafter.of_run htake).1
      cases hrun
      omega
  agree s bs b s' hs hrun := by
    obtain ⟨_, t, hput, hrun⟩ := bind_inv hrun
    obtain ⟨hup, hdata⟩ := hbefore.of_run hput
    obtain ⟨c, u, hm, hrun⟩ := bind_inv hrun
    have hgrows := h.grows t c u hm
    cases c with
    | false =>
      -- It stays on the stack.
      cases hrun
      exact .inr (.inl (by omega))
    | true =>
      obtain ⟨_, v, htake, hrun⟩ := bind_inv hrun
      obtain ⟨hdown, hdata'⟩ := hafter.of_run htake
      cases hrun
      rw [← hdata] at hs
      rcases h.agree t bs true u hs hm with hfailed | hlonger | ⟨hsame, hagree⟩
      · exact .inl (hdata'.symm ▸ hfailed)
      · exact .inr (.inl (by omega))
      · refine .inr (.inr ⟨by omega, Agree.of_data ?_ hdata hdata'⟩)
        cases heq : sc bs with
        | fails rest =>
          rw [heq] at hagree
          -- The part has returned true.
          obtain ⟨-, -, hfalse, -⟩ := hagree
          cases hfalse
        | ok rest dropped => rwa [heq] at hagree
        | stuck => rwa [heq] at hagree

/-- The code works on something that it puts on the stack, and takes away even if it fails. -/
theorem Follows.caught {before after : ReadM Unit} (hbefore : Effect 1 before)
    (hafter : Effect (-1) after) (h : Follows m sc) :
    Follows (before >>= fun _ => m >>= fun _ => after >>= fun _ => pure true)
      fun bs => (sc bs).caught where
  failed := by
    apply readRel_failed.keeps_seq (readRel_failed.keeps_effect hbefore)
    intro _
    apply readRel_failed.keeps_seq h.failed
    intro b
    exact readRel_failed.keeps_effect_true hafter
  grows s b s' hrun := by
    obtain ⟨_, t, hput, hrun⟩ := bind_inv hrun
    have hup := (hbefore.of_run hput).1
    obtain ⟨c, u, hm, hrun⟩ := bind_inv hrun
    have hgrows := h.grows t c u hm
    obtain ⟨_, v, htake, hrun⟩ := bind_inv hrun
    have hdown := (hafter.of_run htake).1
    cases hrun
    omega
  agree s bs b s' hs hrun := by
    obtain ⟨_, t, hput, hrun⟩ := bind_inv hrun
    obtain ⟨hup, hdata⟩ := hbefore.of_run hput
    obtain ⟨c, u, hm, hrun⟩ := bind_inv hrun
    obtain ⟨_, v, htake, hrun⟩ := bind_inv hrun
    obtain ⟨hdown, hdata'⟩ := hafter.of_run htake
    cases hrun
    rw [← hdata] at hs
    rcases h.agree t bs c u hs hm with hfailed | hlonger | ⟨hsame, evs, hlog, hsc⟩
    · exact .inl (hdata'.symm ▸ hfailed)
    · exact .inr (.inl (by omega))
    · have hagree : Agree t true u (sc bs).caught := by
        refine ⟨evs, hlog, ?_⟩
        cases heq : sc bs with
        | stuck =>
          rw [heq] at hsc
          exact hsc.elim
        | fails rest =>
          -- This is the result that is dropped.
          rw [heq] at hsc
          exact ⟨rfl, hsc.2.1, iff_of_false hsc.2.2 (by simp)⟩
        | ok rest dropped =>
          rw [heq] at hsc
          exact ⟨rfl, hsc.2⟩
      exact .inr (.inr ⟨by omega, hagree.of_data hdata hdata'⟩)

end Compose

/-! ## Counts and lengths -/

section Short

/-- An entry of the record is made. -/
theorem run_note {s : LuaState Reading} (e : ReadEvent) :
    (note e).run s = .ok () { s with data := { s.data with log := s.data.log ++ [e] } } :=
  rfl

/-- What `read_short` makes of the two bytes that were read. -/
theorem readShort_of {m m' : MsgRecv} {r : Option (List UInt8)}
    (h : m.readBytes 2 = (r, m')) :
    m.readShort = (r.elim 0 fun bs => toShort (ofBE bs), m') := by
  unfold MsgRecv.readShort
  rw [h]

/-- A short is read, or there are too few bytes and it is taken to be zero. -/
theorem readShort_cases {m : MsgRecv} {bs : List UInt8} (h : m.Holds bs) :
    (2 ≤ bs.length ∧ ∃ m', m.readShort = (toShort (ofBE (bs.take 2)), m') ∧ m'.Holds (bs.drop 2)) ∨
      (bs.length < 2 ∧ ∃ m', m.readShort = (0, m') ∧ 0 ≤ m'.front ∧ m'.back = -1) := by
  rcases h.readBytes_cases 2 with ⟨hle, m', hread, hm'⟩ | ⟨hlt, m', hread, hm'⟩
  · have hshort := readShort_of hread
    rw [Option.elim_some] at hshort
    exact .inl ⟨hle, m', hshort, hm'⟩
  · exact .inr ⟨hlt, m', readShort_of hread, hm'⟩

/-- The same of the code, which keeps a record of it. -/
theorem run_readShort {s : LuaState Reading} {bs : List UInt8} (hs : s.data.msg.Holds bs) :
    ∃ e d, e.Good ∧ d.log = s.data.log ++ [e] ∧
      ((2 ≤ bs.length ∧ d.msg.Holds (bs.drop 2) ∧
          readShort.run s = .ok (toShort (ofBE (bs.take 2))) { s with data := d }) ∨
        (bs.length < 2 ∧ d.Failed ∧ readShort.run s = .ok 0 { s with data := d })) := by
  let e := ReadEvent.access s.data.msg.front 2 (!s.data.msg.short 2)
  have hrun : readShort.run s = .ok s.data.msg.readShort.1
      { s with data := ⟨s.data.msg.readShort.2, s.data.log ++ [e]⟩ } := rfl
  refine ⟨e, ⟨s.data.msg.readShort.2, s.data.log ++ [e]⟩, trivial, rfl, ?_⟩
  rcases readShort_cases hs with ⟨hle, m', hshort, hm'⟩ | ⟨hlt, m', hshort, hm'⟩
  · left
    rw [hshort] at hrun ⊢
    dsimp only at hrun ⊢
    exact ⟨hle, hm', hrun⟩
  · right
    rw [hshort] at hrun ⊢
    exact ⟨hlt, hm', hrun⟩

/-- Whatever is read is a short. -/
theorem readShort_range (m : MsgRecv) : -2^15 ≤ m.readShort.1 ∧ m.readShort.1 < 2^15 := by
  cases hread : m.readBytes 2 with
  | mk r m' =>
    have hshort := readShort_of hread
    cases r with
    | none =>
      rw [hshort]
      norm_num
    | some bs =>
      rw [Option.elim_some] at hshort
      rw [hshort]
      dsimp only
      exact toShort_range (ofBE bs)

variable {sc : List UInt8 → Scan} {m : ReadM Bool} {e : ReadEvent}

/-- A count or a length is read, and the code goes on with it. -/
theorem Follows.short {f : ℤ → ReadM Bool} {g : ℤ → List UInt8 → Scan}
    (h : ∀ len, -2^15 ≤ len ∧ len < 2^15 → Follows (f len) (g len)) :
    Follows (readShort >>= f) fun bs => Scan.short bs g where
  failed := by
    let R : LuaState Reading → LuaState Reading → Prop := fun s s' => s.data.Failed → s'.data.Failed
    have htrans : ∀ s s' s'', R s s' → R s' s'' → R s s'' := fun _ _ _ h h' hf => h' (h hf)
    apply keeps_bind (R := R) htrans readRel_failed.keeps_readShort
    intro s len t hlen
    cases hlen
    exact (h _ (readShort_range s.data.msg)).failed
  grows s b s' hrun := by
    obtain ⟨len, t, hlen, hrun⟩ := bind_inv hrun
    have hval : len = s.data.msg.readShort.1 ∧ t.stack = s.stack := by
      cases hlen
      exact ⟨rfl, rfl⟩
    rw [← hval.2]
    exact (h len (hval.1 ▸ readShort_range s.data.msg)).grows t b s' hrun
  agree s bs b s' hs hrun := by
    obtain ⟨e, d, he, hlog, hshort⟩ := run_readShort hs
    rcases hshort with ⟨hle, hd, hval⟩ | ⟨hlt, hd, hval⟩
    · rw [run_bind hval] at hrun
      dsimp only [Scan.short]
      rw [if_neg (by omega)]
      rcases (h _ (toShort_range _)).agree _ _ b s' hd hrun with hf | hlonger | ⟨hsame, hagree⟩
      · exact .inl hf
      · exact .inr (.inl hlonger)
      · exact .inr (.inr ⟨hsame, hagree.prepend hlog (by simpa using he)⟩)
    · -- Too few bytes: the read has failed.
      rw [run_bind hval] at hrun
      exact .inl ((h 0 (by norm_num)).failed.of_run hrun hd)

/-- The grammar allows the count or the length. -/
theorem Follows.noted (h : Follows m sc) (he : e.Good)
    (hnot : ∀ off size ok, e ≠ .access off size ok) : Follows (note e >>= fun _ => m) sc where
  failed := readRel_failed.keeps_seq (readRel_failed.keeps_note hnot) fun _ => h.failed
  grows s b s' hrun := by
    obtain ⟨_, t, hnote, hrun⟩ := bind_inv hrun
    have hgrows := h.grows t b s' hrun
    cases hnote
    exact hgrows
  agree s bs b s' hs hrun := by
    obtain ⟨_, t, hnote, hrun⟩ := bind_inv hrun
    have hlog : t.data.log = s.data.log ++ [e] := by
      cases hnote
      rfl
    have ht : t.stack = s.stack ∧ t.data.msg = s.data.msg := by
      cases hnote
      exact ⟨rfl, rfl⟩
    rw [← ht.2] at hs
    rcases h.agree t bs b s' hs hrun with hf | hlonger | ⟨hsame, hagree⟩
    · exact .inl hf
    · exact .inr (.inl (ht.1 ▸ hlonger))
    · exact .inr (.inr ⟨ht.1 ▸ hsame, hagree.prepend hlog (by simpa using he)⟩)

/-- It does not, and the code returns false. -/
theorem follows_refuse (he : ¬e.Good) (hnot : ∀ off size ok, e ≠ .access off size ok) :
    Follows (note e >>= fun _ => pure false) Scan.fails where
  failed := readRel_failed.keeps_seq (readRel_failed.keeps_note hnot) fun _ =>
    readRel_failed.keeps_return false
  grows s b s' hrun := by
    cases hrun
    exact le_rfl
  agree s bs b s' hs hrun := by
    cases hrun
    exact .inr (.inr ⟨rfl, [e], rfl, rfl, hs, by simpa using he⟩)

end Short

/-! ## Values -/

/-- The code reads `k` bytes. -/
def ReadsBytes {α : Type} (k : ℕ) (x : ReadM α) : Prop :=
  ∀ s, ∃ a, x.run s = .ok a { s with data := ⟨(s.data.msg.readBytes k).2,
    s.data.log ++ [.access s.data.msg.front k (!s.data.msg.short k)]⟩ }

/-- Bytes are read, and what is made of them is stored. -/
theorem follows_bytes {α : Type} {k : ℕ} {x : ReadM α} (hx : ReadsBytes k x) {rest : α → ReadM Unit}
    (hrest : ∀ a, Effect 0 (rest a)) :
    Follows (x >>= fun a => rest a >>= fun _ => pure true) (Scan.bytes k) where
  failed := by
    -- Once a read has failed it stays so, whatever is done with the bytes.
    have hread : Keeps (fun s s' => s.data.Failed → s'.data.Failed) x := by
      intro s
      obtain ⟨a, hrun⟩ := hx s
      rw [hrun]
      exact readRel_failed.read s.data k (by omega)
    apply readRel_failed.keeps_seq hread
    intro a
    exact readRel_failed.keeps_effect_true (hrest a)
  grows s b s' hrun := by
    obtain ⟨a, hread⟩ := hx s
    rw [run_bind hread] at hrun
    obtain ⟨_, t, hst, hrun⟩ := bind_inv hrun
    have hheight := ((hrest a).of_run hst).1
    cases hrun
    dsimp only at hheight
    omega
  agree s bs b s' hs hrun := by
    obtain ⟨a, hread⟩ := hx s
    rw [run_bind hread] at hrun
    obtain ⟨_, t, hst, hrun⟩ := bind_inv hrun
    obtain ⟨hheight, hdata⟩ := (hrest a).of_run hst
    cases hrun
    dsimp only at hheight hdata
    unfold Scan.bytes
    -- The bytes are there, or the read has failed.
    rcases hs.readBytes_cases k with ⟨hle, m', hread, hm'⟩ | ⟨hlt, m', hread, hfailed⟩
    · rw [hread] at hdata
      rw [if_neg (by omega)]
      refine .inr (.inr ⟨by omega, [.access s.data.msg.front k (!s.data.msg.short k)], ?_, rfl,
        ?_, ?_⟩)
      · rw [hdata]
      · rw [hdata]
        exact hm'
      · simp [ReadEvent.Good]
    · rw [hread] at hdata
      rw [hdata]
      exact .inl hfailed

/-- A number is read from its bytes. -/
theorem readsBytes_read {α : Type} {k : ℕ} {f : MsgRecv → α × MsgRecv}
    (hf : ∀ m, (f m).2 = (m.readBytes k).2) : ReadsBytes k (ProtoParser.read k f) := by
  intro s
  rw [← hf]
  exact ⟨_, rfl⟩

section Value

variable (junk : ℕ → ℕ → UInt8) {store : ReadM Unit}

/-- So is a string. -/
theorem readsBytes_readString (n : ℕ) : ReadsBytes n (readString junk n) := by
  intro s
  have hmsg : (s.data.msg.readString n).2 = (s.data.msg.readBytes n).2 := by
    unfold MsgRecv.readString
    rw [if_neg (by omega)]
  rw [← hmsg]
  exact ⟨_, rfl⟩

/-- No more characters come from it. -/
theorem length_readString {s s' : LuaState Reading} {n : ℕ} {buf : List UInt8}
    (hrun : (readString junk n).run s = .ok buf s') : buf.length ≤ n := by
  cases hrun
  show ((s.data.msg.readString n).1.getD _).length ≤ n
  unfold MsgRecv.readString MsgRecv.readBytes
  rw [if_neg (by omega)]
  split
  · simp
  · simp

/-- A length that is not negative is small enough for the buffer. -/
theorem readChars_eq {n : ℕ} (hn : n < 2^15) : readChars junk n = (do
    let buf ← readString junk n
    pushlstring buf
    return true) := by
  have hsize : ¬sizeLt 65536 (n : ℤ) = true := by
    rw [sizeLt_of_nonneg (by omega) (by omega)]
    simp only [decide_eq_true_eq, not_lt]
    exact_mod_cast (by omega : n ≤ 65536)
  unfold readChars
  rw [if_neg (by omega), if_neg hsize]

/-- The characters of a string. -/
theorem follows_chars {n : ℕ} (hn : n < 2^15) (hstore : Effect (-1) store) :
    Follows (readChars junk n >>= fun b => if b then store >>= fun _ => pure true else pure false)
      (Scan.bytes n) := by
  have hrest : ∀ buf, Effect 0 (pushlstring buf >>= fun _ => store : ReadM Unit) := by
    intro buf
    exact effect_bind (effect_pushlstring buf) (fun _ => hstore) (by norm_num)
  have hbytes := follows_bytes (readsBytes_readString junk n) hrest
  rw [readChars_eq junk hn]
  simpa only [bind_assoc, pure_bind, if_true] using hbytes

/-- The types of scalars: all the numbers differ in their width only. -/
theorem readScalarValue_cases {F : ReadM Bool → (List UInt8 → Scan) → Prop}
    (hnumber : ∀ {α : Type} {k : ℕ} {f : MsgRecv → α × MsgRecv} {g : α → LuaVal},
      (∀ m, (f m).2 = (m.readBytes k).2) →
        F (ProtoParser.read k f >>= fun n => push (g n) >>= fun _ => pure true) (Scan.bytes k))
    (hstring : F (readLstring junk) fun bs => Scan.short bs fun len bs =>
      if len < 0 then .fails bs else Scan.bytes len.toNat bs) (ty : ProtoType) :
    F (readScalarValue junk ty) (Scan.value ty) := by
  cases ty with
  | byte => exact hnumber (k := 1) fun _ => rfl
  | short => exact hnumber (k := 2) fun _ => rfl
  | int => exact hnumber (k := 4) fun _ => rfl
  | uint => exact hnumber (k := 4) fun _ => rfl
  | double => exact hnumber (k := 8) fun _ => rfl
  | string => exact hstring

/-- A scalar, or an element of an array of scalars: the value is read and stored. -/
theorem follows_store (ty : ProtoType) (hstore : Effect (-1) store) :
    Follows (readScalarValue junk ty >>= fun b =>
      if b then store >>= fun _ => pure true else pure false) (Scan.value ty) := by
  refine readScalarValue_cases junk (F := fun m sc => Follows (m >>= fun b =>
    if b then store >>= fun _ => pure true else pure false) sc) ?_ ?_ ty
  · intro α k f g hf
    have hrest : ∀ n, Effect 0 (push (g n) >>= fun _ => store : ReadM Unit) := by
      intro n
      exact effect_bind (effect_push (g n)) (fun _ => hstore) (by norm_num)
    have hbytes := follows_bytes (readsBytes_read hf) hrest
    simpa only [bind_assoc, pure_bind, if_true] using hbytes
  · show Follows (readLstring junk >>= _) _
    unfold readLstring
    simp only [bind_assoc]
    apply Follows.short
    intro len hlen
    by_cases h0 : len < 0
    · -- A negative length ends the reading before the string.
      simp only [if_pos h0]
      unfold readChars
      simp only [if_pos h0, pure_bind, Bool.false_eq_true, if_false]
      exact follows_refuse (Int.not_le.mpr h0) (by simp)
    · simp only [if_neg h0]
      have hgood : (ReadEvent.strLen len).Good := Int.not_lt.mp h0
      obtain ⟨n, rfl⟩ := Int.eq_ofNat_of_zero_le (Int.not_lt.mp h0)
      exact (follows_chars junk (by omega) hstore).noted hgood (by simp)

theorem follows_readScalar (name : List UInt8) (ty : ProtoType) :
    Follows (readScalar junk name ty) (Scan.value ty) :=
  follows_store junk ty (effect_setfield name)

theorem follows_readElem (ty : ProtoType) (j : ℕ) :
    Follows (readElem junk ty j) (Scan.value ty) := by
  unfold readElem
  rw [readElemValue_eq]
  exact follows_store junk ty (effect_rawseti _)

end Value

/-! ## Structs and arrays -/

section Field

variable {m : ReadM Bool} {sc : List UInt8 → Scan} {elem : ℕ → ReadM Bool}

/-- What `read_msg_dfs` returns is what its loop has returned, at the same height if that is
true. -/
theorem readBody_inv {s s' : LuaState Reading} {b : Bool} (hrun : (readBody m).run s = .ok b s') :
    m.run s = .ok b s' ∧ (b = true → s'.stack.length = s.stack.length) := by
  obtain ⟨top_old, t, hold, hrun⟩ := bind_inv hrun
  cases hold
  obtain ⟨c, u, hfields, hrun⟩ := bind_inv hrun
  cases c with
  | false =>
    cases hrun
    exact ⟨hfields, fun h => absurd h (by simp)⟩
  | true =>
    obtain ⟨top_new, u', hnew, hrun⟩ := bind_inv hrun
    cases hnew
    rcases eq_or_ne s.stack.length u.stack.length with htop | htop
    · rw [if_neg (not_not.mpr htop)] at hrun
      cases hrun
      exact ⟨hfields, fun _ => htop.symm⟩
    · rw [if_pos htop] at hrun
      cases hrun

theorem Follows.body (h : Follows m sc) : Follows (readBody m) sc where
  failed := readRel_failed.keeps_readBody h.failed
  grows s b s' hrun := h.grows s b s' (readBody_inv hrun).1
  agree s bs b s' hs hrun := h.agree s bs b s' hs (readBody_inv hrun).1

theorem Follows.struct (h : Follows m sc) (name : List UInt8) :
    Follows (readStruct name m) fun bs => (sc bs).inside :=
  Follows.within (effect_getfield name) effect_pop h

theorem Follows.structElem (h : Follows m sc) (name : List UInt8) (j : ℕ) :
    Follows (readStructElem name m j) fun bs => (sc bs).caught := by
  -- What comes before the recursive call either pushes the element or raises an error.
  have hbefore : Effect 1 (rawgeti (j + 1) >>= fun _ => istable >>= fun isTable =>
      if isTable then pure () else raise (.elemNotTable name (j + 1)) : ReadM Unit) := by
    apply effect_bind (l := 0) (effect_rawgeti _) _ (by norm_num)
    intro _
    apply effect_bind (l := 0) effect_istable _ (by norm_num)
    intro isTable
    exact effect_ite (effect_return ()) (effect_raise 0 _)
  have hcaught := h.caught hbefore effect_pop
  unfold readStructElem
  simpa only [bind_assoc, check_bind, pure_bind] using hcaught

theorem Follows.elems (h : ∀ j, Follows (elem j) sc) (n j : ℕ) :
    Follows (readElems elem n j) (Scan.times sc n) := by
  induction n generalizing j with
  | zero => exact follows_return
  | succ n ih => exact (h j).seq (ih (j + 1))

theorem Follows.array (h : ∀ j, Follows (elem j) sc) (name : List UInt8) (cnt : ℤ) :
    Follows (readArray name cnt elem) (Scan.array cnt sc) := by
  have hbefore : ∀ len, Effect 1 (getfield name >>= fun _ => istable >>= fun isTable =>
      if isTable then push (.number (.ofInt len)) >>= fun _ => rawseti 0
      else raise (.notTable name) : ReadM Unit) := by
    intro len
    apply effect_bind (l := 0) (effect_getfield name) _ (by norm_num)
    intro _
    apply effect_bind (l := 0) effect_istable _ (by norm_num)
    intro isTable
    apply effect_ite _ (effect_raise 0 _)
    exact effect_bind (effect_push _) (fun _ => effect_rawseti 0) (by norm_num)
  have hitems : ∀ len, Follows _ _ := fun len : ℤ =>
    (Follows.elems h len.toNat 0).within (hbefore len) effect_pop
  unfold readArray
  apply Follows.short
  intro len _
  by_cases hcnt : 0 ≤ len ∧ len ≤ cnt
  · have hgood : (ReadEvent.count len cnt).Good := hcnt
    simp only [if_pos hcnt, not_not.mpr hcnt, if_false]
    apply Follows.noted _ hgood (by simp)
    simpa only [bind_assoc, check_bind] using hitems len
  · have hbad : ¬(ReadEvent.count len cnt).Good := hcnt
    simp only [hcnt, not_false_eq_true, if_true]
    exact follows_refuse hbad (by simp)

/-- The whole loop over the fields does what the scan does. -/
theorem Template.follows_read (junk : ℕ → ℕ → UInt8) (T : Template) :
    Follows (T.read junk) T.scan := by
  induction T with
  | done => exact follows_return
  | leaf name cnt ty rest ih =>
    have hfield : Follows
        (if cnt < 2 then readScalar junk name ty else readArray name cnt (readElem junk ty))
        (fun bs => if cnt < 2 then Scan.value ty bs else Scan.array cnt (Scan.value ty) bs) := by
      by_cases hcnt : cnt < 2
      · simp only [if_pos hcnt]
        exact follows_readScalar junk name ty
      · simp only [if_neg hcnt]
        exact Follows.array (follows_readElem junk ty) name cnt
    exact hfield.seq ih
  | node name cnt sub rest ihsub ih =>
    have hfield : Follows
        (if cnt < 2 then readStruct name (readBody (sub.read junk))
          else readArray name cnt (readStructElem name (readBody (sub.read junk))))
        (fun bs => if cnt < 2 then (sub.scan bs).inside
          else Scan.array cnt (fun bs => (sub.scan bs).caught) bs) := by
      by_cases hcnt : cnt < 2
      · simp only [if_pos hcnt]
        exact ihsub.body.struct name
      · simp only [if_neg hcnt]
        exact Follows.array (ihsub.body.structElem name) name cnt
    exact hfield.seq ih

end Field

/-- When `msg_ex::read` reports success, the scan has come to the end of the packet, and the counts
and lengths that were read are all allowed exactly if it has dropped nothing. -/
theorem success_scan (junk : ℕ → ℕ → UInt8) {adj : ℕ → List ProtoAttr} {proto_id fuel : ℕ}
    {T : Template} (hT : Unfolds adj (adj proto_id) T) (hfuel : T.depth < fuel) {bs : List UInt8}
    {s s' : LuaState Reading} (hs : s.data.msg.Holds bs) (hlog : s.data.log = [])
    (hrun : (msgExRead junk adj fuel proto_id).run s = .ok 0 s') :
    ∃ dropped, T.scan bs = .ok [] dropped ∧ ((∀ e ∈ s'.data.log, e.Good) ↔ dropped = false) := by
  obtain ⟨hdfs, hall⟩ := (msgExRead_success_iff junk).mp hrun
  rw [Template.readMsgDfs_eq junk hT hfuel] at hdfs
  have hlevel := (readBody_inv hdfs).2 rfl
  rcases (T.follows_read junk).body.agree s bs true s' hs hdfs with
    ⟨hfront, hback⟩ | hlonger | ⟨-, evs, hevs, hsc⟩
  · omega
  · omega
  rw [hlog, List.nil_append] at hevs
  cases heq : T.scan bs with
  | stuck =>
    rw [heq] at hsc
    exact hsc.elim
  | fails rest =>
    rw [heq] at hsc
    exact absurd hsc.1 (by simp)
  | ok rest dropped =>
    rw [heq] at hsc
    obtain ⟨-, hrest, hgood⟩ := hsc
    -- All bytes have been read, so none are left.
    have hnil : rest = [] := by
      have hlen := hrest.back_eq
      rw [hall] at hlen
      exact List.eq_nil_of_length_eq_zero (by omega)
    rw [hnil]
    refine ⟨dropped, rfl, ?_⟩
    rw [hevs]
    exact hgood

end Catse
