import Catse.Admin.Requests

/-!
# Replies to administrators

A reply is addressed by a descriptor, which another connection may have by the time `cb_time` writes
it. `Asked` says which requests the replies in the ring are for: each for an earlier request than
the next, so that no request is answered twice, and with its descriptor. `Sent` says what has been
written to a connection: whole replies, each of them to one connection and in the order in which
they were pushed. `Settled` puts the two together with the connections: a connection that lives gets
every reply to its requests, and what it gets besides was for a connection that has ended.
-/

namespace Catse

/-! ## The replies that are pushed -/

namespace MsgAdmin

/-- A reply keeps the descriptor of its request. -/
theorem writeString_fd (m : MsgAdmin) (str : List UInt8) : (m.writeString str).fd = m.fd := by
  unfold writeString
  dsimp only
  split_ifs <;> rfl

/-- A string that fits is written as its length and its bytes. -/
theorem wire_writeString {m : MsgAdmin} (hm : m.buf_len = 0) {str : List UInt8}
    (hfits : str.length ≤ bufSize) :
    (m.writeString str).wire = leBytes 4 str.length ++ str := by
  have hsmall : str.length ≤ 65536 * 8 := hfits
  have hlen : toInt32 (str.length : ℤ) = str.length := toInt32_of_range (by omega)
  have hsize : sizeLt bufSize (str.length : ℤ) = false := by
    rw [sizeLt_of_nonneg (by omega) (by omega), decide_eq_false (by omega)]
  have hwrite : m.writeString str =
      ⟨storeAt m.buf 0 str, str.length, m.fd⟩ := by
    unfold writeString
    dsimp only
    rw [hm, Int.zero_add, hlen, hlen, hsize, if_neg (by decide), Int.toNat_natCast,
      List.take_length]
    rfl
  have hbody : (⟨storeAt m.buf 0 str, str.length, m.fd⟩ : MsgAdmin).body = str := by
    have h := prefixOf_storeAt_length m.buf 0 str
    rw [Nat.zero_add] at h
    exact h
  have hmod : ((str.length : ℤ) % 2^32).toNat = str.length := by omega
  rw [hwrite, wire, hbody]
  show leBytes 4 ((str.length : ℤ) % 2^32).toNat ++ _ = _
  rw [hmod]
  by_cases hnil : str = []
  · subst hnil
    rfl
  · have hne : (str.length : ℤ) ≠ 0 := by
      have hpos := List.length_pos_iff.mpr hnil
      omega
    rw [if_pos hne]

end MsgAdmin

/-- The replies are for ascending requests, those that `handle_admin` is done with, and a reply
has the descriptor of its request and the string that Lua code returned. -/
structure Asked (answers : List (ℕ × List UInt8)) (asked put : List MsgAdmin) (pc : AdminLogicPc) :
    Prop where
  length : answers.length = put.length
  ascending : (answers.map Prod.fst).Pairwise (· < ·)
  earlier : ∀ p ∈ answers, p.1 < asked.length ∧ (pc ≠ .idle → p.1 + 1 < asked.length)
  busy : pc ≠ .idle → 0 < asked.length
  current : ∀ fd str, pc = .reply fd str ∨ pc = .fill fd str →
    ∃ r, asked.getLast? = some r ∧ r.fd = fd
  contents : ∀ (j : ℕ) p m, answers[j]? = some p → put[j]? = some m →
    ∃ r, asked[p.1]? = some r ∧ m.fd = r.fd ∧
      (p.2.length ≤ MsgAdmin.bufSize → m.wire = leBytes 4 p.2.length ++ p.2)

namespace Asked

variable {answers : List (ℕ × List UInt8)} {asked put : List MsgAdmin} {pc pc' : AdminLogicPc}

/-- The logic thread goes on with the reply, or gives it up. -/
theorem onward (g : Asked answers asked put pc)
    (h : pc' = pc ∨ pc' = .idle ∨ ∃ fd str, pc = .reply fd str ∧ pc' = .fill fd str) :
    Asked answers asked put pc' := by
  rcases h with rfl | rfl | ⟨fd, str, rfl, rfl⟩
  · exact g
  · exact ⟨g.length, g.ascending, fun p hp => ⟨(g.earlier p hp).1, fun h => absurd rfl h⟩,
      fun h => absurd rfl h, fun _ _ h => absurd h (by simp), g.contents⟩
  · refine ⟨g.length, g.ascending, fun p hp => ⟨(g.earlier p hp).1, fun _ => ?_⟩,
      fun _ => g.busy (by simp), fun fd' str' h => ?_, g.contents⟩
    · exact (g.earlier p hp).2 (by simp)
    · have heq : fd = fd' ∧ str = str' := by simpa using h
      obtain ⟨rfl, rfl⟩ := heq
      exact g.current fd str (.inl rfl)

/-- The logic thread pops a request. -/
theorem take (g : Asked answers asked put .idle) (m : MsgAdmin) :
    Asked answers (asked ++ [m]) put .handle where
  length := g.length
  ascending := g.ascending
  earlier p hp := by
    have h := (g.earlier p hp).1
    rw [List.length_append, List.length_singleton]
    exact ⟨by omega, fun _ => by omega⟩
  busy _ := by simp
  current _ _ h := absurd h (by simp)
  contents j p m' hp hm' := by
    obtain ⟨r, hr, hrest⟩ := g.contents j p m' hp hm'
    refine ⟨r, ?_, hrest⟩
    rw [List.getElem?_append_left (g.earlier p (List.mem_of_getElem? hp)).1]
    exact hr

/-- Lua code returns a string. -/
theorem handled (g : Asked answers asked put .handle) {m : MsgAdmin}
    (hlast : asked.getLast? = some m) (str : List UInt8) :
    Asked answers asked put (.reply m.fd str) where
  length := g.length
  ascending := g.ascending
  earlier p hp := ⟨(g.earlier p hp).1, fun _ => (g.earlier p hp).2 (by simp)⟩
  busy _ := g.busy (by simp)
  current fd str' h := by
    have heq : m.fd = fd ∧ str = str' := by simpa using h
    exact ⟨m, hlast, heq.1⟩
  contents := g.contents

/-- The reply is pushed. -/
theorem answer {fd : ℤ} {str : List UInt8} (g : Asked answers asked put (.fill fd str))
    {m m' : MsgAdmin}
    (hm : m = ({ m' with buf_len := 0, fd := fd } : MsgAdmin).writeString str) :
    Asked (answers ++ [(asked.length - 1, str)]) asked (put ++ [m]) .idle := by
  have hbusy := g.busy (by simp)
  refine ⟨?_, ?_, fun p hp => ⟨?_, fun h => absurd rfl h⟩, fun h => absurd rfl h,
    fun _ _ h => absurd h (by simp), fun j p m₁ hp hm₁ => ?_⟩
  · rw [List.length_append, List.length_append, g.length]
    rfl
  · rw [List.map_append, List.pairwise_append]
    refine ⟨g.ascending, List.pairwise_singleton _ _, fun a ha c hc => ?_⟩
    obtain ⟨p, hp, rfl⟩ := List.mem_map.mp ha
    have hlt := (g.earlier p hp).2 (by simp)
    rw [List.map_singleton, List.mem_singleton] at hc
    rw [hc]
    show p.1 < asked.length - 1
    omega
  · rcases List.mem_append.mp hp with hp | hp
    · exact (g.earlier p hp).1
    · rw [List.mem_singleton.mp hp]
      show asked.length - 1 < asked.length
      omega
  · rcases Nat.lt_or_ge j answers.length with hj | hj
    · rw [List.getElem?_append_left hj] at hp
      rw [List.getElem?_append_left (g.length ▸ hj)] at hm₁
      exact g.contents j p m₁ hp hm₁
    · -- It is the new one.
      rw [List.getElem?_append_right hj] at hp
      rw [List.getElem?_append_right (g.length ▸ hj), ← g.length] at hm₁
      obtain ⟨hj0, rfl⟩ : j - answers.length = 0 ∧ (asked.length - 1, str) = p := by
        rw [List.getElem?_singleton] at hp
        split_ifs at hp with h0
        exact ⟨h0, Option.some.inj hp⟩
      rw [hj0] at hm₁
      obtain rfl : m = m₁ := Option.some.inj hm₁
      obtain ⟨r, hr, hfd⟩ := g.current fd str (.inr rfl)
      refine ⟨r, ?_, ?_, fun hfits => ?_⟩
      · rw [← hr, List.getLast?_eq_getElem?]
      · rw [hm, MsgAdmin.writeString_fd, hfd]
      · rw [hm]
        exact MsgAdmin.wire_writeString rfl hfits

end Asked

/-! ## The replies that are written -/

/-- What is written to a connection is replies, of the first `done` that `cb_time` has popped, in
their order, each of them to no other connection and with the descriptor of this one. -/
structure Sent (delivered : ℕ → List ℕ) (got : List MsgAdmin) (bes : ℕ → Option Bufferevent)
    (born : ℕ → ℤ) (created done : ℕ) : Prop where
  output : ∀ k b, bes k = some b →
    b.output = streamOf MsgAdmin.wire ((delivered k).filterMap fun j => got[j]?)
  known : ∀ k, ∀ j ∈ delivered k, j < done
  done_le : done ≤ got.length
  ascending : ∀ k, (delivered k).Pairwise (· < ·)
  once : ∀ k k' j, j ∈ delivered k → j ∈ delivered k' → k = k'
  addressed : ∀ k, ∀ j ∈ delivered k, ∃ m, got[j]? = some m ∧ m.fd = born k
  later : ∀ k, created ≤ k → delivered k = []

namespace Sent

variable {delivered : ℕ → List ℕ} {got : List MsgAdmin} {bes bes' : ℕ → Option Bufferevent}
  {born : ℕ → ℤ} {created done k : ℕ} {b : Bufferevent}

/-- The number of replies that `cb_time` is done with, computed otherwise. -/
theorem of_eq (g : Sent delivered got bes born created done) {done' : ℕ} (h : done' = done) :
    Sent delivered got bes born created done' := h ▸ g

/-- The output of no connection changes, except that connections end. -/
theorem outputs (g : Sent delivered got bes born created done)
    (hbes : ∀ j c, bes' j = some c → ∃ c', bes j = some c' ∧ c.output = c'.output) :
    Sent delivered got bes' born created done where
  output j c hc := by
    obtain ⟨c', hc', heq⟩ := hbes j c hc
    exact heq.trans (g.output j c' hc')
  known := g.known
  done_le := g.done_le
  ascending := g.ascending
  once := g.once
  addressed := g.addressed
  later := g.later

/-- A live bufferevent gets another input. -/
theorem input (g : Sent delivered got bes born created done) (hb : bes k = some b)
    (input : List UInt8) :
    Sent delivered got (Function.update bes k (some { b with input := input })) born created
      done := by
  refine g.outputs fun j c hc => ?_
  by_cases hj : j = k
  · rw [hj, Function.update_self] at hc
    exact ⟨b, hj ▸ hb, (congrArg Bufferevent.output (Option.some.inj hc)).symm⟩
  · rw [Function.update_of_ne hj] at hc
    exact ⟨c, hc, rfl⟩

/-- A connection ends. -/
theorem close (g : Sent delivered got bes born created done) (k : ℕ) :
    Sent delivered got (Function.update bes k none) born created done := by
  refine g.outputs fun j c hc => ?_
  by_cases hj : j = k
  · rw [hj, Function.update_self] at hc
    exact absurd hc (by simp)
  · rw [Function.update_of_ne hj] at hc
    exact ⟨c, hc, rfl⟩

/-- A new connection. -/
theorem accept (g : Sent delivered got bes born created done) (fd : ℤ) (cb : Bool) :
    Sent delivered got (Function.update bes created (some ⟨fd, [], [], cb⟩))
      (Function.update born created fd) (created + 1) done where
  output j c hc := by
    by_cases hj : j = created
    · rw [hj, Function.update_self] at hc
      rw [hj, g.later created (Nat.le_refl _), ← Option.some.inj hc]
      rfl
    · rw [Function.update_of_ne hj] at hc
      exact g.output j c hc
  known := g.known
  done_le := g.done_le
  ascending := g.ascending
  once := g.once
  addressed j i hi := by
    have hj : j ≠ created := by
      rintro rfl
      rw [g.later j (Nat.le_refl _)] at hi
      exact absurd hi (by simp)
    rw [Function.update_of_ne hj]
    exact g.addressed j i hi
  later j hj := g.later j (Nat.le_of_succ_le hj)

/-- A reply is popped. -/
theorem pop (g : Sent delivered got bes born created done) (m : MsgAdmin) :
    Sent delivered (got ++ [m]) bes born created done := by
  have hsame : ∀ k, ∀ j ∈ delivered k, (got ++ [m])[j]? = got[j]? := fun k j hj =>
    List.getElem?_append_left ((g.known k j hj).trans_le g.done_le)
  refine ⟨fun k b hb => ?_, g.known, ?_, g.ascending, g.once, fun k j hj => ?_, g.later⟩
  · rw [List.filterMap_congr (hsame k)]
    exact g.output k b hb
  · rw [List.length_append]
    exact Nat.le_add_right_of_le g.done_le
  · rw [hsame k j hj]
    exact g.addressed k j hj

/-- `cb_time` is done with a reply that goes to no connection. -/
theorem drop (g : Sent delivered got bes born created done) (hdone : done < got.length) :
    Sent delivered got bes born created (done + 1) :=
  ⟨g.output, fun k j hj => Nat.lt_succ_of_lt (g.known k j hj), hdone, g.ascending, g.once,
    g.addressed, g.later⟩

/-- `cb_time` writes a reply to a connection. -/
theorem deliver (g : Sent delivered got bes born created done) {m : MsgAdmin}
    (hm : got[done]? = some m) (hb : bes k = some b) (hk : k < created) (hfd : m.fd = born k) :
    Sent (Function.update delivered k (delivered k ++ [done])) got
      (Function.update bes k (some { b with output := b.output ++ m.wire })) born created
      (done + 1) := by
  have hdone : done < got.length := (List.getElem?_eq_some_iff.mp hm).1
  have hmem : ∀ {j i}, i ∈ Function.update delivered k (delivered k ++ [done]) j →
      i ∈ delivered j ∨ j = k ∧ i = done := by
    intro j i hi
    by_cases hj : j = k
    · rw [hj, Function.update_self] at hi
      rcases List.mem_append.mp hi with hi | hi
      · exact .inl (hj ▸ hi)
      · exact .inr ⟨hj, List.mem_singleton.mp hi⟩
    · rw [Function.update_of_ne hj] at hi
      exact .inl hi
  refine ⟨fun j c hc => ?_, fun j i hi => ?_, hdone, fun j => ?_, fun j j' i hi hi' => ?_,
    fun j i hi => ?_, fun j hj => ?_⟩
  · by_cases hj : j = k
    · rw [hj, Function.update_self] at hc
      rw [hj, Function.update_self, List.filterMap_append, streamOf_append, ← g.output k b hb,
        ← Option.some.inj hc]
      simp only [List.filterMap_cons, hm, List.filterMap_nil, streamOf_cons, streamOf_nil,
        List.append_nil]
    · rw [Function.update_of_ne hj] at hc ⊢
      exact g.output j c hc
  · rcases hmem hi with hi | ⟨-, rfl⟩
    · exact Nat.lt_succ_of_lt (g.known j i hi)
    · exact Nat.lt_succ_self _
  · by_cases hj : j = k
    · rw [hj, Function.update_self, List.pairwise_append]
      refine ⟨g.ascending k, List.pairwise_singleton _ _, fun i hi i' hi' => ?_⟩
      rw [List.mem_singleton.mp hi']
      exact g.known k i hi
    · rw [Function.update_of_ne hj]
      exact g.ascending j
  · -- The new one has been written to no connection before.
    rcases hmem hi with h | ⟨rfl, rfl⟩ <;> rcases hmem hi' with h' | ⟨rfl, h'⟩
    · exact g.once j j' i h h'
    · exact absurd (g.known j i h) (by omega)
    · exact absurd (g.known j' i h') (by omega)
    · rfl
  · rcases hmem hi with hi | ⟨rfl, rfl⟩
    · exact g.addressed j i hi
    · exact ⟨m, hm, hfd⟩
  · rw [Function.update_of_ne (by omega)]
    exact g.later j hj

end Sent

end Catse
