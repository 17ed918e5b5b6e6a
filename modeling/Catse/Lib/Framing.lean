import Mathlib.Data.List.Basic
import Mathlib.Data.List.Infix
import Mathlib.Tactic.Common

/-!
# Messages framed in a byte stream

A sender turns each message into a frame, and the frames arrive one behind the other, cut anywhere.
A receiver appends what arrives to its input buffer and takes whole frames off the front. `Synced`
relates the two sides: what has arrived is the frames of the messages taken so far, followed by the
input buffer. It does not mention how the stream was cut, so nothing that a receiver does that keeps
`Synced` depends on it.

`Synced.cases` says what the front of the input buffer is: nothing, with all messages taken; a whole
frame; or a part of one. A receiver has only to tell the last two apart. `readAll` is a receiver of
a stream of which all has arrived.
-/

namespace Catse

variable {M : Type*} (frame : M → List UInt8)

/-- The bytes of the frames of a list of messages. -/
def streamOf (msgs : List M) : List UInt8 := msgs.flatMap frame

@[simp] theorem streamOf_nil : streamOf frame [] = [] := rfl

@[simp] theorem streamOf_append (msgs msgs' : List M) :
    streamOf frame (msgs ++ msgs') = streamOf frame msgs ++ streamOf frame msgs' :=
  List.flatMap_append ..

@[simp] theorem streamOf_cons (m : M) (msgs : List M) :
    streamOf frame (m :: msgs) = frame m ++ streamOf frame msgs := rfl

/-! ## Reading a stream that is there -/

/-- Reads frames one behind the other, `n` of them at most, to the end of the bytes. -/
def readAll {V : Type*} (read : List UInt8 → Option (V × List UInt8)) :
    ℕ → List UInt8 → Option (List V)
  | _, [] => some []
  | 0, _ :: _ => none
  | n + 1, b :: bs => (read (b :: bs)).bind fun r => (readAll read n r.2).map (r.1 :: ·)

/-- A stream has at least as many bytes as frames. -/
theorem length_le_streamOf {msgs : List M} (hframe : ∀ m ∈ msgs, frame m ≠ []) :
    msgs.length ≤ (streamOf frame msgs).length := by
  induction msgs with
  | nil => exact Nat.zero_le _
  | cons m msgs ih =>
    have hpos := List.length_pos_iff.mpr (hframe m List.mem_cons_self)
    have hrest := ih fun m' hm' => hframe m' (List.mem_cons_of_mem m hm')
    rw [streamOf_cons, List.length_append, List.length_cons]
    omega

/-- A reader that takes each frame off whatever follows reads a stream into what each frame stands
for. -/
theorem readAll_streamOf {V : Type*} {read : List UInt8 → Option (V × List UInt8)} {value : M → V}
    {msgs : List M} (hframe : ∀ m ∈ msgs, frame m ≠ [])
    (hread : ∀ m ∈ msgs, ∀ rest, read (frame m ++ rest) = some (value m, rest)) {n : ℕ}
    (hn : msgs.length ≤ n) : readAll read n (streamOf frame msgs) = some (msgs.map value) := by
  induction msgs generalizing n with
  | nil =>
    rw [streamOf_nil, readAll]
    rfl
  | cons m msgs ih =>
    cases n with
    | zero => exact absurd hn (Nat.not_succ_le_zero _)
    | succ n =>
      have hfirst := hread m List.mem_cons_self (streamOf frame msgs)
      have hrest := ih (fun m' hm' => hframe m' (List.mem_cons_of_mem m hm'))
        (fun m' hm' => hread m' (List.mem_cons_of_mem m hm')) (Nat.le_of_succ_le_succ hn)
      obtain ⟨b, bs, hbytes⟩ := List.exists_cons_of_ne_nil (hframe m List.mem_cons_self)
      rw [streamOf_cons, hbytes, List.cons_append, readAll, ← List.cons_append, ← hbytes, hfirst,
        Option.bind_some, hrest]
      rfl

/-! ## What is taken of a stream that arrives -/

/-- A receiver that has taken the messages `out` off what has arrived of the frames of `sent`. -/
structure Synced (sent out : List M) (received input : List UInt8) : Prop where
  isPrefix : out <+: sent
  taken : received = streamOf frame out ++ input
  arrived : received <+: streamOf frame sent

namespace Synced

variable {frame} {sent out : List M} {received input : List UInt8}

/-- Before anything is sent. -/
theorem start : Synced frame [] [] [] [] where
  isPrefix := List.prefix_rfl
  taken := rfl
  arrived := List.prefix_rfl

/-- The sender sends another message. -/
theorem send (h : Synced frame sent out received input) (m : M) :
    Synced frame (sent ++ [m]) out received input where
  isPrefix := h.isPrefix.trans (List.prefix_append _ _)
  taken := h.taken
  arrived := by
    rw [streamOf_append]
    exact h.arrived.trans (List.prefix_append _ _)

/-- More bytes arrive. -/
theorem receive (h : Synced frame sent out received input) {bytes : List UInt8}
    (hbytes : received ++ bytes <+: streamOf frame sent) :
    Synced frame sent out (received ++ bytes) (input ++ bytes) where
  isPrefix := h.isPrefix
  taken := by rw [h.taken, List.append_assoc]
  arrived := hbytes

/-- The input buffer is the beginning of the frames of the messages that are not taken. -/
theorem input_prefix (h : Synced frame sent out received input) :
    ∃ rest, sent = out ++ rest ∧ input <+: streamOf frame rest := by
  obtain ⟨rest, hrest⟩ := h.isPrefix
  refine ⟨rest, hrest.symm, ?_⟩
  have harrived := h.arrived
  rw [h.taken, ← hrest, streamOf_append] at harrived
  exact (List.prefix_append_right_inj _).mp harrived

/-- A message whose frame is whole is taken. -/
theorem take (h : Synced frame sent out received input) {m : M} {rest : List UInt8}
    (hnext : out ++ [m] <+: sent) (hinput : input = frame m ++ rest) :
    Synced frame sent (out ++ [m]) received rest where
  isPrefix := hnext
  taken := by
    rw [h.taken, hinput, streamOf_append, streamOf_cons, streamOf_nil, List.append_nil,
      List.append_assoc]
  arrived := h.arrived

/-- What stands at the front of the input buffer. -/
theorem cases (h : Synced frame sent out received input) :
    (out = sent ∧ input = []) ∨
    (∃ m rest, out ++ [m] <+: sent ∧ input = frame m ++ rest) ∨
    ∃ m tail, out ++ [m] <+: sent ∧ tail ≠ [] ∧ input ++ tail = frame m := by
  obtain ⟨rest, hsent, hinput⟩ := h.input_prefix
  cases rest with
  | nil =>
    rw [streamOf_nil] at hinput
    rw [List.append_nil] at hsent
    exact Or.inl ⟨hsent.symm, List.prefix_nil.mp hinput⟩
  | cons m msgs =>
    right
    have hnext : out ++ [m] <+: sent := by
      refine ⟨msgs, ?_⟩
      rw [hsent, List.append_assoc]
      rfl
    rw [streamOf_cons] at hinput
    obtain ⟨tail, htail⟩ := hinput
    rcases List.append_eq_append_iff.mp htail with ⟨more, hframe, -⟩ | ⟨more, hin, -⟩
    · cases more with
      | nil =>
        left
        refine ⟨m, [], hnext, ?_⟩
        rw [hframe, List.append_nil, List.append_nil]
      | cons b more => exact Or.inr ⟨m, b :: more, hnext, by simp, hframe.symm⟩
    · exact Or.inl ⟨m, more, hnext, hin⟩

/-- When all has arrived, the input buffer does not end within a frame. -/
theorem cases_all (h : Synced frame sent out received input)
    (hall : received = streamOf frame sent) :
    (out = sent ∧ input = []) ∨ ∃ m rest, out ++ [m] <+: sent ∧ input = frame m ++ rest := by
  rcases h.cases with hdone | hwhole | ⟨m, tail, ⟨msgs, hnext⟩, htail, hframe⟩
  · exact Or.inl hdone
  · exact Or.inr hwhole
  · exfalso
    have htaken := h.taken
    have hlen : (frame m).length = input.length + tail.length := by
      rw [← hframe, List.length_append]
    have hpos : 0 < tail.length := List.length_pos_iff.mpr htail
    -- The stream is longer than what has arrived.
    have htotal : (streamOf frame out ++ input).length =
        (streamOf frame ((out ++ [m]) ++ msgs)).length := by
      rw [← htaken, hall, hnext]
    simp only [streamOf_append, streamOf_cons, streamOf_nil, List.length_append,
      List.length_nil] at htotal
    omega

end Synced

end Catse
