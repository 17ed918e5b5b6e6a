import Catse.Proto.Parser

/-!
# Template trees

The nodes of `adj` refer to each other by number. `Template` is the tree that a node unfolds to when
no node contains itself, and on it the parser is a recursion over a tree (`Template.read`,
`Template.write`). The functions of the source agree with these as soon as the fuel exceeds the
depth of the tree (`readMsgDfs_eq`, `writeMsgDfs_eq`), and so all further proofs are inductions over
`Template`.
-/

namespace Catse

/-- The fields of a node: scalars and arrays of scalars (`leaf`), structs and arrays of structs
(`node`, with the fields of the struct). -/
inductive Template where
  | done
  | leaf (name : List UInt8) (cnt : ℤ) (ty : ProtoType) (rest : Template)
  | node (name : List UInt8) (cnt : ℤ) (sub rest : Template)
  deriving DecidableEq

/-- A list of fields unfolds to a tree. -/
inductive Unfolds (adj : ℕ → List ProtoAttr) : List ProtoAttr → Template → Prop where
  | done : Unfolds adj [] .done
  | leaf {pa : ProtoAttr} {pas : List ProtoAttr} {T : Template} (next : pa.next = 0)
      (rest : Unfolds adj pas T) : Unfolds adj (pa :: pas) (.leaf pa.name pa.cnt pa.type T)
  | node {pa : ProtoAttr} {pas : List ProtoAttr} {S T : Template} (next : pa.next ≠ 0)
      (sub : Unfolds adj (adj pa.next) S) (rest : Unfolds adj pas T) :
      Unfolds adj (pa :: pas) (.node pa.name pa.cnt S T)

namespace Template

open LuaM ProtoParser

/-- How deep structs are nested. -/
def depth : Template → ℕ
  | done => 0
  | leaf _ _ _ rest => rest.depth
  | node _ _ sub rest => max (sub.depth + 1) rest.depth

/-- The loop of `read_msg_dfs` over the fields of a tree. -/
def read (junk : ℕ → ℕ → UInt8) : Template → ReadM Bool
  | done => return true
  | leaf name cnt ty rest => do
    if ← (if cnt < 2 then readScalar junk name ty
      else readArray name cnt (readElem junk ty)) then rest.read junk
    else return false
  | node name cnt sub rest => do
    if ← (if cnt < 2 then readStruct name (readBody (sub.read junk))
      else readArray name cnt (readStructElem name (readBody (sub.read junk)))) then rest.read junk
    else return false

/-- The loop of `write_msg_dfs` over the fields of a tree. -/
def write : Template → WriteM ℤ
  | done => return 0
  | leaf name cnt ty rest => do
    getfield name
    let ret ← (if cnt < 2 then writeScalar name ty else writeArray name (writeElem name ty))
    if ret ≠ 0 then return ret
    else
      pop
      rest.write
  | node name cnt sub rest => do
    getfield name
    let ret ← (if cnt < 2 then writeBody sub.write else writeArray name (writeBody sub.write))
    if ret ≠ 0 then return ret
    else
      pop
      rest.write

/-- With enough fuel the loop of `read_msg_dfs` is the one over the tree. -/
theorem readFields_eq (junk : ℕ → ℕ → UInt8) {adj : ℕ → List ProtoAttr} {pas : List ProtoAttr}
    {T : Template} (h : Unfolds adj pas T) {fuel : ℕ} (hfuel : T.depth ≤ fuel) :
    readFields junk (readMsgDfs junk adj fuel) pas = T.read junk := by
  induction h generalizing fuel with
  | done => rfl
  | @leaf pa pas T hnext _ ih =>
    have hrest := ih hfuel
    unfold readFields readField Template.read
    simp only [hnext, ne_eq, not_true_eq_false, if_false, hrest]
  | @node pa pas S T hnext _ _ ihsub ih =>
    have hdepth : max (S.depth + 1) T.depth ≤ fuel := hfuel
    have hrest := ih ((le_max_right ..).trans hdepth)
    -- The recursive call has one less fuel, which is still enough for the fields of the struct.
    obtain ⟨f, rfl⟩ : ∃ f, fuel = f + 1 := ⟨fuel - 1, by omega⟩
    have hcall : readMsgDfs junk adj (f + 1) pa.next = readBody (S.read junk) := by
      unfold readMsgDfs
      rw [ihsub (by omega)]
    unfold readFields readField Template.read
    simp only [hnext, ne_eq, not_false_eq_true, if_true, hrest, hcall]

/-- With enough fuel `read_msg_dfs` is the recursion over the tree. -/
theorem readMsgDfs_eq (junk : ℕ → ℕ → UInt8) {adj : ℕ → List ProtoAttr} {nodeid fuel : ℕ}
    {T : Template} (h : Unfolds adj (adj nodeid) T) (hfuel : T.depth < fuel) :
    readMsgDfs junk adj fuel nodeid = readBody (T.read junk) := by
  obtain ⟨f, rfl⟩ : ∃ f, fuel = f + 1 := ⟨fuel - 1, by omega⟩
  unfold readMsgDfs
  rw [readFields_eq junk h (by omega)]

/-- One field of `write_msg_dfs`, with what follows it. -/
theorem writeField_bind (sub : ℕ → WriteM ℤ) (pa : ProtoAttr) (rest : WriteM ℤ) :
    (do
      let ret ← writeField sub pa
      if ret ≠ 0 then return ret else rest) =
    (do
      getfield pa.name
      let ret ←
        (if pa.cnt < 2 then
          (if pa.next ≠ 0 then sub pa.next else writeScalar pa.name pa.type)
        else writeArray pa.name (if pa.next ≠ 0 then sub pa.next else writeElem pa.name pa.type))
      if ret ≠ 0 then return ret
      else
        pop
        rest) := by
  unfold writeField
  simp only [bind_assoc]
  congr 1
  funext _
  congr 1
  funext ret
  by_cases hret : ret = 0
  · simp [hret]
  · simp [hret]

/-- With enough fuel the loop of `write_msg_dfs` is the one over the tree. -/
theorem writeFields_eq {adj : ℕ → List ProtoAttr} {pas : List ProtoAttr} {T : Template}
    (h : Unfolds adj pas T) {fuel : ℕ} (hfuel : T.depth ≤ fuel) :
    writeFields (writeMsgDfs adj fuel) pas = T.write := by
  induction h generalizing fuel with
  | done => rfl
  | @leaf pa pas T hnext _ ih =>
    have hrest := ih hfuel
    unfold writeFields Template.write
    rw [writeField_bind]
    simp only [hnext, ne_eq, not_true_eq_false, if_false, hrest]
  | @node pa pas S T hnext _ _ ihsub ih =>
    have hdepth : max (S.depth + 1) T.depth ≤ fuel := hfuel
    have hrest := ih ((le_max_right ..).trans hdepth)
    obtain ⟨f, rfl⟩ : ∃ f, fuel = f + 1 := ⟨fuel - 1, by omega⟩
    have hcall : writeMsgDfs adj (f + 1) pa.next = writeBody S.write := by
      unfold writeMsgDfs
      rw [ihsub (by omega)]
    unfold writeFields Template.write
    rw [writeField_bind]
    simp only [hnext, ne_eq, not_false_eq_true, if_true, hrest, hcall]

/-- With enough fuel `write_msg_dfs` is the recursion over the tree. -/
theorem writeMsgDfs_eq {adj : ℕ → List ProtoAttr} {nodeid fuel : ℕ} {T : Template}
    (h : Unfolds adj (adj nodeid) T) (hfuel : T.depth < fuel) :
    writeMsgDfs adj fuel nodeid = writeBody T.write := by
  obtain ⟨f, rfl⟩ : ∃ f, fuel = f + 1 := ⟨fuel - 1, by omega⟩
  unfold writeMsgDfs
  rw [writeFields_eq h (by omega)]

end Template

end Catse
