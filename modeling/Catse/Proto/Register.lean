import Catse.Proto.Template
import Catse.Lib.Forest
import Mathlib.Data.List.TakeWhile
import Mathlib.Data.List.Induction
import Mathlib.Data.List.Nodup
import Mathlib.Order.Interval.Finset.Nat

/-!
# Registration of templates

`register_template` copies a template, which is a Lua table, into `adj`: the fields of the packet
into the node `proto_id`, and the fields of each nested table into a node of its own,
`++next_node_id`. The numbers of the nested nodes begin behind `4096`, in the range of the packets'
own numbers, and a node that is in use already is left as it is: `template2tree_dfs` returns at an
`assert` that the build compiles out.

`TemplateTable` is the Lua table as the source reads it. The function leaves the Lua stack as it
found it, which is not modelled. The process ends at a name of a wrong length and at a table with
too many fields.
-/

namespace Catse

/-- The types by their names, as `template2tree_dfs` compares them. -/
def ProtoType.ofName (type : List UInt8) : Option ProtoType :=
  if type = [98, 121, 116, 101] then some .byte
  else if type = [115, 104, 111, 114, 116] then some .short
  else if type = [100, 111, 117, 98, 108, 101] then some .double
  else if type = [105, 110, 116] then some .int
  else if type = [117, 105, 110, 116] then some .uint
  else if type = [115, 116, 114, 105, 110, 103] then some .string
  else none

/-- The fields of a template: each has a name, the number that `(int)luaL_checknumber` reads as its
count, and the name of a type or the table of a struct. -/
inductive TemplateTable where
  | done
  | scalar (name : List UInt8) (cnt : ℤ) (type : List UInt8) (rest : TemplateTable)
  | struct (name : List UInt8) (cnt : ℤ) (sub rest : TemplateTable)
  deriving DecidableEq

/-- `proto_parser`, as far as it keeps the templates. -/
structure ProtoParser where
  adj : ℕ → ℕ → ProtoAttr
  next_node_id : ℕ

namespace ProtoParser

/-- `sizeof(adj) / sizeof(*adj)`. -/
def adjSize : ℕ := 32768

/-- `sizeof(*adj) / sizeof(**adj)`. -/
def rowSize : ℕ := 128

/-- `sizeof(proto_attr::name)`. -/
def nameSize : ℕ := 64

/-- The `next_node_id` that the constructor sets. -/
def firstNodeId : ℕ := 4096

/-- `proto_parser::proto_parser`. -/
def init : ProtoParser := ⟨fun _ _ => ⟨.byte, 0, 0, []⟩, firstNodeId⟩

/-- The C string in a buffer. -/
def cstring (bs : List UInt8) : List UInt8 := bs.takeWhile (· ≠ 0)

/-- The field `adj[nodeid][i]` becomes `a`. -/
def setAttr (p : ProtoParser) (nodeid i : ℕ) (a : ProtoAttr) : ProtoParser :=
  { p with adj := Function.update p.adj nodeid (Function.update (p.adj nodeid) i a) }

/-- The checks at the start of `template2tree_dfs`, before its loop over the `fields`. -/
def enter (nodeid : ℕ) (p : ProtoParser) (fields : ProtoParser → Option ProtoParser) :
    Option ProtoParser :=
  if adjSize ≤ nodeid then none
  else if (p.adj nodeid 0).name ≠ [] then some p
  else fields p

/-- The loop of `template2tree_dfs` from the field `i` on, or `none` when the process ends. A type
of an unknown name leaves `type` as it is. -/
def templateFields : TemplateTable → ℕ → ℕ → ProtoParser → Option ProtoParser
  | .done, _, _, p => some p
  | .scalar name cnt type rest, nodeid, i, p =>
    if rowSize ≤ i + 1 ∨ name.length < 1 ∨ nameSize ≤ name.length then none
    else
      templateFields rest nodeid (i + 1) (p.setAttr nodeid i
        ⟨(ProtoType.ofName type).getD (p.adj nodeid i).type, toShort cnt, 0, cstring name⟩)
  | .struct name cnt sub rest, nodeid, i, p =>
    if rowSize ≤ i + 1 ∨ name.length < 1 ∨ nameSize ≤ name.length then none
    else
      let next := p.next_node_id + 1
      let p := { p.setAttr nodeid i ⟨(p.adj nodeid i).type, toShort cnt, next, cstring name⟩ with
        next_node_id := next }
      (p.enter next (templateFields sub next 0)).bind fun p =>
        templateFields rest nodeid (i + 1) p

/-- `proto_parser::template2tree_dfs`. -/
def template2treeDfs (nodeid : ℕ) (t : TemplateTable) (p : ProtoParser) : Option ProtoParser :=
  p.enter nodeid (templateFields t nodeid 0)

/-- `msg_ex::register_template`, called in turn with each number and its template. -/
def registerTemplates (calls : List (ℕ × TemplateTable)) (p : ProtoParser) : Option ProtoParser :=
  calls.foldlM (fun p c => template2treeDfs c.1 c.2 p) p

/-- The fields of a row from `i` on, of at most `k`, as the loops over `adj[nodeid]` see them: up to
an empty name. -/
def fieldsFrom (row : ℕ → ProtoAttr) : ℕ → ℕ → List ProtoAttr
  | 0, _ => []
  | k + 1, i => if (row i).name = [] then [] else row i :: fieldsFrom row k (i + 1)

/-- The fields of a node. -/
def fields (p : ProtoParser) (nodeid : ℕ) : List ProtoAttr := fieldsFrom (p.adj nodeid) rowSize 0

/-- One of the fields of `n` is a struct with the fields of `m`. -/
def Child (p : ProtoParser) (n m : ℕ) : Prop := ∃ pa ∈ p.fields n, pa.next ≠ 0 ∧ pa.next = m

end ProtoParser

namespace TemplateTable

/-- The tree that a template describes, when all its types are known. -/
def tree : TemplateTable → Option Template
  | done => some .done
  | scalar name cnt type rest =>
    (ProtoType.ofName type).bind fun ty => rest.tree.map fun T => .leaf name cnt ty T
  | struct name cnt sub rest =>
    sub.tree.bind fun S => rest.tree.map fun T => .node name cnt S T

/-- The number of fields. -/
def length : TemplateTable → ℕ
  | done => 0
  | scalar _ _ _ rest => rest.length + 1
  | struct _ _ _ rest => rest.length + 1

/-- The number of nested tables. -/
def nested : TemplateTable → ℕ
  | done => 0
  | scalar _ _ _ rest => rest.nested
  | struct _ _ sub rest => sub.nested + 1 + rest.nested

/-- Names of `1` to `63` bytes, and at most `126` fields in each nested table. -/
def NamesFit : TemplateTable → Prop
  | done => True
  | scalar name _ _ rest => 1 ≤ name.length ∧ name.length ≤ 63 ∧ rest.NamesFit
  | struct name _ sub rest =>
    1 ≤ name.length ∧ name.length ≤ 63 ∧ sub.length ≤ 126 ∧ sub.NamesFit ∧ rest.NamesFit

instance NamesFit.decidable : (t : TemplateTable) → Decidable t.NamesFit
  | done => .isTrue trivial
  | scalar name _ _ rest =>
    have := NamesFit.decidable rest
    inferInstanceAs (Decidable (1 ≤ name.length ∧ name.length ≤ 63 ∧ rest.NamesFit))
  | struct name _ sub rest =>
    have := NamesFit.decidable sub
    have := NamesFit.decidable rest
    inferInstanceAs (Decidable (1 ≤ name.length ∧ name.length ≤ 63 ∧ sub.length ≤ 126 ∧
      sub.NamesFit ∧ rest.NamesFit))

/-- A template that is well-formed and has a field. -/
structure WellFormed (t : TemplateTable) : Prop where
  nonempty : t ≠ done
  known : t.tree.isSome
  length_le : t.length ≤ 126
  namesFit : t.NamesFit

/-- What a `proto_attr` can hold: names without a zero byte and counts that are a `short`. -/
def Storable : TemplateTable → Prop
  | done => True
  | scalar name cnt _ rest => 0 ∉ name ∧ toShort cnt = cnt ∧ rest.Storable
  | struct name cnt sub rest => 0 ∉ name ∧ toShort cnt = cnt ∧ sub.Storable ∧ rest.Storable

instance Storable.decidable : (t : TemplateTable) → Decidable t.Storable
  | done => .isTrue trivial
  | scalar name cnt _ rest =>
    have := Storable.decidable rest
    inferInstanceAs (Decidable (0 ∉ name ∧ toShort cnt = cnt ∧ rest.Storable))
  | struct name cnt sub rest =>
    have := Storable.decidable sub
    have := Storable.decidable rest
    inferInstanceAs (Decidable (0 ∉ name ∧ toShort cnt = cnt ∧ sub.Storable ∧ rest.Storable))

end TemplateTable

namespace ProtoParser

open Relation

/-! ## What every registration keeps -/

/-- A name without a zero byte is its own C string. -/
theorem cstring_eq {name : List UInt8} (h : 0 ∉ name) : cstring name = name := by
  apply List.takeWhile_eq_self_iff.mpr
  intro b hb
  have hne : b ≠ 0 := fun h0 => h (h0 ▸ hb)
  simpa using hne

/-- A C string has no zero byte. -/
theorem zero_notMem_cstring (name : List UInt8) : 0 ∉ cstring name := by
  intro h
  have hne := List.mem_takeWhile_imp h
  simp at hne

/-- What holds of `adj` in every run: the numbers of nested nodes are those that were handed out,
each to one field; and the fields hold C strings and `short`s. -/
structure Traced (p : ProtoParser) : Prop where
  first : firstNodeId ≤ p.next_node_id
  next_range : ∀ n i, (p.adj n i).next ≠ 0 →
    firstNodeId < (p.adj n i).next ∧ (p.adj n i).next ≤ p.next_node_id
  next_inj : ∀ n i n' i', (p.adj n i).next ≠ 0 → (p.adj n i).next = (p.adj n' i').next →
    n = n' ∧ i = i'
  name_cstring : ∀ n i, 0 ∉ (p.adj n i).name
  cnt_short : ∀ n i, toShort (p.adj n i).cnt = (p.adj n i).cnt

theorem traced_init : Traced init where
  first := le_rfl
  next_range _ _ h := absurd rfl h
  next_inj _ _ _ _ h := absurd rfl h
  name_cstring _ _ := by simp [init]
  cnt_short _ _ := by
    show toShort 0 = 0
    decide

/-- A `short` is its own conversion. -/
theorem toShort_toShort (n : ℤ) : toShort (toShort n) = toShort n :=
  toShort_of_range (toShort_range n)

@[simp] theorem setAttr_self (p : ProtoParser) (n i : ℕ) (a : ProtoAttr) :
    (p.setAttr n i a).adj n i = a := by
  simp [setAttr]

/-- The other fields are as before. -/
theorem setAttr_of_ne (p : ProtoParser) {n i m j : ℕ} (a : ProtoAttr) (h : m ≠ n ∨ j ≠ i) :
    (p.setAttr n i a).adj m j = p.adj m j := by
  unfold setAttr
  dsimp only
  by_cases hm : m = n
  · subst hm
    have hj : j ≠ i := h.resolve_left (fun hne => hne rfl)
    rw [Function.update_self, Function.update_of_ne hj]
  · rw [Function.update_of_ne hm]

/-- A field is set, to a scalar or to a struct with the next number. -/
theorem Traced.setAttr {p : ProtoParser} (h : p.Traced) (n i : ℕ) {a : ProtoAttr} {next : ℕ}
    (hnext : (a.next = 0 ∧ p.next_node_id ≤ next) ∨ (a.next = next ∧ next = p.next_node_id + 1))
    (hname : 0 ∉ a.name) (hcnt : toShort a.cnt = a.cnt) :
    Traced { p.setAttr n i a with next_node_id := next } := by
  have hle : p.next_node_id ≤ next := by omega
  have hfirst := h.first
  -- A field is the new one, or it is as before.
  have hcases : ∀ m j, (m = n ∧ j = i ∧ (p.setAttr n i a).adj m j = a) ∨
      ((m ≠ n ∨ j ≠ i) ∧ (p.setAttr n i a).adj m j = p.adj m j) := by
    intro m j
    by_cases heq : m = n ∧ j = i
    · obtain ⟨rfl, rfl⟩ := heq
      exact Or.inl ⟨rfl, rfl, p.setAttr_self m j a⟩
    · have hne : m ≠ n ∨ j ≠ i := by
        by_contra hnot
        exact heq (by simpa using hnot)
      exact Or.inr ⟨hne, p.setAttr_of_ne a hne⟩
  constructor
  · exact hfirst.trans hle
  · intro m j hne
    show firstNodeId < ((p.setAttr n i a).adj m j).next ∧ ((p.setAttr n i a).adj m j).next ≤ next
    change ((p.setAttr n i a).adj m j).next ≠ 0 at hne
    rcases hcases m j with ⟨-, -, heq⟩ | ⟨-, heq⟩
    · rw [heq] at hne ⊢
      omega
    · rw [heq] at hne ⊢
      have := h.next_range m j hne
      omega
  · intro m j m' j' hne hsame
    change ((p.setAttr n i a).adj m j).next ≠ 0 at hne
    change ((p.setAttr n i a).adj m j).next = ((p.setAttr n i a).adj m' j').next at hsame
    rcases hcases m j with ⟨hm, hj, heq⟩ | ⟨-, heq⟩
    · rcases hcases m' j' with ⟨hm', hj', -⟩ | ⟨-, heq'⟩
      · exact ⟨hm.trans hm'.symm, hj.trans hj'.symm⟩
      · -- The new number is above all the others.
        rw [heq] at hne
        rw [heq, heq'] at hsame
        have := h.next_range m' j' (by rw [← hsame]; exact hne)
        omega
    · rcases hcases m' j' with ⟨-, -, heq'⟩ | ⟨-, heq'⟩
      · rw [heq] at hne
        rw [heq, heq'] at hsame
        -- An old number is not the new one.
        have := h.next_range m j hne
        omega
      · rw [heq] at hne
        rw [heq, heq'] at hsame
        exact h.next_inj m j m' j' hne hsame
  · intro m j
    show 0 ∉ ((p.setAttr n i a).adj m j).name
    rcases hcases m j with ⟨-, -, heq⟩ | ⟨-, heq⟩
    · rw [heq]
      exact hname
    · rw [heq]
      exact h.name_cstring m j
  · intro m j
    show toShort ((p.setAttr n i a).adj m j).cnt = ((p.setAttr n i a).adj m j).cnt
    rcases hcases m j with ⟨-, -, heq⟩ | ⟨-, heq⟩
    · rw [heq]
      exact hcnt
    · rw [heq]
      exact h.cnt_short m j

/-- What a part of a registration does to `next_node_id`, which hands out at most `k` numbers. -/
structure Extends (k : ℕ) (p p' : ProtoParser) : Prop where
  traced : p'.Traced
  mono : p.next_node_id ≤ p'.next_node_id
  le : p'.next_node_id ≤ p.next_node_id + k

/-- A node that is in use is left as it is, and otherwise it is filled. -/
theorem enter_extends {k n : ℕ} {p p' : ProtoParser} {fields : ProtoParser → Option ProtoParser}
    (hp : p.Traced) (hfields : ∀ q, fields p = some q → p.Extends k q)
    (h : p.enter n fields = some p') : p.Extends k p' := by
  unfold enter at h
  split_ifs at h with hsize hused
  · have heq : p = p' := Option.some.inj h
    rw [← heq]
    exact ⟨hp, le_rfl, by omega⟩
  · exact hfields p' h

/-- The loop over the fields hands out at most one number for each nested table. -/
theorem templateFields_extends (t : TemplateTable) {n i : ℕ} {p p' : ProtoParser} (hp : p.Traced)
    (h : templateFields t n i p = some p') : p.Extends t.nested p' := by
  induction t generalizing n i p p' with
  | done =>
    have heq : p = p' := Option.some.inj h
    rw [← heq]
    exact ⟨hp, le_rfl, by omega⟩
  | scalar name cnt type rest ih =>
    rw [templateFields] at h
    split_ifs at h with hexit
    have hset : (p.setAttr n i ⟨(ProtoType.ofName type).getD (p.adj n i).type, toShort cnt, 0,
        cstring name⟩).Traced :=
      hp.setAttr n i (Or.inl ⟨rfl, le_rfl⟩) (zero_notMem_cstring name) (toShort_toShort cnt)
    obtain ⟨hp', hmono, hle⟩ := ih hset h
    exact ⟨hp', hmono, hle⟩
  | struct name cnt sub rest ihsub ih =>
    rw [templateFields] at h
    split_ifs at h with hexit
    obtain ⟨q, hq, hrest⟩ := Option.bind_eq_some_iff.mp h
    have hset := hp.setAttr n i
      (a := ⟨(p.adj n i).type, toShort cnt, p.next_node_id + 1, cstring name⟩)
      (Or.inr ⟨rfl, rfl⟩) (zero_notMem_cstring name) (toShort_toShort cnt)
    obtain ⟨hq', hmono, hle⟩ := enter_extends hset (fun _ hfields => ihsub hset hfields) hq
    obtain ⟨hp', hmono', hle'⟩ := ih hq' hrest
    refine ⟨hp', ?_, ?_⟩
    · have : p.next_node_id + 1 ≤ q.next_node_id := hmono
      omega
    · have : q.next_node_id ≤ p.next_node_id + 1 + sub.nested := hle
      rw [TemplateTable.nested]
      omega

/-- The number of nested tables of all templates. -/
def nestedTotal (calls : List (ℕ × TemplateTable)) : ℕ := (calls.map fun c => c.2.nested).sum

/-- All registrations hand out at most one number for each nested table. -/
theorem registerTemplates_extends {calls : List (ℕ × TemplateTable)} {p p' : ProtoParser}
    (hp : p.Traced) (h : registerTemplates calls p = some p') :
    p.Extends (nestedTotal calls) p' := by
  induction calls generalizing p with
  | nil =>
    have heq : p = p' := Option.some.inj h
    rw [← heq]
    exact ⟨hp, le_rfl, by omega⟩
  | cons c calls ih =>
    rw [registerTemplates, List.foldlM_cons] at h
    obtain ⟨q, hq, hrest⟩ := Option.bind_eq_some_iff.mp h
    obtain ⟨hq', hmono, hle⟩ :=
      enter_extends hp (fun _ hfields => templateFields_extends c.2 hp hfields) hq
    obtain ⟨hp', hmono', hle'⟩ := ih hq' hrest
    refine ⟨hp', hmono.trans hmono', ?_⟩
    rw [nestedTotal, List.map_cons, List.sum_cons]
    rw [nestedTotal] at hle'
    omega

/-! ## Registrations into nodes that are free -/

/-- The template is in the row `n` from the field `i` on, with its nested tables in the nodes from
`lo + 1` on. -/
def Stored (adj : ℕ → ℕ → ProtoAttr) : TemplateTable → ℕ → ℕ → ℕ → Prop
  | .done, n, i, _ => (adj n i).name = []
  | .scalar name cnt type rest, n, i, lo =>
    (∃ ty, ProtoType.ofName type = some ty ∧ adj n i = ⟨ty, toShort cnt, 0, cstring name⟩) ∧
      Stored adj rest n (i + 1) lo
  | .struct name cnt sub rest, n, i, lo =>
    (∃ ty, adj n i = ⟨ty, toShort cnt, lo + 1, cstring name⟩) ∧ Stored adj sub (lo + 1) 0 (lo + 1) ∧
      Stored adj rest n (i + 1) (lo + 1 + sub.nested)

/-- What is stored stays so while its row and its nested nodes are left alone. -/
theorem Stored.congr {adj adj' : ℕ → ℕ → ProtoAttr} {t : TemplateTable} {n i lo : ℕ}
    (h : Stored adj t n i lo) (hrow : ∀ j, i ≤ j → adj' n j = adj n j)
    (hnodes : ∀ m, lo < m → m ≤ lo + t.nested → adj' m = adj m) : Stored adj' t n i lo := by
  induction t generalizing n i lo with
  | done =>
    have hname : (adj n i).name = [] := h
    show (adj' n i).name = []
    rw [hrow i le_rfl, hname]
  | scalar name cnt type rest ih =>
    obtain ⟨hfield, hrest⟩ := h
    constructor
    · rw [hrow i le_rfl]
      exact hfield
    · exact ih hrest (fun j hj => hrow j (by omega)) hnodes
  | struct name cnt sub rest ihsub ih =>
    obtain ⟨hfield, hsub, hrest⟩ := h
    simp only [TemplateTable.nested] at hnodes
    have hown : adj' (lo + 1) = adj (lo + 1) := hnodes _ (by omega) (by omega)
    refine ⟨?_, ?_, ?_⟩
    · rw [hrow i le_rfl]
      exact hfield
    · apply ihsub hsub
      · intro j _
        rw [hown]
      · intro m hlt hle
        exact hnodes m (by omega) (by omega)
    · apply ih hrest
      · intro j hj
        exact hrow j (by omega)
      · intro m hlt hle
        exact hnodes m (by omega) (by omega)

/-- What the loop does from the field `i` on, in a row and with numbers that are free: it stores the
template, and leaves the other nodes and the fields before alone. -/
structure Fills (t : TemplateTable) (n i : ℕ) (p p' : ProtoParser) : Prop where
  next_eq : p'.next_node_id = p.next_node_id + t.nested
  stored : Stored p'.adj t n i p.next_node_id
  frame : ∀ m, m ≠ n → ¬(p.next_node_id < m ∧ m ≤ p.next_node_id + t.nested) → p'.adj m = p.adj m
  before : ∀ j, j < i → p'.adj n j = p.adj n j

/-- A row or a range of numbers is free: all its names are empty. -/
def FreeRow (p : ProtoParser) (n i : ℕ) : Prop := ∀ j, i ≤ j → (p.adj n j).name = []

/-- The field `i` of the row `n` has become `a`, and `k` numbers have been handed out. But for their
nodes nothing else has changed. -/
structure SetsField (n i : ℕ) (a : ProtoAttr) (k : ℕ) (p q : ProtoParser) : Prop where
  next_eq : q.next_node_id = p.next_node_id + k
  field : q.adj n i = a
  frame : ∀ m j, m ≠ n ∨ j ≠ i → ¬(p.next_node_id < m ∧ m ≤ p.next_node_id + k) → q.adj m j =
    p.adj m j

namespace SetsField

variable {n i k : ℕ} {a : ProtoAttr} {p q p' : ProtoParser}

/-- A field of a scalar type. -/
theorem scalar (p : ProtoParser) (n i : ℕ) (a : ProtoAttr) :
    SetsField n i a 0 p (p.setAttr n i a) where
  next_eq := rfl
  field := p.setAttr_self n i a
  frame _ _ hne _ := p.setAttr_of_ne a hne

/-- The row is still free behind the field. -/
theorem freeRow (h : SetsField n i a k p q) (hn : ¬(p.next_node_id < n ∧ n ≤ p.next_node_id + k))
    (hrow : p.FreeRow n i) : q.FreeRow n (i + 1) := by
  intro j hj
  rw [h.frame n j (Or.inr (by omega)) hn]
  exact hrow j (by omega)

/-- So are the nodes that were free behind those that have been handed out. -/
theorem freeNodes (h : SetsField n i a k p q) {l : ℕ}
    (hn : ¬(p.next_node_id < n ∧ n ≤ p.next_node_id + (k + l)))
    (hnodes : ∀ m, p.next_node_id < m → m ≤ p.next_node_id + (k + l) → p.FreeRow m 0) :
    ∀ m, q.next_node_id < m → m ≤ q.next_node_id + l → q.FreeRow m 0 := by
  intro m hlt hle j hj
  rw [h.next_eq] at hlt hle
  have hmn : m ≠ n := fun heq => hn (heq ▸ ⟨by omega, by omega⟩)
  rw [h.frame m j (Or.inl hmn) (by omega)]
  exact hnodes m (by omega) (by omega) j hj

/-- A field of a nested table, which goes into the node that is handed out for it. -/
theorem nested {sub : TemplateTable}
    (hn : ¬(p.next_node_id < n ∧ n ≤ p.next_node_id + (1 + sub.nested)))
    (hsub : Fills sub (p.next_node_id + 1) 0
      { p.setAttr n i a with next_node_id := p.next_node_id + 1 } q) :
    SetsField n i a (1 + sub.nested) p q := by
  have hkeep : ∀ m, ¬(p.next_node_id < m ∧ m ≤ p.next_node_id + (1 + sub.nested)) →
      q.adj m = (p.setAttr n i a).adj m := by
    intro m hm
    apply hsub.frame m (by omega)
    dsimp only
    omega
  constructor
  · rw [hsub.next_eq, Nat.add_assoc]
  · rw [hkeep n hn, p.setAttr_self n i a]
  · intro m j hne hm
    rw [hkeep m hm, p.setAttr_of_ne a hne]

/-- The rest of the template goes behind the field, which stays, and so does all that was there
before. -/
theorem fills (h : SetsField n i a k p q) {rest : TemplateTable}
    (hn : ¬(p.next_node_id < n ∧ n ≤ p.next_node_id + (k + rest.nested)))
    (hrest : Fills rest n (i + 1) q p') :
    p'.next_node_id = p.next_node_id + (k + rest.nested) ∧ p'.adj n i = a ∧
      (∀ m, m ≠ n → ¬(p.next_node_id < m ∧ m ≤ p.next_node_id + (k + rest.nested)) →
        p'.adj m = p.adj m) ∧
      ∀ j, j < i → p'.adj n j = p.adj n j := by
  have hnext := h.next_eq
  refine ⟨?_, ?_, ?_, ?_⟩
  · rw [hrest.next_eq, hnext, Nat.add_assoc]
  · rw [hrest.before i (by omega), h.field]
  · intro m hmn hm
    rw [hrest.frame m hmn (by omega)]
    funext j
    exact h.frame m j (Or.inl hmn) (by omega)
  · intro j hj
    rw [hrest.before j (by omega), h.frame n j (Or.inr (by omega)) (by omega)]

end SetsField

/-- The type of a scalar is known, and so are those of the fields behind it. -/
theorem TemplateTable.tree_scalar_isSome {name : List UInt8} {cnt : ℤ} {type : List UInt8}
    {rest : TemplateTable} (h : (TemplateTable.scalar name cnt type rest).tree.isSome) :
    ∃ ty, ProtoType.ofName type = some ty ∧ rest.tree.isSome := by
  obtain ⟨T, hT⟩ := Option.isSome_iff_exists.mp h
  obtain ⟨ty, hty, hrest⟩ := Option.bind_eq_some_iff.mp hT
  obtain ⟨S, hS, -⟩ := Option.map_eq_some_iff.mp hrest
  exact ⟨ty, hty, by rw [hS]; rfl⟩

/-- The types of a nested table are known, and so are those of the fields behind it. -/
theorem TemplateTable.tree_struct_isSome {name : List UInt8} {cnt : ℤ} {sub rest : TemplateTable}
    (h : (TemplateTable.struct name cnt sub rest).tree.isSome) :
    sub.tree.isSome ∧ rest.tree.isSome := by
  obtain ⟨T, hT⟩ := Option.isSome_iff_exists.mp h
  obtain ⟨S, hS, hrest⟩ := Option.bind_eq_some_iff.mp hT
  obtain ⟨R, hR, -⟩ := Option.map_eq_some_iff.mp hrest
  exact ⟨by rw [hS]; rfl, by rw [hR]; rfl⟩

/-- The loop of `template2tree_dfs` on a template that is well-formed. -/
theorem templateFields_fills (t : TemplateTable) {n i : ℕ} {p : ProtoParser}
    (hknown : t.tree.isSome) (hnames : t.NamesFit) (hlen : i + t.length ≤ 126)
    (hsize : p.next_node_id + t.nested < adjSize)
    (hn : ¬(p.next_node_id < n ∧ n ≤ p.next_node_id + t.nested)) (hrow : p.FreeRow n i)
    (hnodes : ∀ m, p.next_node_id < m → m ≤ p.next_node_id + t.nested → p.FreeRow m 0) :
    ∃ p', templateFields t n i p = some p' ∧ Fills t n i p p' := by
  induction t generalizing n i p with
  | done =>
    refine ⟨p, rfl, rfl, hrow i le_rfl, fun _ _ _ => rfl, fun _ _ => rfl⟩
  | scalar name cnt type rest ih =>
    obtain ⟨hmin, hmax, hrestNames⟩ := hnames
    obtain ⟨ty, hty, hrestKnown⟩ := TemplateTable.tree_scalar_isSome hknown
    rw [TemplateTable.length] at hlen
    rw [TemplateTable.nested, ← Nat.zero_add rest.nested] at hn hnodes
    rw [TemplateTable.nested] at hsize
    -- The field is set, and the others behind it.
    have hset := SetsField.scalar p n i ⟨ty, toShort cnt, 0, cstring name⟩
    obtain ⟨p', hp', hfills⟩ := ih (n := n) (i := i + 1) (p := p.setAttr n i _) hrestKnown
      hrestNames (by omega) hsize (by rw [hset.next_eq]; omega) (hset.freeRow (by omega) hrow)
      (hset.freeNodes hn hnodes)
    obtain ⟨hnext, hfield, hframe, hbefore⟩ := hset.fills hn hfills
    rw [Nat.zero_add] at hnext hframe
    refine ⟨p', ?_, hnext, ⟨⟨ty, hty, hfield⟩, hfills.stored⟩, hframe, hbefore⟩
    rw [templateFields, if_neg (by unfold rowSize nameSize; omega), hty, Option.getD_some]
    exact hp'
  | struct name cnt sub rest ihsub ih =>
    obtain ⟨hmin, hmax, hsubLen, hsubNames, hrestNames⟩ := hnames
    obtain ⟨hsubKnown, hrestKnown⟩ := TemplateTable.tree_struct_isSome hknown
    rw [TemplateTable.length] at hlen
    have hnested : (TemplateTable.struct name cnt sub rest).nested =
      1 + sub.nested + rest.nested := by
      rw [TemplateTable.nested, Nat.add_comm 1]
    rw [hnested] at hsize hn hnodes
    -- The field gets the next number, which is that of the node for its struct.
    let a : ProtoAttr := ⟨(p.adj n i).type, toShort cnt, p.next_node_id + 1, cstring name⟩
    let q : ProtoParser := { p.setAttr n i a with next_node_id := p.next_node_id + 1 }
    have hqnext : q.next_node_id = p.next_node_id + 1 := rfl
    have hq : ∀ m, p.next_node_id < m → m ≤ p.next_node_id + (1 + sub.nested + rest.nested) →
        q.FreeRow m 0 := by
      intro m hlt hle j hj
      have hmn : m ≠ n := fun heq => hn (heq ▸ ⟨hlt, hle⟩)
      have hkeep : q.adj m j = p.adj m j := p.setAttr_of_ne a (Or.inl hmn)
      rw [hkeep]
      exact hnodes m hlt hle j hj
    obtain ⟨r, hr, hsub⟩ := ihsub (n := p.next_node_id + 1) (i := 0) (p := q) hsubKnown hsubNames
      (by omega) (by omega) (by omega) (hq _ (by omega) (by omega))
      fun m hlt hle => hq m (by omega) (by omega)
    have hset : SetsField n i a (1 + sub.nested) p r := .nested (by omega) hsub
    have hrnext := hset.next_eq
    obtain ⟨p', hp', hfills⟩ := ih (n := n) (i := i + 1) (p := r) hrestKnown hrestNames (by omega)
      (by omega) (by omega) (hset.freeRow (by omega) hrow) (hset.freeNodes hn hnodes)
    obtain ⟨hnext, hfield, hframe, hbefore⟩ := hset.fills hn hfills
    -- That node is empty, so nothing keeps its fields from being filled in.
    have hentered : q.enter (p.next_node_id + 1) (templateFields sub (p.next_node_id + 1) 0) =
        some r := by
      have hfree : (q.adj (p.next_node_id + 1) 0).name = [] := hq _ (by omega) (by omega) 0 le_rfl
      rw [enter, if_neg (by omega), if_neg (by simpa using hfree)]
      exact hr
    -- The fields behind it leave the nested table where it is.
    have hstored : Stored p'.adj sub (p.next_node_id + 1) 0 (p.next_node_id + 1) := by
      apply hsub.stored.congr
      · intro j _
        rw [hfills.frame _ (by omega) (by omega)]
      · intro m hlt hle
        exact hfills.frame m (by omega) (by omega)
    have hlo : p.next_node_id + 1 + sub.nested = r.next_node_id := by omega
    refine ⟨p', ?_, by rw [hnested]; exact hnext, ⟨⟨_, hfield⟩, hstored, hlo ▸ hfills.stored⟩,
      by rw [hnested]; exact hframe, hbefore⟩
    rw [templateFields, if_neg (by unfold rowSize nameSize; omega)]
    dsimp only
    rw [hentered, Option.bind_some]
    exact hp'

/-- A stored template is what its row unfolds to, when a `proto_attr` can hold it. -/
theorem Stored.unfolds {p : ProtoParser} {t : TemplateTable} {n i lo k : ℕ}
    (h : Stored p.adj t n i lo) (hnames : t.NamesFit) (hstorable : t.Storable) (hk : t.length < k) :
    ∃ T, t.tree = some T ∧ Unfolds p.fields (fieldsFrom (p.adj n) k i) T := by
  induction t generalizing n i lo k with
  | done =>
    -- The row ends at an empty name.
    have hname : (p.adj n i).name = [] := h
    refine ⟨.done, rfl, ?_⟩
    cases k with
    | zero => exact .done
    | succ k =>
      rw [fieldsFrom, if_pos hname]
      exact .done
  | scalar name cnt type rest ih =>
    obtain ⟨⟨ty, hty, hfield⟩, hrest⟩ := h
    obtain ⟨hmin, -, hrestNames⟩ := hnames
    obtain ⟨hzero, hcnt, hrestStorable⟩ := hstorable
    rw [cstring_eq hzero, hcnt] at hfield
    rw [TemplateTable.length] at hk
    obtain ⟨k, rfl⟩ : ∃ k', k = k' + 1 := ⟨k - 1, by omega⟩
    obtain ⟨T, hT, hunfolds⟩ := ih (k := k) hrest hrestNames hrestStorable (by omega)
    have hname : ¬ (p.adj n i).name = [] := by
      rw [hfield]
      exact List.ne_nil_of_length_pos hmin
    refine ⟨.leaf name cnt ty T, ?_, ?_⟩
    · rw [TemplateTable.tree, hty, hT]
      rfl
    · rw [fieldsFrom, if_neg hname, hfield]
      exact .leaf rfl hunfolds
  | struct name cnt sub rest ihsub ih =>
    -- The row of the struct starts at zero and has `rowSize` entries to go through.
    obtain ⟨⟨ty, hfield⟩, hsub, hrest⟩ := h
    obtain ⟨hmin, -, hsubLen, hsubNames, hrestNames⟩ := hnames
    obtain ⟨hzero, hcnt, hsubStorable, hrestStorable⟩ := hstorable
    rw [cstring_eq hzero, hcnt] at hfield
    rw [TemplateTable.length] at hk
    obtain ⟨k, rfl⟩ : ∃ k', k = k' + 1 := ⟨k - 1, by omega⟩
    obtain ⟨S, hS, hunfoldsSub⟩ := ihsub (k := rowSize) hsub hsubNames hsubStorable
      (by unfold rowSize; omega)
    obtain ⟨T, hT, hunfolds⟩ := ih (k := k) hrest hrestNames hrestStorable (by omega)
    have hname : ¬ (p.adj n i).name = [] := by
      rw [hfield]
      exact List.ne_nil_of_length_pos hmin
    refine ⟨.node name cnt S T, ?_, ?_⟩
    · rw [TemplateTable.tree, hS, hT]
      rfl
    · rw [fieldsFrom, if_neg hname, hfield]
      exact .node (Nat.succ_ne_zero lo) hunfoldsSub hunfolds

/-- What holds after registrations whose numbers and nested nodes are all apart: each template is
stored, its nested nodes are among those handed out, and the other nodes are free. -/
structure Filled (calls : List (ℕ × TemplateTable)) (p : ProtoParser) : Prop where
  next_eq : p.next_node_id = firstNodeId + nestedTotal calls
  stored : ∀ c ∈ calls, ∃ lo, firstNodeId ≤ lo ∧ lo + c.2.nested ≤ p.next_node_id ∧
    Stored p.adj c.2 c.1 0 lo
  free : ∀ m, (∀ c ∈ calls, c.1 ≠ m) → ¬(firstNodeId < m ∧ m ≤ p.next_node_id) → p.FreeRow m 0

/-- The condition on a list of registrations. -/
structure Admissible (calls : List (ℕ × TemplateTable)) : Prop where
  distinct : (calls.map Prod.fst).Nodup
  range : ∀ c ∈ calls, 1 ≤ c.1 ∧ c.1 ≤ 32767
  wellFormed : ∀ c ∈ calls, c.2.WellFormed
  total : firstNodeId + nestedTotal calls < adjSize

/-- No packet's number is one of those that are handed out for nested tables. -/
def Apart (calls : List (ℕ × TemplateTable)) : Prop :=
  ∀ c ∈ calls, ¬(firstNodeId < c.1 ∧ c.1 ≤ firstNodeId + nestedTotal calls)

instance (calls : List (ℕ × TemplateTable)) : Decidable (Apart calls) :=
  inferInstanceAs (Decidable (∀ c ∈ calls, _))

@[simp] theorem nestedTotal_append (calls : List (ℕ × TemplateTable)) (c : ℕ × TemplateTable) :
    nestedTotal (calls ++ [c]) = nestedTotal calls + c.2.nested := by
  simp [nestedTotal]

/-- One registration more, apart from those before. -/
theorem Filled.register {calls : List (ℕ × TemplateTable)} {c : ℕ × TemplateTable} {p : ProtoParser}
    (h : Filled calls p) (hadm : Admissible (calls ++ [c])) (hapart : Apart (calls ++ [c])) :
    ∃ p', template2treeDfs c.1 c.2 p = some p' ∧ Filled (calls ++ [c]) p' := by
  obtain ⟨hnext, hstored, hfree⟩ := h
  have hwf : c.2.WellFormed := hadm.wellFormed c (by simp)
  have htotal := hadm.total
  have hrange := hadm.range c (by simp)
  have hc := hapart c (by simp)
  simp only [nestedTotal_append] at htotal hc
  have hother : ∀ c' ∈ calls, c'.1 ≠ c.1 := by
    intro c' hc' heq
    have hnodup := hadm.distinct
    rw [List.map_append, List.map_singleton] at hnodup
    exact List.disjoint_of_nodup_append hnodup (List.mem_map.mpr ⟨c', hc', heq⟩) (by simp)
  have hlow : ∀ c' ∈ calls,
    ¬(firstNodeId < c'.1 ∧ c'.1 ≤ firstNodeId + (nestedTotal calls + c.2.nested)) := by
    intro c' hc'
    have := hapart c' (by simp [hc'])
    simpa only [nestedTotal_append] using this
  have hrow : p.FreeRow c.1 0 := hfree c.1 hother (by omega)
  obtain ⟨p', hp', hfills⟩ := templateFields_fills (n := c.1) (i := 0) (p := p) c.2 hwf.known
    hwf.namesFit (by have := hwf.length_le; omega) (by omega) (by omega) hrow
    (fun m hlt hle => hfree m (fun c' hc' heq => hlow c' hc' (by omega)) (by omega))
  refine ⟨p', ?_, ?_, ?_, ?_⟩
  · have hused : ¬ (p.adj c.1 0).name ≠ [] := by simpa using hrow 0 le_rfl
    rw [template2treeDfs, enter, if_neg (by unfold adjSize; omega), if_neg hused]
    exact hp'
  · rw [hfills.next_eq, hnext, nestedTotal_append, Nat.add_assoc]
  · intro c' hc'
    have hnext' := hfills.next_eq
    rcases List.mem_append.mp hc' with hold | hnew
    · -- The templates before are in other nodes.
      obtain ⟨lo, hlo, hhi, hst⟩ := hstored c' hold
      refine ⟨lo, hlo, by omega, ?_⟩
      have hc'low := hlow c' hold
      apply hst.congr
      · intro j _
        rw [hfills.frame c'.1 (hother c' hold) (by omega)]
      · intro m hlt hle
        exact hfills.frame m (by omega) (by omega)
    · rw [List.mem_singleton.mp hnew]
      exact ⟨p.next_node_id, by omega, by omega, hfills.stored⟩
  · intro m hm hout j hj
    have hnext' := hfills.next_eq
    have hmc : m ≠ c.1 := fun heq => hm c (by simp) heq.symm
    rw [hfills.frame m hmc (by omega)]
    exact hfree m (fun c' hc' => hm c' (by simp [hc'])) (by omega) j hj

/-- Registrations whose numbers are apart from the nested ones all succeed. -/
theorem registerTemplates_filled {calls : List (ℕ × TemplateTable)} (hadm : Admissible calls)
    (hapart : Apart calls) : ∃ p, registerTemplates calls init = some p ∧ Filled calls p := by
  -- Induction along the calls, the last one last.
  induction calls using List.reverseRecOn with
  | nil =>
    refine ⟨init, rfl, rfl, fun c hc => absurd hc (by simp), fun _ _ _ _ _ => rfl⟩
  | append_singleton calls c ih =>
    have htotal := hadm.total
    rw [nestedTotal_append] at htotal
    have hadm' : Admissible calls := by
      constructor
      · have hnodup := hadm.distinct
        rw [List.map_append] at hnodup
        exact hnodup.of_append_left
      · exact fun c' hc' => hadm.range c' (by simp [hc'])
      · exact fun c' hc' => hadm.wellFormed c' (by simp [hc'])
      · omega
    have hapart' : Apart calls := by
      intro c' hc'
      have := hapart c' (by simp [hc'])
      rw [nestedTotal_append] at this
      omega
    obtain ⟨p, hp, hfilled⟩ := ih hadm' hapart'
    obtain ⟨p', hp', hfilled'⟩ := hfilled.register hadm hapart
    refine ⟨p', ?_, hfilled'⟩
    rw [registerTemplates] at hp ⊢
    rw [List.foldlM_append, hp]
    simpa using hp'

/-! ## Registrations in general -/

/-- Registrations of well-formed templates never end the process. -/
theorem templateFields_isSome (t : TemplateTable) {n i : ℕ} {p : ProtoParser} (hp : p.Traced)
    (hnames : t.NamesFit) (hlen : i + t.length ≤ 126)
    (hsize : p.next_node_id + t.nested < adjSize) :
    ∃ p', templateFields t n i p = some p' := by
  induction t generalizing n i p with
  | done => exact ⟨p, rfl⟩
  | scalar name cnt type rest ih =>
    obtain ⟨hmin, hmax, hrestNames⟩ := hnames
    rw [TemplateTable.length] at hlen
    rw [templateFields, if_neg (by unfold rowSize nameSize; omega)]
    apply ih
    · exact hp.setAttr n i (Or.inl ⟨rfl, le_rfl⟩) (zero_notMem_cstring name) (toShort_toShort cnt)
    · exact hrestNames
    · omega
    · exact hsize
  | struct name cnt sub rest ihsub ih =>
    obtain ⟨hmin, hmax, hsubLen, hsubNames, hrestNames⟩ := hnames
    rw [TemplateTable.length] at hlen
    rw [TemplateTable.nested] at hsize
    rw [templateFields, if_neg (by unfold rowSize nameSize; omega)]
    have hset := hp.setAttr n i
      (a := ⟨(p.adj n i).type, toShort cnt, p.next_node_id + 1, cstring name⟩)
      (Or.inr ⟨rfl, rfl⟩) (zero_notMem_cstring name) (toShort_toShort cnt)
    dsimp only
    -- The field is written and a node is taken before the nested table is entered.
    generalize hq : ({ p.setAttr n i
      ⟨(p.adj n i).type, toShort cnt, p.next_node_id + 1, cstring name⟩ with
        next_node_id := p.next_node_id + 1 } : ProtoParser) = q
    rw [hq] at hset
    have hqnext : q.next_node_id = p.next_node_id + 1 := by rw [← hq]
    obtain ⟨r, hr⟩ : ∃ r, q.enter (p.next_node_id + 1) (templateFields sub (p.next_node_id + 1) 0) =
        some r := by
      rw [enter, if_neg (by omega)]
      -- A node that has been entered before is left as it is.
      split_ifs with hused
      · exact ⟨q, rfl⟩
      · exact ihsub hset hsubNames (by omega) (by omega)
    obtain ⟨hr', -, hle⟩ :=
      enter_extends hset (fun _ hfields => templateFields_extends sub hset hfields) hr
    rw [hr, Option.bind_some]
    exact ih hr' hrestNames (by omega) (by omega)

/-- So every admissible list of registrations is carried out. -/
theorem registerTemplates_isSome {calls : List (ℕ × TemplateTable)} {p : ProtoParser}
    (hp : p.Traced) (hrange : ∀ c ∈ calls, c.1 ≤ 32767) (hwf : ∀ c ∈ calls, c.2.WellFormed)
    (htotal : p.next_node_id + nestedTotal calls < adjSize) :
    ∃ p', registerTemplates calls p = some p' := by
  induction calls generalizing p with
  | nil => exact ⟨p, rfl⟩
  | cons c calls ih =>
    rw [nestedTotal, List.map_cons, List.sum_cons] at htotal
    have hc := hrange c (by simp)
    have hcwf := hwf c (by simp)
    have hlen := hcwf.length_le
    obtain ⟨q, hq⟩ : ∃ q, template2treeDfs c.1 c.2 p = some q := by
      rw [template2treeDfs, enter, if_neg (by unfold adjSize; omega)]
      split_ifs with hused
      · exact ⟨p, rfl⟩
      · exact templateFields_isSome c.2 hp hcwf.namesFit (by omega) (by omega)
    obtain ⟨hq', -, hle⟩ :=
      enter_extends hp (fun _ hfields => templateFields_extends c.2 hp hfields) hq
    rw [registerTemplates, List.foldlM_cons, hq]
    apply ih hq'
    · exact fun c' hc' => hrange c' (by simp [hc'])
    · exact fun c' hc' => hwf c' (by simp [hc'])
    · rw [nestedTotal]
      omega

/-- The fields of a row are at different places of it. -/
theorem mem_fieldsFrom {row : ℕ → ProtoAttr} {k i : ℕ} {pa : ProtoAttr}
    (h : pa ∈ fieldsFrom row k i) : ∃ j, i ≤ j ∧ row j = pa := by
  induction k generalizing i with
  | zero => exact absurd h (by simp [fieldsFrom])
  | succ k ih =>
    rw [fieldsFrom] at h
    split_ifs at h with hname
    · exact absurd h (by simp)
    · rcases List.mem_cons.mp h with heq | hrest
      · exact ⟨i, le_rfl, heq.symm⟩
      · obtain ⟨j, hj, heq⟩ := ih hrest
        exact ⟨j, by omega, heq⟩

/-- The structs among some fields have different nodes. -/
def NextsDiffer (pas : List ProtoAttr) :
    Prop := pas.Pairwise fun a b => a.next ≠ 0 → a.next ≠ b.next

/-- The structs of a row have different nodes. -/
theorem Traced.nextsDiffer {p : ProtoParser} (h : p.Traced) (n k i : ℕ) :
    NextsDiffer (fieldsFrom (p.adj n) k i) := by
  induction k generalizing i with
  | zero => exact List.Pairwise.nil
  | succ k ih =>
    rw [fieldsFrom]
    split_ifs with hname
    · exact List.Pairwise.nil
    · refine List.Pairwise.cons ?_ (ih (i + 1))
      intro b hb hne heq
      obtain ⟨j, hj, rfl⟩ := mem_fieldsFrom hb
      obtain ⟨-, hij⟩ := h.next_inj n i n j hne heq
      omega

/-- No node is handed out twice. -/
theorem Traced.oneParent {p : ProtoParser} (h : p.Traced) : OneParent p.Child := by
  rintro n n' m ⟨pa, hpa, hne, hm⟩ ⟨pa', hpa', -, hm'⟩
  obtain ⟨j, -, rfl⟩ := mem_fieldsFrom hpa
  obtain ⟨j', -, rfl⟩ := mem_fieldsFrom hpa'
  exact (h.next_inj n j n' j' hne (hm.trans hm'.symm)).1

/-- The number of a nested node is one that was handed out. -/
theorem Traced.child_range {p : ProtoParser} (h : p.Traced) {n m : ℕ} (hm : p.Child n m) :
    firstNodeId < m ∧ m ≤ p.next_node_id := by
  obtain ⟨pa, hpa, hne, rfl⟩ := hm
  obtain ⟨j, -, rfl⟩ := mem_fieldsFrom hpa
  exact h.next_range n j hne

/-- Fields unfold to one tree only. -/
theorem unfolds_unique {adj : ℕ → List ProtoAttr} {pas : List ProtoAttr} {T T' : Template}
    (h : Unfolds adj pas T) (h' : Unfolds adj pas T') : T = T' := by
  induction h generalizing T' with
  | done =>
    cases h' with
    | done => rfl
  | leaf hnext _ ih =>
    cases h' with
    | leaf _ hrest => rw [ih hrest]
    | node hnode _ _ => exact absurd hnext hnode
  | node hnext _ _ ihsub ih =>
    cases h' with
    | leaf hleaf _ => exact absurd hleaf hnext
    | node _ hsub hrest => rw [ihsub hsub, ih hrest]

/-- A struct among the fields unfolds to a smaller tree. -/
theorem unfolds_child {adj : ℕ → List ProtoAttr} {pas : List ProtoAttr} {T : Template}
    (h : Unfolds adj pas T) {pa : ProtoAttr} (hpa : pa ∈ pas) (hne : pa.next ≠ 0) :
    ∃ S, Unfolds adj (adj pa.next) S ∧ S.depth < T.depth := by
  induction h with
  | done => exact absurd hpa (by simp)
  | leaf hnext _ ih =>
    rcases List.mem_cons.mp hpa with heq | hrest
    · rw [heq] at hne
      exact absurd hnext hne
    · exact ih hrest
  | @node pa' pas S T hnext hsub _ _ ih =>
    rw [Template.depth]
    rcases List.mem_cons.mp hpa with heq | hrest
    · rw [heq]
      exact ⟨S, hsub, by omega⟩
    · obtain ⟨S', hS', hlt⟩ := ih hrest
      exact ⟨S', hS', by omega⟩

/-- A node that unfolds to a tree is not below itself. -/
theorem unfolds_acyclic {p : ProtoParser} {n : ℕ} {T : Template}
    (h : Unfolds p.fields (p.fields n) T) : ¬ TransGen p.Child n n := by
  have hbelow : ∀ m, TransGen p.Child n m → ∃ S,
    Unfolds p.fields (p.fields m) S ∧ S.depth < T.depth := by
    intro m hm
    induction hm with
    | single hchild =>
      obtain ⟨pa, hpa, hne, rfl⟩ := hchild
      exact unfolds_child h hpa hne
    | tail _ hchild ih =>
      obtain ⟨pa, hpa, hne, rfl⟩ := hchild
      obtain ⟨S, hS, hlt⟩ := ih
      obtain ⟨S', hS', hlt'⟩ := unfolds_child hS hpa hne
      exact ⟨S', hS', hlt'.trans hlt⟩
  intro hcycle
  obtain ⟨S, hS, hlt⟩ := hbelow n hcycle
  rw [unfolds_unique hS h] at hlt
  exact Nat.lt_irrefl _ hlt

/-- The number of structs in a tree. -/
def structs : Template → ℕ
  | .done => 0
  | .leaf _ _ _ rest => structs rest
  | .node _ _ sub rest => structs sub + 1 + structs rest

/-- The tree of a template has as many structs as the template has nested tables. -/
theorem structs_tree {t : TemplateTable} {T : Template} (h : t.tree = some T) :
    structs T = t.nested := by
  induction t generalizing T with
  | done =>
    rw [← Option.some.inj h]
    rfl
  | scalar name cnt type rest ih =>
    rw [TemplateTable.tree] at h
    obtain ⟨ty, -, hmap⟩ := Option.bind_eq_some_iff.mp h
    obtain ⟨R, hR, rfl⟩ := Option.map_eq_some_iff.mp hmap
    rw [structs, ih hR, TemplateTable.nested]
  | struct name cnt sub rest ihsub ih =>
    rw [TemplateTable.tree] at h
    obtain ⟨S, hS, hmap⟩ := Option.bind_eq_some_iff.mp h
    obtain ⟨R, hR, rfl⟩ := Option.map_eq_some_iff.mp hmap
    rw [structs, ihsub hS, ih hR, TemplateTable.nested]

/-- The nodes of the structs among some fields of the node `n`, and of those within them: there are
as many as structs, all different. -/
theorem Traced.exists_nodes {p : ProtoParser} (hp : p.Traced) {pas : List ProtoAttr} {T : Template}
    (h : Unfolds p.fields pas T) {n : ℕ} (hpas : ∀ pa ∈ pas, pa ∈ p.fields n)
    (hdiffer : NextsDiffer pas) (hn : ¬ TransGen p.Child n n) :
    ∃ ns : List ℕ, ns.length = structs T ∧ ns.Nodup ∧
      ∀ m ∈ ns, ∃ pa ∈ pas, pa.next ≠ 0 ∧ ReflTransGen p.Child pa.next m := by
  induction h generalizing n with
  | done => exact ⟨[], rfl, List.nodup_nil, fun m hm => absurd hm (by simp)⟩
  | leaf hnext _ ih =>
    obtain ⟨ns, hlen, hnodup, hns⟩ := ih (fun pa hpa => hpas pa (by simp [hpa]))
      (List.Pairwise.of_cons hdiffer) hn
    refine ⟨ns, hlen, hnodup, ?_⟩
    intro m hm
    obtain ⟨pa, hpa, hne, hreach⟩ := hns m hm
    exact ⟨pa, by simp [hpa], hne, hreach⟩
  | @node pa pas S T hnext hsub _ ihsub ih =>
    have hchild : p.Child n pa.next := ⟨pa, hpas pa (by simp), hnext, rfl⟩
    obtain ⟨ms, hmsLen, hmsNodup, hms⟩ := ihsub (n := pa.next) (fun _ hpa => hpa)
      (hp.nextsDiffer pa.next rowSize 0) (unfolds_acyclic hsub)
    obtain ⟨ks, hksLen, hksNodup, hks⟩ := ih (fun pa' hpa' => hpas pa' (by simp [hpa']))
      (List.Pairwise.of_cons hdiffer) hn
    -- What is below the struct, and what is below the fields behind it.
    have hbelow : ∀ m ∈ ms, TransGen p.Child pa.next m := by
      intro m hm
      obtain ⟨pa', hpa', hne, hreach⟩ := hms m hm
      exact TransGen.head' ⟨pa', hpa', hne, rfl⟩ hreach
    have hapart : ∀ m, ReflTransGen p.Child pa.next m → m ∉ ks := by
      intro m hm hk
      obtain ⟨pa', hpa', hne, hreach⟩ := hks m hk
      have hdiff : pa.next ≠ pa'.next := (List.pairwise_cons.mp hdiffer).1 pa' hpa' hnext
      have hchild' : p.Child n pa'.next := ⟨pa', hpas pa' (by simp [hpa']), hne, rfl⟩
      exact hp.oneParent.disjoint hn hchild hchild' hdiff hm hreach
    refine ⟨pa.next :: (ms ++ ks), ?_, ?_, ?_⟩
    · rw [structs, List.length_cons, List.length_append, hmsLen, hksLen]
      omega
    · refine List.nodup_cons.mpr ⟨?_, List.nodup_append'.mpr ⟨hmsNodup, hksNodup, ?_⟩⟩
      · intro hmem
        rcases List.mem_append.mp hmem with hm | hk
        · exact unfolds_acyclic hsub (hbelow _ hm)
        · exact hapart _ ReflTransGen.refl hk
      · intro m hm hk
        exact hapart m (hbelow m hm).to_reflTransGen hk
    · intro m hm
      rcases List.mem_cons.mp hm with rfl | hm
      · exact ⟨pa, by simp, hnext, ReflTransGen.refl⟩
      rcases List.mem_append.mp hm with hm | hk
      · exact ⟨pa, by simp, hnext, (hbelow m hm).to_reflTransGen⟩
      · obtain ⟨pa', hpa', hne, hreach⟩ := hks m hk
        exact ⟨pa', by simp [hpa'], hne, hreach⟩

/-- What unfolds from `adj` can be held by a `proto_attr`. -/
theorem Traced.storable {p : ProtoParser} (hp : p.Traced) {t : TemplateTable} {T : Template}
    (ht : t.tree = some T) {pas : List ProtoAttr} (h : Unfolds p.fields pas T)
    (hpas : ∀ pa ∈ pas, ∃ n i, p.adj n i = pa) : t.Storable := by
  have hrow : ∀ n, ∀ pa ∈ p.fields n, ∃ n i, p.adj n i = pa := by
    intro n pa hpa
    obtain ⟨j, -, hj⟩ := mem_fieldsFrom hpa
    exact ⟨n, j, hj⟩
  induction t generalizing T pas with
  | done => trivial
  | scalar name cnt type rest ih =>
    rw [TemplateTable.tree] at ht
    obtain ⟨ty, -, hmap⟩ := Option.bind_eq_some_iff.mp ht
    obtain ⟨R, hR, rfl⟩ := Option.map_eq_some_iff.mp hmap
    -- The tree is a leaf, so that it unfolds from a field without a nested row.
    generalize hT : Template.leaf name cnt ty R = T' at h
    cases h with
    | done => exact absurd hT (by simp)
    | node => exact absurd hT (by simp)
    | @leaf pa pas T hnext hrest =>
      obtain ⟨hname, hcnt, -, rfl⟩ := Template.leaf.inj hT
      obtain ⟨n, i, hpa⟩ := hpas pa (by simp)
      refine ⟨?_, ?_, ih hR hrest fun pa' hpa' => hpas pa' (by simp [hpa'])⟩
      · rw [hname, ← hpa]
        exact hp.name_cstring n i
      · rw [hcnt, ← hpa]
        exact hp.cnt_short n i
  | struct name cnt sub rest ihsub ih =>
    rw [TemplateTable.tree] at ht
    obtain ⟨S, hS, hmap⟩ := Option.bind_eq_some_iff.mp ht
    obtain ⟨R, hR, rfl⟩ := Option.map_eq_some_iff.mp hmap
    -- The tree is a node, whose fields are a row of `adj` again.
    generalize hT : Template.node name cnt S R = T' at h
    cases h with
    | done => exact absurd hT (by simp)
    | leaf => exact absurd hT (by simp)
    | @node pa pas S T hnext hsub hrest =>
      obtain ⟨hname, hcnt, rfl, rfl⟩ := Template.node.inj hT
      obtain ⟨n, i, hpa⟩ := hpas pa (by simp)
      refine ⟨?_, ?_, ihsub hS hsub (hrow pa.next),
        ih hR hrest fun pa' hpa' => hpas pa' (by simp [hpa'])⟩
      · rw [hname, ← hpa]
        exact hp.name_cstring n i
      · rw [hcnt, ← hpa]
        exact hp.cnt_short n i

/-! ## Isolation -/

/-- Each packet has its own template: its number unfolds to the template that was passed for it, and
no node belongs to two packets. -/
structure Isolated (calls : List (ℕ × TemplateTable)) (p : ProtoParser) : Prop where
  trees : ∀ c ∈ calls, ∃ T, c.2.tree = some T ∧ Unfolds p.fields (p.fields c.1) T
  nodes : ∀ c ∈ calls, ∀ c' ∈ calls, c.1 ≠ c'.1 →
    ∀ n, ReflTransGen p.Child c.1 n → ¬ ReflTransGen p.Child c'.1 n

/-- The nested nodes of all packets: there are as many as nested tables, all different. -/
theorem Isolated.exists_nodes {calls : List (ℕ × TemplateTable)} {p : ProtoParser} (hp : p.Traced)
    (h : Isolated calls p) (hdistinct : (calls.map Prod.fst).Nodup) :
    ∃ ns : List ℕ, ns.length = nestedTotal calls ∧ ns.Nodup ∧
      ∀ m ∈ ns, ∃ c ∈ calls, TransGen p.Child c.1 m := by
  obtain ⟨htrees, hnodes⟩ := h
  induction calls with
  | nil => exact ⟨[], rfl, List.nodup_nil, fun m hm => absurd hm (by simp)⟩
  | cons c calls ih =>
    rw [List.map_cons, List.nodup_cons] at hdistinct
    obtain ⟨hnew, hdistinct'⟩ := hdistinct
    obtain ⟨ks, hksLen, hksNodup, hks⟩ := ih hdistinct'
      (fun c' hc' => htrees c' (List.mem_cons_of_mem c hc'))
      (fun c' hc' c'' hc'' =>
        hnodes c' (List.mem_cons_of_mem c hc') c'' (List.mem_cons_of_mem c hc''))
    obtain ⟨T, hT, hunfolds⟩ := htrees c (by simp)
    obtain ⟨ms, hmsLen, hmsNodup, hms⟩ := hp.exists_nodes hunfolds (n := c.1) (fun _ hpa => hpa)
      (hp.nextsDiffer c.1 rowSize 0) (unfolds_acyclic hunfolds)
    -- The nodes of the first packet are reached from it, and by isolation from no other one.
    have hbelow : ∀ m ∈ ms, TransGen p.Child c.1 m := by
      intro m hm
      obtain ⟨pa, hpa, hne, hreach⟩ := hms m hm
      exact TransGen.head' ⟨pa, hpa, hne, rfl⟩ hreach
    refine ⟨ms ++ ks, ?_, List.nodup_append'.mpr ⟨hmsNodup, hksNodup, ?_⟩, ?_⟩
    · rw [List.length_append, hmsLen, hksLen, structs_tree hT, nestedTotal, nestedTotal,
        List.map_cons, List.sum_cons]
    · intro m hm hk
      obtain ⟨c', hc', hreach⟩ := hks m hk
      have hne : c.1 ≠ c'.1 := fun heq => hnew (List.mem_map.mpr ⟨c', hc', heq.symm⟩)
      exact hnodes c (by simp) c' (by simp [hc']) hne m (hbelow m hm).to_reflTransGen
        hreach.to_reflTransGen
    · intro m hm
      rcases List.mem_append.mp hm with hm | hk
      · exact ⟨c, by simp, hbelow m hm⟩
      · obtain ⟨c', hc', hreach⟩ := hks m hk
        exact ⟨c', by simp [hc'], hreach⟩

/-- When each packet has its own template, the nested nodes take up all the numbers behind `4096`
that there are nested tables, so none of these is a packet's. -/
theorem Isolated.apart {calls : List (ℕ × TemplateTable)} {p : ProtoParser} (hp : p.Traced)
    (h : Isolated calls p) (hdistinct : (calls.map Prod.fst).Nodup)
    (hle : p.next_node_id ≤ firstNodeId + nestedTotal calls) : Apart calls := by
  obtain ⟨ns, hlen, hnodup, hns⟩ := h.exists_nodes hp hdistinct
  have hrange : ns.toFinset ⊆ Finset.Ioc firstNodeId p.next_node_id := by
    intro m hm
    obtain ⟨c, -, hreach⟩ := hns m (List.mem_toFinset.mp hm)
    obtain ⟨n, -, hchild⟩ := TransGen.tail'_iff.mp hreach
    exact Finset.mem_Ioc.mpr (hp.child_range hchild)
  have hcard : ns.toFinset.card = nestedTotal calls := by
    rw [List.toFinset_card_of_nodup hnodup, hlen]
  have hall : ns.toFinset = Finset.Ioc firstNodeId p.next_node_id := by
    apply Finset.eq_of_subset_of_card_le hrange
    rw [Nat.card_Ioc, hcard]
    omega
  have hnext : nestedTotal calls = p.next_node_id - firstNodeId := by
    rw [← hcard, hall, Nat.card_Ioc]
  have hfirst := hp.first
  rintro c hc ⟨hlt, hmax⟩
  have hmem : c.1 ∈ ns := by
    rw [← List.mem_toFinset, hall, Finset.mem_Ioc]
    omega
  obtain ⟨c', hc', hreach⟩ := hns c.1 hmem
  by_cases heq : c'.1 = c.1
  · -- The packet would be nested in itself.
    obtain ⟨T, -, hunfolds⟩ := h.trees c hc
    rw [heq] at hreach
    exact unfolds_acyclic hunfolds hreach
  · exact h.nodes c' hc' c hc heq c.1 hreach.to_reflTransGen ReflTransGen.refl

/-- Nodes that unfold from numbers that were not handed out are apart. -/
theorem Traced.isolated {calls : List (ℕ × TemplateTable)} {p : ProtoParser} (hp : p.Traced)
    (htrees : ∀ c ∈ calls, ∃ T, c.2.tree = some T ∧ Unfolds p.fields (p.fields c.1) T)
    (hroots : ∀ c ∈ calls, ¬(firstNodeId < c.1 ∧ c.1 ≤ p.next_node_id)) : Isolated calls p := by
  refine ⟨htrees, ?_⟩
  -- A packet's number is no child of a node.
  have hroot : ∀ c ∈ calls, ∀ c', ReflTransGen p.Child c' c.1 → c' = c.1 := by
    intro c hc c' hreach
    rcases ReflTransGen.cases_tail hreach with heq | ⟨n, -, hchild⟩
    · exact heq.symm
    · exact absurd (hp.child_range hchild) (hroots c hc)
  intro c hc c' hc' hne n hn hn'
  rcases hp.oneParent.above hn hn' with hcc' | hc'c
  · exact hne (hroot c' hc' c.1 hcc')
  · exact hne (hroot c hc c'.1 hc'c).symm

/-- The registrations of packets with different numbers and well-formed templates all succeed, and
each packet has its own template afterwards exactly when a `proto_attr` can hold all names and
counts and no packet's number is one of those that are handed out for the nested tables. -/
theorem templates_isolated_iff {calls : List (ℕ × TemplateTable)} (hadm : Admissible calls) :
    ∃ p, registerTemplates calls init = some p ∧
      (Isolated calls p ↔ (∀ c ∈ calls, c.2.Storable) ∧ Apart calls) := by
  obtain ⟨p, hp⟩ := registerTemplates_isSome traced_init (fun c hc => (hadm.range c hc).2)
    hadm.wellFormed hadm.total
  obtain ⟨htraced, -, hle⟩ := registerTemplates_extends traced_init hp
  refine ⟨p, hp, ?_⟩
  constructor
  · intro h
    refine ⟨?_, h.apart htraced hadm.distinct hle⟩
    intro c hc
    obtain ⟨T, hT, hunfolds⟩ := h.trees c hc
    apply htraced.storable hT hunfolds
    intro pa hpa
    obtain ⟨j, -, hj⟩ := mem_fieldsFrom hpa
    exact ⟨c.1, j, hj⟩
  · rintro ⟨hstorable, hapart⟩
    obtain ⟨p', hp', hfilled⟩ := registerTemplates_filled hadm hapart
    have hsame : p = p' := Option.some.inj (hp.symm.trans hp')
    subst hsame
    apply htraced.isolated
    · intro c hc
      have hwf := hadm.wellFormed c hc
      have hlen := hwf.length_le
      obtain ⟨lo, -, -, hstored⟩ := hfilled.stored c hc
      exact hstored.unfolds hwf.namesFit (hstorable c hc) (by unfold rowSize; omega)
    · intro c hc
      rw [hfilled.next_eq]
      exact hapart c hc

/-- A packet with a struct `a` of one byte `x`, and after it the packet of the number that the
struct was given. -/
def collidingCalls : List (ℕ × TemplateTable) :=
  [(1, .struct [97] 1 (.scalar [120] 1 [98, 121, 116, 101] .done) .done),
    (4097, .scalar [121] 1 [105, 110, 116] .done)]

theorem collidingCalls_admissible : Admissible collidingCalls where
  distinct := by decide
  range := by decide
  wellFormed := by
    intro c hc
    rcases List.mem_pair.mp hc with rfl | rfl
    · exact ⟨by decide, by decide, by decide, by decide⟩
    · exact ⟨by decide, by decide, by decide, by decide⟩
  total := by decide

/-- The second of these packets has the byte `x` of the first one's struct for its template. -/
theorem template_replaced : Admissible collidingCalls ∧
    ∃ p, registerTemplates collidingCalls init = some p ∧ ¬ Isolated collidingCalls p := by
  refine ⟨collidingCalls_admissible, ?_⟩
  have heval : (registerTemplates collidingCalls init).map (fun p => p.fields 4097) =
      some [⟨.byte, 1, 0, [120]⟩] := by decide +kernel
  obtain ⟨p, hp, hfields⟩ := Option.map_eq_some_iff.mp heval
  refine ⟨p, hp, ?_⟩
  intro h
  obtain ⟨T, hT, hunfolds⟩ := h.trees (4097, .scalar [121] 1 [105, 110, 116] .done)
    (by simp [collidingCalls])
  have htree : T = .leaf [121] 1 .int .done := (Option.some.inj hT).symm
  have hother : Unfolds p.fields (p.fields 4097) (.leaf [120] 1 .byte .done) := by
    rw [hfields]
    exact .leaf rfl .done
  rw [htree] at hunfolds
  exact absurd (unfolds_unique hunfolds hother) (by decide)

/-- With the number `4098` in place of `4097` each packet has its own template. -/
theorem templates_isolated_apart : ∃ p,
    registerTemplates [(1, .struct [97] 1 (.scalar [120] 1 [98, 121, 116, 101] .done) .done),
      (4098, .scalar [121] 1 [105, 110, 116] .done)] init = some p ∧
    Isolated [(1, .struct [97] 1 (.scalar [120] 1 [98, 121, 116, 101] .done) .done),
      (4098, .scalar [121] 1 [105, 110, 116] .done)] p := by
  have hadm : Admissible [(1, .struct [97] 1 (.scalar [120] 1 [98, 121, 116, 101] .done) .done),
      (4098, .scalar [121] 1 [105, 110, 116] .done)] := by
    constructor
    · decide
    · decide
    · intro c hc
      rcases List.mem_pair.mp hc with rfl | rfl
      · exact ⟨by decide, by decide, by decide, by decide⟩
      · exact ⟨by decide, by decide, by decide, by decide⟩
    · decide
  obtain ⟨p, hp, hiff⟩ := templates_isolated_iff hadm
  exact ⟨p, hp, hiff.mpr ⟨by decide, by decide⟩⟩

end ProtoParser

end Catse
