import Mathlib.Data.List.Basic
import Catse.Proto.Template

/-!
# The tables of a packet

`read_msg_dfs` makes no tables. It is given a table with a table for each struct, each array and
each element of an array of structs that the template names, and it stores values in them. A place
in these tables is the list of keys that lead to it from the table of the packet. `HasTable` are the
places at which the template asks for a table, and `HasValue` those at which the reader stores a
number or a string.

`Tables P τ h` says that each place in `P` has a table of its own, `τ` of the place. What the reader
stores at other places leaves that as it is (`Tables.set`). Every template has such tables
(`Template.tables_skeleton`).
-/

namespace Catse

namespace Template

/-- The places of the tables. -/
inductive HasTable : Template → List LuaKey → Prop where
  | root {T : Template} : HasTable T []
  | array {name : List UInt8} {cnt : ℤ} {ty : ProtoType} {rest : Template} (hcnt : ¬cnt < 2) :
      HasTable (.leaf name cnt ty rest) [.str name]
  | leafRest {name : List UInt8} {cnt : ℤ} {ty : ProtoType} {rest : Template} {p : List LuaKey}
      (h : HasTable rest p) : HasTable (.leaf name cnt ty rest) p
  | struct {name : List UInt8} {cnt : ℤ} {sub rest : Template} {p : List LuaKey} (hcnt : cnt < 2)
      (h : HasTable sub p) : HasTable (.node name cnt sub rest) (.str name :: p)
  | structs {name : List UInt8} {cnt : ℤ} {sub rest : Template} (hcnt : ¬cnt < 2) :
      HasTable (.node name cnt sub rest) [.str name]
  | elem {name : List UInt8} {cnt : ℤ} {sub rest : Template} {j : ℕ} {p : List LuaKey}
      (hcnt : ¬cnt < 2) (hj : j < cnt) (h : HasTable sub p) :
      HasTable (.node name cnt sub rest) (.str name :: .int (j + 1) :: p)
  | nodeRest {name : List UInt8} {cnt : ℤ} {sub rest : Template} {p : List LuaKey}
      (h : HasTable rest p) : HasTable (.node name cnt sub rest) p

/-- The places of the numbers and strings. -/
inductive HasValue : Template → List LuaKey → Prop where
  | scalar {name : List UInt8} {cnt : ℤ} {ty : ProtoType} {rest : Template} (hcnt : cnt < 2) :
      HasValue (.leaf name cnt ty rest) [.str name]
  | count {name : List UInt8} {cnt : ℤ} {ty : ProtoType} {rest : Template} (hcnt : ¬cnt < 2) :
      HasValue (.leaf name cnt ty rest) [.str name, .int 0]
  | item {name : List UInt8} {cnt : ℤ} {ty : ProtoType} {rest : Template} {j : ℕ}
      (hcnt : ¬cnt < 2) (hj : j < cnt) :
      HasValue (.leaf name cnt ty rest) [.str name, .int (j + 1)]
  | leafRest {name : List UInt8} {cnt : ℤ} {ty : ProtoType} {rest : Template} {p : List LuaKey}
      (h : HasValue rest p) : HasValue (.leaf name cnt ty rest) p
  | struct {name : List UInt8} {cnt : ℤ} {sub rest : Template} {p : List LuaKey} (hcnt : cnt < 2)
      (h : HasValue sub p) : HasValue (.node name cnt sub rest) (.str name :: p)
  | structCount {name : List UInt8} {cnt : ℤ} {sub rest : Template} (hcnt : ¬cnt < 2) :
      HasValue (.node name cnt sub rest) [.str name, .int 0]
  | elem {name : List UInt8} {cnt : ℤ} {sub rest : Template} {j : ℕ} {p : List LuaKey}
      (hcnt : ¬cnt < 2) (hj : j < cnt) (h : HasValue sub p) :
      HasValue (.node name cnt sub rest) (.str name :: .int (j + 1) :: p)
  | nodeRest {name : List UInt8} {cnt : ℤ} {sub rest : Template} {p : List LuaKey}
      (h : HasValue rest p) : HasValue (.node name cnt sub rest) p

end Template

/-- Each place in `P` has a table of its own, and the tables refer to each other accordingly. -/
structure Tables (P : List LuaKey → Prop) (τ : List LuaKey → ℕ) (h : LuaHeap) : Prop where
  link : ∀ p k, P p → P (p ++ [k]) → h (τ p) k = .table (τ (p ++ [k]))
  inj : ∀ p q, P p → P q → τ p = τ q → p = q

namespace Tables

variable {P Q : List LuaKey → Prop} {τ : List LuaKey → ℕ} {h : LuaHeap}

/-- The tables stay where they are when something is stored at another place. -/
theorem set (hh : Tables P τ h) {p : List LuaKey} {k : LuaKey} (hp : P p) (hk : ¬P (p ++ [k]))
    (v : LuaVal) : Tables P τ (h.set (τ p) k v) where
  link q k' hq hqk := by
    have hne : τ q ≠ τ p ∨ k' ≠ k := by
      by_contra hcon
      rw [not_or, not_not, not_not] at hcon
      obtain ⟨hτ, rfl⟩ := hcon
      obtain rfl := hh.inj q p hq hp hτ
      exact hk hqk
    rw [LuaHeap.set_of_ne h v hne]
    exact hh.link q k' hq hqk
  inj := hh.inj

/-- Fewer places have their tables too. -/
theorem mono (hh : Tables P τ h) (hQ : ∀ p, Q p → P p) : Tables Q τ h where
  link p k hp hk := hh.link p k (hQ p hp) (hQ _ hk)
  inj p q hp hq := hh.inj p q (hQ p hp) (hQ q hq)

end Tables

/-! ## Calls that use the tables -/

section Run

open LuaM

variable {P : List LuaKey → Prop} {τ : List LuaKey → ℕ} {p : List LuaKey} {s : LuaState Reading}
  {st : List LuaVal}

/-- A field is put on the stack, with its table. -/
theorem run_field (hh : Tables P τ s.heap) (hp : P p) {name : List UInt8}
    (hk : P (p ++ [.str name])) (hst : s.stack = .table (τ p) :: st) :
    (getfield name : ReadM Unit).run s =
      .ok () { s with stack := .table (τ (p ++ [.str name])) :: s.stack } := by
  rw [run_getfield hst, hh.link p _ hp hk]

/-- So is an element. -/
theorem run_index (hh : Tables P τ s.heap) (hp : P p) {n : ℤ} (hk : P (p ++ [.int n]))
    (hst : s.stack = .table (τ p) :: st) :
    (rawgeti n : ReadM Unit).run s =
      .ok () { s with stack := .table (τ (p ++ [.int n])) :: s.stack } := by
  rw [run_rawgeti hst, hh.link p _ hp hk]

/-- The code takes a value off the stack and stores it under the key. -/
def Stores (store : ReadM Unit) (k : LuaKey) : Prop :=
  ∀ s v r st, s.stack = v :: .table r :: st →
    store.run s = .ok () { s with heap := s.heap.set r k v, stack := .table r :: st }

theorem stores_setfield (name : List UInt8) : Stores (setfield name) (.str name) :=
  fun _ _ _ _ hst => run_setfield hst name

theorem stores_rawseti (n : ℤ) : Stores (rawseti n) (.int n) :=
  fun _ _ _ _ hst => run_rawseti hst n

end Run

/-! ## A skeleton for every template -/

namespace Template

/-- The places of the tables, as a list. -/
def places : Template → List (List LuaKey)
  | done => [[]]
  | leaf name cnt _ rest => (if cnt < 2 then [] else [[.str name]]) ++ rest.places
  | node name cnt sub rest =>
    (if cnt < 2 then sub.places.map (.str name :: ·)
      else [.str name] :: (List.range cnt.toNat).flatMap fun j : ℕ =>
        sub.places.map (.str name :: .int (j + 1) :: ·)) ++ rest.places

theorem root_mem_places (T : Template) : [] ∈ T.places := by
  induction T with
  | done => exact List.mem_singleton.mpr rfl
  | leaf name cnt ty rest ih => exact List.mem_append_right _ ih
  | node name cnt sub rest ihsub ih => exact List.mem_append_right _ ih

theorem mem_places {T : Template} {p : List LuaKey} (h : T.HasTable p) : p ∈ T.places := by
  induction h with
  | root => exact root_mem_places _
  | array hcnt =>
    unfold places
    rw [if_neg hcnt]
    exact List.mem_append_left _ (List.mem_singleton.mpr rfl)
  | leafRest _ ih => exact List.mem_append_right _ ih
  | struct hcnt _ ih =>
    unfold places
    rw [if_pos hcnt]
    exact List.mem_append_left _ (List.mem_map_of_mem ih)
  | structs hcnt =>
    unfold places
    rw [if_neg hcnt]
    exact List.mem_append_left _ (List.mem_cons_self ..)
  | @elem name cnt sub rest j p hcnt hj _ ih =>
    unfold places
    rw [if_neg hcnt]
    apply List.mem_append_left
    apply List.mem_cons_of_mem
    rw [List.mem_flatMap]
    exact ⟨j, List.mem_range.mpr (by omega), List.mem_map_of_mem ih⟩
  | nodeRest _ ih => exact List.mem_append_right _ ih

/-- The number of the table of a place. -/
def placeIdx (T : Template) (p : List LuaKey) : ℕ := T.places.idxOf p

/-- The tables of the template, each with its number. -/
def skeleton (T : Template) : LuaHeap := fun r k =>
  match T.places[r]? with
  | some p => if p ++ [k] ∈ T.places then .table (T.placeIdx (p ++ [k])) else .nil
  | none => .nil

/-- They are where the template asks for them. -/
theorem tables_skeleton (T : Template) : Tables T.HasTable T.placeIdx T.skeleton where
  link p k hp hk := by
    have hget : T.places[T.placeIdx p]? = some p := List.getElem?_idxOf (mem_places hp)
    unfold skeleton
    rw [hget]
    dsimp only
    rw [if_pos (mem_places hk)]
  inj p q hp hq h := (List.idxOf_inj (mem_places hp)).mp h

end Template

end Catse
