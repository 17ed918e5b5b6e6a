import Catse.Lib.Double

/-!
# The Lua API

What the C code of a program does with Lua values goes through the stack of a `lua_State`.
`LuaState` has the stack, the tables that the values refer to, and whatever else the C code keeps
(`data`), and `LuaM` is the monad of C code that works on it. Each function of the API is one
definition under its name, for the uses that have the operand on top of the stack (`-1`, and the
table at `-2`). Values have no metatables, except that a string is indexed by the string library. A
call that the manual leaves undefined ends in `undefined`, one that raises a Lua error in `index` or
`strlen`, and what the C code raises itself is a `raised`. The stack grows as far as it has to.

There are two kinds of lemmas for each function. `run_*` says what the call returns where its
operands are right, and is what proofs about a successful run use, forwards. `Effect k m`
says that the call leaves the data alone and, when it returns, has changed the height of the stack
by `k`, and is what proofs about an arbitrary run use, backwards (`bind_inv`). A relation between
states that every part of a program keeps is kept by the program (`Keeps`), whether or not it
returns.
-/

namespace Catse

/-- A Lua string. LuaJIT has none of `2^31` bytes or more. -/
structure LuaString where
  bytes : List UInt8
  length_lt : bytes.length < 2^31
  deriving DecidableEq

/-- A key of a table: a string, which the API takes without its length, or an integer. -/
inductive LuaKey where
  | str (name : List UInt8)
  | int (n : ℤ)
  deriving DecidableEq

/-- A Lua value. A table is a reference. -/
inductive LuaVal where
  | nil
  | boolean (b : Bool)
  | lightuserdata (p : ℕ)
  | number (d : Double)
  | string (s : LuaString)
  | table (r : ℕ)
  | function (r : ℕ)
  | userdata (r : ℕ)
  | thread (r : ℕ)
  deriving DecidableEq

namespace LuaVal

/-- `LUA_TNIL`, ..., `LUA_TTHREAD`. -/
def type : LuaVal → ℤ
  | nil => 0
  | boolean _ => 1
  | lightuserdata _ => 2
  | number _ => 3
  | string _ => 4
  | table _ => 5
  | function _ => 6
  | userdata _ => 7
  | thread _ => 8

/-- `LUA_TNUMBER`. -/
def tNumber : ℤ := 3

/-- `LUA_TSTRING`. -/
def tString : ℤ := 4

/-- Is it a table? -/
def isTable : LuaVal → Bool
  | table _ => true
  | _ => false

theorem type_nonneg (v : LuaVal) : 0 ≤ v.type := by
  cases v <;> simp [type]

theorem eq_number_of_type {v : LuaVal} (h : v.type = tNumber) : ∃ d, v = number d := by
  cases v with
  | number d => exact ⟨d, rfl⟩
  | _ => exact absurd h (by simp [type, tNumber])

theorem eq_string_of_type {v : LuaVal} (h : v.type = tString) : ∃ s, v = string s := by
  cases v with
  | string s => exact ⟨s, rfl⟩
  | _ => exact absurd h (by simp [type, tString])

theorem eq_table_of_isTable {v : LuaVal} (h : v.isTable = true) : ∃ r, v = table r := by
  cases v with
  | table r => exact ⟨r, rfl⟩
  | _ => exact absurd h (by simp [isTable])

end LuaVal

/-- The contents of the tables. -/
abbrev LuaHeap := ℕ → LuaKey → LuaVal

/-- `t[k] = v` for the table `r`. -/
def LuaHeap.set (h : LuaHeap) (r : ℕ) (k : LuaKey) (v : LuaVal) : LuaHeap :=
  fun r' k' => if r' = r ∧ k' = k then v else h r' k'

@[simp] theorem LuaHeap.set_self (h : LuaHeap) (r : ℕ) (k : LuaKey) (v : LuaVal) :
    h.set r k v r k = v := by
  simp [set]

theorem LuaHeap.set_of_ne (h : LuaHeap) {r r' : ℕ} {k k' : LuaKey} (v : LuaVal)
    (hne : r' ≠ r ∨ k' ≠ k) : h.set r k v r' k' = h r' k' := by
  unfold set
  rw [if_neg]
  rintro ⟨hr, hk⟩
  exact hne.elim (fun hr' => hr' hr) fun hk' => hk' hk

/-- A store into a table. -/
structure LuaStore where
  table : ℕ
  key : LuaKey
  val : LuaVal

/-- One store after the other. -/
def LuaHeap.setAll (h : LuaHeap) (ws : List LuaStore) : LuaHeap :=
  ws.foldl (fun h w => h.set w.table w.key w.val) h

theorem LuaHeap.setAll_cons (h : LuaHeap) (w : LuaStore) (ws : List LuaStore) :
    h.setAll (w :: ws) = (h.set w.table w.key w.val).setAll ws :=
  rfl

theorem LuaHeap.setAll_append (h : LuaHeap) (ws ws' : List LuaStore) :
    h.setAll (ws ++ ws') = (h.setAll ws).setAll ws' :=
  List.foldl_append

/-- What no store goes to stays as it is. -/
theorem LuaHeap.setAll_of_ne (h : LuaHeap) {ws : List LuaStore} {r : ℕ} {k : LuaKey}
    (hne : ∀ w ∈ ws, r ≠ w.table ∨ k ≠ w.key) : h.setAll ws r k = h r k := by
  induction ws generalizing h with
  | nil => rfl
  | cons w ws ih =>
    rw [setAll_cons, ih _ fun w' hw' => hne w' (List.mem_cons_of_mem _ hw')]
    exact set_of_ne h w.val (hne w (List.mem_cons_self ..))

/-- The last store is the one that stays. -/
theorem LuaHeap.setAll_last (h : LuaHeap) (ws : List LuaStore) (w : LuaStore) {ws' : List LuaStore}
    (hlast : ∀ w' ∈ ws', w.table ≠ w'.table ∨ w.key ≠ w'.key) :
    h.setAll (ws ++ w :: ws') w.table w.key = w.val := by
  rw [setAll_append, setAll_cons, setAll_of_ne _ hlast]
  exact set_self ..

/-- The state that C code works on: the tables, the stack with its top first, what the string
library has under a name, and the data of the C code. -/
structure LuaState (δ : Type) where
  heap : LuaHeap
  stack : List LuaVal
  strIndex : List UInt8 → LuaVal
  data : δ

/-- Why C code does not return: it has raised an error of its own, it has indexed a value that has
no index, it has made a string that is too long, its behaviour is undefined, or the fuel of the
model is used up. -/
inductive LuaError (ε : Type) where
  | raised (e : ε)
  | index
  | strlen
  | undefined
  | outOfFuel
  deriving DecidableEq

/-- C code that returns a value of type `α` or does not return, with the state at that point. -/
abbrev LuaM (ε δ α : Type) := EStateM (LuaError ε) (LuaState δ) α

namespace LuaM

variable {ε δ α β : Type}

/-! ## The functions -/

/-- `lua_gettop`. -/
def gettop : LuaM ε δ ℕ := fun s => .ok s.stack.length s

/-- `lua_push*`. -/
def push (v : LuaVal) : LuaM ε δ Unit := fun s => .ok () { s with stack := v :: s.stack }

/-- `lua_pushlstring`. -/
def pushlstring (bytes : List UInt8) : LuaM ε δ Unit :=
  if h : bytes.length < 2^31 then push (.string ⟨bytes, h⟩) else throw .strlen

/-- `lua_pop(L, 1)`. -/
def pop : LuaM ε δ Unit := fun s =>
  match s.stack with
  | _ :: st => .ok () { s with stack := st }
  | [] => .error .undefined s

/-- `lua_getfield(L, -1, name)`. -/
def getfield (name : List UInt8) : LuaM ε δ Unit := fun s =>
  match s.stack with
  | .table r :: _ => .ok () { s with stack := s.heap r (.str name) :: s.stack }
  | .string _ :: _ => .ok () { s with stack := s.strIndex name :: s.stack }
  | _ :: _ => .error .index s
  | [] => .error .undefined s

/-- `lua_setfield(L, -2, name)`. -/
def setfield (name : List UInt8) : LuaM ε δ Unit := fun s =>
  match s.stack with
  | v :: .table r :: st =>
    .ok () { s with heap := s.heap.set r (.str name) v, stack := .table r :: st }
  | _ :: _ :: _ => .error .index s
  | _ => .error .undefined s

/-- `lua_rawgeti(L, -1, n)`. -/
def rawgeti (n : ℤ) : LuaM ε δ Unit := fun s =>
  match s.stack with
  | .table r :: _ => .ok () { s with stack := s.heap r (.int n) :: s.stack }
  | _ => .error .undefined s

/-- `lua_rawseti(L, -2, n)`. -/
def rawseti (n : ℤ) : LuaM ε δ Unit := fun s =>
  match s.stack with
  | v :: .table r :: st =>
    .ok () { s with heap := s.heap.set r (.int n) v, stack := .table r :: st }
  | _ => .error .undefined s

/-- `lua_istable(L, -1)`. -/
def istable : LuaM ε δ Bool := fun s =>
  match s.stack with
  | v :: _ => .ok v.isTable s
  | [] => .error .undefined s

/-- `lua_type(L, -1)`. -/
def type : LuaM ε δ ℤ := fun s =>
  match s.stack with
  | v :: _ => .ok v.type s
  | [] => .error .undefined s

/-- `luaL_checknumber(L, -1)` of a value that has been checked to be a number. -/
def checknumber : LuaM ε δ Double := fun s =>
  match s.stack with
  | .number d :: _ => .ok d s
  | _ => .error .undefined s

/-- `luaL_checklstring(L, -1, &len)` of a value that has been checked to be a string. -/
def checklstring : LuaM ε δ LuaString := fun s =>
  match s.stack with
  | .string str :: _ => .ok str s
  | _ => .error .undefined s

/-- `luaL_error`. -/
def raise (e : ε) : LuaM ε δ α := fun s => .error (.raised e) s

/-- A change of the data of the C code. -/
def onData (f : δ → α × δ) : LuaM ε δ α := fun s =>
  .ok (f s.data).1 { s with data := (f s.data).2 }

/-! ## Runs -/

section Run

variable {s s' : LuaState δ} {x : LuaM ε δ α} {f : α → LuaM ε δ β} {a : α} {b : β} {v w : LuaVal}
  {st : List LuaVal} {r : ℕ}

/-- A sequence goes on where its first part has returned. -/
theorem run_bind (h : x.run s = .ok a s') : (x >>= f).run s = (f a).run s' := by
  show EStateM.bind x f s = _
  unfold EStateM.bind
  rw [show x s = .ok a s' from h]
  rfl

/-- A sequence ends where its first part has raised an error. -/
theorem run_bind_error {e : LuaError ε} (h : x.run s = .error e s') :
    (x >>= f).run s = .error e s' := by
  show EStateM.bind x f s = _
  unfold EStateM.bind
  rw [show x s = .error e s' from h]

/-- A sequence that has returned has gone through its first part. -/
theorem bind_inv {s'' : LuaState δ} (h : (x >>= f).run s = .ok b s'') :
    ∃ a s', x.run s = .ok a s' ∧ (f a).run s' = .ok b s'' := by
  cases hx : x.run s with
  | ok a s' => exact ⟨a, s', rfl, (run_bind hx).symm.trans h⟩
  | error e s' =>
    rw [run_bind_error hx] at h
    cases h

theorem run_push (v : LuaVal) :
    (push v : LuaM ε δ Unit).run s = .ok () { s with stack := v :: s.stack } :=
  rfl

theorem run_pop (h : s.stack = v :: st) :
    (pop : LuaM ε δ Unit).run s = .ok () { s with stack := st } := by
  show pop s = _
  unfold pop
  rw [h]

theorem run_istable (h : s.stack = v :: st) :
    (istable : LuaM ε δ Bool).run s = .ok v.isTable s := by
  show istable s = _
  unfold istable
  rw [h]

theorem run_istable_table (h : s.stack = .table r :: st) :
    (istable : LuaM ε δ Bool).run s = .ok true s :=
  run_istable h

theorem run_type (h : s.stack = v :: st) : (type : LuaM ε δ ℤ).run s = .ok v.type s := by
  show type s = _
  unfold type
  rw [h]

theorem run_getfield (h : s.stack = .table r :: st) (name : List UInt8) :
    (getfield name : LuaM ε δ Unit).run s =
      .ok () { s with stack := s.heap r (.str name) :: s.stack } := by
  show getfield name s = _
  unfold getfield
  rw [h]

theorem run_setfield (h : s.stack = v :: .table r :: st) (name : List UInt8) :
    (setfield name : LuaM ε δ Unit).run s =
      .ok () { s with heap := s.heap.set r (.str name) v, stack := .table r :: st } := by
  show setfield name s = _
  unfold setfield
  rw [h]

theorem run_rawgeti (h : s.stack = .table r :: st) (n : ℤ) :
    (rawgeti n : LuaM ε δ Unit).run s =
      .ok () { s with stack := s.heap r (.int n) :: s.stack } := by
  show rawgeti n s = _
  unfold rawgeti
  rw [h]

theorem run_rawseti (h : s.stack = v :: .table r :: st) (n : ℤ) :
    (rawseti n : LuaM ε δ Unit).run s =
      .ok () { s with heap := s.heap.set r (.int n) v, stack := .table r :: st } := by
  show rawseti n s = _
  unfold rawseti
  rw [h]

theorem run_checknumber {d : Double} (h : s.stack = .number d :: st) :
    (checknumber : LuaM ε δ Double).run s = .ok d s := by
  show checknumber s = _
  unfold checknumber
  rw [h]

theorem run_checklstring {str : LuaString} (h : s.stack = .string str :: st) :
    (checklstring : LuaM ε δ LuaString).run s = .ok str s := by
  show checklstring s = _
  unfold checklstring
  rw [h]

end Run

/-! ## Effects -/

/-- A call leaves the data alone, and when it returns it has changed the height of the stack by
`k`. It does not run out of fuel. -/
def Effect (k : ℤ) (m : LuaM ε δ α) : Prop :=
  ∀ s, match m.run s with
    | .ok _ s' => (s'.stack.length : ℤ) = s.stack.length + k ∧ s'.data = s.data
    | .error e s' => e ≠ .outOfFuel ∧ s'.data = s.data

theorem Effect.of_run {k : ℤ} {m : LuaM ε δ α} (h : Effect k m) {s s' : LuaState δ} {a : α}
    (hrun : m.run s = .ok a s') :
    (s'.stack.length : ℤ) = s.stack.length + k ∧ s'.data = s.data := by
  have hs := h s
  rw [hrun] at hs
  exact hs

theorem effect_gettop : Effect 0 (gettop : LuaM ε δ ℕ) := by
  intro s
  exact ⟨(add_zero _).symm, rfl⟩

theorem effect_push (v : LuaVal) : Effect 1 (push v : LuaM ε δ Unit) := by
  intro s
  exact ⟨Nat.cast_succ _, rfl⟩

theorem effect_pushlstring (bytes : List UInt8) :
    Effect 1 (pushlstring bytes : LuaM ε δ Unit) := by
  unfold pushlstring
  by_cases hlen : bytes.length < 2^31
  · rw [dif_pos hlen]
    exact effect_push _
  · rw [dif_neg hlen]
    intro s
    exact ⟨by simp, rfl⟩

theorem effect_raise (k : ℤ) (e : ε) : Effect k (raise e : LuaM ε δ α) := by
  intro s
  exact ⟨by simp, rfl⟩

theorem effect_pop : Effect (-1) (pop : LuaM ε δ Unit) := by
  rintro ⟨heap, stack, strIndex, data⟩
  cases stack with
  | nil => exact ⟨by simp, rfl⟩
  | cons v st => exact ⟨by simp, rfl⟩

theorem effect_istable : Effect 0 (istable : LuaM ε δ Bool) := by
  rintro ⟨heap, stack, strIndex, data⟩
  cases stack with
  | nil => exact ⟨by simp, rfl⟩
  | cons v st => exact ⟨by simp, rfl⟩

theorem effect_getfield (name : List UInt8) : Effect 1 (getfield name : LuaM ε δ Unit) := by
  rintro ⟨heap, stack, strIndex, data⟩
  cases stack with
  | nil => exact ⟨by simp, rfl⟩
  | cons v st => cases v <;> exact ⟨by simp, rfl⟩

theorem effect_setfield (name : List UInt8) : Effect (-1) (setfield name : LuaM ε δ Unit) := by
  rintro ⟨heap, stack, strIndex, data⟩
  rcases stack with _ | ⟨v, _ | ⟨w, st⟩⟩
  · exact ⟨by simp, rfl⟩
  · exact ⟨by simp, rfl⟩
  · cases w <;> exact ⟨by simp, rfl⟩

theorem effect_rawgeti (n : ℤ) : Effect 1 (rawgeti n : LuaM ε δ Unit) := by
  rintro ⟨heap, stack, strIndex, data⟩
  cases stack with
  | nil => exact ⟨by simp, rfl⟩
  | cons v st => cases v <;> exact ⟨by simp, rfl⟩

theorem effect_rawseti (n : ℤ) : Effect (-1) (rawseti n : LuaM ε δ Unit) := by
  rintro ⟨heap, stack, strIndex, data⟩
  rcases stack with _ | ⟨v, _ | ⟨w, st⟩⟩
  · exact ⟨by simp, rfl⟩
  · exact ⟨by simp, rfl⟩
  · cases w <;> exact ⟨by simp, rfl⟩

theorem effect_return (a : α) : Effect 0 (pure a : LuaM ε δ α) := by
  intro s
  exact ⟨(add_zero _).symm, rfl⟩

theorem effect_ite {k : ℤ} {c : Prop} [Decidable c] {x y : LuaM ε δ α} (hx : Effect k x)
    (hy : Effect k y) : Effect k (if c then x else y) := by
  by_cases hc : c
  · rw [if_pos hc]
    exact hx
  · rw [if_neg hc]
    exact hy

/-- The effects of a sequence add up. -/
theorem effect_bind {k l n : ℤ} {x : LuaM ε δ α} {f : α → LuaM ε δ β} (hx : Effect k x)
    (hf : ∀ a, Effect l (f a)) (hn : k + l = n) : Effect n (x >>= f) := by
  intro s
  have hfirst := hx s
  cases hrun : x.run s with
  | ok a s' =>
    rw [hrun] at hfirst
    obtain ⟨hheight, hdata⟩ := hfirst
    have hsecond := hf a s'
    rw [run_bind hrun]
    cases hrun' : (f a).run s' with
    | ok b s'' =>
      rw [hrun'] at hsecond
      exact ⟨by rw [hsecond.1]; omega, hsecond.2.trans hdata⟩
    | error e s'' =>
      rw [hrun'] at hsecond
      exact ⟨hsecond.1, hsecond.2.trans hdata⟩
  | error e s' =>
    rw [hrun] at hfirst
    rw [run_bind_error hrun]
    exact hfirst

/-- What follows a check follows it where it has not raised an error. -/
theorem check_bind (c : Prop) [Decidable c] (x : LuaM ε δ α) (e : ε) (f : α → LuaM ε δ β) :
    (if c then x else raise e) >>= f = if c then x >>= f else raise e := by
  by_cases hc : c
  · rw [if_pos hc, if_pos hc]
  · rw [if_neg hc, if_neg hc]
    rfl

/-! ## Properties of runs -/

/-- Every run relates the state before it to the one after it, whether it returns or not, and does
not run out of fuel. -/
def Keeps (R : LuaState δ → LuaState δ → Prop) (m : LuaM ε δ α) : Prop :=
  ∀ s, match m.run s with
    | .ok _ s' => R s s'
    | .error e s' => e ≠ .outOfFuel ∧ R s s'

section Keeps

variable {R : LuaState δ → LuaState δ → Prop}

theorem Keeps.of_run {m : LuaM ε δ α} (h : Keeps R m) {s s' : LuaState δ} {a : α}
    (hrun : m.run s = .ok a s') : R s s' := by
  have hs := h s
  rw [hrun] at hs
  exact hs

/-- A relation between the data alone is kept by what leaves the data alone. -/
theorem Effect.keeps {Q : δ → δ → Prop} (hrefl : ∀ d, Q d d) {k : ℤ} {m : LuaM ε δ α}
    (h : Effect k m) : Keeps (fun s s' => Q s.data s'.data) m := by
  intro s
  have hs := h s
  cases hrun : m.run s with
  | ok a s' =>
    rw [hrun] at hs
    show Q s.data s'.data
    rw [hs.2]
    exact hrefl _
  | error e s' =>
    rw [hrun] at hs
    refine ⟨hs.1, ?_⟩
    show Q s.data s'.data
    rw [hs.2]
    exact hrefl _

theorem keeps_pure (hrefl : ∀ s, R s s) (a : α) : Keeps R (pure a : LuaM ε δ α) :=
  fun s => hrefl s

theorem keeps_ite {c : Prop} [Decidable c] {x y : LuaM ε δ α} (hx : Keeps R x) (hy : Keeps R y) :
    Keeps R (if c then x else y) := by
  by_cases hc : c
  · rw [if_pos hc]
    exact hx
  · rw [if_neg hc]
    exact hy

/-- It is enough to go on from the values that the first part can return. -/
theorem keeps_bind (htrans : ∀ s s' s'', R s s' → R s' s'' → R s s'') {x : LuaM ε δ α}
    {f : α → LuaM ε δ β} (hx : Keeps R x)
    (hf : ∀ s a s', x.run s = .ok a s' → Keeps R (f a)) : Keeps R (x >>= f) := by
  intro s
  have hfirst := hx s
  cases hrun : x.run s with
  | ok a s' =>
    rw [hrun] at hfirst
    have hsecond := hf s a s' hrun s'
    rw [run_bind hrun]
    cases hrun' : (f a).run s' with
    | ok b s'' =>
      rw [hrun'] at hsecond
      exact htrans s s' s'' hfirst hsecond
    | error e s'' =>
      rw [hrun'] at hsecond
      exact ⟨hsecond.1, htrans s s' s'' hfirst hsecond.2⟩
  | error e s' =>
    rw [hrun] at hfirst
    rw [run_bind_error hrun]
    exact hfirst

end Keeps

end LuaM

end Catse
