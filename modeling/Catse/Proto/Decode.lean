import Catse.Proto.Drops
import Catse.Proto.Encode

/-!
# What the packet reader makes of an encoding

`write_msg_dfs` turns the leaves of a table into bytes, one after the other, and `read_msg_dfs`
turns these bytes into as many stores. `Template.leaves` are the leaves of a table in this order:
for each the place of its table, its key and its type, where the length of an array is a short under
the key 0. `ProtoType.reread` is the value that comes back for a value that was written. It is the
same value if that is in the signed range of its type, and for a `uint` from `2^31` on it is another
number, since `read_int` gives a signed one.

`Template.readsInto` is the whole of it: for a table whose counts are allowed (`Template.CountsIn`)
the reader takes exactly the bytes of the encoding, returns true, and has made one store for each
leaf. Nothing else has changed. Where two fields of the template have one name the later store is
the one that stays.
-/

namespace Catse

open LuaM ProtoParser

/-! ## Leaves -/

/-- What is read back where the value has been written. -/
def ProtoType.reread : ProtoType → LuaVal → LuaVal
  | byte, .number d => .number (.ofInt d.castChar)
  | short, .number d => .number (.ofInt d.castShort)
  | int, .number d => .number (.ofInt (toInt32 d.castUnsigned))
  | uint, .number d => .number (.ofInt (toInt32 d.castUnsigned))
  | _, v => v

/-- A number or a string of a table: the place of the table that has it, its key and its type. -/
structure Leaf where
  place : List LuaKey
  key : LuaKey
  type : ProtoType
  deriving DecidableEq

/-- The store that reads the leaf back: the value that the table `φ` of its place has, to the table
`τ` of its place. -/
def Leaf.store (h : LuaHeap) (φ τ : List LuaKey → ℕ) (x : Leaf) : LuaStore :=
  ⟨τ x.place, x.key, x.type.reread (h (φ x.place) x.key)⟩

/-- The leaves of an array at the place `p`: its length, and those of its items. -/
def arrayLeaves (h : LuaHeap) (φ : List LuaKey → ℕ) (p : List LuaKey) (item : ℕ → List Leaf) :
    List Leaf :=
  match h (φ p) (.int 0) with
  | .number d => ⟨p, .int 0, .short⟩ :: (List.range d.castShort.toNat).flatMap item
  | _ => []

/-- The leaves of the table at the place `p`, in the order of the template. -/
def Template.leaves (h : LuaHeap) (φ : List LuaKey → ℕ) : Template → List LuaKey → List Leaf
  | done, _ => []
  | leaf name cnt ty rest, p =>
    (if cnt < 2 then [⟨p, .str name, ty⟩]
      else arrayLeaves h φ (p ++ [.str name]) fun j => [⟨p ++ [.str name], .int (j + 1), ty⟩]) ++
      rest.leaves h φ p
  | node name cnt sub rest, p =>
    (if cnt < 2 then sub.leaves h φ (p ++ [.str name])
      else arrayLeaves h φ (p ++ [.str name]) fun j =>
        sub.leaves h φ (p ++ [.str name] ++ [.int (j + 1)])) ++
      rest.leaves h φ p

/-- No later leaf of the list has the same place and key, so that the value of this one stays. -/
def Leaf.Lasts (L : List Leaf) (x : Leaf) : Prop :=
  ∃ A B, L = A ++ x :: B ∧ ∀ y ∈ B, ¬(y.place = x.place ∧ y.key = x.key)

theorem Leaf.Lasts.mem {L : List Leaf} {x : Leaf} (hx : x.Lasts L) : x ∈ L := by
  obtain ⟨A, B, rfl, -⟩ := hx
  exact List.mem_append_right A (List.mem_cons_self ..)

/-- There is such a leaf wherever there is a leaf. -/
theorem exists_lasts {L : List Leaf} {x : Leaf} (hx : x ∈ L) :
    ∃ y : Leaf, y.Lasts L ∧ y.place = x.place ∧ y.key = x.key := by
  -- It is the first one from the end.
  have hfind : (L.reverse.find? fun y => y.place = x.place ∧ y.key = x.key).isSome :=
    List.find?_isSome.mpr ⟨x, List.mem_reverse.mpr hx, decide_eq_true ⟨rfl, rfl⟩⟩
  obtain ⟨y, hy⟩ := Option.isSome_iff_exists.mp hfind
  obtain ⟨hsame, B, A, hL, hB⟩ := List.find?_eq_some_iff_append.mp hy
  obtain ⟨hplace, hkey⟩ := of_decide_eq_true hsame
  refine ⟨y, ⟨A.reverse, B.reverse, ?_, fun z hz => ?_⟩, hplace, hkey⟩
  · rw [← List.reverse_reverse L, hL]
    simp
  · have hz' := hB z (List.mem_reverse.mp hz)
    rw [hplace, hkey]
    rwa [Bool.not_eq_true', decide_eq_false_iff_not] at hz'

/-! ## Counts -/

/-- If the value is an array then the short that is written for its element 0 is in `0..cnt`, and
each of its items satisfies `item`. -/
def ArrayCounts (h : LuaHeap) (cnt : ℤ) (item : LuaVal → Prop) : LuaVal → Prop
  | .table r =>
    match h r (.int 0) with
    | .number d => (0 ≤ d.castShort ∧ d.castShort ≤ cnt) ∧
        ∀ j < d.castShort.toNat, item (h r (.int (j + 1)))
    | _ => True
  | _ => True

/-- If the value is a struct then its table satisfies `fields`. -/
def StructCounts (fields : ℕ → Prop) : LuaVal → Prop
  | .table r => fields r
  | _ => True

/-- Each array that the template finds in the table `r` has an element 0 in `0..cnt`. -/
def Template.CountsIn (h : LuaHeap) : Template → ℕ → Prop
  | done, _ => True
  | leaf name cnt _ rest, r =>
    (if cnt < 2 then fun _ => True else ArrayCounts h cnt fun _ => True) (h r (.str name)) ∧
      rest.CountsIn h r
  | node name cnt sub rest, r =>
    (if cnt < 2 then StructCounts (sub.CountsIn h)
      else ArrayCounts h cnt (StructCounts (sub.CountsIn h))) (h r (.str name)) ∧
      rest.CountsIn h r

/-! ## Parts of an encoding -/

theorem joinBytes_eq_some {x y : Option (List UInt8)} {e : List UInt8} :
    joinBytes x y = some e ↔ ∃ a b, x = some a ∧ y = some b ∧ a ++ b = e := by
  unfold joinBytes
  constructor
  · intro h
    obtain ⟨a, ha, hb⟩ := Option.bind_eq_some_iff.mp h
    obtain ⟨b, hb, he⟩ := Option.map_eq_some_iff.mp hb
    exact ⟨a, b, ha, hb, he⟩
  · rintro ⟨a, b, rfl, rfl, rfl⟩
    rfl

/-- What has the encoding of an array is a table with a number as its element 0. -/
theorem encodeArray_inv {h : LuaHeap} {item : LuaVal → Option (List UInt8)} {v : LuaVal}
    {e : List UInt8} (he : encodeArray h item v = some e) :
    ∃ r d e', v = .table r ∧ h r (.int 0) = .number d ∧
      encodeElems item (fun j => h r (.int (j + 1))) d.castShort.toNat 0 = some e' ∧
      beInt 2 d.castShort ++ e' = e := by
  cases v with
  | table r =>
    unfold encodeArray at he
    dsimp only at he
    split at he
    · rename_i d hd
      obtain ⟨a, e', ha, he', rfl⟩ := joinBytes_eq_some.mp he
      exact ⟨r, d, e', rfl, hd, he', by rw [Option.some.inj ha]⟩
    · cases he
  | _ => cases he

/-- What has the encoding of a struct is a table. -/
theorem encodeStruct_inv {fields : ℕ → Option (List UInt8)} {v : LuaVal} {e : List UInt8}
    (he : encodeStruct fields v = some e) : ∃ r, v = .table r ∧ fields r = some e := by
  cases v with
  | table r => exact ⟨r, rfl, he⟩
  | _ => cases he

/-- What has the encoding of a scalar is no table. -/
theorem ProtoType.isTable_of_encode {ty : ProtoType} {v : LuaVal} {e : List UInt8}
    (he : ty.encode v = some e) : v.isTable = false := by
  cases v with
  | table r => cases ty <;> cases he
  | _ => rfl

/-! ## Places -/

/-- The places `Q` that are in use are those of the places `P` of the template at which the source
has a table. -/
structure InUse (h : LuaHeap) (φ : List LuaKey → ℕ) (P Q : List LuaKey → Prop) : Prop where
  source : ∀ p k r, h (φ p) k = .table r → φ (p ++ [k]) = r
  place : ∀ p, Q p → P p
  iff : ∀ p k, Q p → P (p ++ [k]) → (Q (p ++ [k]) ↔ (h (φ p) k).isTable = true)

namespace InUse

variable {h : LuaHeap} {φ : List LuaKey → ℕ} {P Q : List LuaKey → Prop} {p : List LuaKey}
  {k : LuaKey} {v : LuaVal}

/-- Where the source has a table, its place is in use. -/
theorem table (hu : InUse h φ P Q) (hp : Q p) (hk : P (p ++ [k])) {r : ℕ}
    (hv : h (φ p) k = .table r) : Q (p ++ [k]) ∧ h (φ p) k = .table (φ (p ++ [k])) := by
  constructor
  · rw [hu.iff p k hp hk, hv]
    rfl
  · rw [hv, hu.source p k r hv]

/-- Where it has none, its place is not. -/
theorem value (hu : InUse h φ P Q) (hp : Q p) (hv : (h (φ p) k).isTable = false) :
    ¬Q (p ++ [k]) := by
  intro hq
  have htable := (hu.iff p k hp (hu.place _ hq)).mp hq
  rw [hv] at htable
  cases htable

end InUse

/-- The table of a place, from the table `r` on. -/
def placeRef (h : LuaHeap) (r : ℕ) (p : List LuaKey) : ℕ :=
  p.foldl (fun r k => match h r k with
    | .table r' => r'
    | _ => r) r

/-- The places of the template at which the source has a table. -/
def UsedPlace (h : LuaHeap) (r : ℕ) (T : Template) (p : List LuaKey) : Prop :=
  T.HasTable p ∧ ∀ q k, p = q ++ [k] → (h (placeRef h r q) k).isTable = true

theorem inUse_usedPlace (h : LuaHeap) (r : ℕ) (T : Template) :
    InUse h (placeRef h r) T.HasTable (UsedPlace h r T) where
  source p k r' hr' := by
    unfold placeRef at hr' ⊢
    rw [List.foldl_append, List.foldl_cons, List.foldl_nil, hr']
  place p hp := hp.1
  iff p k _ hk := by
    constructor
    · exact fun hq => hq.2 p k rfl
    · intro htable
      refine ⟨hk, fun q k' heq => ?_⟩
      -- A place has one way to be another one with a key behind it.
      obtain ⟨rfl, hsingle⟩ := List.append_inj' heq rfl
      rw [← List.singleton_inj.mp hsingle]
      exact htable

/-- The packet itself is in use. -/
theorem usedPlace_root (h : LuaHeap) (r : ℕ) (T : Template) : UsedPlace h r T [] :=
  ⟨.root, fun q k hq => absurd hq.symm (by simp)⟩

/-! ## Reads -/

section Run

variable {s : LuaState Reading} {a rest : List UInt8}

/-- A value of a width of its own is read from its bytes. -/
theorem run_read {α : Type} {k : ℕ} {f : MsgRecv → α × MsgRecv} {z : α} {val : List UInt8 → α}
    (hf : ∀ m, f m = ((m.readBytes k).1.elim z val, (m.readBytes k).2)) (ha : a.length = k)
    (hs : s.data.msg.Carries (a ++ rest)) :
    ∃ d, (ProtoParser.read k f).run s = .ok (val a) { s with data := d } ∧
      d.msg.Carries rest := by
  obtain ⟨-, m', hread, hm', -⟩ := hs.readBytes (k := k) (by rw [ha])
  -- All the bytes are there, so the value is not the default.
  have hval := hf s.data.msg
  rw [hread, Option.elim_some] at hval
  have hfst : (f s.data.msg).1 = val a := by rw [hval]
  have hsnd : (f s.data.msg).2 = m' := by rw [hval]
  refine ⟨⟨(f s.data.msg).2, s.data.log ++
    [.access s.data.msg.front k (!s.data.msg.short k)]⟩, ?_, ?_⟩
  · rw [← hfst]
    rfl
  · rw [hsnd]
    exact hm'

/-- The length of a string or an array is read from its bytes. -/
theorem run_readShort_beInt {n : ℤ} (hn : -2^15 ≤ n ∧ n < 2^15)
    (hs : s.data.msg.Carries (beInt 2 n ++ rest)) :
    ∃ d, readShort.run s = .ok n { s with data := d } ∧ d.msg.Carries rest := by
  have hshort : ∀ m : MsgRecv, m.readShort =
      ((m.readBytes (2 : ℕ)).1.elim 0 fun bs => toShort (ofBE bs), (m.readBytes (2 : ℕ)).2) :=
    fun _ => rfl
  obtain ⟨d, hrun, hrest⟩ := run_read hshort (length_beInt 2 n) hs
  rw [toShort_ofBE_beInt, toShort_of_range hn] at hrun
  exact ⟨d, hrun, hrest⟩

/-- The characters of a string are read from their bytes. -/
theorem run_readString (junk : ℕ → ℕ → UInt8) {n : ℕ} (ha : a.length = n)
    (hs : s.data.msg.Carries (a ++ rest)) :
    ∃ d, (readString junk n).run s = .ok a { s with data := d } ∧ d.msg.Carries rest := by
  obtain ⟨-, m', hread, hm', -⟩ := hs.readBytes (k := n) (by rw [ha])
  have hval : s.data.msg.readString n = (some a, m') := by
    unfold MsgRecv.readString
    rw [if_neg (by omega), hread]
  -- Nothing of what was in the buffer before is left in the string.
  have hfst : (s.data.msg.readString n).1.getD
      ((List.range (n : ℤ).toNat).map (junk s.data.log.length)) = a := by
    rw [hval]
    rfl
  have hsnd : (s.data.msg.readString n).2 = m' := by rw [hval]
  refine ⟨⟨(s.data.msg.readString n).2, s.data.log ++
    [.access s.data.msg.front n (!s.data.msg.short n)]⟩, ?_, ?_⟩
  · rw [← hfst]
    rfl
  · rw [hsnd]
    exact hm'

end Run

/-! ## Reading into a table -/

section ReadsInto

-- The source, the tables of its places, the places that are in use, and the tables of the skeleton.
variable (h : LuaHeap) (φ : List LuaKey → ℕ) (Q : List LuaKey → Prop) (τ : List LuaKey → ℕ)

/-- From the bytes `e` the code reads the leaves `L` into the table at the place `p`. No leaf has
the place of a table. -/
structure ReadsInto (p : List LuaKey) (m : ReadM Bool) (e : List UInt8) (L : List Leaf) : Prop where
  apart : ∀ x ∈ L, Q x.place ∧ ¬Q (x.place ++ [x.key])
  run : ∀ s st rest, Tables Q τ s.heap → s.stack = .table (τ p) :: st →
    s.data.msg.Carries (e ++ rest) → ∃ d, d.msg.Carries rest ∧
      m.run s = .ok true { s with heap := s.heap.setAll (L.map (Leaf.store h φ τ)), data := d }

variable {h φ Q τ} {P : List LuaKey → Prop}

/-- The tables stay where they are. -/
theorem Tables.setAll {h₁ : LuaHeap} (htables : Tables Q τ h₁) {L : List Leaf}
    (hL : ∀ x ∈ L, Q x.place ∧ ¬Q (x.place ++ [x.key])) :
    Tables Q τ (h₁.setAll (L.map (Leaf.store h φ τ))) := by
  induction L generalizing h₁ with
  | nil => exact htables
  | cons x L ih =>
    obtain ⟨hplace, hkey⟩ := hL x (List.mem_cons_self ..)
    exact ih (htables.set hplace hkey _) fun y hy => hL y (List.mem_cons_of_mem _ hy)

/-- The value of a leaf that lasts is there in the end. -/
theorem setAll_lasts {h₁ : LuaHeap} (htables : Tables Q τ h₁) {L : List Leaf}
    (hL : ∀ x ∈ L, Q x.place) {x : Leaf} (hx : x.Lasts L) :
    h₁.setAll (L.map (Leaf.store h φ τ)) (τ x.place) x.key =
      x.type.reread (h (φ x.place) x.key) := by
  have hplace := hL x hx.mem
  obtain ⟨A, B, rfl, hB⟩ := hx
  rw [List.map_append, List.map_cons]
  apply LuaHeap.setAll_last h₁ (A.map (Leaf.store h φ τ)) (x.store h φ τ)
  intro w hw
  obtain ⟨y, hy, rfl⟩ := List.mem_map.mp hw
  -- Tables of different places are different.
  by_contra hcon
  rw [not_or, not_not, not_not] at hcon
  have hyplace := hL y (List.mem_append_right _ (List.mem_cons_of_mem _ hy))
  exact hB y hy ⟨(htables.inj _ _ hplace hyplace hcon.1).symm, hcon.2.symm⟩

variable {p : List LuaKey} {m m' : ReadM Bool} {e e' : List UInt8} {L L' : List Leaf}

theorem readsInto_return : ReadsInto h φ Q τ p (pure true) [] [] where
  apart _ hx := absurd hx List.not_mem_nil
  run s _ _ _ _ hs := ⟨s.data, hs, rfl⟩

/-- One part after the other. -/
theorem ReadsInto.seq (hm : ReadsInto h φ Q τ p m e L) (hm' : ReadsInto h φ Q τ p m' e' L') :
    ReadsInto h φ Q τ p (m >>= fun b => if b then m' else pure false) (e ++ e') (L ++ L') where
  apart x hx := (List.mem_append.mp hx).elim (hm.apart x) (hm'.apart x)
  run s st rest htables hst hs := by
    rw [List.append_assoc] at hs
    obtain ⟨d, hd, hrun⟩ := hm.run s st _ htables hst hs
    -- The second part starts from the tables that the first one has filled.
    obtain ⟨d', hd', hrun'⟩ := hm'.run { s with
      heap := s.heap.setAll (L.map (Leaf.store h φ τ)), data := d } st rest
      (htables.setAll hm.apart) hst hd
    refine ⟨d', hd', ?_⟩
    rw [run_bind hrun, if_pos rfl, hrun', List.map_append, LuaHeap.setAll_append]

/-- The loop with the comparison of the heights. -/
theorem ReadsInto.body (hm : ReadsInto h φ Q τ p m e L) : ReadsInto h φ Q τ p (readBody m) e L where
  apart := hm.apart
  run s st rest htables hst hs := by
    obtain ⟨d, hd, hrun⟩ := hm.run s st rest htables hst hs
    have htop : ∀ t : LuaState Reading, (gettop : ReadM ℕ).run t = .ok t.stack.length t :=
      fun _ => rfl
    -- The stack is as high as before.
    refine ⟨d, hd, ?_⟩
    unfold readBody
    rw [run_bind (htop s), run_bind hrun, if_pos rfl, run_bind (htop _),
      if_neg (not_not.mpr rfl)]
    rfl

/-- A struct. -/
theorem ReadsInto.struct (hp : Q p) {name : List UInt8} (hk : Q (p ++ [.str name]))
    (hm : ReadsInto h φ Q τ (p ++ [.str name]) m e L) :
    ReadsInto h φ Q τ p (readStruct name m) e L where
  apart := hm.apart
  run s st rest htables hst hs := by
    have hget := run_field htables hp hk hst
    -- The fields are read with the table of the struct on top.
    obtain ⟨d, hd, hrun⟩ := hm.run
      { s with stack := .table (τ (p ++ [.str name])) :: s.stack } s.stack rest htables rfl hs
    refine ⟨d, hd, ?_⟩
    unfold readStruct
    rw [run_bind hget, run_bind hrun, if_pos rfl, run_bind (run_pop rfl)]
    rfl

/-- An element of an array of structs. -/
theorem ReadsInto.structElem (hp : Q p) {name : List UInt8} {j : ℕ}
    (hk : Q (p ++ [.int (j + 1)])) (hm : ReadsInto h φ Q τ (p ++ [.int (j + 1)]) m e L) :
    ReadsInto h φ Q τ p (readStructElem name m j) e L where
  apart := hm.apart
  run s st rest htables hst hs := by
    have hget := run_index htables hp hk hst
    -- The element is a table of the skeleton.
    obtain ⟨d, hd, hrun⟩ := hm.run
      { s with stack := .table (τ (p ++ [.int (j + 1)])) :: s.stack } s.stack rest htables rfl hs
    refine ⟨d, hd, ?_⟩
    unfold readStructElem
    rw [run_bind hget, run_bind (run_istable_table rfl), if_pos rfl, run_bind hrun,
      run_bind (run_pop rfl)]
    rfl

/-- The elements of an array, of which `n` are left. -/
theorem readsInto_elems {elem : ℕ → ReadM Bool} {item : LuaVal → Option (List UInt8)}
    {get : ℕ → LuaVal} {leaves : ℕ → List Leaf} {n j : ℕ}
    (hm : ∀ i e, j ≤ i → i < j + n → item (get i) = some e →
      ReadsInto h φ Q τ p (elem i) e (leaves i))
    (he : encodeElems item get n j = some e) :
    ReadsInto h φ Q τ p (readElems elem n j) e ((List.range' j n).flatMap leaves) := by
  induction n generalizing j e with
  | zero =>
    cases he
    exact readsInto_return
  | succ n ih =>
    obtain ⟨a, b, ha, hb, rfl⟩ := joinBytes_eq_some.mp he
    have hfirst := hm j a le_rfl (by omega) ha
    have hrest := ih (fun i e hj hi => hm i e (by omega) (by omega)) hb
    exact hfirst.seq hrest

/-- An array: its length is read and stored, and then its items. -/
theorem ReadsInto.array {elem : ℕ → ReadM Bool} (hp : Q p) {name : List UInt8}
    (hk : Q (p ++ [.str name])) (h0 : ¬Q (p ++ [.str name] ++ [.int 0])) {cnt : ℤ} {d : Double}
    (hd : h (φ (p ++ [.str name])) (.int 0) = .number d)
    (hcnt : 0 ≤ d.castShort ∧ d.castShort ≤ cnt)
    (hm : ReadsInto h φ Q τ (p ++ [.str name]) (readElems elem d.castShort.toNat 0) e L) :
    ReadsInto h φ Q τ p (readArray name cnt elem) (beInt 2 d.castShort ++ e)
      (⟨p ++ [.str name], .int 0, .short⟩ :: L) where
  apart := List.forall_mem_cons.mpr ⟨⟨hk, h0⟩, hm.apart⟩
  run s st rest htables hst hs := by
    rw [List.append_assoc] at hs
    obtain ⟨d₁, hshort, hd₁⟩ := run_readShort_beInt d.castShort_range hs
    -- The length is what is stored for the leaf under the key 0.
    have hstore : ProtoType.short.reread (h (φ (p ++ [.str name])) (.int 0)) =
        .number (.ofInt d.castShort) := by rw [hd]; rfl
    let t : LuaState Reading :=
      { s with data := { d₁ with log := d₁.log ++ [.count d.castShort cnt] } }
    have hnote : (note (.count d.castShort cnt)).run { s with data := d₁ } = .ok () t := run_note _
    have hget := run_field (s := t) htables hp hk hst
    have hset : (rawseti 0 : ReadM Unit).run
        { t with stack := .number (.ofInt d.castShort) :: .table (τ (p ++ [.str name])) ::
          s.stack } =
        .ok () { t with
          heap := s.heap.set (τ (p ++ [.str name])) (.int 0) (.number (.ofInt d.castShort))
          stack := .table (τ (p ++ [.str name])) :: s.stack } := run_rawseti rfl 0
    -- The items are read into the table of the array, which has its length already.
    obtain ⟨d₂, hd₂, hrun⟩ := hm.run
      { t with
        heap := s.heap.set (τ (p ++ [.str name])) (.int 0) (.number (.ofInt d.castShort))
        stack := .table (τ (p ++ [.str name])) :: s.stack } s.stack rest
      (htables.set hk h0 _) rfl hd₁
    refine ⟨d₂, hd₂, ?_⟩
    unfold readArray
    rw [run_bind hshort, run_bind hnote, if_neg (not_not.mpr hcnt), run_bind hget,
      run_bind (run_istable_table rfl), if_pos rfl, run_bind (run_push _), run_bind hset,
      run_bind hrun, if_pos rfl, run_bind (run_pop rfl), List.map_cons, LuaHeap.setAll_cons]
    unfold Leaf.store
    rw [hstore]
    rfl

/-- A number is read and stored. -/
theorem readsInto_number {α : Type} {k : ℕ} {f : MsgRecv → α × MsgRecv} {z : α}
    {val : List UInt8 → α} {g : α → LuaVal} {ty : ProtoType}
    (hf : ∀ m, f m = ((m.readBytes k).1.elim z val, (m.readBytes k).2)) {store : ReadM Unit}
    {key : LuaKey} (hstore : Stores store key) (hp : Q p) (hkey : ¬Q (p ++ [key]))
    {a : List UInt8} (ha : a.length = k) (hval : g (val a) = ty.reread (h (φ p) key)) :
    ReadsInto h φ Q τ p ((ProtoParser.read k f >>= fun n => push (g n) >>= fun _ => pure true) >>=
      fun b => if b then store >>= fun _ => pure true else pure false) a [⟨p, key, ty⟩] where
  apart := List.forall_mem_singleton.mpr ⟨hp, hkey⟩
  run s st rest _ hst hs := by
    obtain ⟨d, hrun, hd⟩ := run_read hf ha hs
    have hset := hstore { s with data := d, stack := g (val a) :: s.stack } (g (val a)) (τ p) st
      (by rw [hst])
    refine ⟨d, hd, ?_⟩
    simp only [bind_assoc, pure_bind, if_true]
    rw [run_bind hrun, run_bind (run_push _), run_bind hset, hst, hval]
    rfl

section Value

variable (junk : ℕ → ℕ → UInt8) {store : ReadM Unit} {key : LuaKey}

/-- A string is read and stored. Its length is that of the bytes behind it, since all of them are in
the packet. -/
theorem readsInto_string (hstore : Stores store key) (hp : Q p) (hkey : ¬Q (p ++ [key]))
    {str : LuaString} (hval : h (φ p) key = .string str) :
    ReadsInto h φ Q τ p (readLstring junk >>= fun b =>
      if b then store >>= fun _ => pure true else pure false)
      (beInt 2 (toShort str.bytes.length) ++ str.bytes) [⟨p, key, .string⟩] where
  apart := List.forall_mem_singleton.mpr ⟨hp, hkey⟩
  run s st rest _ hst hs := by
    -- A packet is shorter than `2^15` bytes, and so is the string in it.
    have hlt : str.bytes.length < 2^15 := by
      have hback := hs.back_eq
      have hmax := hs.back_lt
      have hfront := hs.front_nonneg
      rw [List.length_append, List.length_append] at hback
      omega
    have hlen : toShort str.bytes.length = str.bytes.length := toShort_of_range (by omega)
    rw [hlen, List.append_assoc] at hs
    obtain ⟨d, hrun, hd⟩ := run_readShort_beInt (by omega) hs
    -- The length is recorded before the characters are read.
    let t : LuaState Reading :=
      { s with data := { d with log := d.log ++ [.strLen str.bytes.length] } }
    have hnote : (note (.strLen str.bytes.length)).run { s with data := d } = .ok () t := run_note _
    have ht : t.data.msg.Carries (str.bytes ++ rest) := hd
    obtain ⟨d', hrun', hd'⟩ := run_readString junk rfl ht
    have hpush : (pushlstring str.bytes : ReadM Unit).run { t with data := d' } =
        .ok () { t with data := d', stack := .string str :: s.stack } := by
      unfold pushlstring
      rw [dif_pos str.length_lt]
      rfl
    have hset := hstore { t with data := d', stack := .string str :: s.stack }
      (.string str) (τ p) st (by rw [hst])
    have hreread : ProtoType.string.reread (h (φ p) key) = .string str := by
      rw [hval]
      rfl
    refine ⟨d', hd', ?_⟩
    unfold readLstring
    simp only [bind_assoc]
    rw [run_bind hrun, run_bind hnote, readChars_eq junk hlt]
    simp only [bind_assoc, pure_bind, if_true]
    rw [run_bind hrun', run_bind hpush, run_bind hset, hst, List.map_singleton]
    unfold Leaf.store
    rw [hreread]
    rfl

/-- A scalar, or an element of an array of scalars, is read and stored. -/
theorem readsInto_store {ty : ProtoType} (hstore : Stores store key) (hp : Q p)
    (hkey : ¬Q (p ++ [key])) (he : ty.encode (h (φ p) key) = some e) :
    ReadsInto h φ Q τ p (readScalarValue junk ty >>= fun b =>
      if b then store >>= fun _ => pure true else pure false) e [⟨p, key, ty⟩] := by
  generalize hv : h (φ p) key = v at he
  cases v with
  | number d =>
    cases ty with
    | byte =>
      cases he
      apply readsInto_number (fun _ => rfl) hstore hp hkey (length_beInt 1 _)
      rw [hv, toChar_ofBE_beInt, toChar_of_range d.castChar_range]
      rfl
    | short =>
      cases he
      apply readsInto_number (fun _ => rfl) hstore hp hkey (length_beInt 2 _)
      rw [hv, toShort_ofBE_beInt, toShort_of_range d.castShort_range]
      rfl
    | int =>
      cases he
      apply readsInto_number (fun _ => rfl) hstore hp hkey (length_beInt 4 _)
      rw [hv, toInt32_ofBE_beInt]
      rfl
    | uint =>
      -- The bytes are those of an unsigned integer, and they are read as a signed one.
      cases he
      apply readsInto_number (fun _ => rfl) hstore hp hkey (length_beInt 4 _)
      rw [hv, toInt32_ofBE_beInt]
      rfl
    | double =>
      cases he
      apply readsInto_number (fun _ => rfl) hstore hp hkey (length_beBytes 8 _)
      -- A double keeps its pattern.
      have hpattern : BitVec.ofNat 64 (ofBE (beBytes 8 d.toNat)) = d := by
        rw [ofBE_beBytes, Nat.mod_eq_of_lt d.isLt, BitVec.ofNat_toNat, BitVec.setWidth_eq]
      rw [hv, hpattern]
      rfl
    | string => cases he
  | string str =>
    cases ty with
    | string =>
      cases he
      exact readsInto_string junk hstore hp hkey hv
    | _ => cases he
  | _ => cases ty <;> cases he

theorem readsInto_scalar (name : List UInt8) {ty : ProtoType} (hp : Q p)
    (hkey : ¬Q (p ++ [.str name])) (he : ty.encode (h (φ p) (.str name)) = some e) :
    ReadsInto h φ Q τ p (readScalar junk name ty) e [⟨p, .str name, ty⟩] :=
  readsInto_store junk (stores_setfield name) hp hkey he

theorem readsInto_elem {ty : ProtoType} {j : ℕ} (hp : Q p) (hkey : ¬Q (p ++ [.int (j + 1)]))
    (he : ty.encode (h (φ p) (.int (j + 1))) = some e) :
    ReadsInto h φ Q τ p (readElem junk ty j) e [⟨p, .int (j + 1), ty⟩] := by
  unfold readElem
  rw [readElemValue_eq]
  exact readsInto_store junk (stores_rawseti _) hp hkey he

end Value

/-- An array with an encoding, given that its elements are read. -/
theorem readsInto_array (hu : InUse h φ P Q) (hp : Q p) {name : List UInt8}
    (hk : P (p ++ [.str name])) {cnt : ℤ} {elem : ℕ → ReadM Bool}
    {item : LuaVal → Option (List UInt8)} {ok : LuaVal → Prop} {leaves : ℕ → List Leaf}
    (hcounts : ArrayCounts h cnt ok (h (φ p) (.str name)))
    (he : encodeArray h item (h (φ p) (.str name)) = some e)
    (hm : Q (p ++ [.str name]) → ∀ (j : ℕ) e, j < cnt →
      ok (h (φ (p ++ [.str name])) (.int (j + 1))) →
      item (h (φ (p ++ [.str name])) (.int (j + 1))) = some e →
      ReadsInto h φ Q τ (p ++ [.str name]) (elem j) e (leaves j)) :
    ReadsInto h φ Q τ p (readArray name cnt elem) e
    (arrayLeaves h φ (p ++ [.str name]) leaves) := by
  obtain ⟨r, d, e', hr, hd, he', rfl⟩ := encodeArray_inv he
  obtain ⟨hq, htable⟩ := hu.table hp hk hr
  obtain rfl := hu.source p _ r hr
  rw [htable] at hcounts
  unfold ArrayCounts at hcounts
  dsimp only at hcounts
  rw [hd] at hcounts
  obtain ⟨hcnt, hok⟩ := hcounts
  -- The length is a number, so it has no table in its place.
  have h0 : ¬Q (p ++ [.str name] ++ [.int 0]) := hu.value hq (by rw [hd]; rfl)
  have helems : ReadsInto h φ Q τ (p ++ [.str name]) (readElems elem d.castShort.toNat 0) e'
      ((List.range' 0 d.castShort.toNat).flatMap leaves) :=
    readsInto_elems (fun i e _ hi => hm hq i e (by omega) (hok i (by omega))) he'
  have hleaves : arrayLeaves h φ (p ++ [.str name]) leaves =
      ⟨p ++ [.str name], .int 0, .short⟩ ::
        (List.range' 0 d.castShort.toNat).flatMap leaves := by
    unfold arrayLeaves
    rw [hd, ← List.range_eq_range']
  rw [hleaves]
  exact ReadsInto.array hp hq h0 hd hcnt helems

/-- For a table with an encoding and allowed counts: the reader reads its leaves, in the order of
the template. -/
theorem Template.readsInto (junk : ℕ → ℕ → UInt8) {T : Template} (hu : InUse h φ P Q) (hp : Q p)
    (hplaces : ∀ q, T.HasTable q → P (p ++ q)) (hcounts : T.CountsIn h (φ p))
    (he : T.encode h (φ p) = some e) :
    ReadsInto h φ Q τ p (T.read junk) e (T.leaves h φ p) := by
  induction T generalizing p e with
  | done =>
    cases he
    exact readsInto_return
  | leaf name cnt ty rest ih =>
    obtain ⟨a, b, ha, hb, rfl⟩ := joinBytes_eq_some.mp he
    obtain ⟨hfield, hrest⟩ := hcounts
    -- The field, and then the others.
    have hfirst : ReadsInto h φ Q τ p
        (if cnt < 2 then readScalar junk name ty else readArray name cnt (readElem junk ty)) a
        (if cnt < 2 then [⟨p, .str name, ty⟩]
          else arrayLeaves h φ (p ++ [.str name]) fun j =>
            [⟨p ++ [.str name], .int (j + 1), ty⟩]) := by
      by_cases hcnt : cnt < 2
      · simp only [if_pos hcnt] at ha ⊢
        exact readsInto_scalar junk name hp (hu.value hp (ProtoType.isTable_of_encode ha)) ha
      · simp only [if_neg hcnt] at ha hfield ⊢
        apply readsInto_array hu hp (hplaces _ (.array hcnt)) hfield ha
        intro hq j e _ _ hitem
        exact readsInto_elem junk hq (hu.value hq (ProtoType.isTable_of_encode hitem)) hitem
    exact hfirst.seq (ih hp (fun q hq => hplaces q (.leafRest hq)) hrest hb)
  | node name cnt sub rest ihsub ih =>
    obtain ⟨a, b, ha, hb, rfl⟩ := joinBytes_eq_some.mp he
    obtain ⟨hfield, hrest⟩ := hcounts
    have hfirst : ReadsInto h φ Q τ p
        (if cnt < 2 then readStruct name (readBody (sub.read junk))
          else readArray name cnt (readStructElem name (readBody (sub.read junk)))) a
        (if cnt < 2 then sub.leaves h φ (p ++ [.str name])
          else arrayLeaves h φ (p ++ [.str name]) fun j =>
            sub.leaves h φ (p ++ [.str name] ++ [.int (j + 1)])) := by
      by_cases hcnt : cnt < 2
      · simp only [if_pos hcnt] at ha hfield ⊢
        -- The table of the struct is one of the source, so its place is in use.
        obtain ⟨r, hr, hsub⟩ := encodeStruct_inv ha
        obtain ⟨hk, htable⟩ := hu.table hp (hplaces _ (.struct hcnt .root)) hr
        rw [htable] at hfield
        rw [← hu.source p _ r hr] at hsub
        have hfields := ihsub hk
          (fun q hq => by simpa using hplaces _ (.struct hcnt hq)) hfield hsub
        exact hfields.body.struct hp hk
      · simp only [if_neg hcnt] at ha hfield ⊢
        apply readsInto_array hu hp (hplaces _ (.structs hcnt)) hfield ha
        intro hq j e hj hitems hitem
        obtain ⟨r, hr, hsub⟩ := encodeStruct_inv hitem
        have hplace : P (p ++ [.str name] ++ [.int (j + 1)]) := by
          simpa using hplaces _ (.elem hcnt hj .root)
        obtain ⟨hk, htable⟩ := hu.table hq hplace hr
        rw [htable] at hitems
        rw [← hu.source _ _ r hr] at hsub
        have hfields := ihsub hk
          (fun q hq => by simpa using hplaces _ (.elem hcnt hj hq)) hitems hsub
        exact hfields.body.structElem hq hk
    exact hfirst.seq (ih hp (fun q hq => hplaces q (.nodeRest hq)) hrest hb)

end ReadsInto

/-- From a message with the encoding of the table `r`, whose counts are allowed, `read_msg_dfs`
reads its leaves into any skeleton of tables, returns true and has read all. -/
theorem readMsgDfs_encode (junk : ℕ → ℕ → UInt8) {adj : ℕ → List ProtoAttr} {proto_id fuel : ℕ}
    {T : Template} (hT : Unfolds adj (adj proto_id) T) (hfuel : T.depth < fuel) {h : LuaHeap}
    {r : ℕ} {e : List UInt8} (he : T.encode h r = some e) (hcounts : T.CountsIn h r)
    {s : LuaState Reading} {τ : List LuaKey → ℕ} {st : List LuaVal}
    (htables : Tables T.HasTable τ s.heap) (hst : s.stack = .table (τ []) :: st)
    (hs : s.data.msg.Carries e) :
    ∃ s', (readMsgDfs junk adj fuel proto_id).run s = .ok true s' ∧
      s'.data.msg.hasReadAll = true ∧
      s'.heap = s.heap.setAll ((T.leaves h (placeRef h r) []).map
        (Leaf.store h (placeRef h r) τ)) ∧
      Tables (UsedPlace h r T) τ s'.heap ∧
      ∀ x ∈ T.leaves h (placeRef h r) [], UsedPlace h r T x.place := by
  have hreads : ReadsInto h (placeRef h r) (UsedPlace h r T) τ [] (T.read junk) e
      (T.leaves h (placeRef h r) []) :=
    T.readsInto junk (inUse_usedPlace h r T) (usedPlace_root h r T) (fun q hq => hq) hcounts he
  have hused : Tables (UsedPlace h r T) τ s.heap := htables.mono fun p hp => hp.1
  rw [← List.append_nil e] at hs
  obtain ⟨d, hd, hrun⟩ := hreads.body.run s st [] hused hst hs
  refine ⟨_, (Template.readMsgDfs_eq junk hT hfuel ▸ hrun), ?_, rfl, hused.setAll hreads.apart,
    fun x hx => (hreads.apart x hx).1⟩
  -- Nothing is left to read.
  have hend : d.msg.back = d.msg.front := by
    have hback := hd.back_eq
    rw [List.length_nil] at hback
    omega
  exact beq_iff_eq.mpr hend

/-- The table 0 of `h` on the stack, and an empty message. -/
def messageOf (h : LuaHeap) : LuaState Writing where
  heap := h
  stack := [.table 0]
  strIndex _ := .nil
  data := ⟨⟨List.replicate MsgSend.bufSize 0, 0, 0, [], 0⟩, []⟩

theorem messageOf_empty (h : LuaHeap) : (messageOf h).data.msg.Wrote [] :=
  MsgSend.wrote_nil rfl (List.length_replicate ..)

/-- What is written for it is its encoding. -/
theorem writeMsgDfs_messageOf {adj : ℕ → List ProtoAttr} {proto_id fuel : ℕ} {T : Template}
    (hT : Unfolds adj (adj proto_id) T) (hfuel : T.depth < fuel) {h : LuaHeap} {e : List UInt8}
    (he : T.encode h 0 = some e) (hlen : e.length ≤ MsgSend.bufSize) :
    ∃ s', (writeMsgDfs adj fuel proto_id).run (messageOf h) = .ok 0 s' ∧
      s'.data.msg.Wrote e := by
  obtain ⟨ret, s', w, hrun, -, hwrote, hres⟩ :=
    writeMsgDfs_outcome hT hfuel (s := messageOf h) rfl (messageOf_empty h)
  have henc : T.encode (messageOf h).heap 0 = some e := he
  rw [henc] at hres
  obtain ⟨rfl, -, hfits⟩ := hres
  have hw : w = e := hfits (by rw [List.length_nil, zero_add]; exact hlen)
  exact ⟨s', hrun, hw ▸ hwrote⟩

/-- A packet of the bytes, with the tables of the template. -/
def packetOf (T : Template) (bs : List UInt8) : LuaState Reading where
  heap := T.skeleton
  stack := [.table (T.placeIdx [])]
  strIndex _ := .nil
  data := ⟨⟨bs, bs.length, 0, 0, 0, 0⟩, []⟩

end Catse
