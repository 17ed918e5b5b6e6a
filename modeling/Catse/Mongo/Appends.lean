import Catse.Mongo.RoundTrip

/-!
# What `table2bson` does to the builder

`Appends` lists what an entry of a table can come to: an element more, a flag that is set, nothing
at all, or a table inside of the table, whose subdocument is opened before it and closed behind it.
A name that is no UTF-8 opens no subdocument, but one is closed all the same. All that is said of
runs of `table2bson` follows from these cases, by induction on the value (`LuaTree.induct`).

`Written` says what elements come from such a run: their names are UTF-8, `bson2table` can read
their values, and what is named `_id` is an object identifier.
-/

namespace Catse

/-- Is it a table? -/
def LuaTree.isTable : LuaTree → Bool
  | .table _ => true
  | _ => false

/-- Induction on a value and on those inside of it. -/
theorem LuaTree.induct {P : LuaTree → Prop} (leaf : ∀ v, v.isTable = false → P v)
    (table : ∀ t : LuaEntries, (∀ x ∈ t, P x.2) → P (.table t)) : ∀ v, P v
  | .boolean b => leaf (.boolean b) rfl
  | .number d => leaf (.number d) rfl
  | .string s => leaf (.string s) rfl
  | .table t => table t fun x _hx => LuaTree.induct leaf table x.2
  | .other type => leaf (.other type) rfl
decreasing_by
  have hmem := List.sizeOf_lt_of_mem _hx
  obtain ⟨k, v⟩ := x
  rw [Prod.mk.sizeOf_spec] at hmem
  simp only [LuaTree.table.sizeOf_spec]
  omega

/-- Is it a boolean or a number? -/
def LuaTree.isScalar : LuaTree → Bool
  | .boolean _ => true
  | .number _ => true
  | _ => false

theorem LuaTree.eq_table {v : LuaTree} (h : v.isTable ≠ false) : ∃ t, v = .table t := by
  cases v with
  | table t => exact ⟨t, rfl⟩
  | boolean b => exact absurd rfl h
  | number d => exact absurd rfl h
  | string s => exact absurd rfl h
  | other type => exact absurd rfl h

/-- Is the name that is written for the key UTF-8? -/
def LuaTreeKey.valid : LuaTreeKey → Bool
  | .string s => bsonCheckString (Bson.cname s)
  | _ => true

namespace LuaMongo

/-! ## Names -/

theorem cname_cname (s : List UInt8) : Bson.cname (Bson.cname s) = Bson.cname s := by
  apply cname_eq
  intro h0
  have hne := List.mem_takeWhile_imp (p := fun c => decide (c ≠ 0)) h0
  exact absurd hne (by decide)

theorem isDigit_or_minus_of_mem_int2string {n : ℤ} :
    ∀ c ∈ int2string n, isDigit c = true ∨ c = 45 := by
  intro c hc
  rw [int2string] at hc
  split_ifs at hc with hneg
  · rcases List.mem_cons.mp hc with rfl | hc
    · exact .inr rfl
    · exact .inl (isDigit_of_mem_decimal c hc)
  · exact .inl (isDigit_of_mem_decimal c hc)

/-- A number is written as a name. -/
theorem name_int2string (n : ℤ) : Name (int2string n) := by
  constructor
  · apply cname_eq
    intro h0
    rcases isDigit_or_minus_of_mem_int2string 0 h0 with h | h
    · exact absurd h (by decide)
    · exact absurd h (by decide)
  · apply bsonCheckString_ascii
    intro c hc
    rcases isDigit_or_minus_of_mem_int2string c hc with h | rfl
    · exact UInt8.lt_of_le_of_lt (isDigit_iff.mp h).2 (by decide)
    · decide

/-- The name for a key is a C string, and what is checked of it depends on the key only. -/
theorem elementKey_ok {arrayFlag : Bool} {k : LuaTreeKey} {key : List UInt8}
    (h : elementKey arrayFlag k = .ok key) :
    Bson.cname key = key ∧ bsonCheckString key = k.valid := by
  cases k with
  | number n =>
    obtain rfl := Except.ok.inj h
    exact ⟨(name_int2string _).cname, (name_int2string _).check⟩
  | fraction x =>
    obtain rfl := Except.ok.inj h
    exact ⟨(name_int2string _).cname, (name_int2string _).check⟩
  | string s =>
    obtain rfl := Except.ok.inj h
    exact ⟨cname_cname s, rfl⟩
  | other type => cases h

/-! ## One entry -/

/-- The object identifier that a string is stored as. -/
def storedId (s : List UInt8) : List UInt8 :=
  if s.length = 24 then bigToLittle s else List.replicate 12 0

/-- The elements for a value that is no table. -/
inductive Element (key : List UInt8) : LuaTree → BsonValue → Prop where
  | boolean (hne : key ≠ idName) (x : Bool) : Element key (.boolean x) (.bool x)
  | number (hne : key ≠ idName) (d : Double) : Element key (.number d) (.double d)
  | string (hne : key ≠ idName) (s : List UInt8) : Element key (.string s) (.string s)
  | bindata (hne : key ≠ idName) (s : List UInt8) : Element key (.string s) (.bindata 0 s)
  | oid (hid : key = idName) (s : List UInt8) : Element key (.string s) (.oid (storedId s))

/-- What an entry comes to. -/
inductive Appends (b : Bson) (key : List UInt8) : LuaTree → Bson → Prop where
  | element {v : LuaTree} {x : BsonValue} (hkey : bsonCheckString key = true)
    (h : Element key v x) : Appends b key v (extend b [(key, x)])
  | refused {v : LuaTree} (hkey : bsonCheckString key = false) (hv : v.isScalar = true) :
    Appends b key v { b with notUtf8 := true }
  | dropped (hkey : bsonCheckString key = false) (s : List UInt8) : Appends b key (.string s) b
  | opened {t : LuaEntries} {b' : Bson} (hkey : bsonCheckString key = true) (hne : key ≠ idName)
    (h : table2bson (b.openFrame key (isArray 0 t)) (isArray 0 t) t = .ok b') :
    Appends b key (.table t) b'.appendFinish
  | unopened {t : LuaEntries} {b' : Bson} (hkey : bsonCheckString key = false)
    (h : table2bson { b with notUtf8 := true } (isArray 0 t) t = .ok b') :
    Appends b key (.table t) b'.appendFinish

/-- A table goes into a subdocument of its own, or into the one around it. A subdocument is closed
behind it in any case. -/
theorem Appends.table_inversion {b b' : Bson} {key : List UInt8} {t : LuaEntries}
    (h : Appends b key (.table t) b') : ∃ b₁, b' = b₁.appendFinish ∧
      ((bsonCheckString key = true ∧ key ≠ idName ∧
          table2bson (b.openFrame key (isArray 0 t)) (isArray 0 t) t = .ok b₁) ∨
        (bsonCheckString key = false ∧
          table2bson { b with notUtf8 := true } (isArray 0 t) t = .ok b₁)) := by
  cases h with
  | element _ h => cases h
  | refused _ hv => cases hv
  | opened hkey hne h => exact ⟨_, rfl, .inl ⟨hkey, hne, h⟩⟩
  | unopened hkey h => exact ⟨_, rfl, .inr ⟨hkey, h⟩⟩

/-- Another value is an element more, or nothing but the flag comes from it. -/
theorem Appends.leaf_inversion {b b' : Bson} {key : List UInt8} {v : LuaTree}
    (h : Appends b key v b') (hv : v.isTable = false) :
    (bsonCheckString key = true ∧ ∃ x, Element key v x ∧ b' = extend b [(key, x)]) ∨
      (bsonCheckString key = false ∧
        ((v.isScalar = true ∧ b' = { b with notUtf8 := true }) ∨
          ((∃ s, v = .string s) ∧ b' = b))) := by
  cases h with
  | element hkey h => exact .inl ⟨hkey, _, h, rfl⟩
  | refused hkey hscalar => exact .inr ⟨hkey, .inl ⟨hscalar, rfl⟩⟩
  | dropped hkey s => exact .inr ⟨hkey, .inr ⟨⟨s, rfl⟩, rfl⟩⟩
  | opened _ _ _ => cases hv
  | unopened _ _ => cases hv

section Append

variable {key : List UInt8} (hname : Bson.cname key = key)
include hname

theorem append_of_check (hkey : bsonCheckString key = true) (b : Bson) (x : BsonValue) :
    b.append key x = (true, extend b [(key, x)]) :=
  append_name b ⟨hname, hkey⟩ x

theorem append_of_refused (hkey : bsonCheckString key = false) (b : Bson) (x : BsonValue) :
    b.append key x = (false, { b with notUtf8 := true }) := by
  rw [Bson.append, hname, hkey, if_neg Bool.false_ne_true]

/-- Nothing remains of a string whose name is refused, not even the flag. -/
theorem appendString_of_refused (hkey : bsonCheckString key = false) (b : Bson) (s : List UInt8) :
    appendString b key s = b := by
  have hrefused : ∃ e, b.appendStringN key s = (false, { b with notUtf8 := e }) := by
    rw [Bson.appendStringN]
    split_ifs
    · exact ⟨false, rfl⟩
    · exact ⟨true, append_of_refused hname hkey b _⟩
    · exact ⟨true, rfl⟩
  obtain ⟨e, he⟩ := hrefused
  rw [appendString, he, append_of_refused hname hkey]
  rfl

/-- A string becomes an element of one of two kinds. -/
theorem appendString_of_check (hkey : bsonCheckString key = true) (b : Bson) (s : List UInt8) :
    appendString b key s = extend b [(key, .string s)] ∨
      appendString b key s = extend b [(key, .bindata 0 s)] := by
  by_cases hs : ¬2^31 - 1 < s.length + 1 ∧ bsonCheckString s = true
  · rw [appendString, Bson.appendStringN, if_neg hs.1, if_pos hs.2,
      append_of_check hname hkey b, if_pos rfl]
    exact .inl rfl
  · obtain ⟨e, he⟩ := appendStringN_refused b hs key
    rw [appendString, he, append_of_check hname hkey]
    exact .inr rfl

theorem appends_of_appendId {b b' : Bson} {v : LuaTree} (hid : key = idName)
    (h : appendId b v = .ok b') : Appends b key v b' := by
  have hkey : bsonCheckString key = true := by
    rw [hid]
    decide +kernel
  cases v with
  | string s =>
    obtain rfl := Except.ok.inj h
    rw [← hid, append_of_check hname hkey]
    exact .element hkey (.oid hid s)
  | boolean x => cases h
  | number d => cases h
  | table t => cases h
  | other type => cases h

theorem appends_of_appendValue {b b' : Bson} {v : LuaTree} (hne : key ≠ idName)
    (h : appendValue b key v = .ok b') : Appends b key v b' := by
  cases v with
  | boolean x =>
    rw [appendValue] at h
    obtain rfl := Except.ok.inj h
    -- A refused key leaves nothing behind but the flag of the document.
    cases hkey : bsonCheckString key with
    | true =>
      rw [append_of_check hname hkey]
      exact .element hkey (.boolean hne x)
    | false =>
      rw [append_of_refused hname hkey]
      exact .refused hkey rfl
  | number d =>
    rw [appendValue] at h
    obtain rfl := Except.ok.inj h
    cases hkey : bsonCheckString key with
    | true =>
      rw [append_of_check hname hkey]
      exact .element hkey (.number hne d)
    | false =>
      rw [append_of_refused hname hkey]
      exact .refused hkey rfl
  | string s =>
    rw [appendValue] at h
    obtain rfl := Except.ok.inj h
    cases hkey : bsonCheckString key with
    | true =>
      -- A string that is no UTF-8 goes as binary data.
      rcases appendString_of_check hname hkey b s with heq | heq
      · rw [heq]
        exact .element hkey (.string hne s)
      · rw [heq]
        exact .element hkey (.bindata hne s)
    | false =>
      rw [appendString_of_refused hname hkey]
      exact .dropped hkey s
  | table t =>
    rw [appendValue] at h
    cases hrun : table2bson (b.appendStart key (isArray 0 t)) (isArray 0 t) t with
    | error e =>
      rw [hrun] at h
      cases h
    | ok b₁ =>
      rw [hrun] at h
      obtain rfl := Except.ok.inj h
      -- Under a refused key the elements of the inner table go into the outer one.
      rw [Bson.appendStart, hname] at hrun
      cases hkey : bsonCheckString key with
      | true =>
        rw [if_pos hkey] at hrun
        exact .opened hkey hne hrun
      | false =>
        rw [if_neg (Bool.eq_false_iff.mp hkey)] at hrun
        exact .unopened hkey hrun
  | other type => cases h

end Append

/-- An accepted table has an entry that comes to something, and accepted entries behind it. -/
theorem table2bson_cons_ok {b b' : Bson} {arrayFlag : Bool} {k : LuaTreeKey} {v : LuaTree}
    {t : LuaEntries} (h : table2bson b arrayFlag ((k, v) :: t) = .ok b') :
    ∃ key b₁, elementKey arrayFlag k = .ok key ∧ Appends b key v b₁ ∧
      table2bson b₁ arrayFlag t = .ok b' := by
  rw [table2bson] at h
  cases hkey : elementKey arrayFlag k with
  | error e =>
    rw [hkey] at h
    cases h
  | ok key =>
  rw [hkey] at h
  change ((if key = idName then appendId b v else appendValue b key v) >>= fun b₁ =>
    table2bson b₁ arrayFlag t) = _ at h
  have hname := (elementKey_ok hkey).1
  cases hentry : if key = idName then appendId b v else appendValue b key v with
  | error e =>
    rw [hentry] at h
    cases h
  | ok b₁ =>
  rw [hentry] at h
  refine ⟨key, b₁, rfl, ?_, h⟩
  split_ifs at hentry with hid
  · exact appends_of_appendId hname hid hentry
  · exact appends_of_appendValue hname hid hentry

theorem table2bson_nil_ok {b b' : Bson} {arrayFlag : Bool}
    (h : table2bson b arrayFlag [] = .ok b') : b' = b := by
  rw [table2bson] at h
  exact (Except.ok.inj h).symm

theorem length_appendFinish (b : Bson) :
    b.appendFinish.frames.length = b.frames.length - 1 := by
  obtain ⟨frames, doc, notUtf8⟩ := b
  cases frames with
  | nil => rfl
  | cons f frames => rfl

/-! ## Runs -/

variable {P : Bson → Prop}

/-- What each entry keeps, the entries of a table keep. -/
theorem invariant_of_entries {t : LuaEntries}
    (ih : ∀ x ∈ t, ∀ b key b', Appends b key x.2 b' → P b → P b') {b b' : Bson} {arrayFlag : Bool}
    (h : table2bson b arrayFlag t = .ok b') (hb : P b) : P b' := by
  induction t generalizing b with
  | nil => exact table2bson_nil_ok h ▸ hb
  | cons x t iht =>
    obtain ⟨key, b₁, -, hentry, hrest⟩ := table2bson_cons_ok h
    exact iht (fun y hy => ih y (List.mem_cons_of_mem _ hy)) hrest
      (ih x List.mem_cons_self b key b₁ hentry hb)

section Invariant

variable
  (element : ∀ b key v x, bsonCheckString key = true → Element key v x → P b →
    P (extend b [(key, x)]))
  (refused : ∀ b : Bson, P b → P { b with notUtf8 := true })
  (openFrame : ∀ b key isArray, bsonCheckString key = true → key ≠ idName → P b →
    P (b.openFrame key isArray))
  (finish : ∀ b : Bson, P b → P b.appendFinish)
include element refused openFrame finish

theorem invariant_of_appends (v : LuaTree) :
    ∀ b key b', Appends b key v b' → P b → P b' := by
  induction v using LuaTree.induct with
  | table t ih =>
    intro b key b' h hb
    obtain ⟨b₁, rfl, ⟨hkey, hne, hrun⟩ | ⟨_, hrun⟩⟩ := h.table_inversion
    · exact finish b₁ (invariant_of_entries ih hrun (openFrame b key _ hkey hne hb))
    · exact finish b₁ (invariant_of_entries ih hrun (refused b hb))
  | leaf v hv =>
    intro b key b' h hb
    obtain ⟨hkey, x, hx, rfl⟩ | ⟨_, ⟨_, rfl⟩ | ⟨_, rfl⟩⟩ := h.leaf_inversion hv
    · exact element b key v x hkey hx hb
    · exact refused b hb
    · exact hb

/-- What all kinds of steps keep, `table2bson` keeps. -/
theorem table2bson_invariant {b b' : Bson} {arrayFlag : Bool} {t : LuaEntries}
    (h : table2bson b arrayFlag t = .ok b') (hb : P b) : P b' :=
  invariant_of_entries (fun x _ => invariant_of_appends element refused openFrame finish x.2) h hb

end Invariant

/-! ## What is written -/

/-- An element, with its name, as `table2bson` writes it. -/
inductive Written : List UInt8 × BsonValue → Prop where
  | element {key : List UInt8} {v : LuaTree} {x : BsonValue} (hkey : bsonCheckString key = true)
    (h : Element key v x) : Written (key, x)
  | object {key : List UInt8} {doc : BsonDoc} (hkey : bsonCheckString key = true)
    (hne : key ≠ idName) (h : ∀ y ∈ doc, Written y) : Written (key, .object doc)
  | array {key : List UInt8} {doc : BsonDoc} (hkey : bsonCheckString key = true)
    (hne : key ≠ idName) (h : ∀ y ∈ doc, Written y) : Written (key, .array doc)

theorem Written.subdoc {key : List UInt8} {doc : BsonDoc} (hkey : bsonCheckString key = true)
    (hne : key ≠ idName) (h : ∀ y ∈ doc, Written y) (isArray : Bool) :
    Written (key, subdoc isArray doc) := by
  cases isArray with
  | true => exact .array hkey hne h
  | false => exact .object hkey hne h

theorem Written.subdoc_inversion {key : List UInt8} {isArray : Bool} {doc : BsonDoc}
    (h : Written (key, LuaMongo.subdoc isArray doc)) : ∀ y ∈ doc, Written y := by
  cases isArray with
  | true =>
    cases h with
    | element _ hx => cases hx
    | array _ _ hdoc => exact hdoc
  | false =>
    cases h with
    | element _ hx => cases hx
    | object _ _ hdoc => exact hdoc

theorem Written.check {y : List UInt8 × BsonValue} (h : Written y) :
    bsonCheckString y.1 = true := by
  cases h with
  | element hkey _ => exact hkey
  | object hkey _ _ => exact hkey
  | array hkey _ _ => exact hkey

/-- All that is in the builder has been written. -/
structure Sound (b : Bson) : Prop where
  doc : ∀ y ∈ b.doc, Written y
  frames : ∀ f ∈ b.frames, (∀ y ∈ f.before, Written y) ∧ bsonCheckString f.name = true ∧
    f.name ≠ idName

theorem sound_init : Sound Bson.init := by
  constructor
  · intro y hy
    cases hy
  · intro f hf
    cases hf

theorem Sound.appendFinish {b : Bson} (h : Sound b) : Sound b.appendFinish := by
  obtain ⟨frames, doc, notUtf8⟩ := b
  cases frames with
  | nil => exact ⟨h.doc, h.frames⟩
  | cons f frames =>
    obtain ⟨hbefore, hname, hne⟩ := h.frames f List.mem_cons_self
    refine ⟨?_, fun g hg => h.frames g (List.mem_cons_of_mem _ hg)⟩
    intro y hy
    rcases List.mem_append.mp hy with hy | hy
    · exact hbefore y hy
    · rw [List.mem_singleton.mp hy]
      exact .subdoc hname hne h.doc f.isArray

theorem table2bson_sound {b b' : Bson} {arrayFlag : Bool} {t : LuaEntries}
    (h : table2bson b arrayFlag t = .ok b') (hb : Sound b) : Sound b' := by
  apply table2bson_invariant _ _ _ _ h hb
  · intro b key v x hkey hx hb
    refine ⟨?_, hb.frames⟩
    intro y hy
    rcases List.mem_append.mp hy with hy | hy
    · exact hb.doc y hy
    · rw [List.mem_singleton.mp hy]
      exact .element hkey hx
  · exact fun b hb => ⟨hb.doc, hb.frames⟩
  · intro b key isArray hkey hne hb
    refine ⟨fun y hy => absurd hy List.not_mem_nil, ?_⟩
    intro f hf
    rcases List.mem_cons.mp hf with rfl | hf
    · exact ⟨hb.doc, hkey, hne⟩
    · exact hb.frames f hf
  · exact fun b hb => hb.appendFinish

/-- The document of a builder without an error. -/
theorem finish_eq_some {b : Bson} {doc : BsonDoc} (h : b.finish = some doc) :
    b.frames = [] ∧ b.doc = doc := by
  obtain ⟨frames, doc', notUtf8⟩ := b
  rw [Bson.finish] at h
  split_ifs at h with hflag
  cases frames with
  | nil => exact ⟨rfl, Option.some.inj h⟩
  | cons f frames => cases h

theorem written_of_finish {t : LuaEntries} {b : Bson} {doc : BsonDoc}
    (h : table2bson Bson.init false t = .ok b) (hdoc : b.finish = some doc) :
    ∀ y ∈ doc, Written y :=
  (finish_eq_some hdoc).2 ▸ (table2bson_sound h sound_init).doc

/-! ## Reading it back -/

/-- The first element is read, and then the others. -/
theorem bson2table_cons {arrayFlag : Bool} {key : List UInt8} {x : BsonValue} {v : LuaTree}
    {t : LuaEntries} (h : elementValue (rawget t (tableKey arrayFlag key)) x = .ok v)
    (doc : BsonDoc) : bson2table arrayFlag ((key, x) :: doc) t =
      bson2table arrayFlag doc (rawset t (tableKey arrayFlag key) v) := by
  rw [bson2table, h]
  rfl

theorem bson2table_cons_ok {arrayFlag : Bool} {key : List UInt8} {x : BsonValue} {doc : BsonDoc}
    {t t' : LuaEntries} (h : bson2table arrayFlag ((key, x) :: doc) t = .ok t') :
    ∃ v, elementValue (rawget t (tableKey arrayFlag key)) x = .ok v ∧
      bson2table arrayFlag doc (rawset t (tableKey arrayFlag key) v) = .ok t' := by
  cases hv : elementValue (rawget t (tableKey arrayFlag key)) x with
  | error e =>
    rw [bson2table, hv] at h
    cases h
  | ok v =>
    rw [bson2table_cons hv] at h
    exact ⟨v, rfl, h⟩

theorem bson2table_nil_ok {arrayFlag : Bool} {t t' : LuaEntries}
    (h : bson2table arrayFlag [] t = .ok t') : t' = t := by
  rw [bson2table] at h
  exact (Except.ok.inj h).symm

/-- A document can be read if its elements can. -/
theorem readable_of_elements {doc : BsonDoc}
    (h : ∀ y ∈ doc, ∀ old, ∃ v, elementValue old y.2 = .ok v) (arrayFlag : Bool) (t : LuaEntries) :
    ∃ t', bson2table arrayFlag doc t = .ok t' := by
  induction doc generalizing t with
  | nil => exact ⟨t, by rw [bson2table]⟩
  | cons y doc ih =>
    obtain ⟨v, hv⟩ := h y List.mem_cons_self (rawget t (tableKey arrayFlag y.1))
    rw [bson2table_cons hv]
    exact ih (fun z hz => h z (List.mem_cons_of_mem _ hz)) _

theorem readable_subdoc {doc : BsonDoc} (h : ∀ y ∈ doc, ∀ old, ∃ v, elementValue old y.2 = .ok v)
    (isArray : Bool) (old : Option LuaTree) :
    ∃ v, elementValue old (subdoc isArray doc) = .ok v := by
  obtain ⟨t, ht⟩ := readable_of_elements h isArray (subtable old)
  exact ⟨.table t, by rw [elementValue_subdoc, ht]; rfl⟩

theorem Element.readable {key : List UInt8} {v : LuaTree} {x : BsonValue} (h : Element key v x)
    (old : Option LuaTree) : ∃ v', elementValue old x = .ok v' := by
  cases h with
  | boolean _ x => exact ⟨.boolean x, by rw [elementValue]⟩
  | number _ d => exact ⟨.number d, by rw [elementValue]⟩
  | string _ s => exact ⟨.string s, by rw [elementValue]⟩
  | bindata _ s => exact ⟨.string s, by rw [elementValue]⟩
  | oid _ s => exact ⟨.string (littleToBig (storedId s)), by rw [elementValue]⟩

/-- What is written can be read. -/
theorem Written.readable {y : List UInt8 × BsonValue} (h : Written y) :
    ∀ old, ∃ v, elementValue old y.2 = .ok v := by
  induction h with
  | element _ hx => exact hx.readable
  | object _ _ _ ih => exact readable_subdoc ih false
  | array _ _ _ ih => exact readable_subdoc ih true

end LuaMongo

end Catse
