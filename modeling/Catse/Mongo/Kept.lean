import Catse.Mongo.Appends

/-!
# Which tables are written in full

A name that is no UTF-8 is refused, and the flag that says so is looked at by `bson_finish` only. It
does not always get there. A string under such a name puts it back, and a table under such a name
closes a subdocument that it has not opened: at the latest, the end of the outermost table around it
finds none that is open, and this error replaces the flag.

So a document with nothing missing comes from a table all of whose names are UTF-8, and an error
from one that has a refused boolean or number in an entry from which on no refused table follows
(`kept_iff`).
-/

namespace Catse.LuaMongo

/-! ## All entries of a table -/

mutual

/-- Has the table, or one inside of it, an entry with a property? -/
def anyEntry (p : LuaTreeKey × LuaTree → Bool) : LuaEntries → Bool
  | [] => false
  | (k, v) :: t => (p (k, v) || anyInside p v) || anyEntry p t

/-- Has a table inside of the value an entry with a property? -/
def anyInside (p : LuaTreeKey × LuaTree → Bool) : LuaTree → Bool
  | .table t => anyEntry p t
  | _ => false

end

theorem anyInside_leaf {v : LuaTree} (h : v.isTable = false) (p : LuaTreeKey × LuaTree → Bool) :
    anyInside p v = false := by
  cases v with
  | table t => cases h
  | boolean x => rfl
  | number d => rfl
  | string s => rfl
  | other type => rfl

/-- Is the name no UTF-8? -/
def badName (x : LuaTreeKey × LuaTree) : Bool := !x.1.valid

/-- Is it a boolean or a number under a name that is no UTF-8? -/
def badScalar (x : LuaTreeKey × LuaTree) : Bool := !x.1.valid && x.2.isScalar

/-- Is it a table under a name that is no UTF-8? -/
def badTable (x : LuaTreeKey × LuaTree) : Bool := !x.1.valid && x.2.isTable

/-- Has an entry a refused boolean or number, but neither it nor one behind it a refused table? -/
def refused : LuaEntries → Bool
  | [] => false
  | x :: t => refused t || (anyEntry badScalar [x] && !anyEntry badTable (x :: t))

/-! ## What is kept -/

mutual

/-- The element has the value, and an element for each entry of a table. -/
inductive Kept : List UInt8 → LuaTree → BsonValue → Prop where
  | element {key : List UInt8} {v : LuaTree} {x : BsonValue} (h : Element key v x) : Kept key v x
  | array {key : List UInt8} {t : LuaEntries} {doc : BsonDoc} (harr : isArray 0 t = true)
    (h : KeptAll true t doc) : Kept key (.table t) (.array doc)
  | object {key : List UInt8} {t : LuaEntries} {doc : BsonDoc} (harr : isArray 0 t = false)
    (h : KeptAll false t doc) : Kept key (.table t) (.object doc)

/-- The document has an element for each entry of the table, and no others. -/
inductive KeptAll : Bool → LuaEntries → BsonDoc → Prop where
  | nil {arrayFlag : Bool} : KeptAll arrayFlag [] []
  | cons {arrayFlag : Bool} {k : LuaTreeKey} {v : LuaTree} {t : LuaEntries} {key : List UInt8}
    {x : BsonValue} {doc : BsonDoc} (hkey : elementKey arrayFlag k = .ok key) (hv : Kept key v x)
    (ht : KeptAll arrayFlag t doc) : KeptAll arrayFlag ((k, v) :: t) ((key, x) :: doc)

end

theorem Kept.subdoc {t : LuaEntries} {doc : BsonDoc} (h : KeptAll (isArray 0 t) t doc)
    (key : List UInt8) : Kept key (.table t) (subdoc (isArray 0 t) doc) := by
  cases harr : isArray 0 t with
  | true => exact .array harr (harr ▸ h)
  | false => exact .object harr (harr ▸ h)

/-- A table is kept in a subdocument of its entries. -/
theorem Kept.table_inversion {key : List UInt8} {t : LuaEntries} {y : BsonValue}
    (h : Kept key (.table t) y) :
    ∃ doc, y = LuaMongo.subdoc (isArray 0 t) doc ∧ KeptAll (isArray 0 t) t doc := by
  cases h with
  | element h => cases h
  | @array _ _ doc harr h => exact ⟨doc, by rw [harr]; rfl, harr ▸ h⟩
  | @object _ _ doc harr h => exact ⟨doc, by rw [harr]; rfl, harr ▸ h⟩

/-- Where all names are UTF-8, the entries are kept if those of the tables inside are. -/
theorem keptAll_of_entries {t : LuaEntries}
    (ih : ∀ x ∈ t, ∀ b key b', Appends b key x.2 b' → bsonCheckString key = true →
      anyInside badName x.2 = false → ∃ y, b' = extend b [(key, y)] ∧ Kept key x.2 y)
    {b b' : Bson} {arrayFlag : Bool} (h : table2bson b arrayFlag t = .ok b')
    (hvalid : anyEntry badName t = false) : ∃ doc, b' = extend b doc ∧ KeptAll arrayFlag t doc := by
  induction t generalizing b with
  | nil =>
    refine ⟨[], ?_, .nil⟩
    rw [extend_nil, table2bson_nil_ok h]
  | cons x t iht =>
    obtain ⟨key, b₁, hkey, hentry, hrest⟩ := table2bson_cons_ok h
    simp only [anyEntry, Bool.or_eq_false_iff, badName, Bool.not_eq_false'] at hvalid
    obtain ⟨⟨hk, hinside⟩, ht⟩ := hvalid
    have hcheck : bsonCheckString key = true := (elementKey_ok hkey).2.trans hk
    obtain ⟨y, rfl, hy⟩ := ih x List.mem_cons_self b key b₁ hentry hcheck hinside
    obtain ⟨doc, rfl, hdoc⟩ := iht (fun z hz => ih z (List.mem_cons_of_mem _ hz)) hrest ht
    refine ⟨(key, y) :: doc, ?_, .cons hkey hy hdoc⟩
    rw [extend_extend]
    rfl

theorem kept_of_appends (v : LuaTree) : ∀ b key b', Appends b key v b' →
    bsonCheckString key = true → anyInside badName v = false →
    ∃ y, b' = extend b [(key, y)] ∧ Kept key v y := by
  induction v using LuaTree.induct with
  | table t ih =>
    intro b key b' h hkey hinside
    obtain ⟨b₁, rfl, ⟨_, _, hrun⟩ | ⟨hkey', _⟩⟩ := h.table_inversion
    · obtain ⟨doc, rfl, hdoc⟩ := keptAll_of_entries ih hrun hinside
      rw [appendFinish_openFrame]
      exact ⟨_, rfl, .subdoc hdoc key⟩
    · exact absurd (hkey.symm.trans hkey') Bool.noConfusion
  | leaf v hv =>
    intro b key b' h hkey _
    obtain ⟨_, x, hx, rfl⟩ | ⟨hkey', _⟩ := h.leaf_inversion hv
    · exact ⟨x, rfl, .element hx⟩
    · exact absurd (hkey.symm.trans hkey') Bool.noConfusion

/-- A table all of whose names are UTF-8 is kept. -/
theorem keptAll_of_valid {b b' : Bson} {arrayFlag : Bool} {t : LuaEntries}
    (h : table2bson b arrayFlag t = .ok b') (hvalid : anyEntry badName t = false) :
    ∃ doc, b' = extend b doc ∧ KeptAll arrayFlag t doc :=
  keptAll_of_entries (fun x _ => kept_of_appends x.2) h hvalid

/-- What is kept has only names that are UTF-8, as far as its elements have. -/
theorem valid_of_entries {t : LuaEntries}
    (ih : ∀ x ∈ t, ∀ key y, Kept key x.2 y → Written (key, y) → anyInside badName x.2 = false)
    {arrayFlag : Bool} {doc : BsonDoc} (h : KeptAll arrayFlag t doc)
    (hdoc : ∀ y ∈ doc, Written y) : anyEntry badName t = false := by
  induction t generalizing doc with
  | nil => rfl
  | cons x t iht =>
    cases h with
    | @cons _ k v _ key y doc hkey hv ht =>
    have hwritten : Written (key, y) := hdoc _ List.mem_cons_self
    have hk : k.valid = true := (elementKey_ok hkey).2.symm.trans hwritten.check
    have hinside := ih (k, v) List.mem_cons_self key y hv hwritten
    have hrest := iht (fun z hz => ih z (List.mem_cons_of_mem _ hz)) ht
      fun z hz => hdoc z (List.mem_cons_of_mem _ hz)
    rw [anyEntry, badName, hk, hinside, hrest]
    rfl

theorem valid_of_kept (v : LuaTree) :
    ∀ key y, Kept key v y → Written (key, y) → anyInside badName v = false := by
  induction v using LuaTree.induct with
  | table t ih =>
    intro key y h hy
    obtain ⟨doc, rfl, hdoc⟩ := h.table_inversion
    exact valid_of_entries ih hdoc hy.subdoc_inversion
  | leaf v hv => exact fun _ _ _ _ => anyInside_leaf hv badName

/-! ## What becomes of the flag -/

/-- Without refused tables, all that are opened are closed, and a refused boolean or number sets the
flag for good. -/
theorem balanced_of_entries {t : LuaEntries}
    (ih : ∀ x ∈ t, ∀ b key b', Appends b key x.2 b' →
      (!bsonCheckString key && x.2.isTable) = false → anyInside badTable x.2 = false →
      b'.frames = b.frames ∧ b'.notUtf8 = (b.notUtf8 || ((!bsonCheckString key && x.2.isScalar) ||
        anyInside badScalar x.2)))
    {b b' : Bson} {arrayFlag : Bool} (h : table2bson b arrayFlag t = .ok b')
    (ht : anyEntry badTable t = false) :
    b'.frames = b.frames ∧ b'.notUtf8 = (b.notUtf8 || anyEntry badScalar t) := by
  induction t generalizing b with
  | nil =>
    rw [table2bson_nil_ok h, anyEntry, Bool.or_false]
    exact ⟨rfl, rfl⟩
  | cons x t iht =>
    obtain ⟨key, b₁, hkey, hentry, hrest⟩ := table2bson_cons_ok h
    have hvalid := (elementKey_ok hkey).2
    simp only [anyEntry, Bool.or_eq_false_iff, badTable] at ht
    obtain ⟨⟨hself, hinside⟩, ht⟩ := ht
    obtain ⟨hframes, hflag⟩ := ih x List.mem_cons_self b key b₁ hentry (hvalid ▸ hself) hinside
    obtain ⟨hframes', hflag'⟩ := iht (fun y hy => ih y (List.mem_cons_of_mem _ hy)) hrest ht
    rw [hframes', hflag', hframes, hflag, hvalid, Bool.or_assoc]
    exact ⟨rfl, rfl⟩

theorem balanced_of_appends (v : LuaTree) : ∀ b key b', Appends b key v b' →
    (!bsonCheckString key && v.isTable) = false → anyInside badTable v = false →
    b'.frames = b.frames ∧ b'.notUtf8 = (b.notUtf8 || ((!bsonCheckString key && v.isScalar) ||
      anyInside badScalar v)) := by
  induction v using LuaTree.induct with
  | table t ih =>
    intro b key b' h hself hinside
    obtain ⟨b₁, rfl, ⟨hkey, _, hrun⟩ | ⟨hkey, _⟩⟩ := h.table_inversion
    · obtain ⟨hframes, hflag⟩ := balanced_of_entries ih hrun hinside
      obtain ⟨frames, doc, notUtf8⟩ := b₁
      dsimp only at hframes hflag
      subst hframes hflag
      rw [hkey]
      exact ⟨rfl, rfl⟩
    · rw [hkey] at hself
      cases hself
  | leaf v hv =>
    intro b key b' h _ _
    rw [anyInside_leaf hv, Bool.or_false]
    obtain ⟨hkey, x, _, rfl⟩ | ⟨hkey, ⟨hscalar, rfl⟩ | ⟨⟨s, rfl⟩, rfl⟩⟩ := h.leaf_inversion hv
    · rw [hkey]
      exact ⟨rfl, (Bool.or_false _).symm⟩
    · rw [hkey, hscalar]
      exact ⟨rfl, (Bool.or_true _).symm⟩
    · rw [hkey]
      exact ⟨rfl, (Bool.or_false _).symm⟩

/-- No more tables are open behind a table than before it, and one less with a refused table in it,
as far as there are any. -/
theorem depth_of_entries {t : LuaEntries}
    (ih : ∀ x ∈ t, ∀ b key b', Appends b key x.2 b' → b'.frames.length ≤ b.frames.length ∧
      (((!bsonCheckString key && x.2.isTable) || anyInside badTable x.2) = true →
        b'.frames.length ≤ b.frames.length - 1))
    {b b' : Bson} {arrayFlag : Bool} (h : table2bson b arrayFlag t = .ok b') :
    b'.frames.length ≤ b.frames.length ∧
      (anyEntry badTable t = true → b'.frames.length ≤ b.frames.length - 1) := by
  induction t generalizing b with
  | nil =>
    rw [table2bson_nil_ok h]
    exact ⟨le_rfl, fun hany => by cases hany⟩
  | cons x t iht =>
    obtain ⟨key, b₁, hkey, hentry, hrest⟩ := table2bson_cons_ok h
    have hvalid := (elementKey_ok hkey).2
    obtain ⟨hle, hless⟩ := ih x List.mem_cons_self b key b₁ hentry
    obtain ⟨hle', hless'⟩ := iht (fun y hy => ih y (List.mem_cons_of_mem _ hy)) hrest
    refine ⟨hle'.trans hle, fun hany => ?_⟩
    rw [anyEntry, Bool.or_eq_true] at hany
    rcases hany with hany | hany
    · rw [hvalid] at hless
      exact hle'.trans (hless hany)
    · exact (hless' hany).trans (Nat.sub_le_sub_right hle 1)

theorem depth_of_appends (v : LuaTree) : ∀ b key b', Appends b key v b' →
    b'.frames.length ≤ b.frames.length ∧
      (((!bsonCheckString key && v.isTable) || anyInside badTable v) = true →
        b'.frames.length ≤ b.frames.length - 1) := by
  induction v using LuaTree.induct with
  | table t ih =>
    intro b key b' h
    obtain ⟨b₁, rfl, ⟨hkey, _, hrun⟩ | ⟨_, hrun⟩⟩ := h.table_inversion
    · obtain ⟨hle, hless⟩ := depth_of_entries ih hrun
      have hopen : (b.openFrame key (isArray 0 t)).frames.length = b.frames.length + 1 := rfl
      rw [hopen] at hle hless
      rw [length_appendFinish, hkey]
      refine ⟨by omega, fun hany => ?_⟩
      have := hless hany
      omega
    · have hle := (depth_of_entries ih hrun).1
      change _ ≤ b.frames.length at hle
      rw [length_appendFinish]
      exact ⟨by omega, fun _ => by omega⟩
  | leaf v hv =>
    intro b key b' h
    rw [anyInside_leaf hv, hv, Bool.and_false]
    refine ⟨le_of_eq ?_, fun hany => by cases hany⟩
    obtain ⟨_, x, _, rfl⟩ | ⟨_, ⟨_, rfl⟩ | ⟨_, rfl⟩⟩ := h.leaf_inversion hv <;> rfl

/-- An entry of the outermost table leaves none open. With a refused table in it, its end takes the
flag away. -/
theorem flag_of_appends {b b' : Bson} {key : List UInt8} {v : LuaTree} (h : Appends b key v b')
    (hb : b.frames = []) :
    b'.frames = [] ∧ b'.notUtf8 = (!((!bsonCheckString key && v.isTable) || anyInside badTable v) &&
      (b.notUtf8 || ((!bsonCheckString key && v.isScalar) || anyInside badScalar v))) := by
  have hframes : b'.frames = [] := by
    have hle := (depth_of_appends v b key b' h).1
    rw [hb] at hle
    exact List.eq_nil_of_length_eq_zero (Nat.le_zero.mp hle)
  refine ⟨hframes, ?_⟩
  cases hbad : (!bsonCheckString key && v.isTable) || anyInside badTable v with
  | false =>
    obtain ⟨hself, hinside⟩ := Bool.or_eq_false_iff.mp hbad
    exact (balanced_of_appends v b key b' h hself hinside).2
  | true =>
    -- The last table that is closed is not open any more.
    have hclosed : ∀ b₁ : Bson, b₁.frames.length ≤ 0 → b₁.appendFinish.notUtf8 = false := by
      intro b₁ hle
      rw [Bson.appendFinish, List.eq_nil_of_length_eq_zero (Nat.le_zero.mp hle)]
    obtain ⟨t, rfl⟩ : ∃ t, v = .table t := by
      apply LuaTree.eq_table
      intro hv
      rw [hv, anyInside_leaf hv, Bool.and_false] at hbad
      cases hbad
    obtain ⟨b₁, rfl, ⟨hkey, _, hrun⟩ | ⟨_, hrun⟩⟩ := h.table_inversion
    · rw [hkey] at hbad
      have hless := (depth_of_entries (fun x _ => depth_of_appends x.2) hrun).2 hbad
      apply hclosed
      rwa [Bson.openFrame, hb] at hless
    · have hle := (depth_of_entries (fun x _ => depth_of_appends x.2) hrun).1
      apply hclosed
      rwa [hb] at hle

/-- What becomes of the flag over a table. -/
theorem flag_of_table2bson {b b' : Bson} {arrayFlag : Bool} {t : LuaEntries}
    (h : table2bson b arrayFlag t = .ok b') (hb : b.frames = []) :
    b'.frames = [] ∧ b'.notUtf8 = ((b.notUtf8 && !anyEntry badTable t) || refused t) := by
  induction t generalizing b with
  | nil =>
    rw [table2bson_nil_ok h, anyEntry, refused, Bool.or_false, Bool.not_false, Bool.and_true]
    exact ⟨hb, rfl⟩
  | cons x t ih =>
    obtain ⟨key, b₁, hkey, hentry, hrest⟩ := table2bson_cons_ok h
    obtain ⟨hframes, hflag⟩ := flag_of_appends hentry hb
    obtain ⟨hframes', hflag'⟩ := ih hrest hframes
    refine ⟨hframes', ?_⟩
    have hvalid := (elementKey_ok hkey).2
    rw [hflag', hflag, hvalid]
    simp only [refused, anyEntry, badTable, badScalar]
    -- The flag is kept by an entry and by those behind it.
    grind

/-- Nothing that a table has is missing from its document exactly where all names in the table are
UTF-8, or `bson_finish` reports an error. -/
theorem kept_iff {t : LuaEntries} {b : Bson} (h : table2bson Bson.init false t = .ok b) :
    (∀ doc, b.finish = some doc → KeptAll false t doc) ↔
      anyEntry badName t = false ∨ refused t = true := by
  obtain ⟨hframes, hflag⟩ := flag_of_table2bson h rfl
  have hflag' : b.notUtf8 = refused t := hflag
  constructor
  · intro hkept
    rw [or_iff_not_imp_right, Bool.not_eq_true]
    intro hrefused
    have hfinish : b.finish = some b.doc := by
      rw [Bson.finish, hflag', hrefused, hframes]
      rfl
    exact valid_of_entries (fun x _ => valid_of_kept x.2) (hkept b.doc hfinish)
      (table2bson_sound h sound_init).doc
  · rintro (hvalid | hrefused)
    · obtain ⟨doc, rfl, hdoc⟩ := keptAll_of_valid h hvalid
      intro doc' hdoc'
      rwa [← Option.some.inj hdoc']
    · intro doc hdoc
      rw [Bson.finish, hflag', hrefused] at hdoc
      cases hdoc

theorem bsonCheckString_FF : bsonCheckString [0xFF] = false := by decide +kernel

theorem elementKey_FF : elementKey false (.string [0xFF]) = .ok [0xFF] := rfl

/-- A boolean under a name that is no UTF-8. -/
theorem kept_iff_boolean :
    table2bson Bson.init false [(.string [0xFF], .boolean true)] = .ok ⟨[], [], true⟩ ∧
      ((∀ doc, Bson.finish ⟨[], [], true⟩ = some doc →
          KeptAll false [(.string [0xFF], .boolean true)] doc) ↔
        anyEntry badName [(.string [0xFF], .boolean true)] = false ∨
          refused [(.string [0xFF], .boolean true)] = true) := by
  have hrun : table2bson Bson.init false [(.string [0xFF], .boolean true)] =
      .ok ⟨[], [], true⟩ := by
    have happend := append_of_refused rfl bsonCheckString_FF Bson.init (.bool true)
    rw [table2bson_cons elementKey_FF (by rw [if_neg (by decide), appendValue, happend])]
    rw [table2bson]
    rfl
  exact ⟨hrun, kept_iff hrun⟩

/-- A string under a name that is no UTF-8 is left out, and `bson_finish` succeeds. -/
theorem kept_string_lost :
    ∃ b doc, table2bson Bson.init false [(.string [0xFF], .string [120])] = .ok b ∧
      b.finish = some doc ∧ ¬KeptAll false [(.string [0xFF], .string [120])] doc := by
  refine ⟨Bson.init, [], ?_, rfl, fun h => by cases h⟩
  have happend := appendString_of_refused rfl bsonCheckString_FF Bson.init [120]
  rw [table2bson_cons elementKey_FF (by rw [if_neg (by decide), appendValue, happend])]
  rw [table2bson]

end Catse.LuaMongo
