import Catse.Mongo.Appends

/-!
# The object identifiers of documents

A string under `_id` is stored as an object identifier of 12 bytes: those that its 24 digits stand
for, or zeros where there is no such text, and zero for any two digits that are not lower-case
hexadecimal ones. It comes back as the text of these bytes. `storedId_text_iff` says which strings
are texts of this kind.

A document can have more than one `_id`: under a key that is cut short by a NUL, or from a table
under a name that is no UTF-8, whose entries go to the table around it. `idsWritten` finds those
that go to the outermost document, and the last of them is what comes back (`id_comes_back_iff`).
-/

namespace Catse

/-- Is it written under the name `_id`? -/
def LuaTreeKey.isId : LuaTreeKey → Bool
  | .string s => decide (Bson.cname s = LuaMongo.idName)
  | _ => false

namespace LuaMongo

/-! ## Texts and their bytes -/

theorem hexDigit_mem : ∀ n < 16, hashLittleToBig.hexDigit (UInt8.ofNat n) ∈ hexDigits := by
  decide +kernel

theorem hexDigit_injective : ∀ m < 16, ∀ n < 16,
    hashLittleToBig.hexDigit (UInt8.ofNat m) = hashLittleToBig.hexDigit (UInt8.ofNat n) →
      m = n := by
  decide +kernel

/-- A byte is its high half and its low half. -/
theorem exists_halves (c : UInt8) : ∃ m < 16, ∃ n < 16, c.toNat = 16 * m + n ∧
    hashLittleToBig c =
      [hashLittleToBig.hexDigit (UInt8.ofNat m), hashLittleToBig.hexDigit (UInt8.ofNat n)] := by
  have hlt := c.toNat_lt
  have h16 : (16 : UInt8).toNat = 16 := rfl
  refine ⟨c.toNat / 16, by omega, c.toNat % 16, by omega, by omega, ?_⟩
  have hdiv : c / 16 = UInt8.ofNat (c.toNat / 16) := by
    apply UInt8.toNat.inj
    rw [UInt8.toNat_div, UInt8.toNat_ofNat', h16]
    omega
  have hmod : c % 16 = UInt8.ofNat (c.toNat % 16) := by
    apply UInt8.toNat.inj
    rw [UInt8.toNat_mod, UInt8.toNat_ofNat', h16]
    omega
  rw [hashLittleToBig, hdiv, hmod]

theorem mem_hashLittleToBig {c a : UInt8} (h : a ∈ hashLittleToBig c) : a ∈ hexDigits := by
  obtain ⟨m, hm, n, hn, -, htext⟩ := exists_halves c
  rw [htext, List.mem_cons, List.mem_singleton] at h
  rcases h with rfl | rfl
  · exact hexDigit_mem m hm
  · exact hexDigit_mem n hn

theorem hashLittleToBig_injective {c d : UInt8} (h : hashLittleToBig c = hashLittleToBig d) :
    c = d := by
  obtain ⟨m, hm, n, hn, hc, htext⟩ := exists_halves c
  obtain ⟨m', hm', n', hn', hd, htext'⟩ := exists_halves d
  rw [htext, htext', List.cons.injEq, List.cons.injEq] at h
  have hmm := hexDigit_injective m hm m' hm' h.1
  have hnn := hexDigit_injective n hn n' hn' h.2.1
  apply UInt8.toNat.inj
  rw [hc, hd, hmm, hnn]

theorem length_littleToBig (p : List UInt8) : (littleToBig p).length = 2 * p.length := by
  induction p with
  | nil => rfl
  | cons c p ih =>
    rw [littleToBig] at ih ⊢
    rw [List.flatMap_cons, List.length_append, ih, List.length_cons]
    show 2 + _ = _
    omega

/-- Different bytes have different texts. -/
theorem littleToBig_injective {p q : List UInt8} (h : littleToBig p = littleToBig q) : p = q := by
  induction p generalizing q with
  | nil =>
    have hlen := congrArg List.length h
    rw [length_littleToBig, length_littleToBig, List.length_nil] at hlen
    exact (List.eq_nil_of_length_eq_zero (by omega)).symm
  | cons c p ih =>
    cases q with
    | nil =>
      have hlen := congrArg List.length h
      rw [length_littleToBig, length_littleToBig, List.length_cons, List.length_nil] at hlen
      omega
    | cons d q =>
      rw [littleToBig, littleToBig, List.flatMap_cons, List.flatMap_cons] at h
      obtain ⟨hhead, htail⟩ := List.append_inj h rfl
      rw [hashLittleToBig_injective hhead, ih htail]

/-- The text of an object identifier: 24 lower-case hexadecimal digits. -/
def IsIdText (s : List UInt8) : Prop := s.length = 24 ∧ ∀ c ∈ s, c ∈ hexDigits

theorem length_bigToLittle (n : ℕ) {s : List UInt8} (h : s.length = 2 * n) :
    (bigToLittle s).length = n := by
  induction n generalizing s with
  | zero =>
    rw [List.eq_nil_of_length_eq_zero h]
    rfl
  | succ n ih =>
    match s, h with
    | a :: b :: s, h =>
      rw [bigToLittle, List.length_cons, ih (by simp only [List.length_cons] at h; omega)]

theorem length_storedId (s : List UInt8) : (storedId s).length = 12 := by
  rw [storedId]
  split_ifs with hlen
  · exact length_bigToLittle 12 hlen
  · rfl

theorem isIdText_littleToBig {p : List UInt8} (h : p.length = 12) : IsIdText (littleToBig p) := by
  refine ⟨by rw [length_littleToBig, h], fun c hc => ?_⟩
  obtain ⟨d, -, hc⟩ := List.mem_flatMap.mp hc
  exact mem_hashLittleToBig hc

/-- What is stored comes back as the string exactly where it is such a text. -/
theorem storedId_text_iff (s : List UInt8) : littleToBig (storedId s) = s ↔ IsIdText s := by
  constructor
  · intro h
    rw [← h]
    exact isIdText_littleToBig (length_storedId s)
  · rintro ⟨hlen, hhex⟩
    rw [storedId, if_pos hlen, littleToBig_bigToLittle 12 hlen hhex]

/-- A string under `_id` is an element more. -/
theorem appendId_string (b : Bson) (s : List UInt8) :
    appendId b (.string s) = .ok (extend b [(idName, .oid (storedId s))]) := by
  rw [appendId, append_name b name_idName, storedId]

/-! ## What is written -/

mutual

/-- The strings under `_id` that go to the outermost document while a table is written, from a
number of open tables on, and the number of open tables behind it. -/
def idsWritten (depth : ℕ) : LuaEntries → ℕ × List (List UInt8)
  | [] => (depth, [])
  | (k, v) :: t =>
    let r := idsInside depth k v
    let r' := idsWritten r.1 t
    (r'.1, r.2 ++ r'.2)

/-- The same of one entry. -/
def idsInside (depth : ℕ) (k : LuaTreeKey) : LuaTree → ℕ × List (List UInt8)
  | .string s => (depth, if depth = 0 && k.isId then [s] else [])
  | .table t =>
    let r := idsWritten (if k.valid then depth + 1 else depth) t
    (r.1 - 1, r.2)
  | _ => (depth, [])

end

/-- The object identifier of an element under `_id`. -/
def elementId : List UInt8 × BsonValue → Option (List UInt8)
  | (key, .oid bytes) => if key = idName then some bytes else none
  | _ => none

/-- The object identifiers under `_id` in a document. -/
def docIds (doc : BsonDoc) : List (List UInt8) := doc.filterMap elementId

/-- The elements that are in the outermost document so far. -/
def outer (b : Bson) : BsonDoc := (b.frames.getLast?.map BsonFrame.before).getD b.doc

theorem outer_openFrame (b : Bson) (key : List UInt8) (isArray : Bool) :
    outer (b.openFrame key isArray) = outer b := by
  obtain ⟨frames, doc, notUtf8⟩ := b
  rw [outer, outer, Bson.openFrame, List.getLast?_cons]
  cases frames.getLast? with
  | none => rfl
  | some f => rfl

theorem elementId_subdoc (key : List UInt8) (isArray : Bool) (doc : BsonDoc) :
    elementId (key, subdoc isArray doc) = none := by
  cases isArray with
  | true => rfl
  | false => rfl

/-- The end of a table adds no identifier. -/
theorem docIds_appendFinish (b : Bson) : docIds (outer b.appendFinish) = docIds (outer b) := by
  obtain ⟨frames, doc, notUtf8⟩ := b
  cases frames with
  | nil => rfl
  | cons f frames =>
  cases frames with
  | nil =>
    show docIds (f.before ++ [(f.name, subdoc f.isArray doc)]) = docIds f.before
    rw [docIds, docIds, List.filterMap_append,
      List.filterMap_cons_none (elementId_subdoc f.name f.isArray doc), List.filterMap_nil,
      List.append_nil]
  | cons g frames =>
    rw [outer, outer, Bson.appendFinish]
    dsimp only
    rw [List.getLast?_cons_cons, List.getLast?_cons]
    rfl

/-- An element is in the outermost document where no table is open. -/
theorem docIds_extend (b : Bson) (y : List UInt8 × BsonValue) : docIds (outer (extend b [y])) =
    docIds (outer b) ++ if b.frames.length = 0 then (elementId y).toList else [] := by
  obtain ⟨frames, doc, notUtf8⟩ := b
  cases frames with
  | nil =>
    show docIds (doc ++ [y]) = docIds doc ++ (elementId y).toList
    rw [docIds, docIds, List.filterMap_append, List.filterMap_cons]
    cases elementId y with
    | none => rfl
    | some bytes => rfl
  | cons f frames =>
    rw [List.length_cons, if_neg (Nat.succ_ne_zero _), List.append_nil, outer, outer, extend]
    dsimp only
    rw [List.getLast?_cons]
    rfl

theorem isId_iff {arrayFlag : Bool} {k : LuaTreeKey} {key : List UInt8}
    (h : elementKey arrayFlag k = .ok key) : key = idName ↔ k.isId = true := by
  have hnumber : ∀ n, int2string n ≠ idName := by
    intro n hn
    rcases isDigit_or_minus_of_mem_int2string (n := n) 95 (by rw [hn]; decide) with h | h
    · exact absurd h (by decide)
    · exact absurd h (by decide)
  cases k with
  | number n =>
    obtain rfl := Except.ok.inj h
    exact ⟨fun hid => absurd hid (hnumber _), fun hid => by cases hid⟩
  | fraction x =>
    obtain rfl := Except.ok.inj h
    exact ⟨fun hid => absurd hid (hnumber _), fun hid => by cases hid⟩
  | string s =>
    obtain rfl := Except.ok.inj h
    exact decide_eq_true_iff.symm
  | other type => cases h

theorem idsInside_scalar {v : LuaTree} (h : v.isScalar = true) (depth : ℕ) (k : LuaTreeKey) :
    idsInside depth k v = (depth, []) := by
  cases v with
  | boolean b => rfl
  | number d => rfl
  | string s => cases h
  | table t => cases h
  | other type => cases h

theorem idsInside_of_ne {arrayFlag : Bool} {k : LuaTreeKey} {key : List UInt8}
    (hkey : elementKey arrayFlag k = .ok key) (hne : key ≠ idName) (depth : ℕ) (s : List UInt8) :
    idsInside depth k (.string s) = (depth, []) := by
  rw [idsInside, Bool.eq_false_iff.mpr (mt (isId_iff hkey).mpr hne), Bool.and_false]
  rfl

/-- The identifier of an element for a value that is no table. -/
theorem elementId_element {arrayFlag : Bool} {k : LuaTreeKey} {key : List UInt8} {v : LuaTree}
    {x : BsonValue} (hkey : elementKey arrayFlag k = .ok key) (h : Element key v x) (depth : ℕ) :
    (idsInside depth k v).1 = depth ∧
      (if depth = 0 then (elementId (key, x)).toList else []) =
        (idsInside depth k v).2.map storedId := by
  cases h with
  | boolean hne y => exact ⟨rfl, ite_self _⟩
  | number hne d => exact ⟨rfl, ite_self _⟩
  | string hne s =>
    rw [idsInside_of_ne hkey hne]
    exact ⟨rfl, ite_self _⟩
  | bindata hne s =>
    rw [idsInside_of_ne hkey hne]
    exact ⟨rfl, ite_self _⟩
  | oid heq s =>
    rw [idsInside, elementId, if_pos heq, (isId_iff hkey).mp heq, Bool.and_true]
    refine ⟨rfl, ?_⟩
    by_cases hdepth : depth = 0
    · rw [if_pos hdepth, decide_eq_true hdepth]
      rfl
    · rw [if_neg hdepth, decide_eq_false hdepth]
      rfl

/-- The identifiers that entries add. -/
theorem ids_of_entries {t : LuaEntries}
    (ih : ∀ x ∈ t, ∀ arrayFlag key b b', elementKey arrayFlag x.1 = .ok key →
      Appends b key x.2 b' → b'.frames.length = (idsInside b.frames.length x.1 x.2).1 ∧
        docIds (outer b') =
          docIds (outer b) ++ (idsInside b.frames.length x.1 x.2).2.map storedId)
    {b b' : Bson} {arrayFlag : Bool} (h : table2bson b arrayFlag t = .ok b') :
    b'.frames.length = (idsWritten b.frames.length t).1 ∧
      docIds (outer b') = docIds (outer b) ++ (idsWritten b.frames.length t).2.map storedId := by
  induction t generalizing b with
  | nil =>
    rw [table2bson_nil_ok h, idsWritten, List.map_nil, List.append_nil]
    exact ⟨rfl, rfl⟩
  | cons x t iht =>
    obtain ⟨key, b₁, hkey, hentry, hrest⟩ := table2bson_cons_ok h
    obtain ⟨hdepth, hids⟩ := ih x List.mem_cons_self arrayFlag key b b₁ hkey hentry
    obtain ⟨hdepth', hids'⟩ := iht (fun y hy => ih y (List.mem_cons_of_mem _ hy)) hrest
    rw [hids', hdepth', hids, hdepth, idsWritten, List.map_append, List.append_assoc]
    exact ⟨rfl, rfl⟩

theorem ids_of_appends (v : LuaTree) : ∀ k arrayFlag key b b', elementKey arrayFlag k = .ok key →
    Appends b key v b' → b'.frames.length = (idsInside b.frames.length k v).1 ∧
      docIds (outer b') = docIds (outer b) ++ (idsInside b.frames.length k v).2.map storedId := by
  induction v using LuaTree.induct with
  | leaf v hv =>
    intro k arrayFlag key b b' hkey h
    obtain ⟨_, x, hx, rfl⟩ | ⟨hrefused, ⟨hscalar, rfl⟩ | ⟨⟨s, rfl⟩, rfl⟩⟩ := h.leaf_inversion hv
    · obtain ⟨hdepth, hids⟩ := elementId_element hkey hx b.frames.length
      rw [docIds_extend, hids, hdepth]
      exact ⟨rfl, rfl⟩
    · rw [idsInside_scalar hscalar, List.map_nil, List.append_nil]
      exact ⟨rfl, rfl⟩
    · have hne : key ≠ idName := by
        rintro rfl
        exact absurd hrefused (by decide +kernel)
      rw [idsInside_of_ne hkey hne, List.map_nil, List.append_nil]
      exact ⟨rfl, rfl⟩
  | table t ih =>
    intro k arrayFlag key b b' hkey h
    have hvalid := (elementKey_ok hkey).2
    obtain ⟨b₁, rfl, ⟨hcheck, _, hrun⟩ | ⟨hcheck, hrun⟩⟩ := h.table_inversion
    · obtain ⟨hdepth, hids⟩ := ids_of_entries (fun x hx => ih x hx x.1) hrun
      rw [docIds_appendFinish, hids, outer_openFrame, length_appendFinish, hdepth, idsInside,
        ← hvalid, hcheck]
      exact ⟨rfl, rfl⟩
    · obtain ⟨hdepth, hids⟩ := ids_of_entries (fun x hx => ih x hx x.1) hrun
      rw [docIds_appendFinish, hids, length_appendFinish, hdepth, idsInside, ← hvalid, hcheck]
      exact ⟨rfl, rfl⟩

/-! ## What is read back -/

theorem rawget_rawset (t : LuaEntries) (k k' : LuaTreeKey) (v : LuaTree) :
    rawget (rawset t k v) k' = if k' = k then some v else rawget t k' := by
  induction t with
  | nil =>
    rw [rawset, rawget, List.lookup_cons]
    by_cases hk : k' = k
    · rw [if_pos hk, beq_iff_eq.mpr hk]
    · rw [if_neg hk, beq_eq_false_iff_ne.mpr hk]
      rfl
  | cons x t ih =>
    obtain ⟨k₁, v₁⟩ := x
    rw [rawget] at ih
    rw [rawset, rawget, rawget, List.lookup_cons]
    by_cases hk₁ : k₁ = k
    · rw [if_pos hk₁, List.lookup_cons, hk₁]
      by_cases hk : k' = k
      · rw [if_pos hk, beq_iff_eq.mpr hk]
      · rw [if_neg hk, beq_eq_false_iff_ne.mpr hk]
    · rw [if_neg hk₁, List.lookup_cons, ih]
      by_cases hk : k' = k
      · rw [if_pos hk, if_pos hk, beq_eq_false_iff_ne.mpr fun h => hk₁ (h.symm.trans hk)]
      · rw [if_neg hk, if_neg hk]
        rfl

theorem tableKey_eq_id (arrayFlag : Bool) (key : List UInt8) :
    LuaTreeKey.string idName = tableKey arrayFlag key ↔ key = idName := by
  rw [tableKey]
  constructor
  · intro h
    split_ifs at h
    exact (LuaTreeKey.string.inj h).symm
  · rintro rfl
    rfl

/-- Under `_id` is an object identifier. -/
theorem Written.oid {x : BsonValue} (h : Written (idName, x)) : ∃ bytes, x = .oid bytes := by
  cases h with
  | element _ hx =>
    cases hx with
    | boolean hne _ => exact absurd rfl hne
    | number hne _ => exact absurd rfl hne
    | string hne _ => exact absurd rfl hne
    | bindata hne _ => exact absurd rfl hne
    | oid _ s => exact ⟨storedId s, rfl⟩
  | object _ hne _ => exact absurd rfl hne
  | array _ hne _ => exact absurd rfl hne

theorem elementId_of_ne {key : List UInt8} (hne : key ≠ idName) (x : BsonValue) :
    elementId (key, x) = none := by
  cases x with
  | oid bytes => exact if_neg hne
  | double d => rfl
  | string s => rfl
  | object doc => rfl
  | array doc => rfl
  | bindata type s => rfl
  | bool b => rfl
  | int n => rfl
  | long n => rfl
  | other t => rfl

/-- What a table that is read has under `_id`: the text of the last identifier. -/
theorem rawget_bson2table {arrayFlag : Bool} {doc : BsonDoc} (hdoc : ∀ y ∈ doc, Written y)
    {t t' : LuaEntries} (h : bson2table arrayFlag doc t = .ok t') :
    rawget t' (.string idName) =
      ((docIds doc).getLast?.map fun bytes => LuaTree.string (littleToBig bytes)).or
        (rawget t (.string idName)) := by
  induction doc generalizing t with
  | nil =>
    rw [bson2table_nil_ok h]
    rfl
  | cons y doc ih =>
    obtain ⟨key, x⟩ := y
    obtain ⟨v, hv, hrest⟩ := bson2table_cons_ok h
    rw [ih (fun z hz => hdoc z (List.mem_cons_of_mem _ hz)) hrest, rawget_rawset]
    by_cases hid : key = idName
    · obtain rfl := hid
      obtain ⟨bytes, rfl⟩ := (hdoc _ List.mem_cons_self).oid
      rw [elementValue] at hv
      obtain rfl := Except.ok.inj hv
      have hsome : elementId (idName, .oid bytes) = some bytes := by rw [elementId, if_pos rfl]
      rw [if_pos ((tableKey_eq_id _ _).mpr rfl), docIds, docIds, List.filterMap_cons_some hsome,
        List.getLast?_cons]
      cases (doc.filterMap elementId).getLast? with
      | none => rfl
      | some bytes' => rfl
    · rw [if_neg (mt (tableKey_eq_id _ _).mp hid), docIds, docIds,
        List.filterMap_cons_none (elementId_of_ne hid x)]

theorem outer_of_finish {b : Bson} {doc : BsonDoc} (h : b.finish = some doc) : outer b = doc := by
  obtain ⟨hframes, hdoc⟩ := finish_eq_some h
  rw [outer, hframes]
  exact hdoc

/-- What `_id` comes back as: the text of what is stored last in the outermost document. -/
theorem rawget_id {t : LuaEntries} {b : Bson} {doc : BsonDoc}
    (h : table2bson Bson.init false t = .ok b) (hdoc : b.finish = some doc) :
    ∃ t', bson2table false doc [] = .ok t' ∧ rawget t' (.string idName) =
      (idsWritten 0 t).2.getLast?.map fun s => LuaTree.string (littleToBig (storedId s)) := by
  have hwritten := written_of_finish h hdoc
  have hids : docIds doc = (idsWritten 0 t).2.map storedId := by
    have hrun := (ids_of_entries (fun x _ => ids_of_appends x.2 x.1) h).2
    rwa [outer_of_finish hdoc] at hrun
  obtain ⟨t', ht'⟩ := readable_of_elements (fun y hy => (hwritten y hy).readable) false []
  refine ⟨t', ht', ?_⟩
  rw [rawget_bson2table hwritten ht', hids, List.getLast?_map, Option.map_map]
  exact Option.or_none

/-- A string under `_id` is stored as an object identifier of its own in any table, and it comes
back from this exactly where it is the text of one. So it comes back from the document exactly where
this holds and what is stored under `_id` last, in the outermost document, is the same identifier.
Different strings that come back have different identifiers. -/
theorem id_comes_back_iff (s : List UInt8) :
    (∀ b, appendId b (.string s) = .ok (extend b [(idName, .oid (storedId s))])) ∧
    (∀ old, elementValue old (.oid (storedId s)) = .ok (.string s) ↔ IsIdText s) ∧
    (∀ t b doc, table2bson Bson.init false t = .ok b → b.finish = some doc →
      ((∃ t', bson2table false doc [] = .ok t' ∧
          rawget t' (.string idName) = some (.string s)) ↔
        IsIdText s ∧ (idsWritten 0 t).2.getLast?.map storedId = some (storedId s))) ∧
    ∀ s', IsIdText s → IsIdText s' → s ≠ s' → storedId s ≠ storedId s' := by
  refine ⟨?_, ?_, ?_, ?_⟩
  · exact fun b => appendId_string b s
  · intro old
    rw [elementValue, ← storedId_text_iff s]
    constructor
    · intro h
      exact LuaTree.string.inj (Except.ok.inj h)
    · intro h
      rw [h]
  · intro t b doc h hdoc
    obtain ⟨t', ht', hget⟩ := rawget_id h hdoc
    constructor
    · -- What has come back is the text of an identifier, and so is its own one.
      rintro ⟨t'', ht'', hs⟩
      obtain rfl := Except.ok.inj (ht'.symm.trans ht'')
      obtain ⟨s', hs', htext⟩ := Option.map_eq_some_iff.mp (hget.symm.trans hs)
      have htext : littleToBig (storedId s') = s := LuaTree.string.inj htext
      have hid : IsIdText s := by
        rw [← htext]
        exact isIdText_littleToBig (length_storedId s')
      refine ⟨hid, ?_⟩
      rw [hs', Option.map_some]
      exact congrArg some
        (littleToBig_injective (htext.trans ((storedId_text_iff s).mpr hid).symm))
    · rintro ⟨hid, hstored⟩
      obtain ⟨s', hs', hsame⟩ := Option.map_eq_some_iff.mp hstored
      refine ⟨t', ht', ?_⟩
      rw [hget, hs', Option.map_some, hsame, (storedId_text_iff s).mpr hid]
  · intro s' hid hid' hne hsame
    apply hne
    rw [← (storedId_text_iff s).mpr hid, ← (storedId_text_iff s').mpr hid', hsame]

/-- A text of digits comes back. -/
theorem id_comes_back_digits :
    let s : List UInt8 := List.replicate 24 49
    ∃ b doc t', table2bson Bson.init false [(.string idName, .string s)] = .ok b ∧
      b.finish = some doc ∧ bson2table false doc [] = .ok t' ∧
      rawget t' (.string idName) = some (.string s) := by
  intro s
  have hid : elementKey false (.string idName) = .ok idName := rfl
  have hdigits : ∀ c ∈ s, c ∈ hexDigits := by
    intro c hc
    rw [List.eq_of_mem_replicate hc]
    decide
  have hrun : table2bson Bson.init false [(.string idName, .string s)] =
      .ok (extend Bson.init [(idName, .oid (storedId s))]) := by
    rw [table2bson_cons hid (by rw [if_pos rfl, appendId_string]), table2bson]
  obtain ⟨t', ht', hget⟩ :=
    ((id_comes_back_iff s).2.2.1 _ _ _ hrun rfl).mpr ⟨⟨List.length_replicate, hdigits⟩, by rfl⟩
  exact ⟨_, _, t', hrun, rfl, ht', hget⟩

/-- Two strings that are no texts of identifiers are stored as the same one, and neither comes
back. -/
theorem id_lost :
    let t : List UInt8 → LuaEntries := fun s => [(.string idName, .string s)]
    ∃ b doc t', table2bson Bson.init false (t [97]) = .ok b ∧
      table2bson Bson.init false (t [98]) = .ok b ∧ b.finish = some doc ∧
      bson2table false doc [] = .ok t' ∧ rawget t' (.string idName) ≠ some (.string [97]) ∧
      rawget t' (.string idName) ≠ some (.string [98]) := by
  intro t
  have hzero : ∀ c, storedId [c] = List.replicate 12 0 := fun c => rfl
  have hrun : ∀ c, table2bson Bson.init false (t [c]) =
      .ok (extend Bson.init [(idName, .oid (List.replicate 12 0))]) := by
    intro c
    have hid : elementKey false (.string idName) = .ok idName := rfl
    rw [table2bson_cons hid (by rw [if_pos rfl, appendId_string, hzero]), table2bson]
  refine ⟨_, [(idName, .oid (List.replicate 12 0))],
    [(.string idName, .string (List.replicate 24 48))], hrun 97, hrun 98, rfl, ?_, ?_, ?_⟩
  · rw [bson2table_cons (by rw [elementValue]), bson2table]
    rfl
  · intro h
    exact absurd (LuaTree.string.inj (Option.some.inj h)) (by decide)
  · intro h
    exact absurd (LuaTree.string.inj (Option.some.inj h)) (by decide)

end LuaMongo

end Catse
