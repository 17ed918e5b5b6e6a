import Catse.Lib.Xml
import Catse.Myxml2.Xml
import Mathlib.Data.List.Find

/-!
# Tags as they are read

What `getXml` does with the bytes of one tag. The lemmas are about bytes that are read as a tag,
whether or not they were written as one: a `RawAttribute` has any bytes before its `=`.
-/

namespace Catse.Myxml2

/-! ## Looking ahead -/

/-- The word of a table that is equal to a name. -/
def wordOf {α : Type} (words : List (α × List UInt8)) (name : List UInt8) : Option α :=
  (words.find? fun w => decide (name = w.2)).map Prod.fst

/-- The name of a recorded element. -/
def nameOf (name : List UInt8) : Option DotName := wordOf pname name

/-- The name of a recorded attribute. -/
def keyOf (key : List UInt8) : Option XmlKey := wordOf pk key

theorem findWord_eq {α : Type} {words : List (α × List UInt8)}
    (hwords : ∀ w ∈ words, ∀ b ∈ w.2, b ≠ 0) {buf : ℕ → UInt8} {i : ℕ} {name : List UInt8}
    (hbuf : Holds buf i name) (hname : ∀ b ∈ name, b ≠ 0) :
    findWord words buf i (i + name.length) = wordOf words name := by
  have hended : Holds (Function.update buf (i + name.length) 0) i (name ++ [0]) :=
    holds_append.mpr ⟨hbuf.congr_lt fun j hj => Function.update_of_ne hj.ne _ _,
      Function.update_self _ _ _, trivial⟩
  rw [findWord, wordOf, List.find?_congr fun w hw => strEq_iff hended hname (hwords w hw)]

theorem pname_ne_zero : ∀ w ∈ pname, ∀ b ∈ w.2, b ≠ 0 := by decide +kernel

theorem pk_ne_zero : ∀ w ∈ pk, ∀ b ∈ w.2, b ≠ 0 := by decide +kernel

theorem checkEnd_eq {stop i : ℕ} (h : i < stop) : checkEnd stop i = .ok i :=
  if_neg (not_le.mpr h)

section Scan

variable {buf : ℕ → UInt8} {stop i : ℕ} {c : UInt8} {bs rest : List UInt8}

theorem scanTo_eq {p : ℕ → Bool} {m : ℕ} (hstop : i + m < stop)
    (hskip : ∀ j < m, p (i + j) = false) (hp : p (i + m) = true) :
    scanTo p stop i = .ok (i + m) := by
  rw [scanTo, scan_eq (by omega) hskip hp]

/-- The first of the bytes that is `c`. -/
theorem scanTo_byte (h : Holds buf i (bs ++ c :: rest)) (hbs : ∀ b ∈ bs, b ≠ c)
    (hstop : i + bs.length < stop) :
    scanTo (fun i => buf i == c) stop i = .ok (i + bs.length) := by
  obtain ⟨hfirst, hlast, -⟩ := holds_append.mp h
  refine scanTo_eq hstop (fun j hj => ?_) (beq_iff_eq.mpr hlast)
  show (buf (i + j) == c) = false
  rw [hfirst.getElem hj]
  exact beq_eq_false_iff_ne.mpr (hbs _ (List.getElem_mem hj))

/-- None of the bytes is `c`. -/
theorem scanTo_end (h : Holds buf i bs) (hbs : ∀ b ∈ bs, b ≠ c) (hstop : i + bs.length = stop) :
    scanTo (fun i => buf i == c) stop i = .error .unexpectedEnd := by
  have hnone : scan (fun i => buf i == c) (stop - i) i = none := by
    refine scan_none fun j hj => ?_
    have hlt : j < bs.length := by omega
    show (buf (i + j) == c) = false
    rw [h.getElem hlt]
    exact beq_eq_false_iff_ne.mpr (hbs _ (List.getElem_mem hlt))
  rw [scanTo, hnone]

end Scan

/-! ## Attributes -/

/-- What is read as an attribute. -/
structure RawAttribute where
  key : List UInt8
  value : List UInt8
  key_ok : ∀ b ∈ key, b ≠ 0 ∧ b ≠ 61
  value_ok : ∀ b ∈ value, b ≠ 0 ∧ b ≠ 34

def RawAttribute.bytes (a : RawAttribute) : List UInt8 :=
  32 :: (a.key ++ 61 :: 34 :: (a.value ++ [34]))

/-- What is recorded of attributes. -/
def recorded (attrs : List RawAttribute) : List (XmlKey × List UInt8) :=
  attrs.filterMap fun a => (keyOf a.key).map fun k => (k, a.value)

/-- A recorded attribute whose value ends before `lim`. -/
structure XmlKv.Shows (buf : ℕ → UInt8) (lim : ℕ) (kv : XmlKv) (y : XmlKey × List UInt8) :
    Prop where
  k : kv.k = y.1
  v : StrAt buf lim kv.v y.2

theorem XmlKv.Shows.congr {buf buf' : ℕ → UInt8} {lim lim' : ℕ} {kv : XmlKv}
    {y : XmlKey × List UInt8} (h : kv.Shows buf lim y) (heq : ∀ j < lim, buf' j = buf j)
    (hle : lim ≤ lim') : kv.Shows buf' lim' y :=
  ⟨h.k, h.v.congr heq hle⟩

/-- The state in a tag, with the bytes that are still to be read and the attributes so far. -/
structure XmlTag.Reads (stop : ℕ) (s : XmlTag) (rest : List UInt8)
    (ys : List (XmlKey × List UInt8)) : Prop where
  holds : Holds s.buf s.begin rest
  length : s.begin + rest.length = stop
  vkv : List.Forall₂ (XmlKv.Shows s.buf s.begin) s.vkv ys

theorem RawAttribute.bytes_append (a : RawAttribute) (rest : List UInt8) :
    a.bytes ++ rest = 32 :: (a.key ++ 61 :: 34 :: (a.value ++ 34 :: rest)) := by
  rw [bytes, List.cons_append, List.append_assoc, List.cons_append, List.cons_append,
    List.append_assoc]
  rfl

/-- What is recorded of attributes in a tag whose element is recorded if `pp` holds. -/
def recordedIf (pp : Bool) (attrs : List RawAttribute) : List (XmlKey × List UInt8) :=
  if pp then recorded attrs else []

theorem recordedIf_singleton (pp : Bool) (a : RawAttribute) : recordedIf pp [a] =
    ((if pp then keyOf a.key else none).map fun k => (k, a.value)).toList := by
  unfold recordedIf recorded
  cases pp with
  | false => rfl
  | true =>
    rw [if_pos rfl, if_pos rfl, List.filterMap_cons]
    cases keyOf a.key <;> rfl

theorem checkKey_eq {s : XmlTag} {k : Option XmlKey} (htag : s.vkv.length + k.toList.length ≤ 2)
    (hall : s.bufVkvLen + k.toList.length ≤ 2^19) : checkKey k s = .ok () := by
  cases k with
  | none => rfl
  | some k =>
    rw [Option.toList_some, List.length_singleton] at htag hall
    rw [checkKey, if_neg (Option.some_ne_none k), if_neg (by omega), if_neg (by omega)]

/-- What the state is after an attribute with the value from `old` on, whose key is recorded or not.
A value that is recorded is ended at its quote, which is behind everything read before. -/
theorem record_reads {stop : ℕ} {s : XmlTag} {ys : List (XmlKey × List UInt8)} {old : ℕ}
    {value rest : List UInt8} (k : Option XmlKey)
    (hvkv : List.Forall₂ (XmlKv.Shows s.buf s.begin) s.vkv ys) (hold : s.begin ≤ old)
    (hholds : Holds s.buf old (value ++ 34 :: rest)) (hvalue : ∀ b ∈ value, b ≠ 0)
    (hlength : old + value.length + 1 + rest.length = stop) :
    XmlTag.Reads stop { s.record old (old + value.length) k with begin := old + value.length + 1 }
      rest (ys ++ (k.map fun k => (k, value)).toList) ∧
    (s.record old (old + value.length) k).bufVkvLen = s.bufVkvLen + k.toList.length ∧
    ∀ j < s.begin, (s.record old (old + value.length) k).buf j = s.buf j := by
  obtain ⟨htext, -, hafter⟩ := holds_append.mp hholds
  cases k with
  | none =>
    refine ⟨⟨hafter, hlength, ?_⟩, rfl, fun j _ => rfl⟩
    rw [Option.map_none, Option.toList_none, List.append_nil]
    exact hvkv.imp fun kv y hy => hy.congr (fun _ _ => rfl) (by dsimp only; omega)
  | some k =>
    have hframe : ∀ j < old + value.length,
        Function.update s.buf (old + value.length) 0 j = s.buf j :=
      fun j hj => Function.update_of_ne hj.ne _ _
    have hnew : StrAt (Function.update s.buf (old + value.length) 0) (old + value.length + 1) old
        value := by
      refine ⟨?_, Nat.lt_succ_self _, hvalue⟩
      exact holds_append.mpr ⟨htext.congr_lt hframe, Function.update_self _ _ _, trivial⟩
    refine ⟨⟨hafter.update (Nat.lt_succ_self _) 0, hlength, ?_⟩, rfl,
      fun j hj => hframe j (by omega)⟩
    refine List.rel_append (hvkv.imp fun kv y hy => ?_) (.cons ⟨rfl, hnew⟩ .nil)
    refine hy.congr (fun j hj => hframe j (by omega)) ?_
    dsimp only
    omega

/-- One attribute. -/
theorem xmlAttribute_eq {stop : ℕ} (pp : Bool) {s : XmlTag} {a : RawAttribute} {rest : List UInt8}
    {ys : List (XmlKey × List UInt8)} (h : s.Reads stop (a.bytes ++ rest) ys) (hrest : rest ≠ [])
    (htag : ys.length + (recordedIf pp [a]).length ≤ 2)
    (hall : s.bufVkvLen + (recordedIf pp [a]).length ≤ 2^19) :
    ∃ s', xmlAttribute stop pp s = .ok s' ∧ s'.Reads stop rest (ys ++ recordedIf pp [a]) ∧
      s'.bufVkvLen = s.bufVkvLen + (recordedIf pp [a]).length ∧
      (∀ j < s.begin, s'.buf j = s.buf j) := by
  obtain ⟨hholds, hlength, hvkv⟩ := h
  have hpos := List.length_pos_of_ne_nil hrest
  rw [a.bytes_append] at hholds hlength
  simp only [List.length_cons, List.length_append] at hlength
  obtain ⟨-, hkey⟩ := hholds
  obtain ⟨hname, -, -, hholds⟩ := holds_append.mp hkey
  -- Where the value begins, behind the key, the `=` and the quote.
  let old := s.begin + 1 + a.key.length + 2
  have hvalue : Holds s.buf old (a.value ++ 34 :: rest) := hholds
  have hold : old = s.begin + 1 + a.key.length + 2 := rfl
  have hscan : scanTo (fun i => s.buf i == 61) stop (s.begin + 1) =
      .ok (s.begin + 1 + a.key.length) :=
    scanTo_byte hkey (fun b hb => (a.key_ok b hb).2) (by omega)
  have hscan' : scanTo (fun i => s.buf i == 34) stop old = .ok (old + a.value.length) :=
    scanTo_byte hvalue (fun b hb => (a.value_ok b hb).2) (by omega)
  have hword : findWord pk s.buf (s.begin + 1) (s.begin + 1 + a.key.length) = keyOf a.key :=
    findWord_eq pk_ne_zero hname fun b hb => (a.key_ok b hb).1
  rw [recordedIf_singleton] at htag hall ⊢
  -- Whether the attribute is recorded: in a tag that is looked for, and with one of the three keys.
  generalize hk : (if pp then keyOf a.key else none) = k at htag hall ⊢
  have hcount : (k.map fun k => (k, a.value)).toList.length = k.toList.length := by
    cases k <;> rfl
  rw [hcount] at htag hall ⊢
  obtain ⟨hreads, hlen, hframe⟩ := record_reads k hvkv (by omega) hvalue
    (fun b hb => (a.value_ok b hb).1) (by omega : old + a.value.length + 1 + rest.length = stop)
  refine ⟨{ s.record old (old + a.value.length) k with begin := old + a.value.length + 1 }, ?_,
    hreads, hlen, hframe⟩
  -- The statements one by one, with the end of the document ahead at each check.
  rw [xmlAttribute, checkEnd_eq (by omega)]
  show (scanTo _ stop (s.begin + 1) >>= _) = _
  rw [hscan]
  show (checkKey (if pp then findWord pk s.buf (s.begin + 1) (s.begin + 1 + a.key.length) else none)
    s >>= fun _ => checkEnd stop old >>= _) = _
  rw [hword, hk, checkKey_eq (hvkv.length_eq ▸ htag) hall, checkEnd_eq (by omega)]
  show (scanTo _ stop old >>= _) = _
  rw [hscan']
  show (checkEnd stop _ >>= _) = _
  rw [checkEnd_eq (by omega)]
  rfl

theorem recordedIf_cons (pp : Bool) (a : RawAttribute) (attrs : List RawAttribute) :
    recordedIf pp (a :: attrs) = recordedIf pp [a] ++ recordedIf pp attrs := by
  unfold recordedIf recorded
  cases pp with
  | false => rfl
  | true =>
    rw [if_pos rfl, if_pos rfl, if_pos rfl, ← List.filterMap_append]
    rfl

/-- The bytes at the end of a tag. -/
def TagEnd (bs : List UInt8) : Prop := (∃ rest, bs = 62 :: rest) ∨ ∃ rest, bs = 47 :: 62 :: rest

theorem TagEnd.at {buf : ℕ → UInt8} {i : ℕ} {bs : List UInt8} (h : TagEnd bs)
    (hbuf : Holds buf i bs) : atTagEnd buf i = true := by
  unfold atTagEnd
  rcases h with ⟨rest, rfl⟩ | ⟨rest, rfl⟩
  · rw [hbuf.1]
    rfl
  · rw [hbuf.1, hbuf.2.1]
    rfl

theorem TagEnd.ne_nil {bs : List UInt8} (h : TagEnd bs) : bs ≠ [] := by
  rcases h with ⟨rest, rfl⟩ | ⟨rest, rfl⟩ <;> exact List.cons_ne_nil _ _

/-- The attributes up to the end of the tag. -/
theorem xmlAttributes_eq {stop : ℕ} {pp : Bool} {rest : List UInt8} (hrest : TagEnd rest)
    {attrs : List RawAttribute} {s : XmlTag} {ys : List (XmlKey × List UInt8)}
    (h : s.Reads stop (attrs.flatMap RawAttribute.bytes ++ rest) ys) {n : ℕ}
    (hn : stop ≤ s.begin + n) (htag : ys.length + (recordedIf pp attrs).length ≤ 2)
    (hall : s.bufVkvLen + (recordedIf pp attrs).length ≤ 2^19) :
    ∃ s', xmlAttributes stop pp n s = .ok s' ∧ s'.Reads stop rest (ys ++ recordedIf pp attrs) ∧
      s'.bufVkvLen = s.bufVkvLen + (recordedIf pp attrs).length ∧
      (∀ j < s.begin, s'.buf j = s.buf j) ∧ s.begin ≤ s'.begin := by
  induction attrs generalizing s ys n with
  | nil =>
    have hpos := List.length_pos_of_ne_nil hrest.ne_nil
    have hlength := h.length
    have hnone : recordedIf pp [] = [] := by cases pp <;> rfl
    rw [List.flatMap_nil, List.nil_append] at hlength h
    obtain ⟨n, rfl⟩ := Nat.exists_eq_succ_of_ne_zero (by omega : n ≠ 0)
    rw [Nat.succ_eq_add_one, xmlAttributes, if_pos (hrest.at h.holds), hnone, List.append_nil]
    exact ⟨s, rfl, h, rfl, fun j _ => rfl, le_rfl⟩
  | cons a attrs ih =>
    rw [recordedIf_cons, List.length_append] at htag hall
    rw [List.flatMap_cons, List.append_assoc] at h
    have hmore : attrs.flatMap RawAttribute.bytes ++ rest ≠ [] :=
      List.append_ne_nil_of_right_ne_nil _ hrest.ne_nil
    have hlength := h.length
    have hpos := List.length_pos_of_ne_nil hmore
    -- The blank in front of an attribute does not end the tag.
    have hblank : s.buf s.begin = 32 := by
      have hholds := h.holds
      rw [a.bytes_append] at hholds
      exact hholds.1
    have hopen : atTagEnd s.buf s.begin = false := by
      rw [atTagEnd, hblank]
      rfl
    obtain ⟨s₁, hs₁, hreads, hcount, hframe⟩ := xmlAttribute_eq pp h hmore (by omega) (by omega)
    -- Each attribute moves on, so that the turns last.
    have hbegin : s.begin < s₁.begin := by
      have hlength₁ := hreads.length
      have hbytes : 0 < a.bytes.length := Nat.succ_pos _
      rw [List.length_append] at hlength
      omega
    obtain ⟨n, rfl⟩ := Nat.exists_eq_succ_of_ne_zero (by
      rw [List.length_append] at hlength
      omega : n ≠ 0)
    obtain ⟨s₂, hs₂, hreads₂, hcount₂, hframe₂, hle⟩ := ih hreads (n := n) (by omega) (by
      rw [List.length_append]
      omega) (by omega)
    refine ⟨s₂, ?_, ?_, ?_, fun j hj => ?_, by omega⟩
    · rw [Nat.succ_eq_add_one, xmlAttributes, hopen, if_neg Bool.false_ne_true, hs₁]
      exact hs₂
    · rw [recordedIf_cons, ← List.append_assoc]
      exact hreads₂
    · rw [recordedIf_cons, List.length_append]
      omega
    · exact (hframe₂ j (by omega)).trans (hframe j hj)

/-! ## Tags -/

/-- A record whose strings end before `lim`. -/
structure XmlDot.Shows (buf : ℕ → UInt8) (lim : ℕ) (d : XmlDot) (x : XmlNode) : Prop where
  name : d.name = x.name
  text : d.text.elim (x.text = []) fun i => StrAt buf lim i x.text
  vkv : List.Forall₂ (XmlKv.Shows buf lim) d.vkv x.vkv

theorem XmlDot.Shows.congr {buf buf' : ℕ → UInt8} {lim lim' : ℕ} {d : XmlDot} {x : XmlNode}
    (h : d.Shows buf lim x) (heq : ∀ j < lim, buf' j = buf j) (hle : lim ≤ lim') :
    d.Shows buf' lim' x := by
  refine ⟨h.name, ?_, h.vkv.imp fun kv y hy => hy.congr heq hle⟩
  have htext := h.text
  cases hd : d.text with
  | none =>
    rw [hd] at htext
    exact htext
  | some i =>
    rw [hd] at htext
    exact StrAt.congr htext heq hle

/-- The state between tags, with the bytes behind the current one and the records so far. -/
structure XmlState.Reads (stop : ℕ) (s : XmlState) (rest : List UInt8) (xs : List XmlNode) :
    Prop where
  holds : Holds s.buf (s.begin + 1) rest
  length : s.begin + 1 + rest.length = stop
  vd : List.Forall₂ (XmlDot.Shows s.buf (s.begin + 1)) s.vd xs

/-- What is read as a tag: a name up to the first blank or the end of the tag, and attributes. It is
not read as a closing tag or a declaration. -/
structure RawTag where
  name : List UInt8
  attrs : List RawAttribute
  name_ok : ∀ b ∈ name, b ≠ 0 ∧ b ≠ 32 ∧ b ≠ 62
  last_ok : ∀ bs, name ≠ bs ++ [47]
  head_ok : ∀ b ∈ name.head?, b ≠ 63 ∧ b ≠ 47
  ne_nil : name = [] → attrs ≠ []

/-- A tag up to its end. -/
def RawTag.bytes (t : RawTag) : List UInt8 := t.name ++ t.attrs.flatMap RawAttribute.bytes

/-- What is recorded of a tag. -/
def RawTag.node (t : RawTag) (text : List UInt8) : Option XmlNode :=
  (nameOf t.name).map fun name => ⟨name, text, recorded t.attrs⟩

/-- The name of a tag is read up to its end. -/
theorem scanTo_name {buf : ℕ → UInt8} {stop i : ℕ} (t : RawTag) {rest : List UInt8}
    (hrest : TagEnd rest) (h : Holds buf i (t.bytes ++ rest))
    (hstop : i + t.name.length < stop) :
    scanTo (fun i => buf i == 32 || atTagEnd buf i) stop i = .ok (i + t.name.length) := by
  rw [RawTag.bytes, List.append_assoc] at h
  obtain ⟨hname, hafter⟩ := holds_append.mp h
  refine scanTo_eq hstop (fun j hj => ?_) ?_
  · obtain ⟨-, hblank, hclose⟩ := t.name_ok _ (List.getElem_mem hj)
    -- A `/` within a name is not followed by a `>`, and the last byte of a name is no `/`.
    have hslash : buf (i + j) = 47 → buf (i + j + 1) ≠ 62 := by
      intro h47
      have hlast : j + 1 < t.name.length := by
        by_contra hle
        have hsplit := List.take_append_drop j t.name
        rw [List.drop_eq_getElem_cons hj, List.drop_of_length_le (by omega),
          ← hname.getElem hj, h47] at hsplit
        exact t.last_ok _ hsplit.symm
      rw [add_assoc, hname.getElem hlast]
      exact (t.name_ok _ (List.getElem_mem hlast)).2.2
    have hbyte := hname.getElem hj
    rw [← hbyte] at hblank hclose
    by_cases h47 : buf (i + j) = 47
    · have hnext := hslash h47
      simp [atTagEnd, h47, hnext]
    · simp [atTagEnd, h47, hblank, hclose]
  · -- The scan stops at the blank of the first attribute, or at the end of the tag.
    cases hattrs : t.attrs with
    | nil =>
      rw [hattrs] at hafter
      show (_ || atTagEnd buf (i + t.name.length)) = true
      rw [hrest.at hafter, Bool.or_true]
    | cons a attrs =>
      rw [hattrs, List.flatMap_cons, List.append_assoc, a.bytes_append] at hafter
      show (buf (i + t.name.length) == 32 || _) = true
      rw [hafter.1]
      rfl

/-- A tag up to its end. -/
theorem xmlTag_eq {stop : ℕ} {s : XmlState} {t : RawTag} {rest : List UInt8} {xs : List XmlNode}
    (hrest : TagEnd rest) (h : s.Reads stop (t.bytes ++ rest) xs)
    (hnodes : nameOf t.name ≠ none → xs.length + 2 ≤ 2^20)
    (htag : (recordedIf (nameOf t.name).isSome t.attrs).length ≤ 2)
    (hall : s.bufVkvLen + (recordedIf (nameOf t.name).isSome t.attrs).length ≤ 2^19) :
    ∃ a : XmlTag, a.Reads stop rest (recordedIf (nameOf t.name).isSome t.attrs) ∧
      a.bufVkvLen = s.bufVkvLen + (recordedIf (nameOf t.name).isSome t.attrs).length ∧
      (∀ j < s.begin + 1, a.buf j = s.buf j) ∧ s.begin < a.begin ∧
      xmlTag stop s (s.begin + 1) = (do
        let (text, begin, buf) ← xmlText stop a.buf a.begin
        .ok ⟨buf, begin, s.vd ++ ((nameOf t.name).map fun name => ⟨name, text, a.vkv⟩).toList,
          a.bufVkvLen⟩) := by
  have hpos := List.length_pos_of_ne_nil hrest.ne_nil
  have hlength := h.length
  have hcount := h.vd.length_eq
  have hbytes : t.bytes.length = t.name.length + (t.attrs.flatMap RawAttribute.bytes).length :=
    List.length_append
  rw [List.length_append] at hlength
  have hscan := scanTo_name t hrest h.holds (by omega : s.begin + 1 + t.name.length < stop)
  have hholds := h.holds
  rw [RawTag.bytes, List.append_assoc] at hholds
  obtain ⟨hname, hafter⟩ := holds_append.mp hholds
  have hword : findWord pname s.buf (s.begin + 1) (s.begin + 1 + t.name.length) = nameOf t.name :=
    findWord_eq pname_ne_zero hname fun b hb => (t.name_ok b hb).1
  -- The attributes begin where the name ends.
  have hstart : XmlTag.Reads stop ⟨s.buf, s.begin + 1 + t.name.length, [], s.bufVkvLen⟩
      (t.attrs.flatMap RawAttribute.bytes ++ rest) [] :=
    ⟨hafter, by rw [List.length_append]; dsimp only; omega, .nil⟩
  obtain ⟨a, ha, hreads, hlen, hframe, hle⟩ := xmlAttributes_eq hrest hstart
    (n := stop - (s.begin + 1 + t.name.length)) (by dsimp only; omega)
    (by rw [List.length_nil, zero_add]; exact htag) hall
  refine ⟨a, hreads, hlen, fun j hj => hframe j (by dsimp only; omega), by dsimp only at hle; omega,
    ?_⟩
  -- There is room for the node and the one behind it.
  have hroom : ¬(nameOf t.name ≠ none ∧ 2^20 < s.vd.length + 2) := by
    rintro ⟨hsome, hlt⟩
    have := hnodes hsome
    omega
  rw [xmlTag, hscan]
  show (if findWord pname s.buf (s.begin + 1) (s.begin + 1 + t.name.length) ≠ none ∧ _ then _
    else _) = _
  rw [hword, if_neg hroom]
  show (xmlAttributes stop (nameOf t.name).isSome _ _ >>= _) = _
  rw [ha]
  rfl

/-! ## Turns of the loop -/

section Turn

variable {stop : ℕ} {s : XmlState} {rest : List UInt8} {xs : List XmlNode}

theorem RawTag.first {t : RawTag} {buf : ℕ → UInt8} {i : ℕ} (h : Holds buf i (t.bytes ++ rest)) :
    buf i ≠ 63 ∧ buf i ≠ 47 := by
  rw [RawTag.bytes, List.append_assoc] at h
  cases hname : t.name with
  | nil =>
    obtain ⟨a, attrs, hattrs⟩ := List.exists_cons_of_ne_nil (t.ne_nil hname)
    rw [hname, hattrs, List.flatMap_cons, List.append_assoc, a.bytes_append] at h
    rw [show buf i = 32 from h.1]
    decide
  | cons b bs =>
    rw [hname] at h
    rw [show buf i = b from h.1]
    exact t.head_ok b (by rw [hname]; rfl)

/-- A tag is read by `xmlTag`. -/
theorem getXmlLoop_tag {t : RawTag} (n : ℕ) (h : s.Reads stop (t.bytes ++ rest) xs)
    (hrest : rest ≠ []) :
    getXmlLoop stop (n + 1) s = xmlTag stop s (s.begin + 1) >>= getXmlLoop stop n := by
  have hlength := h.length
  have hpos := List.length_pos_of_ne_nil hrest
  obtain ⟨h63, h47⟩ := RawTag.first h.holds
  rw [List.length_append] at hlength
  rw [getXmlLoop, checkEnd_eq (by omega)]
  show (if s.buf (s.begin + 1) = 63 then _ else if s.buf (s.begin + 1) = 47 then _ else _) = _
  rw [if_neg h63, if_neg h47]

/-- The records and attributes of a tag are within the limits. -/
structure RawTag.Fits (t : RawTag) (s : XmlState) (xs : List XmlNode) : Prop where
  nodes : nameOf t.name ≠ none → xs.length + 2 ≤ 2^20
  tag : (recordedIf (nameOf t.name).isSome t.attrs).length ≤ 2
  all : s.bufVkvLen + (recordedIf (nameOf t.name).isSome t.attrs).length ≤ 2^19

/-- The record of a tag, as it is made from what was read. -/
theorem shows_node {t : RawTag} {a : XmlTag} {text : Option ℕ} {buf : ℕ → UInt8} {lim : ℕ}
    {chars : List UInt8} {d : List XmlDot} (hd : List.Forall₂ (XmlDot.Shows buf lim) d xs)
    (htext : text.elim (chars = []) fun i => StrAt buf lim i chars)
    (hvkv : List.Forall₂ (XmlKv.Shows buf lim) a.vkv
      (recordedIf (nameOf t.name).isSome t.attrs)) :
    List.Forall₂ (XmlDot.Shows buf lim)
      (d ++ ((nameOf t.name).map fun name => ⟨name, text, a.vkv⟩).toList)
      (xs ++ (t.node chars).toList) := by
  unfold RawTag.node
  cases hname : nameOf t.name with
  | none =>
    rw [Option.map_none, Option.map_none, Option.toList_none, Option.toList_none, List.append_nil,
      List.append_nil]
    exact hd
  | some name =>
    rw [hname] at hvkv
    exact List.rel_append hd (.cons ⟨rfl, htext, hvkv⟩ .nil)

/-- What a turn does with a tag, from what `xmlText` returns for it. -/
theorem turn_tag {t : RawTag} {bs : List UInt8} (hbs : TagEnd bs)
    (h : s.Reads stop (t.bytes ++ bs) xs) (hfits : t.Fits s xs) {chars : List UInt8}
    (hread : ∀ a : XmlTag, Holds a.buf a.begin bs → a.begin + bs.length = stop →
      ∃ text begin buf, xmlText stop a.buf a.begin = .ok (text, begin, buf) ∧
        Holds buf (begin + 1) rest ∧ begin + 1 + rest.length = stop ∧
        (text.elim (chars = []) fun i => StrAt buf (begin + 1) i chars) ∧
        (∀ j < a.begin, buf j = a.buf j) ∧ a.begin ≤ begin) (n : ℕ) :
    ∃ s' : XmlState, getXmlLoop stop (n + 1) s = getXmlLoop stop n s' ∧
      s'.Reads stop rest (xs ++ (t.node chars).toList) ∧
      s'.bufVkvLen = s.bufVkvLen + (recordedIf (nameOf t.name).isSome t.attrs).length := by
  obtain ⟨a, hreads, hlen, hframe, hbegin, htag⟩ := xmlTag_eq hbs h hfits.nodes hfits.tag hfits.all
  obtain ⟨text, begin, buf, htext, hmore, hlength, hchars, hended, hle⟩ :=
    hread a hreads.holds hreads.length
  have hvd : List.Forall₂ (XmlDot.Shows buf (begin + 1)) s.vd xs :=
    h.vd.imp fun d x hd =>
      hd.congr (fun j hj => by rw [hended j (by omega), hframe j hj]) (by omega)
  have hvkv : List.Forall₂ (XmlKv.Shows buf (begin + 1)) a.vkv
      (recordedIf (nameOf t.name).isSome t.attrs) :=
    hreads.vkv.imp fun kv y hy => hy.congr (fun j hj => hended j hj) (by omega)
  refine ⟨⟨buf, begin, _, _⟩, ?_, ⟨hmore, hlength, shows_node hvd hchars hvkv⟩, hlen⟩
  rw [getXmlLoop_tag n h hbs.ne_nil, htag, htext]
  rfl

/-- A start tag, with the text up to the next tag. -/
theorem turn_start {t : RawTag} {text : List UInt8} (htext : ∀ b ∈ text, b ≠ 0 ∧ b ≠ 60)
    (h : s.Reads stop (t.bytes ++ 62 :: (text ++ 60 :: rest)) xs) (hfits : t.Fits s xs) (n : ℕ) :
    ∃ s' : XmlState, getXmlLoop stop (n + 1) s = getXmlLoop stop n s' ∧
      s'.Reads stop rest (xs ++ (t.node text).toList) ∧
      s'.bufVkvLen = s.bufVkvLen + (recordedIf (nameOf t.name).isSome t.attrs).length := by
  refine turn_tag (.inl ⟨_, rfl⟩) h hfits (fun a hholds hlength => ?_) n
  obtain ⟨hclose, hafter⟩ := hholds
  obtain ⟨hchars, -, hmore⟩ := holds_append.mp hafter
  simp only [List.length_cons, List.length_append] at hlength
  -- The text is ended at the next tag, which is behind everything that has been read before.
  have hended : ∀ j < a.begin + 1 + text.length,
      Function.update a.buf (a.begin + 1 + text.length) 0 j = a.buf j :=
    fun j hj => Function.update_of_ne hj.ne _ _
  refine ⟨some (a.begin + 1), a.begin + 1 + text.length,
    Function.update a.buf (a.begin + 1 + text.length) 0, ?_, hmore.update (Nat.lt_succ_self _) 0,
    by omega, ⟨?_, Nat.lt_succ_self _, fun b hb => (htext b hb).1⟩, fun j hj => hended j (by omega),
    by omega⟩
  · rw [xmlText, if_pos hclose, checkEnd_eq (by omega)]
    show (scanTo _ stop (a.begin + 1) >>= _) = _
    rw [scanTo_byte hafter (fun b hb => (htext b hb).2) (by omega)]
    rfl
  · exact holds_append.mpr ⟨hchars.congr_lt hended, Function.update_self _ _ _, trivial⟩

/-- An empty tag in front of something. -/
theorem turn_empty {t : RawTag} {c : UInt8} (h : s.Reads stop (t.bytes ++ 47 :: 62 :: c :: rest) xs)
    (hfits : t.Fits s xs) (n : ℕ) :
    ∃ s' : XmlState, getXmlLoop stop (n + 1) s = getXmlLoop stop n s' ∧
      s'.Reads stop rest (xs ++ (t.node []).toList) ∧
      s'.bufVkvLen = s.bufVkvLen + (recordedIf (nameOf t.name).isSome t.attrs).length := by
  refine turn_tag (.inr ⟨_, rfl⟩) h hfits (fun a hholds hlength => ?_) n
  obtain ⟨hslash, hclose, -, hmore⟩ := hholds
  simp only [List.length_cons] at hlength
  refine ⟨none, a.begin + 2, a.buf, ?_, hmore, by omega, rfl, fun j _ => rfl, by omega⟩
  rw [xmlText, if_neg (by rw [hslash]; decide), if_pos ⟨hslash, hclose⟩, checkEnd_eq (by omega)]
  rfl

/-- A tag that ends with the document. -/
theorem turn_start_end {t : RawTag} (h : s.Reads stop (t.bytes ++ [62]) xs) (hfits : t.Fits s xs)
    (n : ℕ) : getXmlLoop stop (n + 1) s = .error .unexpectedEnd := by
  obtain ⟨a, hreads, -, -, -, htag⟩ := xmlTag_eq (.inl ⟨_, rfl⟩) h hfits.nodes hfits.tag hfits.all
  obtain ⟨⟨hclose, -⟩, hlength, -⟩ := hreads
  rw [List.length_singleton] at hlength
  rw [getXmlLoop_tag n h (List.cons_ne_nil _ _), htag, xmlText, if_pos hclose, checkEnd,
    if_pos hlength.ge]
  rfl

/-- A closing tag. The loop ends with it if the document does. -/
theorem getXmlLoop_close {name : List UInt8} (hname : ∀ b ∈ name, b ≠ 62)
    (h : s.Reads stop (47 :: (name ++ 62 :: rest)) xs) (n : ℕ) :
    getXmlLoop stop (n + 1) s =
      if rest = [] then .ok { s with begin := s.begin + 1 + (name.length + 1) + 1 }
      else getXmlLoop stop n { s with begin := s.begin + 1 + (name.length + 1) + 1 } := by
  obtain ⟨hholds, hlength, -⟩ := h
  simp only [List.length_cons, List.length_append] at hlength
  have hscan : scanTo (fun i => s.buf i == 62) stop (s.begin + 1) =
      .ok (s.begin + 1 + (47 :: name).length) :=
    scanTo_byte hholds (List.forall_mem_cons.mpr ⟨by decide, hname⟩) (by
      rw [List.length_cons]
      omega)
  rw [List.length_cons] at hscan
  rw [getXmlLoop, checkEnd_eq (by omega)]
  show (if s.buf (s.begin + 1) = 63 then _ else if s.buf (s.begin + 1) = 47 then
    scanTo _ stop (s.begin + 1) >>= _ else _) = _
  rw [hholds.1, if_neg (by decide), if_pos rfl, hscan]
  by_cases hend : rest = []
  · rw [if_pos hend]
    rw [hend, List.length_nil] at hlength
    exact if_pos (by omega)
  · rw [if_neg hend]
    have hpos := List.length_pos_of_ne_nil hend
    exact if_neg (by omega)

/-- A closing tag in front of something. -/
theorem turn_close {name : List UInt8} (hname : ∀ b ∈ name, b ≠ 62) {c : UInt8}
    (h : s.Reads stop (47 :: (name ++ 62 :: c :: rest)) xs) (n : ℕ) :
    ∃ s' : XmlState, getXmlLoop stop (n + 1) s = getXmlLoop stop n s' ∧ s'.Reads stop rest xs ∧
      s'.bufVkvLen = s.bufVkvLen := by
  have hloop := getXmlLoop_close hname h n
  rw [if_neg (List.cons_ne_nil c rest)] at hloop
  obtain ⟨hholds, hlength, hvd⟩ := h
  obtain ⟨-, -, -, hmore⟩ := holds_append.mp hholds.2
  simp only [List.length_cons, List.length_append] at hlength
  have hbegin : s.begin + 1 + 1 + name.length + 1 = s.begin + 1 + (name.length + 1) + 1 := by omega
  refine ⟨{ s with begin := s.begin + 1 + (name.length + 1) + 1 }, hloop,
    ⟨hbegin ▸ hmore, ?_, ?_⟩, rfl⟩
  · dsimp only
    omega
  · exact hvd.imp fun d x hd => hd.congr (fun _ _ => rfl) (by dsimp only; omega)

/-- A closing tag at the end of the document. -/
theorem turn_close_end {name : List UInt8} (hname : ∀ b ∈ name, b ≠ 62)
    (h : s.Reads stop (47 :: (name ++ [62])) xs) (n : ℕ) :
    ∃ s' : XmlState, getXmlLoop stop (n + 1) s = .ok s' ∧
      List.Forall₂ (XmlDot.Shows s'.buf stop) s'.vd xs := by
  have hloop := getXmlLoop_close hname h n
  rw [if_pos rfl] at hloop
  have hlength := h.length
  simp only [List.length_cons, List.length_append, List.length_nil] at hlength
  exact ⟨_, hloop, h.vd.imp fun d x hd => hd.congr (fun _ _ => rfl) (by omega)⟩

/-- A declaration, up to the first tag. -/
theorem turn_prolog {chars : List UInt8} (hchars : ∀ b ∈ chars, b ≠ 60)
    (h : s.Reads stop (63 :: (chars ++ 60 :: rest)) xs) (n : ℕ) :
    ∃ s' : XmlState, getXmlLoop stop (n + 1) s = getXmlLoop stop n s' ∧ s'.Reads stop rest xs ∧
      s'.bufVkvLen = s.bufVkvLen := by
  obtain ⟨hholds, hlength, hvd⟩ := h
  obtain ⟨-, -, hmore⟩ := holds_append.mp hholds.2
  simp only [List.length_cons, List.length_append] at hlength
  have hscan : scanTo (fun i => s.buf i == 60) stop (s.begin + 1) =
      .ok (s.begin + 1 + (63 :: chars).length) :=
    scanTo_byte hholds (List.forall_mem_cons.mpr ⟨by decide, hchars⟩) (by
      rw [List.length_cons]
      omega)
  rw [List.length_cons] at hscan
  have hbegin : s.begin + 1 + 1 + chars.length = s.begin + 1 + (chars.length + 1) := by omega
  refine ⟨{ s with begin := s.begin + 1 + (chars.length + 1) }, ?_, ⟨hbegin ▸ hmore, ?_, ?_⟩, rfl⟩
  · rw [getXmlLoop, checkEnd_eq (by omega)]
    show (if s.buf (s.begin + 1) = 63 then scanTo _ stop (s.begin + 1) >>= _ else _) = _
    rw [hholds.1, if_pos rfl, hscan]
    rfl
  · dsimp only
    omega
  · exact hvd.imp fun d x hd => hd.congr (fun _ _ => rfl) (by dsimp only; omega)

end Turn

end Catse.Myxml2
