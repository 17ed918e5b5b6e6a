import Catse.Proto.Template

/-!
# The grammar of a template

A template says which bytes a packet of it may have: `Template.Packet`. Integers have their width, a
string has its length before it, an array has its count, which is at most `cnt`, and a struct has
its fields one after the other.

`Template.scan` follows a packet in the way in which `read_msg_dfs` does, without the Lua tables. A
count or a length that the grammar does not allow makes the scan fail where it is. The loop over an
array of structs does not look at whether an element has failed and goes on behind the bad field,
which `dropped` records. So a scan of a whole packet can end in three ways that matter: within the
grammar (`ok [] false`), outside of it but unnoticed (`ok [] true`), and neither.
-/

namespace Catse

/-! ## The grammar -/

namespace ProtoType

/-- The number of bytes of a type of a fixed width. -/
def width : ProtoType → ℕ
  | byte => 1
  | short => 2
  | int => 4
  | uint => 4
  | double => 8
  | string => 0

/-- The bytes of a value of the type. -/
def Value (ty : ProtoType) (bs : List UInt8) : Prop :=
  match ty with
  | string => ∃ str : List UInt8, str.length < 2^15 ∧ bs = beBytes 2 str.length ++ str
  | _ => bs.length = ty.width

end ProtoType

/-- The bytes of an array with items of `P`, at most `cnt` of them. -/
def ArrayOf (cnt : ℤ) (P : List UInt8 → Prop) (bs : List UInt8) : Prop :=
  ∃ items : List (List UInt8), items.length < 2^15 ∧ (items.length : ℤ) ≤ cnt ∧
    (∀ i ∈ items, P i) ∧ bs = beBytes 2 items.length ++ items.flatten

/-- The bytes of a packet with the template. -/
def Template.Packet : Template → List UInt8 → Prop
  | done, bs => bs = []
  | leaf _ cnt ty rest, bs =>
    ∃ a b, bs = a ++ b ∧ (if cnt < 2 then ty.Value a else ArrayOf cnt ty.Value a) ∧ rest.Packet b
  | node _ cnt sub rest, bs =>
    ∃ a b, bs = a ++ b ∧ (if cnt < 2 then sub.Packet a else ArrayOf cnt sub.Packet a) ∧
      rest.Packet b

/-! ## The scan -/

/-- Where a scan has come to: behind what it has scanned, with `dropped` if it has gone on behind a
bad field; behind a bad field; or nowhere, when bytes are missing or an error is certain. -/
inductive Scan where
  | ok (rest : List UInt8) (dropped : Bool)
  | fails (rest : List UInt8)
  | stuck
  deriving DecidableEq

namespace Scan

/-- The scan goes on with `g`. -/
def andThen (sc : Scan) (g : List UInt8 → Scan) : Scan :=
  match sc with
  | ok rest dropped =>
    match g rest with
    | ok rest' dropped' => ok rest' (dropped || dropped')
    | fails rest' => fails rest'
    | stuck => stuck
  | fails rest => fails rest
  | stuck => stuck

/-- A failure inside of a struct or of an array of scalars leaves something on the stack, so that
the comparison of its heights ends in an error. -/
def inside : Scan → Scan
  | fails _ => stuck
  | sc => sc

/-- A failure of an element of an array of structs is dropped. -/
def caught : Scan → Scan
  | fails rest => ok rest true
  | sc => sc

/-- `k` bytes. -/
def bytes (k : ℕ) (bs : List UInt8) : Scan :=
  if bs.length < k then stuck else ok (bs.drop k) false

/-- A short `n`, and then `g n`. -/
def short (bs : List UInt8) (g : ℤ → List UInt8 → Scan) : Scan :=
  if bs.length < 2 then stuck else g (toShort (ofBE (bs.take 2))) (bs.drop 2)

/-- A value of the type. -/
def value (ty : ProtoType) (bs : List UInt8) : Scan :=
  match ty with
  | .string => short bs fun len bs => if len < 0 then fails bs else bytes len.toNat bs
  | _ => bytes ty.width bs

/-- `n` items. -/
def times (item : List UInt8 → Scan) : ℕ → List UInt8 → Scan
  | 0, bs => ok bs false
  | n + 1, bs => (item bs).andThen (times item n)

/-- An array. -/
def array (cnt : ℤ) (item : List UInt8 → Scan) (bs : List UInt8) : Scan :=
  short bs fun len bs =>
    if 0 ≤ len ∧ len ≤ cnt then (times item len.toNat bs).inside else fails bs

end Scan

/-- The scan of a packet with the template. -/
def Template.scan : Template → List UInt8 → Scan
  | done, bs => .ok bs false
  | leaf _ cnt ty rest, bs =>
    (if cnt < 2 then Scan.value ty bs else Scan.array cnt (Scan.value ty) bs).andThen rest.scan
  | node _ cnt sub rest, bs =>
    (if cnt < 2 then (sub.scan bs).inside
      else Scan.array cnt (fun bs => (sub.scan bs).caught) bs).andThen rest.scan

/-- Some element of an array of structs, at whatever depth, has a count or a length that the grammar
does not allow, behind which the rest of the packet reads to its end. -/
def Template.Drops (T : Template) (bs : List UInt8) : Prop := T.scan bs = .ok [] true

instance (T : Template) (bs : List UInt8) : Decidable (T.Drops bs) :=
  inferInstanceAs (Decidable (T.scan bs = .ok [] true))

/-! ## A scan that drops nothing stays within the grammar -/

namespace Scan

/-- What a scan passes without dropping anything is in `P`. -/
def Within (sc : List UInt8 → Scan) (P : List UInt8 → Prop) : Prop :=
  ∀ bs rest, sc bs = ok rest false → ∃ a, bs = a ++ rest ∧ P a

theorem within_bytes (k : ℕ) : Within (bytes k) fun a => a.length = k := by
  intro bs rest h
  unfold bytes at h
  split at h
  · cases h
  · cases h
    refine ⟨bs.take k, (List.take_append_drop k bs).symm, ?_⟩
    show (bs.take k).length = k
    rw [List.length_take]
    omega

/-- The two bytes of a count or a length that is not negative. -/
theorem take_two_eq {bs : List UInt8} (hlen : ¬bs.length < 2)
    (h0 : 0 ≤ toShort (ofBE (bs.take 2))) :
    (toShort (ofBE (bs.take 2))).toNat < 2^15 ∧
      bs = beBytes 2 (toShort (ofBE (bs.take 2))).toNat ++ bs.drop 2 := by
  have htake : (bs.take 2).length = 2 := by
    rw [List.length_take]
    omega
  have hrange := toShort_range (ofBE (bs.take 2))
  have hbytes := beInt_toShort_ofBE htake
  -- A short that is not negative is its own residue.
  have hmod : toShort (ofBE (bs.take 2)) % 2^(8 * 2) = toShort (ofBE (bs.take 2)) :=
    Int.emod_eq_of_lt h0 (by omega)
  rw [beInt, hmod] at hbytes
  refine ⟨by omega, ?_⟩
  rw [hbytes]
  exact (List.take_append_drop 2 bs).symm

theorem within_value (ty : ProtoType) : Within (value ty) ty.Value := by
  cases ty with
  | string =>
    intro bs rest h
    dsimp only [value, short] at h
    split at h
    · cases h
    rename_i hlen
    split at h
    · cases h
    rename_i h0
    obtain ⟨hlt, hbs⟩ := take_two_eq hlen (Int.not_lt.mp h0)
    obtain ⟨str, hstr, hl⟩ := within_bytes _ _ _ h
    refine ⟨beBytes 2 str.length ++ str, ?_, str, by rw [hl]; exact hlt, rfl⟩
    rw [List.append_assoc, ← hstr, hl]
    exact hbs
  | _ => exact within_bytes _

theorem within_andThen {sc sc' : List UInt8 → Scan} {P P' : List UInt8 → Prop}
    (h : Within sc P) (h' : Within sc' P') :
    Within (fun bs => (sc bs).andThen sc') fun bs => ∃ a b, bs = a ++ b ∧ P a ∧ P' b := by
  intro bs rest heq
  dsimp only [andThen] at heq
  cases hsc : sc bs with
  | fails r => rw [hsc] at heq; cases heq
  | stuck => rw [hsc] at heq; cases heq
  | ok r dropped =>
    rw [hsc] at heq
    dsimp only at heq
    cases hsc' : sc' r with
    | fails r' => rw [hsc'] at heq; cases heq
    | stuck => rw [hsc'] at heq; cases heq
    | ok r' dropped' =>
      rw [hsc'] at heq
      injection heq with hrest hor
      -- Neither part has dropped anything.
      obtain ⟨rfl, rfl⟩ := Bool.or_eq_false_iff.mp hor
      subst hrest
      obtain ⟨a, ha, hPa⟩ := h bs r hsc
      obtain ⟨b, hb, hPb⟩ := h' r r' hsc'
      refine ⟨a ++ b, ?_, a, b, rfl, hPa, hPb⟩
      rw [ha, hb, List.append_assoc]

theorem within_inside {sc : List UInt8 → Scan} {P : List UInt8 → Prop} (h : Within sc P) :
    Within (fun bs => (sc bs).inside) P := by
  intro bs rest heq
  dsimp only at heq
  cases hsc : sc bs with
  | fails r => rw [hsc] at heq; cases heq
  | stuck => rw [hsc] at heq; cases heq
  | ok r dropped =>
    rw [hsc] at heq
    exact h bs rest (hsc.trans heq)

theorem within_caught {sc : List UInt8 → Scan} {P : List UInt8 → Prop} (h : Within sc P) :
    Within (fun bs => (sc bs).caught) P := by
  intro bs rest heq
  dsimp only at heq
  cases hsc : sc bs with
  | fails r => rw [hsc] at heq; cases heq
  | stuck => rw [hsc] at heq; cases heq
  | ok r dropped =>
    rw [hsc] at heq
    exact h bs rest (hsc.trans heq)

theorem within_times {item : List UInt8 → Scan} {P : List UInt8 → Prop} (h : Within item P)
    (n : ℕ) :
    Within (times item n) fun bs =>
      ∃ items : List (List UInt8), items.length = n ∧ (∀ i ∈ items, P i) ∧ bs = items.flatten := by
  induction n with
  | zero =>
    intro bs rest heq
    cases heq
    exact ⟨[], rfl, [], rfl, by simp, rfl⟩
  | succ n ih =>
    intro bs rest heq
    obtain ⟨a, ha, i, b, rfl, hi, items, hlen, hall, rfl⟩ := within_andThen h ih bs rest heq
    refine ⟨_, ha, i :: items, by rw [List.length_cons, hlen], ?_, rfl⟩
    intro k hk
    rcases List.mem_cons.mp hk with rfl | hk
    · exact hi
    · exact hall k hk

theorem within_array {item : List UInt8 → Scan} {P : List UInt8 → Prop} (h : Within item P)
    (cnt : ℤ) : Within (array cnt item) (ArrayOf cnt P) := by
  intro bs rest heq
  dsimp only [array, short] at heq
  split at heq
  · cases heq
  rename_i hlen
  split at heq
  · rename_i hcnt
    obtain ⟨hlt, hbs⟩ := take_two_eq hlen hcnt.1
    obtain ⟨a, ha, items, hn, hall, rfl⟩ := within_inside (within_times h _) _ _ heq
    refine ⟨beBytes 2 items.length ++ items.flatten, ?_, items, by rw [hn]; exact hlt, ?_, hall,
      rfl⟩
    · rw [List.append_assoc, ← ha, hn]
      exact hbs
    · rw [hn, Int.toNat_of_nonneg hcnt.1]
      exact hcnt.2
  · cases heq

end Scan

open Scan in
/-- A scan that drops nothing has passed bytes of the grammar. -/
theorem Template.within_scan (T : Template) : Within T.scan T.Packet := by
  induction T with
  | done =>
    intro bs rest heq
    cases heq
    exact ⟨[], rfl, rfl⟩
  | leaf name cnt ty rest ih =>
    have hfield : Within
        (fun bs => if cnt < 2 then value ty bs else array cnt (value ty) bs)
        (fun a => if cnt < 2 then ty.Value a else ArrayOf cnt ty.Value a) := by
      by_cases hcnt : cnt < 2
      · simp only [if_pos hcnt]
        exact within_value ty
      · simp only [if_neg hcnt]
        exact within_array (within_value ty) cnt
    exact within_andThen hfield ih
  | node name cnt sub rest ihsub ih =>
    have hfield : Within
        (fun bs => if cnt < 2 then (sub.scan bs).inside
          else array cnt (fun bs => (sub.scan bs).caught) bs)
        (fun a => if cnt < 2 then sub.Packet a else ArrayOf cnt sub.Packet a) := by
      by_cases hcnt : cnt < 2
      · simp only [if_pos hcnt]
        exact within_inside ihsub
      · simp only [if_neg hcnt]
        exact within_array (within_caught ihsub) cnt
    exact within_andThen hfield ih

end Catse
