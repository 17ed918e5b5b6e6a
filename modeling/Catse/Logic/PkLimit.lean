import Mathlib.Logic.Function.Basic
import Catse.Lib.Double

/-!
# The rate limit of `pk_limit.h`

`PkLimit` embeds the tables of `pk_limit`: for each packet id how many packets an interval allows
(`cnt`) and how many milliseconds it lasts (`second`), and for each descriptor and id the number and
the start of the current interval (`last_cnt`, `last_time`). The table of names is read by log lines
alone and is left out.
-/

namespace Catse

/-- `pk_limit`. -/
structure PkLimit where
  cnt : ℤ → ℤ
  second : ℤ → ℤ
  last_cnt : ℤ → ℤ → ℤ
  last_time : ℤ → ℤ → ℤ

namespace PkLimit

/-- `pk_limit::fd_max`. -/
def fdMax : ℤ := 16384

/-- `pk_limit::id_max`. -/
def idMax : ℤ := 3072

/-- What `check_pk_limit` returns. -/
inductive Err where
  | ok
  | fd_invalid
  | id_invalid
  | fixing
  | too_fast
  deriving DecidableEq

/-- Zeroed static storage. -/
def init : PkLimit := ⟨fun _ => 0, fun _ => 0, fun _ _ => 0, fun _ _ => 0⟩

/-- `pk_limit::check_pk_limit`. -/
def checkPkLimit (l : PkLimit) (cur_time fd id : ℤ) : Err × PkLimit :=
  if ¬(0 ≤ fd ∧ fd < fdMax) then (.fd_invalid, l)
  else if ¬(0 ≤ id ∧ id < idMax) then (.id_invalid, l)
  else if l.cnt id ≤ 0 then (.fixing, l)
  else if l.second id ≤ 0 then (.ok, l)
  else if cur_time < l.last_time fd id + l.second id ∧ l.cnt id ≤ l.last_cnt fd id then
    (.too_fast, l)
  else
    let fresh := l.last_time fd id + l.second id ≤ cur_time
    let used := if fresh then 0 else l.last_cnt fd id
    (.ok, { l with
      last_time := if fresh then
          Function.update l.last_time fd (Function.update (l.last_time fd) id cur_time)
        else l.last_time
      last_cnt :=
        Function.update l.last_cnt fd (Function.update (l.last_cnt fd) id (toChar (used + 1))) })

/-- `pk_limit::set_limit`, or `none` when it raises a Lua error. -/
def setLimit (l : PkLimit) (key second cnt : Double) : Option PkLimit :=
  if ¬(0 ≤ key.castShort ∧ key.castShort < idMax) then none
  else some { l with
    second := Function.update l.second key.castShort second.castShort
    cnt := Function.update l.cnt key.castShort cnt.castChar }

end PkLimit

end Catse
