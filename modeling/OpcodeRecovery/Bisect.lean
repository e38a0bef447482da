/-!
Search by halving. In an array whose elements stand in ascending order of a numeric key,
`bisect` finds the place of the element with a given key.
-/

namespace OpcodeRecovery

/-- The place of the element with key `k` among the places from `lo` on and below `hi`. -/
def bisectIn {α : Type} (f : α → Nat) (xs : Array α) (k lo hi : Nat) : Option Nat :=
  if _h : lo < hi then
    let mid := (lo + hi) / 2
    match xs[mid]? with
    | none => none
    | some x =>
      if f x = k then some mid
      else if f x < k then bisectIn f xs k (mid + 1) hi
      else bisectIn f xs k lo mid
  else none
termination_by hi - lo
decreasing_by all_goals omega

/-- The place of the element with key `k` in an array with ascending keys. -/
def bisect {α : Type} (f : α → Nat) (xs : Array α) (k : Nat) : Option Nat :=
  bisectIn f xs k 0 xs.size

end OpcodeRecovery
