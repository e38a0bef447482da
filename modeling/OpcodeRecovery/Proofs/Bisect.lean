import Mathlib.Tactic
import OpcodeRecovery.Bisect

/-!
Search by halving is right where the keys strictly ascend.

* `exists_of_bisectIn`: what is found has the key, in whatever order the elements stand.
* `bisectIn_of_place`: in strictly ascending order an element is found by a search that starts
  around it. The half that is given up lies on the other side of the element.
* `bisect_eq_some_iff`: a place is found exactly if the element there has the key.
-/

namespace OpcodeRecovery

variable {α : Type} {f : α → ℕ} {xs : Array α} {k lo hi i : ℕ}

/-- What is found has the key. -/
lemma exists_of_bisectIn (h : bisectIn f xs k lo hi = some i) :
    ∃ x, xs[i]? = some x ∧ f x = k := by
  fun_induction bisectIn f xs k lo hi with
  | case1 lo hi hlt mid hnone => cases h
  | case2 lo hi hlt mid x hx hkey =>
      obtain rfl := Option.some.inj h
      exact ⟨x, hx, hkey⟩
  | case3 lo hi hlt mid x hx hne hless ih => exact ih h
  | case4 lo hi hlt mid x hx hne hless ih => exact ih h
  | case5 lo hi hlt => cases h

section Ascending

variable (hxs : xs.toList.Pairwise fun x y => f x < f y)

include hxs in
lemma key_lt_key {x y : α} {j : ℕ} (hx : xs[i]? = some x) (hy : xs[j]? = some y) (h : i < j) :
    f x < f y := by
  rw [← Array.getElem?_toList] at hx hy
  obtain ⟨hi, rfl⟩ := List.getElem?_eq_some_iff.mp hx
  obtain ⟨hj, rfl⟩ := List.getElem?_eq_some_iff.mp hy
  exact List.pairwise_iff_getElem.mp hxs i j hi hj h

include hxs in
/-- Places compare as the keys there do. -/
lemma place_lt_iff {x y : α} {j : ℕ} (hx : xs[i]? = some x) (hy : xs[j]? = some y) :
    i < j ↔ f x < f y := by
  refine ⟨key_lt_key hxs hx hy, fun h => ?_⟩
  rcases Nat.lt_trichotomy i j with hlt | rfl | hgt
  · exact hlt
  · obtain rfl := Option.some.inj (hx.symm.trans hy)
    exact absurd h (Nat.lt_irrefl _)
  · have hback := key_lt_key hxs hy hx hgt
    omega

include hxs in
/-- An element is found by a search that starts around it. -/
lemma bisectIn_of_place {x : α} (hx : xs[i]? = some x) (hkey : f x = k) (hlo : lo ≤ i)
    (hhi : i < hi) (hsize : hi ≤ xs.size) : bisectIn f xs k lo hi = some i := by
  fun_induction bisectIn f xs k lo hi with
  | case1 lo hi hlt mid hnone =>
      rw [Array.getElem?_eq_none_iff] at hnone
      omega
  | case2 lo hi hlt mid y hy hkey' =>
      have hbefore := place_lt_iff hxs hx hy
      have hbehind := place_lt_iff hxs hy hx
      rw [show mid = i by omega]
  | case3 lo hi hlt mid y hy hne hless ih =>
      exact ih ((place_lt_iff hxs hy hx).mpr (by omega)) hhi hsize
  | case4 lo hi hlt mid y hy hne hless ih =>
      exact ih hlo ((place_lt_iff hxs hx hy).mpr (by omega)) (by omega)
  | case5 lo hi hlt => omega

include hxs in
/-- **Search by halving**: where the keys strictly ascend, the place that is found is the one whose
element has the key. -/
theorem bisect_eq_some_iff : bisect f xs k = some i ↔ ∃ x, xs[i]? = some x ∧ f x = k := by
  refine ⟨exists_of_bisectIn, ?_⟩
  rintro ⟨x, hx, hkey⟩
  obtain ⟨hsize, -⟩ := Array.getElem?_eq_some_iff.mp hx
  exact bisectIn_of_place hxs hx hkey (Nat.zero_le i) hsize (Nat.le_refl _)

end Ascending

end OpcodeRecovery
