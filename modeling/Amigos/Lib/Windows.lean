/-!
# Windows over a rising sequence

A window is a range of indices whose values lie close together: the last one is less than `w` above
the first one. It is maximal if it can be extended neither to the left nor to the right. A sweep
with two pointers finds the maximal windows in order: for every last index there is one first index
that may begin a maximal window, and `maximalWindow_succ_iff` says which, from what such a sweep
knows.
-/

set_option autoImplicit false

namespace Amigos.Lib

/-- The range from `s` on, in front of `e`, of the first `n` values of `p`. -/
structure MaximalWindow (p : Nat → Nat) (n w s e : Nat) : Prop where
  lt : s < e
  le : e ≤ n
  fits : p (e - 1) - p s < w
  left : s = 0 ∨ ¬ p (e - 1) - p (s - 1) < w
  right : e = n ∨ ¬ p e - p s < w

/-- The values rise. -/
def Rising (p : Nat → Nat) (n : Nat) : Prop := ∀ i j, i ≤ j → j < n → p i ≤ p j

/-- **The maximal windows that end with index `e`**: if `start` is the first index from which on
the values come up to that of `e`, it is the window from `start` on or none. -/
theorem maximalWindow_succ_iff {p : Nat → Nat} {n w start e : Nat} (hrising : Rising p n)
    (he : e < n) (hle : start ≤ e) (hbelow : ∀ i < start, p i + w ≤ p e)
    (hfits : p e - p start < w) (s : Nat) : MaximalWindow p n w s (e + 1) ↔
      s = start ∧ (e + 1 = n ∨ ¬ p (e + 1) - p start < w) := by
  constructor
  · intro h
    have hs : s = start := by
      rcases Nat.lt_trichotomy s start with hlt | heq | hgt
      · -- In front of `start` the values are too far away.
        have hfar := hbelow s hlt
        have hnear : p e - p s < w := h.fits
        omega
      · exact heq
      · -- Behind it the window can be extended to the left.
        have hlt := h.lt
        have hnear : p start ≤ p (s - 1) := hrising start (s - 1) (by omega) (by omega)
        have hmax : s = 0 ∨ ¬ p e - p (s - 1) < w := h.left
        omega
    subst hs
    exact ⟨rfl, h.right⟩
  · rintro ⟨rfl, hright⟩
    refine ⟨Nat.lt_succ_of_le hle, he, hfits, ?_, hright⟩
    rcases Nat.eq_zero_or_pos s with hzero | hpos
    · exact .inl hzero
    · refine .inr ?_
      have hfar := hbelow (s - 1) (Nat.sub_lt hpos Nat.one_pos)
      show ¬ p e - p (s - 1) < w
      omega

end Amigos.Lib
