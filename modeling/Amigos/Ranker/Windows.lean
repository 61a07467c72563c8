import Mathlib.Algebra.BigOperators.Group.List.Basic
import Mathlib.Algebra.Field.Rat
import Amigos.Lib.Loop
import Amigos.Lib.Windows

/-!
# Passages (`calculate_bonus`, `get_rank`)

The tokens of a query stand at some positions of a zone, and a passage is a run of positions that
are close together. `get_rank` goes over them with two iterators and adds up a bonus for every
passage that cannot be made longer. The iterators are indices here, and one that is dereferenced at
the end of the list is undefined. What `float` makes of the bonuses is a parameter: the result is
the bonuses of the windows, added one after the other (`getRank_windows`), and their sum where
nothing is rounded (`getRank_eq_sum`).

`Swept` is the invariant: which windows have been counted when the iterators stand where they
stand.
-/

set_option autoImplicit false

namespace Amigos.Ranker

open Amigos.Lib

/-! ## The source -/

/-- `MAX_WINDOW_SIZE`. -/
def maxWindowSize : UInt64 := 10

/-- The arithmetic that the rank is computed in. -/
structure FloatOps (φ : Type) where
  /-- `0`, as a `float`. -/
  zero : φ
  /-- `1000`, as a `float`. -/
  thousand : φ
  /-- `200.0*float(size)/float(window_size)`, as a `float`. -/
  share : (size : Nat) → (windowSize : UInt64) → φ
  /-- `+` of two `float`. -/
  add : φ → φ → φ

/-- Nothing is rounded. -/
def FloatOps.exact : FloatOps ℚ where
  zero := 0
  thousand := 1000
  share size windowSize := 200 * (size : ℚ) / (windowSize.toNat : ℚ)
  add := (· + ·)

section

variable {φ : Type} (ops : FloatOps φ)

/-- The value of `calculate_bonus` for the elements of a window. -/
def bonusOf (window : List (UInt16 × Nat)) (windowSize : UInt64) : φ :=
  let wordsIdInPassage := (window.map Prod.snd).eraseDups
  if windowSize.toNat ≤ wordsIdInPassage.length then ops.thousand
  else ops.share wordsIdInPassage.length windowSize

/-- The elements from `startW` on, up to `endW`. -/
def passage (allPos : List (UInt16 × Nat)) (startW endW : Nat) : List (UInt16 × Nat) :=
  (allPos.drop startW).take (endW - startW)

/-- `calculate_bonus`; its loop runs off the list if `endW` is not ahead. -/
def calculateBonus (allPos : List (UInt16 × Nat)) (startW endW : Nat) (windowSize : UInt64) :
    Option φ :=
  if startW ≤ endW ∧ endW ≤ allPos.length then
    some (bonusOf ops (passage allPos startW endW) windowSize)
  else none

/-- `end_w->first - start_w->first < window_size`: the difference is an `int`, and is converted to
the unsigned type of the size. -/
def isNear (endFirst startFirst : UInt16) (windowSize : UInt64) : Bool :=
  decide ((((endFirst.toNat : Int) - (startFirst.toNat : Int)) % 2 ^ 64).toNat < windowSize.toNat)

/-- The locals of `get_rank`, and the calls of `calculate_bonus` so far. -/
structure RankState (φ : Type) where
  startW : Nat
  endW : Nat
  result : φ
  windows : List (Nat × Nat)
  deriving DecidableEq, Repr

/-- `result += calculate_bonus(start_w, end_w, window_size)`. -/
def RankState.addBonus (allPos : List (UInt16 × Nat)) (windowSize : UInt64) (s : RankState φ) :
    Option (RankState φ) := do
  let bonus ← calculateBonus ops allPos s.startW s.endW windowSize
  return { s with
    result := ops.add s.result bonus
    windows := s.windows ++ [(s.startW, s.endW)] }

/-- One pass of the loop of `get_rank`. -/
def rankPass (allPos : List (UInt16 × Nat)) (windowSize : UInt64) (s : RankState φ) :
    Option (Pass (RankState φ) (RankState φ)) :=
  if s.endW = allPos.length then some (.leave s)
  else do
    let endElem ← allPos[s.endW]?
    let startElem ← allPos[s.startW]?
    if isNear endElem.1 startElem.1 windowSize then
      let s := { s with endW := s.endW + 1 }
      if s.endW ≠ allPos.length then
        let endElem ← allPos[s.endW]?
        if isNear endElem.1 startElem.1 windowSize then return .again s
        else
          let s ← s.addBonus ops allPos windowSize
          return .again { s with startW := s.startW + 1 }
      else
        let s ← s.addBonus ops allPos windowSize
        return .again s
    else return .again { s with startW := s.startW + 1 }

/-- The iterators at the beginning. -/
def RankState.start : RankState φ :=
  { startW := 0, endW := 0, result := ops.zero, windows := [] }

/-- The window size that `get_rank` goes on with. -/
def clampWindow (windowSize : UInt64) : UInt64 :=
  if windowSize > maxWindowSize then maxWindowSize else windowSize

/-- `get_rank`: the rank and, for the proofs, the windows that it has called `calculate_bonus`
for. -/
def getRank (fuel : Nat) (allPos : List (UInt16 × Nat)) (windowSize : UInt64) :
    Option (φ × List (Nat × Nat)) :=
  if allPos.length = 0 then some (ops.zero, [])
  else (iterate (rankPass ops allPos (clampWindow windowSize)) fuel (.start ops)).map fun s =>
    (s.result, s.windows)

end

/-! ## Positions -/

/-- The `k`-th position. -/
def posAt (allPos : List (UInt16 × Nat)) (k : Nat) : Nat := allPos[k]?.elim 0 fun e => e.1.toNat

theorem posAt_eq {allPos : List (UInt16 × Nat)} {k : Nat} (hk : k < allPos.length) :
    posAt allPos k = allPos[k].1.toNat := by
  rw [posAt, List.getElem?_eq_getElem hk]
  rfl

theorem rising_posAt {allPos : List (UInt16 × Nat)}
    (hsorted : allPos.Pairwise fun a b => a.1 ≤ b.1) : Rising (posAt allPos) allPos.length := by
  intro i j hij hj
  rw [posAt_eq (Nat.lt_of_le_of_lt hij hj), posAt_eq hj]
  rcases Nat.eq_or_lt_of_le hij with rfl | hlt
  · exact Nat.le_refl _
  · exact UInt16.le_iff_toNat_le.mp (List.pairwise_iff_getElem.mp hsorted i j _ hj hlt)

/-- Between sorted positions the difference is not negative, and the comparison is right. -/
theorem isNear_iff {endFirst startFirst : UInt16} (h : startFirst.toNat ≤ endFirst.toNat)
    (windowSize : UInt64) : isNear endFirst startFirst windowSize = true ↔
      endFirst.toNat - startFirst.toNat < windowSize.toNat := by
  have hlt := UInt16.toNat_lt endFirst
  have hdiff : (((endFirst.toNat : Int) - (startFirst.toNat : Int)) % 2 ^ 64).toNat
      = endFirst.toNat - startFirst.toNat := by
    rw [← Nat.cast_sub h, Int.emod_eq_of_lt (Int.natCast_nonneg _) (by omega), Int.toNat_natCast]
  rw [isNear, hdiff, decide_eq_true_eq]

/-! ## The sweep -/

section

variable {φ : Type} (ops : FloatOps φ)

/-- The bonus of a window. -/
def windowBonus (allPos : List (UInt16 × Nat)) (windowSize : UInt64) (window : Nat × Nat) : φ :=
  bonusOf ops (passage allPos window.1 window.2) windowSize

/-- The bonuses of some windows, added one after the other. -/
def addUp (allPos : List (UInt16 × Nat)) (windowSize : UInt64) (windows : List (Nat × Nat)) : φ :=
  windows.foldl (fun result window => ops.add result (windowBonus ops allPos windowSize window))
    ops.zero

/-- A state with one window more. -/
def RankState.withWindow (allPos : List (UInt16 × Nat)) (windowSize : UInt64) (s : RankState φ) :
    RankState φ :=
  { s with
    result := ops.add s.result (windowBonus ops allPos windowSize (s.startW, s.endW))
    windows := s.windows ++ [(s.startW, s.endW)] }

end

/-- Where nothing is rounded this is the sum. -/
theorem addUp_exact (allPos : List (UInt16 × Nat)) (windowSize : UInt64)
    (windows : List (Nat × Nat)) : addUp .exact allPos windowSize windows
      = (windows.map (windowBonus .exact allPos windowSize)).sum := by
  rw [List.sum_eq_foldl, List.foldl_map]
  rfl

section

variable {φ : Type} {ops : FloatOps φ} {allPos : List (UInt16 × Nat)} {windowSize : UInt64}

theorem RankState.addBonus_eq {s : RankState φ} (hle : s.startW ≤ s.endW)
    (hend : s.endW ≤ allPos.length) :
    s.addBonus ops allPos windowSize = some (s.withWindow ops allPos windowSize) := by
  rw [addBonus, calculateBonus, if_pos ⟨hle, hend⟩]
  rfl

/-- **What a pass can do**, in front of the end of the list. -/
theorem rankPass_cases (hsorted : allPos.Pairwise fun a b => a.1 ≤ b.1) {s : RankState φ}
    (hle : s.startW ≤ s.endW) (hend : s.endW < allPos.length) :
    (posAt allPos s.endW - posAt allPos s.startW < windowSize.toNat ∧
      s.endW + 1 < allPos.length ∧
      posAt allPos (s.endW + 1) - posAt allPos s.startW < windowSize.toNat ∧
      rankPass ops allPos windowSize s = some (.again { s with endW := s.endW + 1 })) ∨
    (posAt allPos s.endW - posAt allPos s.startW < windowSize.toNat ∧
      s.endW + 1 < allPos.length ∧
      ¬ posAt allPos (s.endW + 1) - posAt allPos s.startW < windowSize.toNat ∧
      rankPass ops allPos windowSize s = some (.again
        { RankState.withWindow ops allPos windowSize { s with endW := s.endW + 1 } with
          startW := s.startW + 1 })) ∨
    (posAt allPos s.endW - posAt allPos s.startW < windowSize.toNat ∧
      s.endW + 1 = allPos.length ∧
      rankPass ops allPos windowSize s = some (.again
        (RankState.withWindow ops allPos windowSize { s with endW := s.endW + 1 }))) ∨
    (¬ posAt allPos s.endW - posAt allPos s.startW < windowSize.toNat ∧
      rankPass ops allPos windowSize s = some (.again { s with startW := s.startW + 1 })) := by
  have hstart : s.startW < allPos.length := Nat.lt_of_le_of_lt hle hend
  have hnear : ∀ {k : Nat} (hk : k < allPos.length), s.startW ≤ k →
      (isNear allPos[k].1 allPos[s.startW].1 windowSize = true ↔
        posAt allPos k - posAt allPos s.startW < windowSize.toNat) := by
    intro k hk hsk
    have hpos := rising_posAt hsorted s.startW k hsk hk
    rw [posAt_eq hk, posAt_eq hstart] at hpos ⊢
    exact isNear_iff hpos windowSize
  simp only [rankPass, if_neg (Nat.ne_of_lt hend), List.getElem?_eq_getElem hend,
    List.getElem?_eq_getElem hstart, Option.bind_eq_bind, Option.bind_some]
  by_cases hfits : posAt allPos s.endW - posAt allPos s.startW < windowSize.toNat
  · rw [if_pos ((hnear hend hle).mpr hfits)]
    have hbonus := @RankState.addBonus_eq φ ops allPos windowSize { s with endW := s.endW + 1 }
      (Nat.le_succ_of_le hle) hend
    by_cases hlast : s.endW + 1 = allPos.length
    · rw [if_neg (not_not.mpr hlast), hbonus]
      exact .inr (.inr (.inl ⟨hfits, hlast, rfl⟩))
    · have hnext : s.endW + 1 < allPos.length := Nat.lt_of_le_of_ne hend hlast
      rw [if_pos hlast, List.getElem?_eq_getElem hnext, Option.bind_some]
      by_cases hmore : posAt allPos (s.endW + 1) - posAt allPos s.startW < windowSize.toNat
      · rw [if_pos ((hnear hnext (Nat.le_succ_of_le hle)).mpr hmore)]
        exact .inl ⟨hfits, hnext, hmore, rfl⟩
      · rw [if_neg (mt (hnear hnext (Nat.le_succ_of_le hle)).mp hmore), hbonus]
        exact .inr (.inl ⟨hfits, hnext, hmore, rfl⟩)
  · rw [if_neg (mt (hnear hend hle).mp hfits)]
    exact .inr (.inr (.inr ⟨hfits, rfl⟩))

/-- **What has been swept**: the windows up to the end iterator have been counted, in order. In
front of the start iterator the positions are too far away from the one at the end iterator. -/
structure Swept (ops : FloatOps φ) (allPos : List (UInt16 × Nat)) (windowSize : UInt64)
    (s : RankState φ) : Prop where
  le : s.startW ≤ s.endW
  le_length : s.endW ≤ allPos.length
  below : s.endW < allPos.length → ∀ i < s.startW,
    posAt allPos i + windowSize.toNat ≤ posAt allPos s.endW
  mem_windows : ∀ a b, (a, b) ∈ s.windows ↔
    b ≤ s.endW ∧ MaximalWindow (posAt allPos) allPos.length windowSize.toNat a b
  ascending : s.windows.Pairwise fun u v => u.1 < v.1 ∧ u.2 < v.2
  behind : s.endW < allPos.length → ∀ u ∈ s.windows, u.1 < s.startW
  result : s.result = addUp ops allPos windowSize s.windows

theorem Swept.start : Swept ops allPos windowSize (.start ops) where
  le := Nat.le_refl 0
  le_length := Nat.zero_le _
  below _ i hi := absurd hi (Nat.not_lt_zero i)
  mem_windows a b := by
    constructor
    · exact fun h => absurd h List.not_mem_nil
    · rintro ⟨hb, h⟩
      have hlt : a < b := h.lt
      rw [Nat.le_zero.mp hb] at hlt
      exact absurd hlt (Nat.not_lt_zero a)
  ascending := .nil
  behind _ u hu := absurd hu List.not_mem_nil
  result := rfl

/-- The windows that end one further, where the positions at both iterators are near. -/
theorem Swept.mem_succ (hsorted : allPos.Pairwise fun a b => a.1 ≤ b.1) {s : RankState φ}
    (h : Swept ops allPos windowSize s) (hend : s.endW < allPos.length)
    (hfits : posAt allPos s.endW - posAt allPos s.startW < windowSize.toNat) (a b : Nat) :
    (b ≤ s.endW + 1 ∧ MaximalWindow (posAt allPos) allPos.length windowSize.toNat a b) ↔
      (a, b) ∈ s.windows ∨ (b = s.endW + 1 ∧ a = s.startW ∧ (s.endW + 1 = allPos.length ∨
        ¬ posAt allPos (s.endW + 1) - posAt allPos s.startW < windowSize.toNat)) := by
  have hnew := maximalWindow_succ_iff (rising_posAt hsorted) hend h.le (h.below hend) hfits a
  rw [h.mem_windows]
  constructor
  · rintro ⟨hb, hmax⟩
    rcases Nat.eq_or_lt_of_le hb with rfl | hlt
    · exact .inr ⟨rfl, hnew.mp hmax⟩
    · exact .inl ⟨Nat.le_of_lt_succ hlt, hmax⟩
  · rintro (⟨hb, hmax⟩ | ⟨rfl, hmax⟩)
    · exact ⟨Nat.le_succ_of_le hb, hmax⟩
    · exact ⟨Nat.le_refl _, hnew.mpr hmax⟩

/-- A window is counted, behind all others. -/
theorem Swept.ascending_append {s : RankState φ} (h : Swept ops allPos windowSize s)
    (hend : s.endW < allPos.length) :
    (s.windows ++ [(s.startW, s.endW + 1)]).Pairwise fun u v => u.1 < v.1 ∧ u.2 < v.2 := by
  refine List.pairwise_append.mpr ⟨h.ascending, List.pairwise_singleton _ _, fun u hu v hv => ?_⟩
  rw [List.mem_singleton.mp hv]
  exact ⟨h.behind hend u hu, Nat.lt_succ_of_le ((h.mem_windows u.1 u.2).mp hu).1⟩

/-- A window is counted where it cannot be extended to the right. -/
theorem Swept.mem_append (hsorted : allPos.Pairwise fun a b => a.1 ≤ b.1) {s : RankState φ}
    (h : Swept ops allPos windowSize s) (hend : s.endW < allPos.length)
    (hfits : posAt allPos s.endW - posAt allPos s.startW < windowSize.toNat)
    (hright : s.endW + 1 = allPos.length ∨
      ¬ posAt allPos (s.endW + 1) - posAt allPos s.startW < windowSize.toNat) (a b : Nat) :
    (a, b) ∈ s.windows ++ [(s.startW, s.endW + 1)] ↔
      b ≤ s.endW + 1 ∧ MaximalWindow (posAt allPos) allPos.length windowSize.toNat a b := by
  rw [h.mem_succ hsorted hend hfits, List.mem_append, List.mem_singleton, Prod.mk.injEq]
  apply or_congr_right
  constructor
  · intro heq
    exact ⟨heq.2, heq.1, hright⟩
  · intro heq
    exact ⟨heq.2.1, heq.1⟩

/-- Its bonus is added. -/
theorem Swept.result_append {s : RankState φ} (h : Swept ops allPos windowSize s) (e : Nat) :
    ops.add s.result (windowBonus ops allPos windowSize (s.startW, e))
      = addUp ops allPos windowSize (s.windows ++ [(s.startW, e)]) := by
  rw [h.result, addUp, addUp, List.foldl_append, List.foldl_cons, List.foldl_nil]

/-- How far the iterators have to go. -/
def RankState.left (allPos : List (UInt16 × Nat)) (s : RankState φ) : Nat :=
  (allPos.length - s.endW) + (allPos.length - s.startW)

/-- **Every pass keeps it** and moves an iterator on, until the end iterator is at the end. One case
for each thing that a pass can do. -/
theorem Swept.step (hsorted : allPos.Pairwise fun a b => a.1 ≤ b.1) (hsize : 1 ≤ windowSize)
    {s : RankState φ} (h : Swept ops allPos windowSize s) :
    (rankPass ops allPos windowSize s = some (.leave s) ∧ s.endW = allPos.length) ∨
      ∃ s', rankPass ops allPos windowSize s = some (.again s') ∧ Swept ops allPos windowSize s' ∧
        s'.left allPos < s.left allPos := by
  rcases Nat.eq_or_lt_of_le h.le_length with heq | hend
  · exact .inl ⟨by rw [rankPass, if_pos heq], heq⟩
  have hw : 1 ≤ windowSize.toNat := UInt64.le_iff_toNat_le.mp hsize
  have hle := h.le
  have hbelow := h.below hend
  right
  rcases rankPass_cases hsorted hle hend with ⟨hfits, hnext, hmore, hpass⟩ |
    ⟨hfits, hnext, hmore, hpass⟩ | ⟨hfits, hlast, hpass⟩ | ⟨hfar, hpass⟩
  · -- The window is not counted: it can be extended to the right.
    have hrise := rising_posAt hsorted s.endW (s.endW + 1) (Nat.le_succ _) hnext
    refine ⟨_, hpass, ⟨Nat.le_succ_of_le hle, hend, ?_, ?_, h.ascending, ?_, h.result⟩, ?_⟩
    · exact fun _ i hi => (hbelow i hi).trans hrise
    · intro a b
      refine Iff.trans ?_ (h.mem_succ hsorted hend hfits a b).symm
      refine (or_iff_left ?_).symm
      rintro ⟨-, -, hlast | hstop⟩
      · exact absurd hlast (Nat.ne_of_lt hnext)
      · exact hstop hmore
    · exact fun _ => h.behind hend
    · show (allPos.length - (s.endW + 1)) + (allPos.length - s.startW) < s.left allPos
      rw [RankState.left]
      omega
  · -- The window is counted, and the start iterator goes on.
    have hrise := rising_posAt hsorted s.endW (s.endW + 1) (Nat.le_succ _) hnext
    refine ⟨_, hpass, ⟨Nat.succ_le_succ hle, hend, ?_, ?_, h.ascending_append hend, ?_, ?_⟩, ?_⟩
    · intro _ i hi
      rcases Nat.lt_succ_iff_lt_or_eq.mp hi with hi | rfl
      · exact (hbelow i hi).trans hrise
      · show posAt allPos s.startW + windowSize.toNat ≤ posAt allPos (s.endW + 1)
        omega
    · exact h.mem_append hsorted hend hfits (.inr hmore)
    · intro _ u hu
      rcases List.mem_append.mp hu with hu | hu
      · exact Nat.lt_succ_of_lt (h.behind hend u hu)
      · rw [List.mem_singleton.mp hu]
        exact Nat.lt_succ_self _
    · exact h.result_append (s.endW + 1)
    · show (allPos.length - (s.endW + 1)) + (allPos.length - (s.startW + 1)) < s.left allPos
      rw [RankState.left]
      omega
  · -- The last window ends at the end of the list.
    refine ⟨_, hpass, ⟨Nat.le_succ_of_le hle, hend, ?_, ?_, h.ascending_append hend, ?_, ?_⟩, ?_⟩
    · exact fun hlt => absurd hlast (Nat.ne_of_lt hlt)
    · exact h.mem_append hsorted hend hfits (.inl hlast)
    · exact fun hlt => absurd hlast (Nat.ne_of_lt hlt)
    · exact h.result_append (s.endW + 1)
    · show (allPos.length - (s.endW + 1)) + (allPos.length - s.startW) < s.left allPos
      rw [RankState.left]
      omega
  · -- The start iterator goes on; it is behind the end iterator, where the positions are near.
    have hlt : s.startW < s.endW := by
      refine Nat.lt_of_le_of_ne hle fun heq => hfar ?_
      rw [heq, Nat.sub_self]
      exact hw
    refine ⟨_, hpass, ⟨hlt, h.le_length, ?_, h.mem_windows, h.ascending, ?_, h.result⟩, ?_⟩
    · intro _ i hi
      rcases Nat.lt_succ_iff_lt_or_eq.mp hi with hi | rfl
      · exact hbelow i hi
      · show posAt allPos s.startW + windowSize.toNat ≤ posAt allPos s.endW
        omega
    · exact fun _ u hu => Nat.lt_succ_of_lt (h.behind hend u hu)
    · show (allPos.length - s.endW) + (allPos.length - (s.startW + 1)) < s.left allPos
      rw [RankState.left]
      omega

/-- The loop comes to its end with all maximal windows. -/
theorem iterate_rankPass (hsorted : allPos.Pairwise fun a b => a.1 ≤ b.1)
    (hsize : 1 ≤ windowSize) : ∃ s, Swept ops allPos windowSize s ∧ s.endW = allPos.length ∧
      ∀ fuel, 2 * allPos.length < fuel →
        iterate (rankPass ops allPos windowSize) fuel (.start ops) = some s := by
  have hleft : RankState.left allPos (.start ops) < 2 * allPos.length + 1 := by
    show (allPos.length - 0) + (allPos.length - 0) < 2 * allPos.length + 1
    omega
  obtain ⟨s, hrun, hswept, hend⟩ := iterate_total (rankPass ops allPos windowSize)
    (Swept ops allPos windowSize) (RankState.left allPos)
    (fun s => Swept ops allPos windowSize s ∧ s.endW = allPos.length)
    (fun s h => (h.step hsorted hsize).imp (fun hleave => ⟨s, hleave.1, h, hleave.2⟩) id)
    (.start ops) .start hleft
  exact ⟨s, hswept, hend, fun fuel hfuel => iterate_mono (fun _ _ h => h) hfuel hrun⟩

end

theorem toNat_clampWindow (windowSize : UInt64) :
    (clampWindow windowSize).toNat = min windowSize.toNat 10 := by
  have hmax : maxWindowSize.toNat = 10 := rfl
  rw [clampWindow]
  split
  · rename_i hgt
    have := UInt64.lt_iff_toNat_lt.mp hgt
    omega
  · rename_i hle
    have := UInt64.lt_iff_toNat_lt.not.mp hle
    omega

theorem one_le_clampWindow {windowSize : UInt64} (hsize : 1 ≤ windowSize) :
    1 ≤ clampWindow windowSize := by
  have hone := UInt64.le_iff_toNat_le.mp hsize
  apply UInt64.le_iff_toNat_le.mpr
  rw [toNat_clampWindow]
  exact Nat.le_min.mpr ⟨hone, by decide⟩

/-- What `get_rank` returns. -/
theorem getRank_eq {φ : Type} (ops : FloatOps φ) (allPos : List (UInt16 × Nat))
    (windowSize : UInt64) (hsorted : allPos.Pairwise fun a b => a.1 ≤ b.1)
    (hsize : 1 ≤ windowSize) :
    ∃ windows : List (Nat × Nat),
      (∀ fuel, 2 * allPos.length < fuel → getRank ops fuel allPos windowSize
        = some (addUp ops allPos (clampWindow windowSize) windows, windows)) ∧
      windows.Pairwise (fun u v => u.1 < v.1 ∧ u.2 < v.2) ∧
      ∀ s e, (s, e) ∈ windows ↔
        MaximalWindow (posAt allPos) allPos.length (min windowSize.toNat 10) s e := by
  obtain ⟨s, hswept, hend, hrun⟩ := @iterate_rankPass φ ops _ _ hsorted (one_le_clampWindow hsize)
  refine ⟨s.windows, fun fuel hfuel => ?_, hswept.ascending, fun a b => ?_⟩
  · rw [getRank]
    split
    · rename_i hempty
      -- Without a position there is no window.
      have hnil : s.windows = [] := by
        apply List.eq_nil_iff_forall_not_mem.mpr
        rintro ⟨a, b⟩ hmem
        have hmax := ((hswept.mem_windows a b).mp hmem).2
        have hlt := hmax.lt
        have hle := hmax.le
        omega
      rw [hnil]
      rfl
    · rw [hrun fuel hfuel, Option.map_some, hswept.result]
  · rw [hswept.mem_windows, toNat_clampWindow]
    refine and_iff_right_of_imp fun hmax => ?_
    rw [hend]
    exact hmax.le

/-- What it returns where nothing is rounded. -/
theorem getRank_eq_sum (allPos : List (UInt16 × Nat)) (windowSize : UInt64)
    (hsorted : allPos.Pairwise fun a b => a.1 ≤ b.1) (hsize : 1 ≤ windowSize) :
    ∃ windows : List (Nat × Nat),
      (∀ fuel, 2 * allPos.length < fuel → getRank .exact fuel allPos windowSize
        = some ((windows.map (windowBonus .exact allPos (clampWindow windowSize))).sum,
          windows)) ∧
      windows.Pairwise (fun u v => u.1 < v.1 ∧ u.2 < v.2) ∧
      ∀ s e, (s, e) ∈ windows ↔
        MaximalWindow (posAt allPos) allPos.length (min windowSize.toNat 10) s e := by
  obtain ⟨windows, hrank, hascending, hmaximal⟩ :=
    getRank_eq .exact allPos windowSize hsorted hsize
  exact ⟨windows, fun fuel hfuel => by rw [hrank fuel hfuel, addUp_exact], hascending, hmaximal⟩

/-- **`get_rank` counts every maximal window once**, in order, and ends: with fuel for twice the
list no iterator is dereferenced at the end, and the start iterator never passes the end iterator.
Whatever the arithmetic, the result is the bonuses of these windows, added up in this order. -/
theorem getRank_windows {φ : Type} (ops : FloatOps φ) (allPos : List (UInt16 × Nat))
    (windowSize : UInt64) (hsorted : allPos.Pairwise fun a b => a.1 ≤ b.1)
    (hsize : 1 ≤ windowSize) :
    (∀ s, Rounds (rankPass ops allPos (clampWindow windowSize)) (.start ops) s →
      s.startW ≤ s.endW ∧ s.endW ≤ allPos.length) ∧
    ∃ windows : List (Nat × Nat),
      (∀ fuel, 2 * allPos.length < fuel → getRank ops fuel allPos windowSize
        = some (addUp ops allPos (clampWindow windowSize) windows, windows)) ∧
      windows.Pairwise (fun u v => u.1 < v.1 ∧ u.2 < v.2) ∧
      ∀ s e, (s, e) ∈ windows ↔
        MaximalWindow (posAt allPos) allPos.length (min windowSize.toNat 10) s e := by
  refine ⟨fun s hs => ?_, getRank_eq ops allPos windowSize hsorted hsize⟩
  have hswept : Swept ops allPos (clampWindow windowSize) s := by
    refine hs.inv _ (fun s s' h hpass => ?_) .start
    rcases h.step hsorted (one_le_clampWindow hsize) with ⟨hleave, -⟩ | ⟨s₁, hagain, hswept, -⟩
    · cases hleave.symm.trans hpass
    · cases hagain.symm.trans hpass
      exact hswept
  exact ⟨hswept.le, hswept.le_length⟩

/-- Whole numbers: a share is cut off to one. -/
def FloatOps.truncated : FloatOps ℕ where
  zero := 0
  thousand := 1000
  share size windowSize := 200 * size / windowSize.toNat
  add := (· + ·)

/-- Two tokens at the positions 0, 1 and 5, and 1. -/
theorem getRank_windows_four :
    (∀ s, Rounds (rankPass .truncated [(0, 0), (1, 0), (1, 1), (5, 0)] (clampWindow 3))
        (.start .truncated) s → s.startW ≤ s.endW ∧ s.endW ≤ 4) ∧
    ∃ windows : List (Nat × Nat),
      (∀ fuel, 2 * 4 < fuel → getRank .truncated fuel [(0, 0), (1, 0), (1, 1), (5, 0)] 3
        = some (addUp .truncated [(0, 0), (1, 0), (1, 1), (5, 0)] (clampWindow 3) windows,
          windows)) ∧
      windows.Pairwise (fun u v => u.1 < v.1 ∧ u.2 < v.2) ∧
      ∀ s e, (s, e) ∈ windows ↔
        MaximalWindow (posAt [(0, 0), (1, 0), (1, 1), (5, 0)]) 4 (min 3 10) s e :=
  getRank_windows .truncated [(0, 0), (1, 0), (1, 1), (5, 0)] 3 (by decide) (by decide)

/-- Two tokens in the first window, one in the second. -/
example : getRank .exact 9 [(0, 0), (1, 0), (1, 1), (5, 0)] 2
    = some (1100, [(0, 3), (3, 4)]) := by
  decide +kernel

end Amigos.Ranker
