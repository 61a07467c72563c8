import Mathlib.Order.Lattice
import Mathlib.Data.List.Basic
import Mathlib.Data.List.Perm.Subperm
import Mathlib.Data.List.Range
import Amigos.Lib.Loop

/-!
# Sorting and searching with a comparator

`std::sort` promises a permutation that no adjacent pair of which is out of order, and nothing
about elements the comparator cannot tell apart. `StdSort` is that contract: a sorting function
together with the proof that it keeps it. Results about a program that sorts are stated for
every `StdSort`, so they hold whatever the library does with ties; `mergeSorter` is the one that
runs.

`lowerBound` is the halving search of `std::lower_bound`, over a predicate that stands for
`comp(·, value)`. On a partitioned range it answers the partition point
(`lowerBound_of_partition`).
-/

set_option autoImplicit false

namespace Amigos.Lib

instance uint32LinearOrder : LinearOrder UInt32 where
  le_refl := UInt32.le_refl
  le_trans _ _ _ := UInt32.le_trans
  le_antisymm _ _ := UInt32.le_antisymm
  lt_iff_le_not_ge a b := by
    rw [UInt32.not_le]
    exact ⟨fun h => ⟨UInt32.le_of_lt h, h⟩, fun h => h.2⟩
  le_total := UInt32.le_total
  toDecidableLE := inferInstance
  toDecidableLT := inferInstance

/-! ## Comparators -/

/-- A strict weak order, as `std::sort` asks of its comparator. -/
structure StrictWeak {α : Type} (lt : α → α → Bool) : Prop where
  asymm : ∀ a b, lt a b = true → lt b a = false
  cotrans : ∀ a b c, lt a c = true → lt a b = true ∨ lt b c = true

theorem StrictWeak.lt_key {α κ : Type} [LinearOrder κ] (key : α → κ) :
    StrictWeak (fun a b => decide (key a < key b)) where
  asymm a b h := by
    simp only [decide_eq_true_eq, decide_eq_false_iff_not] at h ⊢
    exact not_lt_of_gt h
  cotrans a b c h := by
    simp only [decide_eq_true_eq] at h ⊢
    exact (lt_or_ge (key a) (key b)).imp id (fun hge => lt_of_le_of_lt hge h)

theorem StrictWeak.gt_key {α κ : Type} [LinearOrder κ] (key : α → κ) :
    StrictWeak (fun a b => decide (key a > key b)) where
  asymm a b h := by
    simp only [decide_eq_true_eq, decide_eq_false_iff_not] at h ⊢
    exact not_lt_of_gt h
  cotrans a b c h := by
    simp only [decide_eq_true_eq] at h ⊢
    exact (lt_or_ge (key b) (key a)).imp id (fun hge => lt_of_lt_of_le h hge)

/-! ## Sorting -/

/-- A permutation of an image is the image of a permutation. -/
theorem exists_map_of_perm {α β : Type} {g : α → β} {l : List β} {L : List α}
    (h : l.Perm (L.map g)) : ∃ L' : List α, L'.Perm L ∧ l = L'.map g := by
  have himage : List.Forall₂ (fun b a => b = g a) (L.map g) L :=
    List.forall₂_map_left_iff.mpr (List.forall₂_same.mpr fun _ _ => rfl)
  obtain ⟨L', hl, hperm⟩ := List.perm_comp_forall₂ h himage
  refine ⟨L', hperm, ?_⟩
  rw [← List.forall₂_eq_eq_eq, List.forall₂_map_right_iff]
  exact hl

/-- A sorting function that keeps the contract of `std::sort`. -/
structure StdSort where
  sort : {α : Type} → (α → α → Bool) → List α → List α
  perm : ∀ {α : Type} (lt : α → α → Bool) (l : List α), (sort lt l).Perm l
  sorted : ∀ {α : Type} {lt : α → α → Bool}, StrictWeak lt →
    ∀ l : List α, (sort lt l).Pairwise (fun a b => lt b a = false)

namespace StdSort

variable (S : StdSort) {α : Type} {lt : α → α → Bool}

@[simp] theorem length_sort (l : List α) : (S.sort lt l).length = l.length :=
  (S.perm lt l).length_eq

@[simp] theorem sort_nil : S.sort lt [] = [] := List.perm_nil.mp (S.perm lt [])

@[simp] theorem mem_sort {l : List α} {a : α} : a ∈ S.sort lt l ↔ a ∈ l :=
  (S.perm lt l).mem_iff

theorem sorted_le_key {κ : Type} [LinearOrder κ] (key : α → κ) (l : List α) :
    (S.sort (fun a b => decide (key a < key b)) l).Pairwise (fun a b => key a ≤ key b) :=
  (S.sorted (StrictWeak.lt_key key) l).imp fun h => by simpa using h

theorem sorted_ge_key {κ : Type} [LinearOrder κ] (key : α → κ) (l : List α) :
    (S.sort (fun a b => decide (key a > key b)) l).Pairwise (fun a b => key a ≥ key b) :=
  (S.sorted (StrictWeak.gt_key key) l).imp fun h => by simpa using h

/-- **Sorting an image downwards is sorting what it is an image of.** -/
theorem exists_sort_map {α β κ : Type} [LinearOrder κ] (key : β → κ) (g : α → β)
    (L : List α) :
    ∃ L' : List α, L'.Perm L ∧ S.sort (fun a b => decide (key a > key b)) (L.map g) = L'.map g ∧
      L'.Pairwise (fun a b => key (g a) ≥ key (g b)) := by
  obtain ⟨L', hperm, heq⟩ :=
    exists_map_of_perm (S.perm (fun a b => decide (key a > key b)) (L.map g))
  refine ⟨L', hperm, heq, ?_⟩
  have hsorted := S.sorted_ge_key key (L.map g)
  rw [heq, List.pairwise_map] at hsorted
  exact hsorted

end StdSort

/-- The contract is met: merge sort on the reversed comparator. -/
def mergeSorter : StdSort where
  sort lt l := l.mergeSort (fun a b => !lt b a)
  perm _ l := List.mergeSort_perm l _
  sorted {α lt} hlt l := by
    have htrans : ∀ a b c, (!lt b a) = true → (!lt c b) = true → (!lt c a) = true := by
      intro a b c hab hbc
      by_contra hac
      simp only [Bool.not_eq_true', Bool.not_eq_false] at hab hbc hac
      rcases hlt.cotrans c b a hac with h | h
      · rw [h] at hbc; exact absurd hbc (by simp)
      · rw [h] at hab; exact absurd hab (by simp)
    have htotal : ∀ a b, (!lt b a || !lt a b) = true := by
      intro a b
      cases hba : lt b a with
      | false => simp
      | true => simp [hlt.asymm b a hba]
    exact (List.pairwise_mergeSort htrans htotal l).imp fun hab => by simpa using hab

/-! ## Searching -/

/-- Increasing numbers below `n` are no more than `n`. -/
theorem length_le_of_increasing {α : Type} {key : α → Nat} {l : List α} {n : Nat}
    (hinc : l.Pairwise (fun a b => key a < key b)) (hlt : ∀ a ∈ l, key a < n) : l.length ≤ n := by
  have hnodup : (l.map key).Nodup := by
    rw [List.Nodup, List.pairwise_map]
    exact hinc.imp fun h => Nat.ne_of_lt h
  have hsub : l.map key ⊆ List.range n := by
    intro k hk
    obtain ⟨a, ha, rfl⟩ := List.mem_map.mp hk
    exact List.mem_range.mpr (hlt a ha)
  have hlen := (hnodup.subperm hsub).length_le
  rwa [List.length_map, List.length_range] at hlen

/-- A range whose elements with `p` stand in front of those without. -/
theorem exists_partition {α : Type} (p : α → Bool) {l : List α}
    (h : l.Pairwise (fun a b => p b = true → p a = true)) :
    ∃ a b, l = a ++ b ∧ (∀ x ∈ a, p x = true) ∧ ∀ x ∈ b, p x = false := by
  induction l with
  | nil => exact ⟨[], [], rfl, by simp, by simp⟩
  | cons x l ih =>
    obtain ⟨hx, htail⟩ := List.pairwise_cons.mp h
    cases hpx : p x with
    | true =>
      obtain ⟨a, b, rfl, ha, hb⟩ := ih htail
      exact ⟨x :: a, b, rfl, by simpa [hpx] using ha, hb⟩
    | false =>
      refine ⟨[], x :: l, rfl, by simp, ?_⟩
      intro y hy
      rcases List.mem_cons.mp hy with rfl | hy
      · exact hpx
      · exact Bool.eq_false_iff.mpr fun hpy => by simp [hx y hy hpy] at hpx

/-- **A falling range is cut at any value**: what reaches it stands in front of what does not. -/
theorem exists_cut {α κ : Type} [LinearOrder κ] (key : α → κ) (v : κ) {l : List α}
    (h : l.Pairwise (fun a b => key a ≥ key b)) :
    ∃ a b, l = a ++ b ∧ (∀ x ∈ a, v ≤ key x) ∧ ∀ x ∈ b, key x < v := by
  obtain ⟨a, b, hl, ha, hb⟩ := exists_partition (fun x => decide (v ≤ key x))
    (h.imp fun {x y} hge hy => decide_eq_true (le_trans (of_decide_eq_true hy) hge))
  refine ⟨a, b, hl, fun x hx => of_decide_eq_true (ha x hx), fun x hx => ?_⟩
  exact lt_of_not_ge (of_decide_eq_false (hb x hx))

/-- One halving of `std::lower_bound`, on `(first, len)`. -/
def lowerBoundPass {α : Type} (before : α → Bool) (l : List α) :
    Nat × Nat → Option (Pass (Nat × Nat) Nat)
  | (first, len) =>
    if len = 0 then some (.leave first)
    else do
      let half := len / 2
      let a ← l[first + half]?
      if before a then return .again (first + half + 1, len - half - 1)
      else return .again (first, half)

/-- `std::lower_bound`: the first position whose element is not `before` the value. -/
def lowerBound {α : Type} (before : α → Bool) (l : List α) : Option Nat :=
  iterate (lowerBoundPass before l) (l.length + 1) (0, l.length)

/-- The partition point of `a ++ b` lies in the window `(first, len)` still searched. -/
def InWindow {α : Type} (a b : List α) (s : Nat × Nat) : Prop :=
  s.1 ≤ a.length ∧ a.length ≤ s.1 + s.2 ∧ s.1 + s.2 ≤ (a ++ b).length

theorem lowerBoundPass_keeps {α : Type} {before : α → Bool} {a b : List α}
    (ha : ∀ x ∈ a, before x = true) (hb : ∀ x ∈ b, before x = false)
    (s : Nat × Nat) (hs : InWindow a b s) :
    (∃ r, lowerBoundPass before (a ++ b) s = some (.leave r) ∧ r = a.length) ∨
    ∃ s', lowerBoundPass before (a ++ b) s = some (.again s') ∧ InWindow a b s' ∧
      s'.2 < s.2 := by
  obtain ⟨first, len⟩ := s
  obtain ⟨h1, h2, h3⟩ := hs
  simp only at h1 h2 h3
  by_cases hlen : len = 0
  · exact Or.inl ⟨first, by simp [lowerBoundPass, hlen], by omega⟩
  · have hget : (a ++ b)[first + len / 2]? = some ((a ++ b)[first + len / 2]) :=
      List.getElem?_eq_getElem (by omega)
    refine Or.inr ?_
    by_cases hmid : first + len / 2 < a.length
    · have hx : before ((a ++ b)[first + len / 2]) = true := by
        rw [List.getElem_append_left hmid]
        exact ha _ (List.getElem_mem _)
      refine ⟨(first + len / 2 + 1, len - len / 2 - 1), ?_, ?_, ?_⟩
      · simp only [lowerBoundPass, if_neg hlen, hget, Option.bind_eq_bind, Option.bind_some,
          hx, if_true, Option.pure_def]
      · simp only [InWindow]; omega
      · simp only; omega
    · have hx : before ((a ++ b)[first + len / 2]) = false := by
        rw [List.getElem_append_right (Nat.not_lt.mp hmid)]
        exact hb _ (List.getElem_mem _)
      refine ⟨(first, len / 2), ?_, ?_, ?_⟩
      · simp only [lowerBoundPass, if_neg hlen, hget, Option.bind_eq_bind, Option.bind_some,
          hx, Bool.false_eq_true, if_false, Option.pure_def]
      · simp only [InWindow]; omega
      · simp only; omega

/-- **On a partitioned range the search finds the partition point.** -/
theorem lowerBound_of_partition {α : Type} {before : α → Bool} {a b : List α}
    (ha : ∀ x ∈ a, before x = true) (hb : ∀ x ∈ b, before x = false) :
    lowerBound before (a ++ b) = some a.length := by
  have hstart : InWindow a b (0, (a ++ b).length) := by simp [InWindow]
  obtain ⟨r, hr, rfl⟩ := iterate_total _ (InWindow a b) (fun s => s.2)
    (fun r => r = a.length) (lowerBoundPass_keeps ha hb) _ hstart (Nat.lt_succ_self _)
  exact hr

/-- The same on an image, by what the elements are images of. -/
theorem lowerBound_map_of_partition {α β : Type} {before : β → Bool} {f : α → β} {a b : List α}
    (ha : ∀ x ∈ a, before (f x) = true) (hb : ∀ x ∈ b, before (f x) = false) :
    lowerBound before ((a ++ b).map f) = some a.length := by
  rw [List.map_append, lowerBound_of_partition, List.length_map]
  · exact List.forall_mem_map.mpr ha
  · exact List.forall_mem_map.mpr hb

end Amigos.Lib
