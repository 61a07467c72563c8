import Mathlib.Algebra.Order.BigOperators.Group.List
import Mathlib.Algebra.Order.Group.Nat
import Mathlib.Data.List.Forall2
import Amigos.Index.Struct

/-!
# Intersecting entry lists (`jump`, `intersectMore`, `intersectEntries`)

`intersectEntries` folds the lists together, two at a time, over a pair of buffers that swap
roles. One fold step is `intersectMore`, a two-pointer walk whose pointers move by `jump`, a
gallop of a hundred with a linear scan back from where it overshot.

The proof has the same three layers. `jump_spec` says a jump lands on the first element not
below the one it looks for, or finds that there is none. `intersectMore_eq` says the walk
computes `joinEntries`, the join that looks each document up; its invariant is that what is
still ahead of the two pointers is all that is missing from the result. `Joined` is what the
buffer holds after any number of lists.

Every access of the source is a checked one here, so a result `some _` also says that no list
was indexed out of range.
-/

set_option autoImplicit false

namespace Amigos.Index

open Amigos.Lib

/-! ## The source -/

/-- `jump` returns a position or throws `NoMoreElements`. -/
inductive Jump where
  | found (pos : Nat)
  | noMoreElements
  deriving DecidableEq, Repr

/-- The first loop of `jump`, on `(pos, next_pos)`: gallop while not past `entry`. -/
def jumpGallop (vec : List Entry) (entry : Entry) (step : Nat) :
    Nat × Nat → Option (Pass (Nat × Nat) (Nat × Nat))
  | (pos, nextPos) =>
    if nextPos < vec.length then do
      let e ← vec[nextPos]?
      if e.docIdOffset ≤ entry.docIdOffset then return .again (nextPos, nextPos + step)
      else return .leave (pos, nextPos)
    else some (.leave (pos, nextPos))

/-- The second loop of `jump`, on `pos`: scan up to `next_pos`. -/
def jumpScan (vec : List Entry) (entry : Entry) (nextPos : Nat) (pos : Nat) :
    Option (Pass Nat Nat) :=
  if pos < nextPos then do
    let e ← vec[pos]?
    if e.docIdOffset < entry.docIdOffset then return .again (pos + 1)
    else return .leave pos
  else some (.leave pos)

def jump (fuel : Nat) (vec : List Entry) (entry : Entry) (pos step : Nat) : Option Jump := do
  let nextPos := min (pos + step) (vec.length - 1)
  let (pos, nextPos) ← iterate (jumpGallop vec entry step) fuel (pos, nextPos)
  let nextPos := min nextPos (vec.length - 1)
  let e ← vec[nextPos]?
  let pos ← if e.docIdOffset ≥ entry.docIdOffset then iterate (jumpScan vec entry nextPos) fuel pos
    else some pos
  let e ← vec[pos]?
  if e.docIdOffset < entry.docIdOffset then return .noMoreElements else return .found pos

/-- The state of `intersectMore`'s loop. -/
structure Walk where
  i1 : Nat
  i2 : Nat
  res : List (List Entry)

def intersectPass (fuel : Nat) (common : List (List Entry)) (v1 v2 : List Entry) (step : Nat)
    (w : Walk) : Option (Pass Walk (List (List Entry))) := do
  let e1 ← v1[w.i1]?
  let e2 ← v2[w.i2]?
  if e1.docIdOffset < e2.docIdOffset then
    match ← jump fuel v1 e2 w.i1 step with
    | .found i1 => return .again { w with i1 }
    | .noMoreElements => return .leave w.res
  else if e1.docIdOffset > e2.docIdOffset then
    match ← jump fuel v2 e1 w.i2 step with
    | .found i2 => return .again { w with i2 }
    | .noMoreElements => return .leave w.res
  else
    let c ← common[w.i1]?
    let res := w.res ++ [c ++ [e2]]
    if w.i1 + 1 = v1.length ∨ w.i2 + 1 = v2.length then return .leave res
    else return .again ⟨w.i1 + 1, w.i2 + 1, res⟩

/-- `intersectMore`; `front()` of an empty tuple is undefined. -/
def intersectMore (fuel : Nat) (common : List (List Entry)) (entries : List Entry)
    (res : List (List Entry)) (step : Nat) : Option (List (List Entry)) := do
  let v1 ← common.mapM List.head?
  if v1.isEmpty || entries.isEmpty then return res
  iterate (intersectPass fuel common v1 entries step) fuel ⟨0, 0, res⟩

/-- One round of `intersectEntries`'s loop: `i` counts from 1, the buffers are
`(output, tmp)`. -/
def intersectRound (fuel : Nat) (step : Nat) (i : Nat) (entries : List Entry)
    (bufs : List (List Entry) × List (List Entry)) :
    Option (List (List Entry) × List (List Entry)) :=
  if i % 2 = 1 then (intersectMore fuel bufs.1 entries [] step).map (bufs.1, ·)
  else (intersectMore fuel bufs.2 entries [] step).map (·, bufs.2)

def intersectRounds (fuel : Nat) (step : Nat) : Nat → List (List Entry) →
    List (List Entry) × List (List Entry) → Option (List (List Entry) × List (List Entry))
  | _, [], bufs => some bufs
  | i, entries :: rest, bufs => do
    let bufs ← intersectRound fuel step i entries bufs
    intersectRounds fuel step (i + 1) rest bufs

def intersectEntries (fuel : Nat) (input : List (List Entry)) (output : List (List Entry)) :
    Option (List (List Entry)) :=
  match input with
  | [] => some output
  | front :: rest => do
    let step := 100
    let output := resize front.length [] (output ++ [[]])
    let output := output.zipWith (fun tuple e => tuple ++ [e]) front
    let (output, tmp) ← intersectRounds fuel step 1 rest (output, [])
    return if input.length % 2 = 0 then tmp else output

/-! ## A jump -/

/-- Strictly increasing in `docIdOffset`: each document at most once. -/
def Increasing (l : List Entry) : Prop :=
  l.Pairwise (fun a b => a.docIdOffset < b.docIdOffset)

instance (l : List Entry) : Decidable (Increasing l) := by unfold Increasing; infer_instance

theorem Increasing.lt {l : List Entry} (h : Increasing l) {i j : Nat} (hij : i < j)
    {hi : i < l.length} (hj : j < l.length) : l[i].docIdOffset < l[j].docIdOffset :=
  List.pairwise_iff_getElem.mp h i j hi hj hij

theorem Increasing.le {l : List Entry} (h : Increasing l) {i j : Nat} (hij : i ≤ j)
    {hi : i < l.length} (hj : j < l.length) : l[i].docIdOffset ≤ l[j].docIdOffset := by
  rcases Nat.lt_or_eq_of_le hij with h' | rfl
  · exact le_of_lt (h.lt h' hj)
  · exact le_refl _

/-- What the gallop knows: it stands at or before `entry`, and `next_pos` is not behind. -/
def Galloping (vec : List Entry) (entry : Entry) (start : Nat) (s : Nat × Nat) : Prop :=
  ∃ h : s.1 < vec.length, start ≤ s.1 ∧ s.1 ≤ s.2 ∧ vec[s.1].docIdOffset ≤ entry.docIdOffset

/-- Where the gallop ends: `next_pos` is past the end of the vector or past `entry`. -/
def Galloped (vec : List Entry) (entry : Entry) (start : Nat) (s : Nat × Nat) : Prop :=
  Galloping vec entry start s ∧ ∀ h : s.2 < vec.length, entry.docIdOffset < vec[s.2].docIdOffset

theorem jumpGallop_keeps {vec : List Entry} {entry : Entry} {step start : Nat} (hstep : 0 < step)
    (s : Nat × Nat) (hs : Galloping vec entry start s) :
    (∃ b, jumpGallop vec entry step s = some (.leave b) ∧ Galloped vec entry start b) ∨
    ∃ s', jumpGallop vec entry step s = some (.again s') ∧ Galloping vec entry start s' ∧
      vec.length - s'.2 < vec.length - s.2 := by
  obtain ⟨pos, nextPos⟩ := s
  have hs' := hs
  obtain ⟨hpos, hstart, hle, hdoc⟩ := hs'
  simp only at hpos hstart hle hdoc
  by_cases hlt : nextPos < vec.length
  · by_cases hc : vec[nextPos].docIdOffset ≤ entry.docIdOffset
    · refine Or.inr ⟨(nextPos, nextPos + step), ?_, ⟨hlt, by omega, by omega, hc⟩, by omega⟩
      simp [jumpGallop, hlt, hc]
    · refine Or.inl ⟨(pos, nextPos), ?_, hs, fun _ => lt_of_not_ge hc⟩
      simp [jumpGallop, hlt, hc]
  · refine Or.inl ⟨(pos, nextPos), ?_, hs, fun h => absurd h hlt⟩
    simp [jumpGallop, hlt]

/-- The scan stays between where it started and `next_pos`, with everything passed below
`entry`. -/
def Scanning (vec : List Entry) (entry : Entry) (start nextPos q : Nat) : Prop :=
  q ≤ nextPos ∧ start ≤ q ∧
    ∀ i (h : i < vec.length), start ≤ i → i < q → vec[i].docIdOffset < entry.docIdOffset

theorem jumpScan_keeps {vec : List Entry} {entry : Entry} {start nextPos : Nat}
    (hn : nextPos < vec.length) (hdoc : entry.docIdOffset ≤ vec[nextPos].docIdOffset)
    (q : Nat) (hq : Scanning vec entry start nextPos q) :
    (∃ b, jumpScan vec entry nextPos q = some (.leave b) ∧ Scanning vec entry start nextPos b ∧
      ∀ h : b < vec.length, entry.docIdOffset ≤ vec[b].docIdOffset) ∨
    ∃ q', jumpScan vec entry nextPos q = some (.again q') ∧ Scanning vec entry start nextPos q' ∧
      nextPos - q' < nextPos - q := by
  have hq' := hq
  obtain ⟨hle, hstart, hbelow⟩ := hq'
  by_cases hlt : q < nextPos
  · have hin : q < vec.length := Nat.lt_trans hlt hn
    by_cases hc : vec[q].docIdOffset < entry.docIdOffset
    · refine Or.inr ⟨q + 1, by simp [jumpScan, hlt, hin, hc], ⟨by omega, by omega, ?_⟩, by omega⟩
      intro i hi hsi hiq
      rcases Nat.lt_or_eq_of_le (Nat.le_of_lt_succ hiq) with h | rfl
      · exact hbelow i hi hsi h
      · exact hc
    · exact Or.inl ⟨q, by simp [jumpScan, hlt, hin, hc], hq, fun _ => le_of_not_gt hc⟩
  · refine Or.inl ⟨q, by simp [jumpScan, hlt], hq, fun h => ?_⟩
    have hqn : q = nextPos := by omega
    subst hqn
    exact hdoc

/-- **A jump finds the first element that is not below `entry`**, or that there is none. -/
theorem jump_spec {fuel : Nat} {vec : List Entry} {entry : Entry} {pos step : Nat}
    (hvec : Increasing vec) (hstep : 0 < step) (hpos : pos < vec.length)
    (hlt : vec[pos].docIdOffset < entry.docIdOffset) (hfuel : vec.length < fuel) :
    (∃ p, ∃ hp : p < vec.length, jump fuel vec entry pos step = some (.found p) ∧ pos < p ∧
      entry.docIdOffset ≤ vec[p].docIdOffset ∧
      ∀ i (h : i < vec.length), pos ≤ i → i < p → vec[i].docIdOffset < entry.docIdOffset) ∨
    (jump fuel vec entry pos step = some .noMoreElements ∧
      ∀ i (h : i < vec.length), pos ≤ i → vec[i].docIdOffset < entry.docIdOffset) := by
  have hstart : Galloping vec entry pos (pos, min (pos + step) (vec.length - 1)) :=
    ⟨hpos, Nat.le_refl _, by simp only; omega, le_of_lt hlt⟩
  obtain ⟨⟨p, n⟩, hgallop, ⟨⟨hp, hpp, hpn, hpdoc⟩, hpast⟩⟩ :=
    iterate_total (jumpGallop vec entry step) _ (fun s => vec.length - s.2) _
      (jumpGallop_keeps hstep) _ hstart (show _ < fuel by omega)
  simp only at hp hpp hpn hpdoc hpast
  have hmin : min n (vec.length - 1) < vec.length := by omega
  have hget : vec[min n (vec.length - 1)]? = some (vec[min n (vec.length - 1)]) :=
    List.getElem?_eq_getElem hmin
  have hbefore : ∀ i (h : i < vec.length), pos ≤ i → i < p →
      vec[i].docIdOffset < entry.docIdOffset := fun i h _ hip =>
    lt_of_lt_of_le (hvec.lt hip hp) hpdoc
  by_cases hc : entry.docIdOffset ≤ vec[min n (vec.length - 1)].docIdOffset
  · -- Overshot, or stopped on the last element: scan back from `next_pos`.
    obtain ⟨q, hscan, ⟨hqn, hpq, hqb⟩, hqdoc⟩ :=
      iterate_total (jumpScan vec entry (min n (vec.length - 1)))
        (Scanning vec entry p (min n (vec.length - 1))) (fun q => min n (vec.length - 1) - q) _
        (jumpScan_keeps hmin hc) p ⟨by omega, Nat.le_refl _, fun i _ h1 h2 => absurd h1 (by omega)⟩
        (show _ < fuel by omega)
    have hq : q < vec.length := by omega
    have hqd := hqdoc hq
    refine Or.inl ⟨q, hq, ?_, ?_, hqd, ?_⟩
    · simp only [jump, hgallop, Option.bind_eq_bind, Option.bind_some, hget, ge_iff_le, if_pos hc,
        hscan, List.getElem?_eq_getElem hq, if_neg (not_lt_of_ge hqd), Option.pure_def]
    · rcases Nat.lt_or_ge pos q with h | h
      · exact h
      · have : q = pos := by omega
        subst this
        exact absurd hlt (not_lt_of_ge hqd)
    · intro i hi hpi hiq
      rcases Nat.lt_or_ge i p with h | h
      · exact hbefore i hi hpi h
      · exact hqb i hi h hiq
  · -- The gallop ran off the end and even the last element is below `entry`.
    have hn : vec.length ≤ n := by
      by_contra hn
      have hmn : min n (vec.length - 1) = n := by omega
      simp only [hmn] at hc
      exact hc (le_of_lt (hpast (by omega)))
    have hall : ∀ i (h : i < vec.length), vec[i].docIdOffset < entry.docIdOffset := fun i h =>
      lt_of_le_of_lt (hvec.le (by omega) hmin) (lt_of_not_ge hc)
    refine Or.inr ⟨?_, fun i h _ => hall i h⟩
    simp only [jump, hgallop, Option.bind_eq_bind, Option.bind_some, hget, ge_iff_le, if_neg hc,
      List.getElem?_eq_getElem hp, if_pos (hall p hp), Option.pure_def]

/-! ## One fold step computes a join -/

/-- The document of a tuple is that of its first component. -/
def tupleDoc (tuple : List Entry) : Option UInt32 := tuple.head?.map Entry.docIdOffset

/-- The entry that joins a tuple, if there is one. -/
def findDoc (entries : List Entry) (tuple : List Entry) : Option Entry :=
  entries.find? (fun e => tupleDoc tuple == some e.docIdOffset)

/-- What `intersectMore` is for: every tuple that finds its document, extended by the entry it
finds. -/
def joinEntries (common : List (List Entry)) (entries : List Entry) : List (List Entry) :=
  common.filterMap (fun tuple => (findDoc entries tuple).map (fun e => tuple ++ [e]))

theorem findDoc_cons {e : Entry} {es : List Entry} {tuple : List Entry} :
    findDoc (e :: es) tuple
      = if tupleDoc tuple = some e.docIdOffset then some e else findDoc es tuple := by
  by_cases h : tupleDoc tuple = some e.docIdOffset <;> simp [findDoc, h]

theorem findDoc_eq_none {entries : List Entry} {tuple : List Entry}
    (h : ∀ e ∈ entries, tupleDoc tuple ≠ some e.docIdOffset) : findDoc entries tuple = none := by
  simpa [findDoc] using h

theorem findDoc_append {es es' : List Entry} {tuple : List Entry}
    (h : ∀ e ∈ es, tupleDoc tuple ≠ some e.docIdOffset) :
    findDoc (es ++ es') tuple = findDoc es' tuple := by
  -- The search goes on behind the entries that it does not want.
  have hnone : es.find? (fun e => tupleDoc tuple == some e.docIdOffset) = none :=
    findDoc_eq_none h
  simp [findDoc, List.find?_append, hnone]

/-- Tuples whose documents do not occur contribute nothing. -/
theorem joinEntries_skip {common common' : List (List Entry)} {entries : List Entry}
    (h : ∀ tuple ∈ common, ∀ e ∈ entries, tupleDoc tuple ≠ some e.docIdOffset) :
    joinEntries (common ++ common') entries = joinEntries common' entries := by
  have hnil : joinEntries common entries = [] := by
    simp only [joinEntries, List.filterMap_eq_nil_iff]
    intro tuple ht
    rw [findDoc_eq_none (h tuple ht), Option.map_none]
  rw [joinEntries, List.filterMap_append]
  exact (congrArg (· ++ _) hnil).trans (List.nil_append _)

/-- Entries that no tuple looks for contribute nothing. -/
theorem joinEntries_skip_entries {common : List (List Entry)} {es es' : List Entry}
    (h : ∀ tuple ∈ common, ∀ e ∈ es, tupleDoc tuple ≠ some e.docIdOffset) :
    joinEntries common (es ++ es') = joinEntries common es' := by
  simp only [joinEntries]
  apply List.filterMap_congr
  intro tuple ht
  rw [findDoc_append (h tuple ht)]

theorem joinEntries_nil_right (common : List (List Entry)) : joinEntries common [] = [] := by
  simp [joinEntries, findDoc]

theorem length_joinEntries_le (common : List (List Entry)) (entries : List Entry) :
    (joinEntries common entries).length ≤ common.length :=
  List.length_filterMap_le _ _

/-- The tuples and the list of their first components, `v1` of the source. -/
def Fronts (common : List (List Entry)) (v1 : List Entry) : Prop :=
  common.map List.head? = v1.map some

theorem Fronts.mapM {common : List (List Entry)} {v1 : List Entry} (h : Fronts common v1) :
    common.mapM List.head? = some v1 := by
  induction common generalizing v1 with
  | nil =>
    cases v1 with
    | nil => rfl
    | cons e v1 => simp [Fronts] at h
  | cons c common ih =>
    cases v1 with
    | nil => simp [Fronts] at h
    | cons e v1 =>
      simp only [Fronts, List.map_cons, List.cons.injEq] at h
      simp [List.mapM_cons, h.1, ih (show Fronts common v1 from h.2)]

theorem Fronts.length {common : List (List Entry)} {v1 : List Entry} (h : Fronts common v1) :
    common.length = v1.length := by
  simpa [Fronts] using congrArg List.length h

theorem Fronts.tupleDoc_getElem {common : List (List Entry)} {v1 : List Entry}
    (h : Fronts common v1) {i : Nat} (hc : i < common.length) (hv : i < v1.length) :
    tupleDoc common[i] = some v1[i].docIdOffset := by
  have hi : (common.map List.head?)[i]? = (v1.map some)[i]? := by rw [h]
  simp only [List.getElem?_map, List.getElem?_eq_getElem hc, List.getElem?_eq_getElem hv,
    Option.map_some, Option.some.injEq] at hi
  rw [tupleDoc, hi, Option.map_some]

section Walk

variable {common : List (List Entry)} {v1 v2 : List Entry} {res : List (List Entry)}

/-- **The invariant of the walk**: both pointers are in range, and the join of what they have
not passed is what the result still lacks. -/
structure Walking (common : List (List Entry)) (v1 v2 : List Entry) (res : List (List Entry))
    (w : Walk) : Prop where
  h1 : w.i1 < v1.length
  h2 : w.i2 < v2.length
  ahead : w.res ++ joinEntries (common.drop w.i1) (v2.drop w.i2) = res ++ joinEntries common v2

theorem drop_eq_slice_append {α : Type} {l : List α} {i j : Nat} (h : i ≤ j) :
    l.drop i = (l.drop i).take (j - i) ++ l.drop j := by
  have hsplit := (List.take_append_drop (j - i) (l.drop i)).symm
  rwa [List.drop_drop, Nat.add_sub_cancel' h] at hsplit

theorem mem_slice {α : Type} {l : List α} {i j : Nat} {x : α}
    (h : x ∈ (l.drop i).take (j - i)) : ∃ k, ∃ hk : k < l.length, i ≤ k ∧ k < j ∧ l[k] = x := by
  obtain ⟨m, hm, rfl⟩ := List.getElem_of_mem h
  simp only [List.length_take, List.length_drop] at hm
  exact ⟨i + m, by omega, by omega, by omega, by simp⟩

theorem mem_drop {α : Type} {l : List α} {i : Nat} {x : α} (h : x ∈ l.drop i) :
    ∃ k, ∃ hk : k < l.length, i ≤ k ∧ l[k] = x := by
  obtain ⟨m, hm, rfl⟩ := List.getElem_of_mem h
  simp only [List.length_drop] at hm
  exact ⟨i + m, by omega, by omega, by simp⟩

theorem Walking.skip_left {w : Walk} (hw : Walking common v1 v2 res w) (hf : Fronts common v1)
    {p : Nat} (hlt : w.i1 < p) (hp : p < v1.length)
    (hbelow : ∀ i (h : i < v1.length), w.i1 ≤ i → i < p →
      ∀ j (hj : j < v2.length), w.i2 ≤ j → v1[i].docIdOffset < v2[j].docIdOffset) :
    Walking common v1 v2 res { w with i1 := p } := by
  refine ⟨hp, hw.h2, ?_⟩
  rw [← hw.ahead, drop_eq_slice_append (l := common) (Nat.le_of_lt hlt)]
  congr 1
  refine (joinEntries_skip fun tuple ht e he => ?_).symm
  obtain ⟨i, hi, hii, hip, rfl⟩ := mem_slice ht
  obtain ⟨j, hj, hij, rfl⟩ := mem_drop he
  have hv : i < v1.length := by rw [← hf.length]; exact hi
  rw [hf.tupleDoc_getElem hi hv]
  exact fun heq => absurd (Option.some.inj heq) (ne_of_lt (hbelow i hv hii hip j hj hij))

theorem Walking.skip_right {w : Walk} (hw : Walking common v1 v2 res w) (hf : Fronts common v1)
    {p : Nat} (hlt : w.i2 < p) (hp : p < v2.length)
    (hbelow : ∀ j (h : j < v2.length), w.i2 ≤ j → j < p →
      ∀ i (hi : i < v1.length), w.i1 ≤ i → v2[j].docIdOffset < v1[i].docIdOffset) :
    Walking common v1 v2 res { w with i2 := p } := by
  refine ⟨hw.h1, hp, ?_⟩
  rw [← hw.ahead, drop_eq_slice_append (l := v2) (Nat.le_of_lt hlt)]
  congr 1
  refine (joinEntries_skip_entries fun tuple ht e he => ?_).symm
  obtain ⟨j, hj, hij, hjp, rfl⟩ := mem_slice he
  obtain ⟨i, hi, hii, rfl⟩ := mem_drop ht
  have hv : i < v1.length := by rw [← hf.length]; exact hi
  rw [hf.tupleDoc_getElem hi hv]
  exact fun heq => absurd (Option.some.inj heq).symm (ne_of_lt (hbelow j hj hij hjp i hv hii))

/-- If nothing ahead can match, the result is complete. -/
theorem Walking.complete {w : Walk} (hw : Walking common v1 v2 res w) (hf : Fronts common v1)
    (hne : ∀ i (h : i < v1.length), w.i1 ≤ i → ∀ j (hj : j < v2.length), w.i2 ≤ j →
      v1[i].docIdOffset ≠ v2[j].docIdOffset) :
    w.res = res ++ joinEntries common v2 := by
  rw [← hw.ahead, ← List.append_nil (common.drop w.i1), joinEntries_skip]
  · simp [joinEntries]
  · intro tuple ht e he
    obtain ⟨i, hi, hii, rfl⟩ := mem_drop ht
    obtain ⟨j, hj, hij, rfl⟩ := mem_drop he
    have hv : i < v1.length := by rw [← hf.length]; exact hi
    rw [hf.tupleDoc_getElem hi hv]
    exact fun heq => hne i hv hii j hj hij (Option.some.inj heq)

/-- A match is joined, and both pointers pass it. -/
theorem joinEntries_match (hf : Fronts common v1) (hv1 : Increasing v1) {i1 i2 : Nat}
    (h1 : i1 < v1.length) (h2 : i2 < v2.length) (hc : i1 < common.length)
    (heq : v1[i1].docIdOffset = v2[i2].docIdOffset) :
    joinEntries (common.drop i1) (v2.drop i2)
      = (common[i1] ++ [v2[i2]]) :: joinEntries (common.drop (i1 + 1)) (v2.drop (i2 + 1)) := by
  rw [List.drop_eq_getElem_cons hc, List.drop_eq_getElem_cons h2]
  have hdoc : tupleDoc common[i1] = some v2[i2].docIdOffset := by
    rw [hf.tupleDoc_getElem hc h1, heq]
  have hhead : findDoc (v2[i2] :: v2.drop (i2 + 1)) common[i1] = some v2[i2] := by
    rw [findDoc_cons, if_pos hdoc]
  have htail : joinEntries (common.drop (i1 + 1)) (v2[i2] :: v2.drop (i2 + 1))
      = joinEntries (common.drop (i1 + 1)) (v2.drop (i2 + 1)) := by
    apply @joinEntries_skip_entries _ [v2[i2]] _
    intro tuple ht e he
    obtain ⟨k, hk, hik, rfl⟩ := mem_drop ht
    have hv : k < v1.length := by rw [← hf.length]; exact hk
    rw [List.mem_singleton.mp he, hf.tupleDoc_getElem hk hv, ← heq]
    exact fun h => absurd (Option.some.inj h).symm (ne_of_lt (hv1.lt hik hv))
  conv_lhs => rw [joinEntries, List.filterMap_cons, hhead]
  simp only [Option.map_some]
  exact congrArg _ htail

/-- **One pass of the walk** keeps the invariant and moves a pointer, or leaves with the join. -/
theorem intersectPass_keeps {fuel step : Nat} (hf : Fronts common v1) (hv1 : Increasing v1)
    (hv2 : Increasing v2) (hstep : 0 < step) (hfuel : v1.length + v2.length < fuel) (w : Walk)
    (hw : Walking common v1 v2 res w) :
    (∃ b, intersectPass fuel common v1 v2 step w = some (.leave b) ∧
      b = res ++ joinEntries common v2) ∨
    ∃ w', intersectPass fuel common v1 v2 step w = some (.again w') ∧
      Walking common v1 v2 res w' ∧
      v1.length - w'.i1 + (v2.length - w'.i2) < v1.length - w.i1 + (v2.length - w.i2) := by
  have h1 := hw.h1
  have h2 := hw.h2
  rcases lt_trichotomy v1[w.i1].docIdOffset v2[w.i2].docIdOffset with hlt | heq | hgt
  · rcases jump_spec hv1 hstep h1 hlt (show _ < fuel by omega) with
      ⟨p, hp, hjump, hip, -, hbelow⟩ | ⟨hjump, hall⟩
    -- `v1` is behind, and jumps over what no document ahead in `v2` can match.
    · refine Or.inr ⟨{ w with i1 := p }, ?_, hw.skip_left hf hip hp ?_, by simp only; omega⟩
      · simp [intersectPass, h1, h2, hlt, hjump]
      · intro i hi hii hilt j hj hij
        exact lt_of_lt_of_le (hbelow i hi hii hilt) (hv2.le hij hj)
    · refine Or.inl ⟨w.res, ?_, hw.complete hf ?_⟩
      · simp [intersectPass, h1, h2, hlt, hjump]
      · intro i hi hii j hj hij
        exact ne_of_lt (lt_of_lt_of_le (hall i hi hii) (hv2.le hij hj))
  -- The two pointers stand at the same document.
  · have hc : w.i1 < common.length := by rw [hf.length]; exact h1
    have hmatch := joinEntries_match hf hv1 h1 h2 hc heq
    have hahead := hw.ahead
    rw [hmatch, List.append_cons] at hahead
    by_cases hend : w.i1 + 1 = v1.length ∨ w.i2 + 1 = v2.length
    · -- One side is used up, so the join of the rest is empty.
      have hrest : joinEntries (common.drop (w.i1 + 1)) (v2.drop (w.i2 + 1)) = [] := by
        rcases hend with h | h
        · rw [h, ← hf.length, List.drop_length]; rfl
        · rw [h, List.drop_length, joinEntries_nil_right]
      rw [hrest, List.append_nil] at hahead
      refine Or.inl ⟨_, ?_, hahead⟩
      simp [intersectPass, h1, h2, hc, heq, hend]
    · refine Or.inr ⟨⟨w.i1 + 1, w.i2 + 1, w.res ++ [common[w.i1] ++ [v2[w.i2]]]⟩, ?_,
        ⟨by simp only; omega, by simp only; omega, hahead⟩, by simp only; omega⟩
      simp [intersectPass, h1, h2, hc, heq, hend]
  · rcases jump_spec hv2 hstep h2 hgt (show _ < fuel by omega) with
      ⟨p, hp, hjump, hip, -, hbelow⟩ | ⟨hjump, hall⟩
    · refine Or.inr ⟨{ w with i2 := p }, ?_, hw.skip_right hf hip hp ?_, by simp only; omega⟩
      · simp [intersectPass, h1, h2, hgt, not_lt_of_gt hgt, hjump]
      · intro j hj hij hjlt i hi hii
        exact lt_of_lt_of_le (hbelow j hj hij hjlt) (hv1.le hii hi)
    · refine Or.inl ⟨w.res, ?_, hw.complete hf ?_⟩
      · simp [intersectPass, h1, h2, hgt, not_lt_of_gt hgt, hjump]
      · intro i hi hii j hj hij
        exact ne_of_gt (lt_of_lt_of_le (hall j hj hij) (hv1.le hii hi))

/-- **`intersectMore` is the join**, whichever way its walk goes. -/
theorem intersectMore_eq {fuel step : Nat} (hf : Fronts common v1) (hv1 : Increasing v1)
    (hv2 : Increasing v2) (hstep : 0 < step) (hfuel : v1.length + v2.length < fuel) :
    intersectMore fuel common v2 res step = some (res ++ joinEntries common v2) := by
  simp only [intersectMore, hf.mapM, Option.bind_eq_bind, Option.bind_some]
  by_cases hempty : v1.isEmpty || v2.isEmpty
  · have hnil : joinEntries common v2 = [] := by
      rcases (Bool.or_eq_true _ _).mp hempty with h | h
      · have hc : common = [] := by
          rw [← List.length_eq_zero_iff, hf.length, List.isEmpty_iff.mp h]; rfl
        rw [hc]; rfl
      · rw [List.isEmpty_iff.mp h, joinEntries_nil_right]
    simp [hempty, hnil]
  · simp only [Bool.or_eq_true, not_or, List.isEmpty_iff] at hempty
    have hstart : Walking common v1 v2 res ⟨0, 0, res⟩ :=
      ⟨List.length_pos_iff.mpr hempty.1, List.length_pos_iff.mpr hempty.2, by simp⟩
    obtain ⟨b, hb, rfl⟩ := iterate_total (intersectPass fuel common v1 v2 step)
      (Walking common v1 v2 res) (fun w => v1.length - w.i1 + (v2.length - w.i2)) _
      (intersectPass_keeps hf hv1 hv2 hstep hfuel) _ hstart (show _ < fuel by simp only; omega)
    simpa [hempty.1, hempty.2] using hb

end Walk

/-! ## All the lists -/

/-- One entry of each list, all of document `d`. -/
def TupleFor (input : List (List Entry)) (d : UInt32) (tuple : List Entry) : Prop :=
  List.Forall₂ (fun l e => e ∈ l ∧ e.docIdOffset = d) input tuple

/-- **What an output buffer holds**: one tuple for each document that is in all the lists, in
increasing order of the documents `docs`. -/
structure Joined (input : List (List Entry)) (docs : List UInt32) (out : List (List Entry)) :
    Prop where
  increasing : docs.Pairwise (· < ·)
  mem : ∀ d, d ∈ docs ↔ ∀ l ∈ input, ∃ e ∈ l, e.docIdOffset = d
  tuples : List.Forall₂ (TupleFor input) docs out

theorem TupleFor.head {input : List (List Entry)} {d : UInt32} {tuple : List Entry}
    (h : TupleFor input d tuple) (hne : input ≠ []) :
    ∃ e, tuple.head? = some e ∧ e.docIdOffset = d := by
  cases h with
  | nil => exact absurd rfl hne
  | cons he _ => exact ⟨_, rfl, he.2⟩

theorem TupleFor.snoc {input : List (List Entry)} {d : UInt32} {tuple : List Entry}
    (h : TupleFor input d tuple) {l : List Entry} {e : Entry} (he : e ∈ l)
    (hd : e.docIdOffset = d) : TupleFor (input ++ [l]) d (tuple ++ [e]) := by
  induction h with
  | nil => exact .cons ⟨he, hd⟩ .nil
  | cons h1 _ ih => exact .cons h1 ih

/-- The buffer's tuples have increasing documents in front: what `v1` has to be. -/
theorem Joined.fronts {input docs out} (h : Joined input docs out) (hne : input ≠ []) :
    ∃ v1, Fronts out v1 ∧ Increasing v1 := by
  have hfronts : ∀ {ds : List UInt32} {out : List (List Entry)},
      List.Forall₂ (TupleFor input) ds out →
      ∃ v1 : List Entry, Fronts out v1 ∧ v1.map Entry.docIdOffset = ds := by
    intro ds out hall
    induction hall with
    | nil => exact ⟨[], rfl, rfl⟩
    | cons ht _ ih =>
      obtain ⟨v1, hf, hd⟩ := ih
      obtain ⟨e, he, hed⟩ := ht.head hne
      refine ⟨e :: v1, ?_, by simp [hd, hed]⟩
      simp only [Fronts, List.map_cons, he] at hf ⊢
      rw [hf]
  obtain ⟨v1, hf, hd⟩ := hfronts h.tuples
  refine ⟨v1, hf, ?_⟩
  have hinc := h.increasing
  rw [← hd, List.pairwise_map] at hinc
  exact hinc

/-- The list has an entry of document `d`. -/
def hasDoc (l : List Entry) (d : UInt32) : Bool := l.any (fun e => e.docIdOffset == d)

theorem hasDoc_iff {l : List Entry} {d : UInt32} :
    hasDoc l d = true ↔ ∃ e ∈ l, e.docIdOffset = d := by
  simp [hasDoc]

/-- Looking a tuple's document up, both ways it can end. -/
theorem findDoc_cases {l tuple : List Entry} {d : UInt32} (hd : tupleDoc tuple = some d) :
    (findDoc l tuple = none ∧ hasDoc l d = false) ∨
    ∃ e ∈ l, findDoc l tuple = some e ∧ e.docIdOffset = d ∧ hasDoc l d = true := by
  cases hfind : findDoc l tuple with
  | none =>
    refine Or.inl ⟨rfl, Bool.eq_false_iff.mpr fun h => ?_⟩
    obtain ⟨e, he, hed⟩ := hasDoc_iff.mp h
    have hne := List.find?_eq_none.mp hfind e he
    simp [hd, hed] at hne
  | some e =>
    have hmem : e ∈ l := List.mem_of_find?_eq_some hfind
    have hed := List.find?_some hfind
    rw [hd, beq_iff_eq, Option.some.injEq] at hed
    exact Or.inr ⟨e, hmem, rfl, hed.symm, hasDoc_iff.mpr ⟨e, hmem, hed.symm⟩⟩

/-- **One more list**: the join keeps a tuple exactly when the list has its document. -/
theorem Joined.snoc {input docs out} (h : Joined input docs out) (hne : input ≠ [])
    (l : List Entry) : ∃ docs', Joined (input ++ [l]) docs' (joinEntries out l) := by
  refine ⟨docs.filter (hasDoc l), h.increasing.filter _, fun d => ?_, ?_⟩
  · simp [List.mem_filter, h.mem, hasDoc_iff, or_imp, forall_and]
  · have htuples := h.tuples
    clear h
    induction htuples with
    | nil => exact .nil
    | cons ht _ ih =>
      obtain ⟨e₀, he₀, hd₀⟩ := ht.head hne
      rcases findDoc_cases (l := l) (show tupleDoc _ = some _ by rw [tupleDoc, he₀,
        Option.map_some, hd₀]) with ⟨hfind, hno⟩ | ⟨e, hmem, hfind, hed, hyes⟩
      · rw [List.filter_cons_of_neg (by simp [hno]), joinEntries, List.filterMap_cons, hfind]
        exact ih
      · rw [List.filter_cons_of_pos hyes, joinEntries, List.filterMap_cons, hfind]
        exact .cons (ht.snoc hmem hed) ih

theorem Joined.single {l : List Entry} (h : Increasing l) :
    Joined [l] (l.map Entry.docIdOffset) (l.map fun e => [e]) := by
  refine ⟨List.pairwise_map.mpr h, fun d => by simp, ?_⟩
  rw [List.forall₂_map_left_iff, List.forall₂_map_right_iff, List.forall₂_same]
  exact fun e he => .cons ⟨he, rfl⟩ .nil

/-- The buffer that round `i` reads: `output` in odd rounds, `tmp` in even ones. -/
def current (i : Nat) (bufs : List (List Entry) × List (List Entry)) : List (List Entry) :=
  if i % 2 = 1 then bufs.1 else bufs.2

/-- A round reads the current buffer and leaves its join in the other one, which is then the
current one. -/
theorem intersectRound_eq {fuel step i : Nat} {entries : List Entry}
    {bufs : List (List Entry) × List (List Entry)} {v1 : List Entry}
    (hf : Fronts (current i bufs) v1) (hv1 : Increasing v1) (hv2 : Increasing entries)
    (hstep : 0 < step) (hfuel : (current i bufs).length + entries.length < fuel) :
    ∃ bufs', intersectRound fuel step i entries bufs = some bufs' ∧
      current (i + 1) bufs' = joinEntries (current i bufs) entries := by
  rw [hf.length] at hfuel
  have hmore : intersectMore fuel (current i bufs) entries [] step
      = some (joinEntries (current i bufs) entries) := by
    rw [intersectMore_eq hf hv1 hv2 hstep hfuel, List.nil_append]
  by_cases hi : i % 2 = 1
  · have hi' : ¬ (i + 1) % 2 = 1 := by omega
    rw [current, if_pos hi] at hmore
    exact ⟨(bufs.1, joinEntries bufs.1 entries), by simp [intersectRound, hi, hmore],
      by simp [current, hi, hi']⟩
  · have hi' : (i + 1) % 2 = 1 := by omega
    rw [current, if_neg hi] at hmore
    exact ⟨(joinEntries bufs.2 entries, bufs.2), by simp [intersectRound, hi, hmore],
      by simp [current, hi, hi']⟩

theorem Joined.foldl {input docs out} (h : Joined input docs out) (hne : input ≠ []) :
    ∀ rest : List (List Entry), ∃ docs', Joined (input ++ rest) docs' (rest.foldl joinEntries out)
  | [] => ⟨docs, by simpa using h⟩
  | l :: rest => by
    obtain ⟨docs', h'⟩ := h.snoc hne l
    obtain ⟨docs'', h''⟩ := h'.foldl (by simp) rest
    exact ⟨docs'', by simpa using h''⟩

/-- **All the rounds**, by induction on the lists still to come: the current buffer ends up as
the fold of the joins. -/
theorem intersectRounds_eq {fuel step : Nat} (hstep : 0 < step) {rest : List (List Entry)} :
    ∀ {input : List (List Entry)} {docs : List UInt32} {i : Nat}
      {bufs : List (List Entry) × List (List Entry)},
      input ≠ [] → Joined input docs (current i bufs) → (∀ l ∈ rest, Increasing l) →
      (∀ l ∈ rest, (current i bufs).length + l.length < fuel) →
      ∃ bufs', intersectRounds fuel step i rest bufs = some bufs' ∧
        current (i + rest.length) bufs' = rest.foldl joinEntries (current i bufs) := by
  induction rest with
  | nil => exact fun _ _ _ _ => ⟨_, rfl, rfl⟩
  | cons l rest ih =>
    intro input docs i bufs hne hj hinc hfuel
    obtain ⟨v1, hf, hv1⟩ := hj.fronts hne
    obtain ⟨bufs', hround, hcur⟩ := intersectRound_eq hf hv1 (hinc l List.mem_cons_self) hstep
      (hfuel l List.mem_cons_self)
    obtain ⟨docs', hj'⟩ := hj.snoc hne l
    rw [← hcur] at hj'
    have hshrink : (current (i + 1) bufs').length ≤ (current i bufs).length := by
      rw [hcur]; exact length_joinEntries_le _ _
    obtain ⟨bufs'', hrest, hcur'⟩ := ih (by simp) hj'
      (fun l' h => hinc l' (List.mem_cons_of_mem _ h)) (fun l' h =>
        Nat.lt_of_le_of_lt (Nat.add_le_add_right hshrink _) (hfuel l' (List.mem_cons_of_mem _ h)))
    refine ⟨bufs'', by simp [intersectRounds, hround, hrest], ?_⟩
    rw [List.length_cons, List.foldl_cons, ← hcur, ← hcur']
    congr 1
    omega

/-- The first list of the input, as `output` holds it before the first round. -/
theorem output_start (front : List Entry) :
    (resize front.length ([] : List Entry) ([] ++ [[]])).zipWith (fun tuple e => tuple ++ [e]) front
      = front.map fun e => [e] := by
  have hreplicate : resize front.length ([] : List Entry) ([] ++ [[]])
      = List.replicate front.length [] := by
    cases front with
    | nil => rfl
    | cons e front => simp [resize, List.replicate_succ]
  rw [hreplicate]
  clear hreplicate
  induction front with
  | nil => rfl
  | cons e front ih => simpa [List.replicate_succ] using ih

/-- **Intersecting entry lists.** From an empty output, and with any fuel above the total size
of the lists, `intersectEntries` ends, indexes nothing out of range, and leaves one tuple for
each document that is in all the lists, in increasing order. -/
theorem intersectEntries_joined (input : List (List Entry)) (hne : input ≠ [])
    (hinc : ∀ l ∈ input, Increasing l) :
    ∃ out docs, (∀ fuel, (input.map List.length).sum < fuel →
      intersectEntries fuel input [] = some out) ∧ Joined input docs out := by
  cases input with
  | nil => exact absurd rfl hne
  | cons front rest =>
    have hsingle := Joined.single (hinc front List.mem_cons_self)
    obtain ⟨docs, hj⟩ := hsingle.foldl (by simp) rest
    refine ⟨_, docs, fun fuel hfuel => ?_, hj⟩
    have hbound : ∀ l ∈ rest, (front.map fun e => [e]).length + l.length < fuel := by
      intro l hl
      have hle := List.le_sum_of_mem (List.mem_map_of_mem (f := List.length) hl)
      simp only [List.map_cons, List.sum_cons, List.length_map] at hfuel ⊢
      omega
    have hstart : Joined [front] (front.map Entry.docIdOffset)
        (current 1 (front.map fun e => [e], [])) := hsingle
    obtain ⟨bufs, hrounds, hcur⟩ := intersectRounds_eq (show 0 < 100 by decide) (by simp) hstart
      (fun l h => hinc l (List.mem_cons_of_mem _ h)) hbound
    simp only [intersectEntries, output_start, Option.bind_eq_bind, hrounds, Option.bind_some,
      Option.pure_def, Option.some.injEq, List.length_cons]
    refine Eq.trans ?_ hcur
    rw [current, Nat.add_comm 1]
    -- The last round has written `tmp` if the number of lists is even, else `output`.
    by_cases h : (rest.length + 1) % 2 = 0
    · rw [if_pos h, if_neg (by omega)]
    · rw [if_neg h, if_pos (by omega)]

/-- The same, tuple by tuple and component by component: the `k`-th component of the tuple of
document `docs[i]` is an entry of the `k`-th list for that document (the only one, as the lists
are strictly increasing). -/
theorem intersectEntries_correct (input : List (List Entry)) (hne : input ≠ [])
    (hinc : ∀ l ∈ input, Increasing l) :
    ∃ (out : List (List Entry)) (docs : List UInt32) (fuel₀ : Nat),
      (∀ fuel, fuel₀ ≤ fuel → intersectEntries fuel input [] = some out) ∧
      docs.Pairwise (· < ·) ∧
      (∀ d, d ∈ docs ↔ ∀ l ∈ input, ∃ e ∈ l, e.docIdOffset = d) ∧
      out.length = docs.length ∧
      ∀ i (hd : i < docs.length) (ho : i < out.length), out[i].length = input.length ∧
        ∀ k (hk : k < input.length) (ht : k < out[i].length),
          out[i][k] ∈ input[k] ∧ out[i][k].docIdOffset = docs[i] := by
  obtain ⟨out, docs, hrun, hj⟩ := intersectEntries_joined input hne hinc
  obtain ⟨hlen, htuples⟩ := List.forall₂_iff_get.mp hj.tuples
  refine ⟨out, docs, (input.map List.length).sum + 1, hrun, hj.increasing, hj.mem, hlen.symm, ?_⟩
  intro i hd ho
  obtain ⟨hlen', hcomp⟩ := List.forall₂_iff_get.mp (htuples i hd ho)
  exact ⟨hlen'.symm, hcomp⟩

/-- Three lists with two common documents, one of them past the end of a short list. -/
theorem intersectEntries_correct_three :
    let doc : UInt32 → Entry := fun d => ⟨d, ⟨1, 0, []⟩⟩
    let input := [[doc 1, doc 4, doc 7, doc 9], [doc 4, doc 9], [doc 0, doc 4, doc 9, doc 12]]
    ∃ (out : List (List Entry)) (docs : List UInt32) (fuel₀ : Nat),
      (∀ fuel, fuel₀ ≤ fuel → intersectEntries fuel input [] = some out) ∧
      docs.Pairwise (· < ·) ∧
      (∀ d, d ∈ docs ↔ ∀ l ∈ input, ∃ e ∈ l, e.docIdOffset = d) ∧
      out.length = docs.length ∧
      ∀ i (hd : i < docs.length) (ho : i < out.length), out[i].length = input.length ∧
        ∀ k (hk : k < input.length) (ht : k < out[i].length),
          out[i][k] ∈ input[k] ∧ out[i][k].docIdOffset = docs[i] :=
  intersectEntries_correct _ (by decide) (by decide)

example :
    let doc : UInt32 → Entry := fun d => ⟨d, ⟨1, 0, []⟩⟩
    intersectEntries 9 [[doc 1, doc 4, doc 9], [doc 4, doc 9], [doc 4]] []
      = some [[doc 4, doc 4, doc 4]] := by
  decide

end Amigos.Index
