import Mathlib.Data.List.Sort
import Amigos.Index.Storage
import Amigos.Ranker.Windows

/-!
# The positions of a zone (`get_positions_for_zone`)

The postings of all entries are put into one list, entry by entry, each with the number of its
entry. The list stays sorted: an iterator goes through it once for every entry, and a position is
put in front of the iterator as soon as it is not greater than what stands there. That is a merge
(`insertPosting_eq`), and what the merges leave is in order and complete
(`getPositionsForZone_correct`).
-/

set_option autoImplicit false

namespace Amigos.Ranker

open Amigos.Lib Amigos.Index
open scoped List

/-! ## The source -/

/-- `positions`. -/
abbrev Positions := List (UInt16 × Nat)

/-- The list in front of `it_list` and from it on, and the posting from `entry_pos` on. -/
structure InsertState where
  before : Positions
  itList : Positions
  entryPos : List UInt16

def InsertState.positions (s : InsertState) : Positions := s.before ++ s.itList

/-- A round of the inner loop. What is inserted stands in front of `it_list`, which stays where it
is. -/
def insertPass (i : Nat) (s : InsertState) : Option (Pass InsertState InsertState) :=
  match s.itList, s.entryPos with
  | elem :: itList, pos :: entryPos =>
    if pos > elem.1 then some (.again { s with before := s.before ++ [elem], itList })
    else some (.again { s with before := s.before ++ [(pos, i)], entryPos })
  | _, _ => some (.leave s)

/-- What is done for one entry; what is left of its posting goes to the end of the list. -/
def insertPosting (fuel i : Nat) (positions : Positions) (postings : List UInt16) :
    Option Positions := do
  let s ← iterate (insertPass i) fuel ⟨[], positions, postings⟩
  return s.entryPos.foldl (fun positions pos => positions ++ [(pos, i)]) s.positions

/-- `postings_by_entries[i][zoneId]`, and what it points to. -/
def postingsOf (src : Bytes) (postingsByEntries : List (List Posting)) (zoneId i : Nat) :
    Option (List UInt16) := do
  let zones ← postingsByEntries[i]?
  let postings ← zones[zoneId]?
  postings.read src

/-- `get_positions_for_zone`. -/
def getPositionsForZone (fuel : Nat) (src : Bytes) (entries : List Entry) (zoneId : Nat)
    (positions : Positions) (postingsByEntries : List (List Posting)) : Option Positions :=
  (List.range entries.length).foldlM (fun positions i => do
    let postings ← postingsOf src postingsByEntries zoneId i
    insertPosting fuel i positions postings) positions

/-! ## One entry -/

/-- The positions with the number of their entry. -/
def tagged (postings : List UInt16) (i : Nat) : Positions := postings.map fun pos => (pos, i)

/-- In order of the positions. -/
def inOrder (a b : UInt16 × Nat) : Bool := decide (a.1 ≤ b.1)

theorem inOrder_trans (a b c : UInt16 × Nat) (hab : inOrder a b = true)
    (hbc : inOrder b c = true) : inOrder a c = true :=
  decide_eq_true (UInt16.le_trans (of_decide_eq_true hab) (of_decide_eq_true hbc))

theorem inOrder_total (a b : UInt16 × Nat) : (inOrder a b || inOrder b a) = true := by
  rw [Bool.or_eq_true, inOrder, inOrder, decide_eq_true_eq, decide_eq_true_eq]
  exact UInt16.le_total a.1 b.1

/-- What the two loops leave, seen from any round. -/
def InsertState.merged (i : Nat) (s : InsertState) : Positions :=
  s.before ++ List.merge (tagged s.entryPos i) s.itList inOrder

theorem foldl_tagged (i : Nat) (postings : List UInt16) : ∀ positions : Positions,
    postings.foldl (fun positions pos => positions ++ [(pos, i)]) positions
      = positions ++ tagged postings i := by
  induction postings with
  | nil => exact fun positions => (List.append_nil positions).symm
  | cons pos postings ih =>
    intro positions
    rw [List.foldl_cons, ih, List.append_assoc]
    rfl

/-- **One round** does not change what will be left. -/
theorem insertPass_cases (i : Nat) (s : InsertState) :
    (insertPass i s = some (.leave s) ∧
      s.entryPos.foldl (fun positions pos => positions ++ [(pos, i)]) s.positions = s.merged i) ∨
    ∃ s', insertPass i s = some (.again s') ∧ s'.merged i = s.merged i ∧
      s'.itList.length + s'.entryPos.length < s.itList.length + s.entryPos.length := by
  obtain ⟨before, itList, entryPos⟩ := s
  cases itList with
  | nil =>
    refine .inl ⟨rfl, ?_⟩
    rw [foldl_tagged, InsertState.positions, InsertState.merged, List.merge_right, List.append_nil]
  | cons elem itList =>
    cases entryPos with
    | nil =>
      refine .inl ⟨rfl, ?_⟩
      rw [InsertState.merged, tagged, List.map_nil, List.nil_merge]
      rfl
    | cons pos entryPos =>
      right
      by_cases hgt : pos > elem.1
      · refine ⟨_, if_pos hgt, ?_, Nat.add_lt_add_right (Nat.lt_succ_self _) _⟩
        have hnot : ¬ inOrder (pos, i) elem = true := fun h =>
          absurd (of_decide_eq_true h) (UInt16.not_le.mpr hgt)
        simp only [InsertState.merged, tagged, List.map_cons]
        rw [List.cons_merge_cons_neg _ _ _ hnot, List.append_assoc]
        rfl
      · refine ⟨_, if_neg hgt, ?_, Nat.add_lt_add_left (Nat.lt_succ_self _) _⟩
        have hle : inOrder (pos, i) elem = true := decide_eq_true (UInt16.not_lt.mp hgt)
        simp only [InsertState.merged, tagged, List.map_cons]
        rw [List.cons_merge_cons_pos _ _ _ hle, List.append_assoc]
        rfl

/-- **The two loops are a merge.** -/
theorem insertPosting_eq {fuel : Nat} (i : Nat) (positions : Positions) (postings : List UInt16)
    (hfuel : positions.length + postings.length < fuel) :
    insertPosting fuel i positions postings
      = some (List.merge (tagged postings i) positions inOrder) := by
  obtain ⟨s, hrun, hs⟩ := iterate_total (insertPass i)
    (fun s => s.merged i = List.merge (tagged postings i) positions inOrder)
    (fun s => s.itList.length + s.entryPos.length)
    (fun s => s.entryPos.foldl (fun positions pos => positions ++ [(pos, i)]) s.positions
      = List.merge (tagged postings i) positions inOrder)
    (fun s hs => (insertPass_cases i s).imp (fun h => ⟨s, h.1, h.2.trans hs⟩)
      fun ⟨s', hpass, hmerged, hlt⟩ => ⟨s', hpass, hmerged.trans hs, hlt⟩)
    ⟨[], positions, postings⟩ rfl hfuel
  rw [insertPosting, hrun, Option.bind_eq_bind, Option.bind_some, hs]
  rfl

/-! ## All entries -/

/-- All positions of all entries. -/
def allTagged (postings : List (List UInt16)) : Positions :=
  postings.zipIdx.flatMap fun entry => tagged entry.1 entry.2

/-- The merges, entry by entry. -/
def mergedTagged (postings : List (List UInt16)) : Positions :=
  postings.zipIdx.foldl (fun positions entry =>
    List.merge (tagged entry.1 entry.2) positions inOrder) []

theorem allTagged_concat (postings : List (List UInt16)) (last : List UInt16) :
    allTagged (postings ++ [last]) = allTagged postings ++ tagged last postings.length := by
  rw [allTagged, List.zipIdx_append, List.flatMap_append, Nat.zero_add]
  exact congrArg _ (List.append_nil _)

theorem mergedTagged_concat (postings : List (List UInt16)) (last : List UInt16) :
    mergedTagged (postings ++ [last])
      = List.merge (tagged last postings.length) (mergedTagged postings) inOrder := by
  rw [mergedTagged, List.zipIdx_append, List.foldl_append, Nat.zero_add]
  rfl

/-- Nothing is lost, and nothing is there twice. -/
theorem mergedTagged_perm (postings : List (List UInt16)) :
    (mergedTagged postings).Perm (allTagged postings) := by
  induction postings using List.reverseRecOn with
  | nil => exact List.Perm.nil
  | append_singleton postings last ih =>
    rw [mergedTagged_concat, allTagged_concat]
    calc List.merge (tagged last postings.length) (mergedTagged postings) inOrder
      _ ~ tagged last postings.length ++ mergedTagged postings := List.merge_perm_append inOrder
      _ ~ mergedTagged postings ++ tagged last postings.length := List.perm_append_comm
      _ ~ allTagged postings ++ tagged last postings.length := ih.append_right _

theorem pairwise_tagged {postings : List UInt16} (h : postings.Pairwise (· ≤ ·)) (i : Nat) :
    (tagged postings i).Pairwise fun a b => inOrder a b = true :=
  List.pairwise_map.mpr (h.imp fun hle => decide_eq_true hle)

theorem mergedTagged_inOrder {postings : List (List UInt16)}
    (hsorted : ∀ posting ∈ postings, posting.Pairwise (· ≤ ·)) :
    (mergedTagged postings).Pairwise fun a b => inOrder a b = true := by
  induction postings using List.reverseRecOn with
  | nil => exact List.Pairwise.nil
  | append_singleton postings last ih =>
    rw [List.forall_mem_append, List.forall_mem_singleton] at hsorted
    rw [mergedTagged_concat]
    exact List.pairwise_merge inOrder_trans inOrder_total _ _ (pairwise_tagged hsorted.2 _)
      (ih hsorted.1)

/-- **The loop over the first `n` entries** makes the merges, if it can read the postings. -/
theorem foldlM_insertPosting {src : Bytes} {postingsByEntries : List (List Posting)} {zoneId : Nat}
    {fuel n : Nat} : ∀ {postings : List (List UInt16)},
    (List.range n).mapM (postingsOf src postingsByEntries zoneId) = some postings →
    (allTagged postings).length < fuel →
    (List.range n).foldlM (fun positions i => do
        let postings ← postingsOf src postingsByEntries zoneId i
        insertPosting fuel i positions postings) [] = some (mergedTagged postings) := by
  induction n with
  | zero =>
    intro postings hread _
    cases hread
    rfl
  | succ n ih =>
    intro postings hread hfuel
    rw [List.range_succ, List.mapM_append] at hread
    simp only [Option.bind_eq_bind, Option.bind_eq_some_iff, List.mapM_cons, List.mapM_nil,
      Option.pure_def, Option.some.injEq] at hread
    obtain ⟨init, hinit, -, ⟨last, hlast, -, rfl, rfl⟩, rfl⟩ := hread
    have hn : init.length = n := (length_of_mapM hinit).trans List.length_range
    rw [allTagged_concat, List.length_append, tagged, List.length_map] at hfuel
    have hmerge := @insertPosting_eq fuel n (mergedTagged init) last
      (by rwa [(mergedTagged_perm init).length_eq])
    rw [List.range_succ, List.foldlM_append, ih hinit (by omega), mergedTagged_concat, hn]
    simp only [List.foldlM_cons, List.foldlM_nil, hlast, hmerge, Option.bind_eq_bind,
      Option.bind_some, Option.pure_def]

/-- **The list has all positions of all entries, in order**, if every posting is in order. -/
theorem getPositionsForZone_correct {src : Bytes} {entries : List Entry} {zoneId : Nat}
    {postingsByEntries : List (List Posting)} {postings : List (List UInt16)}
    (hread : (List.range entries.length).mapM (postingsOf src postingsByEntries zoneId)
      = some postings)
    (hsorted : ∀ posting ∈ postings, posting.Pairwise (· ≤ ·)) :
    ∃ positions : Positions,
      (∀ fuel, (allTagged postings).length < fuel →
        getPositionsForZone fuel src entries zoneId [] postingsByEntries = some positions) ∧
      positions.Pairwise (fun a b => a.1 ≤ b.1) ∧ positions.Perm (allTagged postings) := by
  refine ⟨mergedTagged postings, fun fuel hfuel => ?_, ?_, mergedTagged_perm postings⟩
  · exact foldlM_insertPosting hread hfuel
  · exact (mergedTagged_inOrder hsorted).imp of_decide_eq_true

/-- Two entries in zone 1, with a position in common. -/
theorem getPositionsForZone_correct_witness :
    ∃ positions : Positions,
      (∀ fuel, 4 < fuel → getPositionsForZone fuel [1, 0, 5, 0, 0, 0, 5, 0] [default, default] 1 []
        [[⟨0, 1⟩, ⟨0, 2⟩], [default, ⟨2, 2⟩]] = some positions) ∧
      positions.Pairwise (fun a b => a.1 ≤ b.1) ∧
      positions.Perm [(1, 0), (5, 0), (0, 1), (5, 1)] :=
  @getPositionsForZone_correct _ _ _ _ [[1, 5], [0, 5]] rfl (by decide)

end Amigos.Ranker
