import Amigos.Lib.Bytes
import Amigos.Lib.Delimited
import Amigos.Lib.Loop

/-!
# Selections in a subtitle (`get_selections`)

All runs of query tokens are searched in a subtitle. A map has, for every position where one of
them is found, the runs found there; a sweep over the map keeps the longest run of a position and
skips the positions that it covers. Positions and lengths are `uint32_t`, and they wrap in subtitles
that are longer.

This file is the code, and what the map holds: `selectsMap_found` says that it holds all runs,
wherever they occur, and nothing else. The order of the vectors is in the code and not in that
statement, for nothing depends on it.
-/

set_option autoImplicit false

namespace Amigos.Searcher

open Amigos.Lib

/-! ## The source -/

/-- `Selection_t`. -/
structure Selection where
  startPos : UInt32
  length : UInt32
  deriving DecidableEq, Repr

/-- `Select_with_size_t`. -/
structure SelectWithSize where
  selection : Selection
  size : Nat
  deriving DecidableEq, Repr

/-- `std::map<uint32_t, std::vector<Select_with_size_t>>`, in the order of the keys. -/
abbrev SelectsMap := List (UInt32 × List SelectWithSize)

/-- `get_query_part`. -/
def getQueryPart (tokens : List Bytes) (start stop : Nat) : Option Bytes := do
  let first ← tokens[start]?
  (List.range' (start + 1) (stop - (start + 1))).foldlM (fun queryPart i => do
    let token ← tokens[i]?
    return queryPart ++ 32 :: token) first

/-- `max_words`. -/
def maxWords (s1 s2 : SelectWithSize) : Bool := decide (s1.size < s2.size)

/-- `selects_map[key].push_back(select)`. -/
def pushSelect (key : UInt32) (select : SelectWithSize) : SelectsMap → SelectsMap
  | [] => [(key, [select])]
  | (k, selects) :: m =>
    if key < k then (key, [select]) :: (k, selects) :: m
    else if key = k then (k, selects ++ [select]) :: m
    else (k, selects) :: pushSelect key select m

/-- One pass of the search for a part of the query, from the position `found_pos + 1` on. -/
def findPass (subtitleM queryPartM : Bytes) (windowSize : Nat) (s : Nat × SelectsMap) :
    Option (Pass (Nat × SelectsMap) SelectsMap) :=
  match findFrom subtitleM queryPartM s.1 with
  | none => some (.leave s.2)
  | some foundPos =>
    let selectWithSize : SelectWithSize :=
      { selection := ⟨UInt32.ofNat foundPos, UInt32.ofNat (queryPartM.length - 1)⟩
        size := windowSize }
    some (.again (foundPos + 1, pushSelect (UInt32.ofNat foundPos) selectWithSize s.2))

/-- The body of the loops over the windows of the query. -/
def selectWindow (fuel : Nat) (tokens : List Bytes) (subtitleM : Bytes) (windowSize start : Nat)
    (m : SelectsMap) : Option SelectsMap := do
  let queryPart ← getQueryPart tokens start (start + windowSize)
  iterate (findPass subtitleM (32 :: (queryPart ++ [32])) windowSize) fuel (0, m)

/-- The map `selects_map` of `get_selections`. -/
def selectsMap (fuel : Nat) (tokens : List Bytes) (subtitle : Bytes) : Option SelectsMap :=
  (List.range' 1 tokens.length).foldlM (fun m windowSize =>
    (List.range (tokens.length + 1 - windowSize)).foldlM (fun m start =>
      selectWindow fuel tokens (32 :: (subtitle ++ [32])) windowSize start m) m) []

/-- `std::max_element` with `max_words`: the first one that no other one is above. -/
def maxElement : List SelectWithSize → Option SelectWithSize
  | [] => none
  | select :: selects =>
    some (selects.foldl (fun largest s => if maxWords largest s then s else largest) select)

/-- `++statistic[size - 1]`. -/
def countSize (statistic : List Nat) : Nat → Option (List Nat)
  | 0 => none
  | k + 1 => statistic[k]?.map fun n => statistic.set k (n + 1)

/-- The inner loop of the sweep: the first position that is not in front of `stop`. -/
def skipTo (stop : UInt32) (it : SelectsMap) : SelectsMap :=
  it.dropWhile fun pair => decide (pair.1 < stop)

/-- The iterator of the sweep, as what it has in front of it, and the two results. -/
structure SweepState where
  it : SelectsMap
  selections : List Selection
  statistic : List Nat

/-- One pass of the sweep. The sum is one of `uint32_t`. -/
def sweepPass (s : SweepState) : Option (Pass SweepState (List Selection × List Nat)) :=
  match s.it with
  | [] => some (.leave (s.selections, s.statistic))
  | (_, selects) :: it => do
    let itSMax ← maxElement selects
    let statistic ← countSize s.statistic itSMax.size
    let stop := itSMax.selection.startPos + itSMax.selection.length
    return .again
      { it := skipTo stop it
        selections := s.selections ++ [itSMax.selection]
        statistic }

/-- `get_selections`, for a pair whose two vectors are empty. -/
def getSelections (fuel : Nat) (tokens : List Bytes) (subtitle : Bytes) :
    Option (List Selection × List Nat) := do
  let m ← selectsMap fuel tokens subtitle
  iterate sweepPass fuel ⟨m, [], List.replicate tokens.length 0⟩

/-! ## The map -/

/-- A vector of the map has this element under this key. -/
def Holds (m : SelectsMap) (key : UInt32) (select : SelectWithSize) : Prop :=
  ∃ selects, (key, selects) ∈ m ∧ select ∈ selects

/-- Every key once, in its place, with a vector that is not empty. -/
structure SelectsMap.Ok (m : SelectsMap) : Prop where
  sorted : m.Pairwise fun a b => a.1 < b.1
  nonempty : ∀ pair ∈ m, pair.2 ≠ []

theorem SelectsMap.Ok.nil : SelectsMap.Ok [] := ⟨.nil, fun _ h => absurd h List.not_mem_nil⟩

theorem holds_cons (k key : UInt32) (selects : List SelectWithSize) (m : SelectsMap)
    (select : SelectWithSize) : Holds ((k, selects) :: m) key select ↔
      (key = k ∧ select ∈ selects) ∨ Holds m key select := by
  constructor
  · rintro ⟨selects', hmem, hin⟩
    rcases List.mem_cons.mp hmem with heq | hmem
    · cases heq
      exact .inl ⟨rfl, hin⟩
    · exact .inr ⟨selects', hmem, hin⟩
  · rintro (⟨rfl, hin⟩ | ⟨selects', hmem, hin⟩)
    · exact ⟨selects, List.mem_cons_self, hin⟩
    · exact ⟨selects', List.mem_cons_of_mem _ hmem, hin⟩

theorem holds_pushSelect (key : UInt32) (select : SelectWithSize) (m : SelectsMap)
    (key' : UInt32) (select' : SelectWithSize) : Holds (pushSelect key select m) key' select' ↔
      Holds m key' select' ∨ (key' = key ∧ select' = select) := by
  induction m with
  | nil =>
    rw [pushSelect, holds_cons, List.mem_singleton]
    exact or_comm
  | cons pair m ih =>
    obtain ⟨k, selects⟩ := pair
    unfold pushSelect
    split
    · rw [holds_cons, List.mem_singleton]
      exact or_comm
    split
    · rename_i hkey
      subst hkey
      rw [holds_cons, holds_cons, List.mem_append, List.mem_singleton]
      tauto
    · rw [holds_cons, holds_cons, ih, or_assoc]

theorem mem_keys_pushSelect {key k : UInt32} {select : SelectWithSize} {m : SelectsMap}
    (h : k ∈ (pushSelect key select m).map Prod.fst) : k = key ∨ k ∈ m.map Prod.fst := by
  induction m with
  | nil => exact .inl (List.mem_singleton.mp h)
  | cons pair m ih =>
    obtain ⟨k', selects⟩ := pair
    unfold pushSelect at h
    split at h
    · exact List.mem_cons.mp h
    split at h
    · exact .inr h
    · rcases List.mem_cons.mp h with rfl | h
      · exact .inr List.mem_cons_self
      · exact (ih h).imp_right (List.mem_cons_of_mem _)

theorem SelectsMap.Ok.pushSelect {m : SelectsMap} (h : m.Ok) (key : UInt32)
    (select : SelectWithSize) : SelectsMap.Ok (pushSelect key select m) := by
  induction m with
  | nil => exact ⟨List.pairwise_singleton _ _, by simp [Searcher.pushSelect]⟩
  | cons pair m ih =>
    obtain ⟨k, selects⟩ := pair
    obtain ⟨hfront, hsorted⟩ := List.pairwise_cons.mp h.sorted
    have hne := h.nonempty _ List.mem_cons_self
    have hrest : ∀ pair ∈ m, pair.2 ≠ [] := fun p hp => h.nonempty p (List.mem_cons_of_mem _ hp)
    unfold Searcher.pushSelect
    split
    · rename_i hlt
      refine ⟨List.pairwise_cons.mpr ⟨fun p hp => ?_, h.sorted⟩, ?_⟩
      · rcases List.mem_cons.mp hp with rfl | hp
        · exact hlt
        · exact UInt32.lt_trans hlt (hfront p hp)
      · exact List.forall_mem_cons.mpr ⟨List.cons_ne_nil _ _, h.nonempty⟩
    split
    · refine ⟨List.pairwise_cons.mpr ⟨hfront, hsorted⟩, List.forall_mem_cons.mpr ⟨?_, hrest⟩⟩
      exact List.append_ne_nil_of_right_ne_nil _ (List.cons_ne_nil _ _)
    · rename_i hge hkey
      have hpush := ih ⟨hsorted, hrest⟩
      refine ⟨List.pairwise_cons.mpr ⟨fun p hp => ?_, hpush.sorted⟩,
        List.forall_mem_cons.mpr ⟨hne, hpush.nonempty⟩⟩
      rcases mem_keys_pushSelect (List.mem_map_of_mem hp) with heq | hmem
      · rw [heq]
        exact UInt32.lt_of_le_of_ne (UInt32.not_lt.mp hge) (Ne.symm hkey)
      · obtain ⟨p', hp', hfst⟩ := List.mem_map.mp hmem
        exact hfst ▸ hfront p' hp'

/-- With more than `n` fuel, `f` adds to a map what `P` says, and nothing else. -/
def Adds (n : Nat) (f : Nat → SelectsMap → Option SelectsMap)
    (P : UInt32 → SelectWithSize → Prop) : Prop :=
  ∀ m : SelectsMap, m.Ok → ∃ m' : SelectsMap, (∀ fuel, n < fuel → f fuel m = some m') ∧ m'.Ok ∧
    ∀ key select, Holds m' key select ↔ Holds m key select ∨ P key select

/-- A loop adds what its passes add. -/
theorem Adds.foldlM {ι : Type} {n : Nat} {f : Nat → SelectsMap → ι → Option SelectsMap}
    {P : ι → UInt32 → SelectWithSize → Prop} {l : List ι}
    (h : ∀ i ∈ l, Adds n (fun fuel m => f fuel m i) (P i)) :
    Adds n (fun fuel m => l.foldlM (f fuel) m) fun key select => ∃ i ∈ l, P i key select := by
  induction l with
  | nil => exact fun m hm => ⟨m, fun _ _ => rfl, hm, fun _ _ => by simp⟩
  | cons i l ih =>
    intro m hm
    obtain ⟨m₁, hfirst, hok₁, hholds₁⟩ := h i List.mem_cons_self m hm
    obtain ⟨m', hrest, hok, hholds⟩ := ih (fun j hj => h j (List.mem_cons_of_mem _ hj)) m₁ hok₁
    refine ⟨m', fun fuel hfuel => ?_, hok, fun key select => ?_⟩
    · have hrun : f fuel m i = some m₁ := hfirst fuel hfuel
      show (f fuel m i).bind (fun m => l.foldlM (f fuel) m) = some m'
      rw [hrun]
      exact hrest fuel hfuel
    · rw [hholds, hholds₁, or_assoc]
      exact or_congr_right (List.exists_mem_cons_iff (fun i => P i key select) i l).symm

/-! ## The search -/

/-- What is recorded for a run of tokens that is found at a position. -/
def selectOf (phrase : List Bytes) (p : Nat) : SelectWithSize :=
  { selection := ⟨UInt32.ofNat p, UInt32.ofNat ((joined 32 phrase).length + 1)⟩
    size := phrase.length }

theorem getQueryPart_eq {tokens : List Bytes} {start size : Nat} (hsize : 1 ≤ size)
    (hstop : start + size ≤ tokens.length) : getQueryPart tokens start (start + size)
      = some (joined 32 ((tokens.drop start).take size)) := by
  have hfold : ∀ (n i : Nat) (part : Bytes), i + n ≤ tokens.length →
      (List.range' i n).foldlM (fun queryPart i => do
        let token ← tokens[i]?
        return queryPart ++ 32 :: token) part
        = some (((tokens.drop i).take n).foldl (fun phrase v => phrase ++ 32 :: v) part) := by
    intro n
    induction n with
    | zero => exact fun _ _ _ => rfl
    | succ n ih =>
      intro i part hle
      have hi : i < tokens.length := by omega
      rw [List.range'_succ, List.foldlM_cons, List.getElem?_eq_getElem hi,
        List.drop_eq_getElem_cons hi, List.take_succ_cons, List.foldl_cons]
      exact ih (i + 1) _ (by omega)
  obtain ⟨n, rfl⟩ := Nat.exists_eq_add_of_le' hsize
  have hstart : start < tokens.length := by omega
  rw [getQueryPart, List.getElem?_eq_getElem hstart, List.drop_eq_getElem_cons hstart,
    List.take_succ_cons, ← foldl_joined, show start + (n + 1) - (start + 1) = n by omega]
  exact hfold n (start + 1) _ (by omega)

/-- A run of tokens occurs from a position on, and is recorded under this key. -/
def FoundFrom (subtitle : Bytes) (phrase : List Bytes) (pos : Nat) (key : UInt32)
    (select : SelectWithSize) : Prop :=
  ∃ p, pos ≤ p ∧ OccursAt 32 subtitle (joined 32 phrase) p ∧
    key = UInt32.ofNat p ∧ select = selectOf phrase p

/-- From its first occurrence on, a run is found there or behind it. -/
theorem foundFrom_iff {subtitle : Bytes} {phrase : List Bytes} {pos p : Nat} (hp : pos ≤ p)
    (hocc : OccursAt 32 subtitle (joined 32 phrase) p)
    (hno : ∀ i, pos ≤ i → i < p → ¬ OccursAt 32 subtitle (joined 32 phrase) i) (key : UInt32)
    (select : SelectWithSize) : FoundFrom subtitle phrase pos key select ↔
      (key = UInt32.ofNat p ∧ select = selectOf phrase p) ∨
        FoundFrom subtitle phrase (p + 1) key select := by
  constructor
  · rintro ⟨i, hi, hocci, hrest⟩
    rcases Nat.lt_trichotomy i p with hlt | rfl | hgt
    · exact absurd hocci (hno i hi hlt)
    · exact .inl hrest
    · exact .inr ⟨i, hgt, hocci, hrest⟩
  · rintro (⟨hkey, hselect⟩ | ⟨i, hi, hrest⟩)
    · exact ⟨p, hp, hocc, hkey, hselect⟩
    · exact ⟨i, hp.trans (Nat.le_of_succ_le hi), hrest⟩

/-- **What a pass of the search can do.** -/
theorem findPass_cases (subtitle : Bytes) (phrase : List Bytes) (pos : Nat) (m : SelectsMap) :
    (findPass (32 :: (subtitle ++ [32])) (32 :: (joined 32 phrase ++ [32])) phrase.length (pos, m)
        = some (.leave m) ∧
      ∀ key select, ¬ FoundFrom subtitle phrase pos key select) ∨
    ∃ p, findPass (32 :: (subtitle ++ [32])) (32 :: (joined 32 phrase ++ [32])) phrase.length
        (pos, m) = some (.again (p + 1, pushSelect (UInt32.ofNat p) (selectOf phrase p) m)) ∧
      pos ≤ p ∧ p < subtitle.length + 2 ∧
      ∀ key select, FoundFrom subtitle phrase pos key select ↔
        (key = UInt32.ofNat p ∧ select = selectOf phrase p) ∨
          FoundFrom subtitle phrase (p + 1) key select := by
  have hlen : (32 :: (joined 32 phrase ++ [32])).length - 1 = (joined 32 phrase).length + 1 := by
    simp
  rcases findFrom_cases (32 :: (subtitle ++ [32]))
    (List.cons_ne_nil 32 (joined 32 phrase ++ [32])) pos with
    ⟨hnone, hno⟩ | ⟨p, hsome, hp, hlt, hfound, hno⟩
  · refine .inl ⟨by simp only [findPass, hnone], ?_⟩
    rintro key select ⟨p, hp, hocc, -⟩
    exact hno p hp ((prefix_padded_iff subtitle _ p).mpr hocc)
  · have hsubtitle : (32 :: (subtitle ++ [32])).length = subtitle.length + 2 := by simp
    refine .inr ⟨p, ?_, hp, hsubtitle ▸ hlt, ?_⟩
    · simp only [findPass, hsome, hlen]
      rfl
    · exact foundFrom_iff hp ((prefix_padded_iff subtitle _ p).mp hfound) fun i hi hip hocc =>
        hno i hi hip ((prefix_padded_iff subtitle _ i).mpr hocc)

/-- **The search for a part** finds it wherever it occurs. -/
theorem adds_iterate_findPass (subtitle : Bytes) (phrase : List Bytes) :
    Adds (subtitle.length + 2) (fun fuel m => iterate (findPass (32 :: (subtitle ++ [32]))
        (32 :: (joined 32 phrase ++ [32])) phrase.length) fuel (0, m))
      (FoundFrom subtitle phrase 0) := by
  intro m hm
  -- What the map holds and what lies ahead of the search stay the same together.
  obtain ⟨m', hrun, hok, hholds⟩ := iterate_total
    (findPass (32 :: (subtitle ++ [32])) (32 :: (joined 32 phrase ++ [32])) phrase.length)
    (fun s => s.2.Ok ∧ ∀ key select,
      Holds s.2 key select ∨ FoundFrom subtitle phrase s.1 key select ↔
        Holds m key select ∨ FoundFrom subtitle phrase 0 key select)
    (fun s => subtitle.length + 2 - s.1)
    (fun m' => m'.Ok ∧ ∀ key select, Holds m' key select ↔
      Holds m key select ∨ FoundFrom subtitle phrase 0 key select)
    (by
      rintro ⟨pos, m'⟩ ⟨hok, hiff⟩
      rcases findPass_cases subtitle phrase pos m' with
        ⟨hpass, hno⟩ | ⟨p, hpass, hp, hlt, hfound⟩
      · refine .inl ⟨m', hpass, hok, fun key select => ?_⟩
        rw [← hiff key select, or_iff_left (hno key select)]
      · refine .inr ⟨_, hpass, ⟨hok.pushSelect _ _, fun key select => ?_⟩, ?_⟩
        · rw [← hiff key select, holds_pushSelect, or_assoc, hfound]
        · show subtitle.length + 2 - (p + 1) < subtitle.length + 2 - pos
          omega)
    (0, m) ⟨hm, fun _ _ => Iff.rfl⟩ (Nat.lt_succ_self _)
  exact ⟨m', fun fuel hfuel => iterate_mono (fun _ _ h => h) hfuel hrun, hok, hholds⟩

/-- A run of tokens is found, and recorded under this key. -/
def Found (tokens : List Bytes) (subtitle : Bytes) (key : UInt32) (select : SelectWithSize) :
    Prop :=
  ∃ phrase, phrase ≠ [] ∧ phrase <:+: tokens ∧ FoundFrom subtitle phrase 0 key select

/-- **The map**: all runs of query tokens, wherever they occur. -/
theorem selectsMap_found (tokens : List Bytes) (subtitle : Bytes) :
    ∃ m, (∀ fuel, subtitle.length + 2 < fuel → selectsMap fuel tokens subtitle = some m) ∧
      m.Ok ∧ ∀ key select, Holds m key select ↔ Found tokens subtitle key select := by
  have hwindow : ∀ size ∈ List.range' 1 tokens.length,
      ∀ start ∈ List.range (tokens.length + 1 - size),
      Adds (subtitle.length + 2) (fun fuel m =>
          selectWindow fuel tokens (32 :: (subtitle ++ [32])) size start m)
        (FoundFrom subtitle ((tokens.drop start).take size) 0) := by
    intro size hsize start hstart
    rw [List.mem_range'_1] at hsize
    rw [List.mem_range] at hstart
    have hstop : start + size ≤ tokens.length := by omega
    have hpart := getQueryPart_eq hsize.1 hstop
    have hlen : ((tokens.drop start).take size).length = size := by
      rw [List.length_take, List.length_drop]
      omega
    have hadds := adds_iterate_findPass subtitle ((tokens.drop start).take size)
    rw [hlen] at hadds
    simp only [selectWindow, hpart]
    exact hadds
  obtain ⟨m, hrun, hok, hholds⟩ :=
    Adds.foldlM (fun size hsize => Adds.foldlM (hwindow size hsize)) [] .nil
  refine ⟨m, hrun, hok, fun key select => (hholds key select).trans ?_⟩
  constructor
  · rintro (⟨_, hmem, -⟩ | ⟨size, hsize, start, hstart, hfound⟩)
    · exact absurd hmem List.not_mem_nil
    · rw [List.mem_range'_1] at hsize
      rw [List.mem_range] at hstart
      refine ⟨_, ?_, ?_, hfound⟩
      · apply List.ne_nil_of_length_pos
        rw [List.length_take, List.length_drop]
        omega
      · exact (List.take_prefix _ _).isInfix.trans (List.drop_suffix _ _).isInfix
  · rintro ⟨phrase, hne, ⟨a, b, rfl⟩, hfound⟩
    have hpos := List.length_pos_iff.mpr hne
    refine .inr ⟨phrase.length, ?_, a.length, ?_, ?_⟩
    · rw [List.mem_range'_1, List.length_append, List.length_append]
      omega
    · rw [List.mem_range, List.length_append, List.length_append]
      omega
    · rwa [List.append_assoc, List.drop_left, List.take_left]

end Amigos.Searcher
