import Mathlib.Data.List.Nodup
import Mathlib.Data.List.Perm.Subperm
import Mathlib.Data.List.TakeWhile
import Amigos.Searcher.Selections

/-!
# The sweep of `get_selections`, and what its selections are for

`Sweeping` is the invariant of the sweep: the positions in front of the iterator are in selections,
and the selections end in front of what lies ahead. At the end of the map it says what `Selects`
asks for. That needs positions that do not wrap (`not_selects_farWord`).

The length that is recorded is one more than that of the text of the run, so that no selection marks
its run: `marked_iff_unmatched`.
-/

set_option autoImplicit false

namespace Amigos.Searcher

open Amigos.Lib

/-! ## One pass -/

/-- The position behind a selection. -/
def Selection.stop (selection : Selection) : Nat :=
  selection.startPos.toNat + selection.length.toNat

/-- A selection stands for a run of tokens that occurs where it begins, and no longer run occurs
there. -/
structure Longest (tokens : List Bytes) (subtitle : Bytes) (selection : Selection)
    (phrase : List Bytes) : Prop where
  nonempty : phrase ≠ []
  isInfix : phrase <:+: tokens
  occurs : OccursAt 32 subtitle (joined 32 phrase) selection.startPos.toNat
  length : selection.length.toNat = (joined 32 phrase).length + 1
  longest : ∀ phrase', phrase' ≠ [] → phrase' <:+: tokens →
    OccursAt 32 subtitle (joined 32 phrase') selection.startPos.toNat →
    phrase'.length ≤ phrase.length

/-- For every number of words from 1 to `n`, how many runs have it. -/
def sizes (n : Nat) (phrases : List (List Bytes)) : List Nat :=
  (List.range n).map fun k => phrases.countP fun phrase => phrase.length == k + 1

theorem getElem?_sizes (n : Nat) (phrases : List (List Bytes)) (k : Nat) :
    (sizes n phrases)[k]? =
      if k < n then some (phrases.countP fun phrase => phrase.length == k + 1) else none := by
  rw [sizes, List.getElem?_map]
  split
  · rename_i hlt
    rw [List.getElem?_range hlt, Option.map_some]
  · rename_i hge
    rw [List.getElem?_eq_none (by rw [List.length_range]; exact Nat.le_of_not_lt hge),
      Option.map_none]

theorem countSize_sizes {n : Nat} {phrases : List (List Bytes)} {phrase : List Bytes}
    (hne : phrase ≠ []) (hle : phrase.length ≤ n) :
    countSize (sizes n phrases) phrase.length = some (sizes n (phrases ++ [phrase])) := by
  obtain ⟨k, hk⟩ := Nat.exists_eq_succ_of_ne_zero (List.length_pos_iff.mpr hne).ne'
  have hlt : k < n := by omega
  rw [hk, countSize, getElem?_sizes, if_pos hlt, Option.map_some, Option.some.injEq]
  apply List.ext_getElem?
  intro i
  rw [List.getElem?_set, getElem?_sizes, getElem?_sizes, List.countP_append, List.countP_singleton,
    hk]
  by_cases hi : k = i
  · subst hi
    have hlen : k < (sizes n phrases).length := by simpa [sizes] using hlt
    rw [if_pos rfl, if_pos hlen, if_pos hlt, if_pos (beq_self_eq_true _)]
  · have hother : ¬ (k.succ == i + 1) = true := fun h => hi (Nat.succ.inj (beq_iff_eq.mp h))
    simp only [if_neg hi, if_neg hother, Nat.add_zero]

theorem maxElement_cases {selects : List SelectWithSize} (hne : selects ≠ []) :
    ∃ select, maxElement selects = some select ∧ select ∈ selects ∧
      ∀ select' ∈ selects, select'.size ≤ select.size := by
  have hfold : ∀ (l : List SelectWithSize) (largest : SelectWithSize),
      l.foldl (fun largest s => if maxWords largest s then s else largest) largest
          ∈ largest :: l ∧
      ∀ select' ∈ largest :: l, select'.size ≤
        (l.foldl (fun largest s => if maxWords largest s then s else largest) largest).size := by
    intro l
    induction l with
    | nil =>
      intro largest
      exact ⟨List.mem_cons_self, fun s hs => by rw [List.mem_singleton.mp hs]; exact Nat.le_refl _⟩
    | cons s l ih =>
      intro largest
      rw [List.foldl_cons]
      obtain ⟨hmem, hmax⟩ := ih (if maxWords largest s then s else largest)
      have hhead := hmax _ List.mem_cons_self
      by_cases hwords : largest.size < s.size
      · have hs : maxWords largest s = true := decide_eq_true hwords
        simp only [hs, if_true] at hmem hmax hhead ⊢
        refine ⟨List.mem_cons_of_mem _ hmem, List.forall_mem_cons.mpr ⟨?_, hmax⟩⟩
        exact (Nat.le_of_lt hwords).trans hhead
      · have hs : maxWords largest s = false := decide_eq_false hwords
        simp only [hs, Bool.false_eq_true, if_false] at hmem hmax hhead ⊢
        refine ⟨?_, List.forall_mem_cons.mpr ⟨hhead, List.forall_mem_cons.mpr ⟨?_, ?_⟩⟩⟩
        · rcases List.mem_cons.mp hmem with heq | hmem
          · rw [heq]
            exact List.mem_cons_self
          · exact List.mem_cons_of_mem _ (List.mem_cons_of_mem _ hmem)
        · exact (Nat.le_of_not_lt hwords).trans hhead
        · exact fun select' h => hmax select' (List.mem_cons_of_mem _ h)
  cases selects with
  | nil => exact absurd rfl hne
  | cons select selects => exact ⟨_, rfl, hfold selects select⟩

theorem skipTo_suffix (stop : UInt32) (it : SelectsMap) : skipTo stop it <:+ it :=
  List.dropWhile_suffix _

/-- What is not skipped is not in front of `stop`. -/
theorem le_of_mem_skipTo {it : SelectsMap} (hsorted : it.Pairwise fun a b => a.1 < b.1)
    {stop : UInt32} {pair : UInt32 × List SelectWithSize} (h : pair ∈ skipTo stop it) :
    stop ≤ pair.1 := by
  induction it with
  | nil => exact absurd h List.not_mem_nil
  | cons first it ih =>
    obtain ⟨hfirst, hrest⟩ := List.pairwise_cons.mp hsorted
    unfold skipTo at h
    by_cases hlt : first.1 < stop
    · simp only [List.dropWhile_cons, hlt, decide_true, if_true] at h
      exact ih hrest h
    · simp only [List.dropWhile_cons, hlt, decide_false, Bool.false_eq_true, if_false] at h
      have hle := UInt32.not_lt.mp hlt
      rcases List.mem_cons.mp h with rfl | h
      · exact hle
      · exact UInt32.le_trans hle (UInt32.le_of_lt (hfirst pair h))

/-- What is skipped is in front of `stop`. -/
theorem mem_skipTo_or_lt {it : SelectsMap} (stop : UInt32)
    {pair : UInt32 × List SelectWithSize} (h : pair ∈ it) :
    pair ∈ skipTo stop it ∨ pair.1 < stop := by
  rw [← it.takeWhile_append_dropWhile (p := fun pair => decide (pair.1 < stop))] at h
  rcases List.mem_append.mp h with h | h
  · have hbelow : decide (pair.1 < stop) = true :=
      List.mem_takeWhile_imp (p := fun pair : UInt32 × List SelectWithSize =>
        decide (pair.1 < stop)) h
    exact .inr (of_decide_eq_true hbelow)
  · exact .inl h

theorem sweepPass_eq {key : UInt32} {selects : List SelectWithSize} {select : SelectWithSize}
    (hmax : maxElement selects = some select) {statistic statistic' : List Nat}
    (hcount : countSize statistic select.size = some statistic') (it : SelectsMap)
    (selections : List Selection) :
    sweepPass ⟨(key, selects) :: it, selections, statistic⟩ = some (.again
      { it := skipTo (select.selection.startPos + select.selection.length) it
        selections := selections ++ [select.selection]
        statistic := statistic' }) := by
  simp only [sweepPass, hmax, hcount, Option.bind_eq_bind, Option.bind_some]
  rfl

theorem SelectsMap.Ok.nodup {m : SelectsMap} (h : m.Ok) : (m.map Prod.fst).Nodup :=
  List.pairwise_map.mpr (h.sorted.imp UInt32.ne_of_lt)

theorem SelectsMap.Ok.unique {m : SelectsMap} (h : m.Ok) {key : UInt32}
    {selects selects' : List SelectWithSize} (hmem : (key, selects) ∈ m)
    (hmem' : (key, selects') ∈ m) : selects = selects' :=
  (Prod.mk.inj (List.inj_on_of_nodup_map h.nodup hmem hmem' rfl)).2

/-- **What has been swept**: every position in front of the iterator is in a selection, and all
selections end in front of what lies ahead. -/
structure Sweeping (tokens : List Bytes) (subtitle : Bytes) (m : SelectsMap) (s : SweepState)
    (phrases : List (List Bytes)) : Prop where
  suffix : s.it <:+ m
  longest : List.Forall₂ (Longest tokens subtitle) s.selections phrases
  apart : s.selections.Pairwise fun a b => a.stop ≤ b.startPos.toNat
  ahead : ∀ selection ∈ s.selections, ∀ pair ∈ s.it, selection.stop ≤ pair.1.toNat
  covered : ∀ pair ∈ m, pair ∈ s.it ∨ ∃ selection ∈ s.selections,
    selection.startPos.toNat ≤ pair.1.toNat ∧ pair.1.toNat < selection.stop
  statistic : s.statistic = sizes tokens.length phrases

section

variable {tokens : List Bytes} {subtitle : Bytes} {m : SelectsMap}

theorem Sweeping.start :
    Sweeping tokens subtitle m ⟨m, [], List.replicate tokens.length 0⟩ [] where
  suffix := List.suffix_rfl
  longest := .nil
  apart := .nil
  ahead _ h := absurd h List.not_mem_nil
  covered _ h := .inl h
  statistic := by
    apply List.ext_getElem?
    intro k
    rw [getElem?_sizes, List.getElem?_replicate]
    rfl

/-- Positions in a subtitle that is not too long do not wrap, and neither do lengths. -/
theorem toNat_selectOf (hsize : subtitle.length + 1 < 2 ^ 32) {phrase : List Bytes} {p : Nat}
    (hocc : OccursAt 32 subtitle (joined 32 phrase) p) :
    (UInt32.ofNat p).toNat = p ∧
      (selectOf phrase p).selection.length.toNat = (joined 32 phrase).length + 1 ∧
      ((selectOf phrase p).selection.startPos + (selectOf phrase p).selection.length).toNat
        = (selectOf phrase p).selection.stop := by
  have hle := hocc.length_le
  have hp : (UInt32.ofNat p).toNat = p := UInt32.toNat_ofNat_of_lt' (by
    show p < 2 ^ 32
    omega)
  have hlen : (selectOf phrase p).selection.length.toNat = (joined 32 phrase).length + 1 :=
    UInt32.toNat_ofNat_of_lt' (by
      show (joined 32 phrase).length + 1 < 2 ^ 32
      omega)
  refine ⟨hp, hlen, ?_⟩
  rw [UInt32.toNat_add, Selection.stop, hlen]
  show ((UInt32.ofNat p).toNat + _) % 2 ^ 32 = (UInt32.ofNat p).toNat + _
  rw [hp]
  exact Nat.mod_eq_of_lt (by omega)

/-- **The largest element of a vector** is a longest run, and no wrap hides where it ends. -/
theorem longest_of_max (hm : m.Ok)
    (hfound : ∀ key select, Holds m key select ↔ Found tokens subtitle key select)
    (hsize : subtitle.length + 1 < 2 ^ 32) {key : UInt32} {selects : List SelectWithSize}
    (hmem : (key, selects) ∈ m) {select : SelectWithSize} (hselect : select ∈ selects)
    (hmax : ∀ select' ∈ selects, select'.size ≤ select.size) :
    ∃ phrase, Longest tokens subtitle select.selection phrase ∧ select.size = phrase.length ∧
      select.selection.startPos = key ∧
      (select.selection.startPos + select.selection.length).toNat = select.selection.stop := by
  obtain ⟨phrase, hne, hwithin, p, -, hocc, rfl, rfl⟩ :=
    (hfound key select).mp ⟨selects, hmem, hselect⟩
  obtain ⟨hp, hlen, hstop⟩ := toNat_selectOf hsize hocc
  refine ⟨phrase, ⟨hne, hwithin, ?_, hlen, ?_⟩, rfl, rfl, hstop⟩
  · show OccursAt 32 subtitle (joined 32 phrase) (UInt32.ofNat p).toNat
    rwa [hp]
  · intro phrase' hne' hwithin' hocc'
    change OccursAt 32 subtitle (joined 32 phrase') (UInt32.ofNat p).toNat at hocc'
    rw [hp] at hocc'
    obtain ⟨selects', hmem', hselect'⟩ := (hfound (UInt32.ofNat p) (selectOf phrase' p)).mpr
      ⟨phrase', hne', hwithin', p, Nat.zero_le p, hocc', rfl, rfl⟩
    exact hmax _ (hm.unique hmem' hmem ▸ hselect')

/-- **Every pass keeps it**, and the iterator goes on. -/
theorem Sweeping.step (hm : m.Ok)
    (hfound : ∀ key select, Holds m key select ↔ Found tokens subtitle key select)
    (hsize : subtitle.length + 1 < 2 ^ 32) {s : SweepState} {phrases : List (List Bytes)}
    (h : Sweeping tokens subtitle m s phrases) :
    (sweepPass s = some (.leave (s.selections, s.statistic)) ∧ s.it = []) ∨
      ∃ s' phrases', sweepPass s = some (.again s') ∧ Sweeping tokens subtitle m s' phrases' ∧
        s'.it.length < s.it.length := by
  obtain ⟨it, selections, statistic⟩ := s
  cases it with
  | nil => exact .inl ⟨rfl, rfl⟩
  | cons pair it =>
    obtain ⟨key, selects⟩ := pair
    have hmem : (key, selects) ∈ m := h.suffix.subset List.mem_cons_self
    obtain ⟨hfirst, hsorted⟩ :=
      List.pairwise_cons.mp (hm.sorted.sublist h.suffix.sublist)
    obtain ⟨select, hmaxel, hselect, hmax⟩ := maxElement_cases (hm.nonempty _ hmem)
    obtain ⟨phrase, hlongest, hwords, hstart, hstop⟩ :=
      longest_of_max hm hfound hsize hmem hselect hmax
    have hcount : countSize statistic select.size
        = some (sizes tokens.length (phrases ++ [phrase])) := by
      rw [hwords, show statistic = sizes tokens.length phrases from h.statistic]
      exact countSize_sizes hlongest.nonempty hlongest.isInfix.length_le
    have hend : select.selection.startPos.toNat < select.selection.stop := by
      rw [Selection.stop, hlongest.length]
      omega
    have hrest := skipTo_suffix (select.selection.startPos + select.selection.length) it
    have hnew : select.selection ∈ selections ++ [select.selection] := by simp
    refine .inr ⟨_, phrases ++ [phrase], sweepPass_eq hmaxel hcount it selections,
      ⟨hrest.trans ((List.suffix_cons _ _).trans h.suffix),
        List.rel_append h.longest (.cons hlongest .nil), ?_, ?_, ?_, rfl⟩,
      Nat.lt_succ_of_le hrest.length_le⟩
    · refine List.pairwise_append.mpr ⟨h.apart, List.pairwise_singleton _ _, ?_⟩
      intro selection hselection other hother
      rw [List.mem_singleton.mp hother, hstart]
      exact h.ahead selection hselection _ List.mem_cons_self
    · intro selection hselection pair hpair
      rcases List.mem_append.mp hselection with hselection | hselection
      · exact h.ahead selection hselection pair (List.mem_cons_of_mem _ (hrest.subset hpair))
      · rw [List.mem_singleton.mp hselection, ← hstop]
        exact UInt32.le_iff_toNat_le.mp (le_of_mem_skipTo hsorted hpair)
    · intro pair hpair
      rcases h.covered pair hpair with hpair | ⟨selection, hselection, hin⟩
      · rcases List.mem_cons.mp hpair with rfl | hpair
        · exact .inr ⟨_, hnew, by rw [hstart], by rw [← hstart]; exact hend⟩
        · -- The positions that are skipped are in the selection.
          refine (mem_skipTo_or_lt _ hpair).imp_right fun hlt => ⟨_, hnew, ?_, ?_⟩
          · rw [hstart]
            exact Nat.le_of_lt (UInt32.lt_iff_toNat_lt.mp (hfirst pair hpair))
          · rw [← hstop]
            exact UInt32.lt_iff_toNat_lt.mp hlt
      · exact .inr ⟨selection, List.mem_append_left _ hselection, hin⟩

/-- A map has at most one key for every position. -/
theorem length_le_of_found (hm : m.Ok)
    (hfound : ∀ key select, Holds m key select ↔ Found tokens subtitle key select) :
    m.length ≤ subtitle.length + 1 := by
  have hsub : m.map Prod.fst ⊆ (List.range (subtitle.length + 1)).map UInt32.ofNat := by
    intro key hkey
    obtain ⟨⟨key', selects⟩, hmem, rfl⟩ := List.mem_map.mp hkey
    obtain ⟨select, hselect⟩ := List.exists_mem_of_ne_nil _ (hm.nonempty _ hmem)
    obtain ⟨phrase, -, -, p, -, hocc, hkey, -⟩ := (hfound key' select).mp ⟨selects, hmem, hselect⟩
    exact List.mem_map.mpr ⟨p, List.mem_range.mpr (Nat.lt_succ_of_le hocc.le), hkey.symm⟩
  have hle := (List.subperm_of_subset hm.nodup hsub).length_le
  rwa [List.length_map, List.length_map, List.length_range] at hle

theorem countSize_defined {statistic : List Nat} {k : Nat} (hpos : 0 < k)
    (hle : k ≤ statistic.length) :
    ∃ statistic', countSize statistic k = some statistic' ∧
      statistic'.length = statistic.length := by
  obtain ⟨k, rfl⟩ := Nat.exists_eq_succ_of_ne_zero hpos.ne'
  refine ⟨statistic.set k (statistic[k] + 1), ?_, List.length_set⟩
  rw [countSize, List.getElem?_eq_getElem hle, Option.map_some]

/-- A pass of the sweep is defined, also where positions wrap. -/
theorem sweepPass_defined (hm : m.Ok)
    (hfound : ∀ key select, Holds m key select ↔ Found tokens subtitle key select)
    {s : SweepState} (hsuffix : s.it <:+ m) (hstat : s.statistic.length = tokens.length) :
    (∃ r, sweepPass s = some (.leave r)) ∨
      ∃ s', sweepPass s = some (.again s') ∧ (s'.it <:+ m ∧ s'.statistic.length = tokens.length) ∧
        s'.it.length < s.it.length := by
  obtain ⟨it, selections, statistic⟩ := s
  cases it with
  | nil => exact .inl ⟨_, rfl⟩
  | cons pair it =>
    obtain ⟨key, selects⟩ := pair
    have hmem : (key, selects) ∈ m := hsuffix.subset List.mem_cons_self
    obtain ⟨select, hmaxel, hselect, -⟩ := maxElement_cases (hm.nonempty _ hmem)
    obtain ⟨phrase, hne, hwithin, p, -, -, -, rfl⟩ :=
      (hfound key select).mp ⟨selects, hmem, hselect⟩
    have hle : phrase.length ≤ statistic.length := hstat ▸ hwithin.length_le
    obtain ⟨statistic', hcount, hlen⟩ := countSize_defined (List.length_pos_iff.mpr hne) hle
    have hrest := skipTo_suffix
      ((selectOf phrase p).selection.startPos + (selectOf phrase p).selection.length) it
    exact .inr ⟨_, sweepPass_eq hmaxel hcount it selections,
      ⟨hrest.trans ((List.suffix_cons _ _).trans hsuffix), hlen.trans hstat⟩,
      Nat.lt_succ_of_le hrest.length_le⟩

/-- The rule for `get_selections`: what every pass of the sweep keeps. -/
theorem getSelections_inv (hm : m.Ok)
    (hmap : ∀ fuel, subtitle.length + 2 < fuel → selectsMap fuel tokens subtitle = some m)
    (hfound : ∀ key select, Holds m key select ↔ Found tokens subtitle key select)
    (Inv : SweepState → Prop) (Post : List Selection × List Nat → Prop)
    (start : Inv ⟨m, [], List.replicate tokens.length 0⟩)
    (step : ∀ s, Inv s → (∃ r, sweepPass s = some (.leave r) ∧ Post r) ∨
      ∃ s', sweepPass s = some (.again s') ∧ Inv s' ∧ s'.it.length < s.it.length) :
    ∃ selections statistic, (∀ fuel, subtitle.length + 2 < fuel →
      getSelections fuel tokens subtitle = some (selections, statistic)) ∧
      Post (selections, statistic) := by
  obtain ⟨⟨selections, statistic⟩, hrun, hpost⟩ := iterate_total sweepPass Inv
    (fun s => s.it.length) Post step ⟨m, [], List.replicate tokens.length 0⟩ start
    (Nat.lt_succ_of_le (length_le_of_found hm hfound))
  refine ⟨selections, statistic, fun fuel hfuel => ?_, hpost⟩
  rw [getSelections, hmap fuel hfuel]
  exact iterate_mono (fun _ _ h => h) (by omega) hrun

end

/-- **`get_selections` always comes to an end**, and never counts outside of the statistic. -/
theorem getSelections_total (tokens : List Bytes) (subtitle : Bytes) :
    ∃ selections statistic, ∀ fuel, subtitle.length + 2 < fuel →
      getSelections fuel tokens subtitle = some (selections, statistic) := by
  obtain ⟨m, hmap, hm, hfound⟩ := selectsMap_found tokens subtitle
  obtain ⟨selections, statistic, hrun, -⟩ := getSelections_inv hm hmap hfound
    (fun s => s.it <:+ m ∧ s.statistic.length = tokens.length) (fun _ => True)
    ⟨List.suffix_rfl, List.length_replicate⟩ (by
      intro s h
      rcases sweepPass_defined hm hfound h.1 h.2 with ⟨r, hpass⟩ | hagain
      · exact .inl ⟨r, hpass, trivial⟩
      · exact .inr hagain)
  exact ⟨selections, statistic, hrun⟩

/-- **The selections**, and the map that they are taken from. -/
theorem getSelections_swept (tokens : List Bytes) (subtitle : Bytes)
    (hsize : subtitle.length + 1 < 2 ^ 32) : ∃ m selections statistic phrases,
      (∀ fuel, subtitle.length + 2 < fuel →
        getSelections fuel tokens subtitle = some (selections, statistic)) ∧
      (∀ key select, Holds m key select ↔ Found tokens subtitle key select) ∧
      Sweeping tokens subtitle m ⟨[], selections, statistic⟩ phrases := by
  obtain ⟨m, hmap, hm, hfound⟩ := selectsMap_found tokens subtitle
  obtain ⟨selections, statistic, hrun, phrases, hsweeping⟩ := getSelections_inv hm hmap hfound
    (fun s => ∃ phrases, Sweeping tokens subtitle m s phrases)
    (fun r => ∃ phrases, Sweeping tokens subtitle m ⟨[], r.1, r.2⟩ phrases) ⟨[], .start⟩ (by
      rintro s ⟨phrases, h⟩
      rcases h.step hm hfound hsize with ⟨hpass, hnil⟩ | ⟨s', phrases', hpass, h', hlt⟩
      · exact .inl ⟨_, hpass, phrases, hnil ▸ h⟩
      · exact .inr ⟨s', hpass, ⟨phrases', h'⟩, hlt⟩)
  exact ⟨m, selections, statistic, phrases, hrun, hfound, hsweeping⟩

/-! ## What the selections are for -/

section

variable {tokens : List Bytes} {subtitle : Bytes} {m : SelectsMap} {selections : List Selection}
  {statistic : List Nat} {phrases : List (List Bytes)}

/-- **What the selections are for**, where `phrases` are the runs that they stand for: they are
longest runs, in order and apart, every occurrence of a token is in exactly one of them, and the
statistic counts them by their words. -/
structure Selects (tokens : List Bytes) (subtitle : Bytes) (selections : List Selection)
    (statistic : List Nat) (phrases : List (List Bytes)) : Prop where
  longest : List.Forall₂ (Longest tokens subtitle) selections phrases
  apart : selections.Pairwise fun a b => a.startPos < b.startPos ∧ a.stop ≤ b.startPos.toNat
  covers : ∀ token ∈ tokens, ∀ p, OccursAt 32 subtitle token p →
    ∃! selection, selection ∈ selections ∧
      selection.startPos.toNat ≤ p ∧ p + token.length ≤ selection.stop
  counts : statistic = sizes tokens.length phrases

theorem exists_longest (h : List.Forall₂ (Longest tokens subtitle) selections phrases)
    {selection : Selection} (hmem : selection ∈ selections) :
    ∃ phrase, Longest tokens subtitle selection phrase := by
  induction h with
  | nil => exact absurd hmem List.not_mem_nil
  | cons hlongest _ ih =>
    rcases List.mem_cons.mp hmem with rfl | hmem
    · exact ⟨_, hlongest⟩
    · exact ih hmem

/-- **A token that occurs is in a selection**, with its end in the text of the run. -/
theorem Sweeping.covers (h : Sweeping tokens subtitle m ⟨[], selections, statistic⟩ phrases)
    (hfound : ∀ key select, Holds m key select ↔ Found tokens subtitle key select)
    (hsize : subtitle.length + 1 < 2 ^ 32) {token : Bytes} (htoken : token ∈ tokens)
    (hsep : 32 ∉ token) {p : Nat} (hocc : OccursAt 32 subtitle token p) :
    ∃ selection ∈ selections, selection.startPos.toNat ≤ p ∧ p + token.length ≤ selection.stop := by
  have hocc' : OccursAt 32 subtitle (joined 32 [token]) p := by
    rwa [joined, List.flatMap_nil, List.append_nil]
  obtain ⟨a, b, hsplit⟩ := List.append_of_mem htoken
  obtain ⟨selects, hmem, -⟩ := (hfound (UInt32.ofNat p) (selectOf [token] p)).mpr
    ⟨[token], List.cons_ne_nil _ _, ⟨a, b, by rw [hsplit]; simp⟩, p, Nat.zero_le p, hocc', rfl,
      rfl⟩
  obtain ⟨selection, hselection, hstart, hstop⟩ :=
    (h.covered _ hmem).resolve_left List.not_mem_nil
  rw [(toNat_selectOf hsize hocc').1] at hstart hstop
  obtain ⟨phrase, hphrase⟩ := exists_longest h.longest hselection
  rw [Selection.stop, hphrase.length] at hstop
  have hend := hocc.end_le hsep hphrase.occurs (Nat.le_of_lt_succ hstop)
  refine ⟨selection, hselection, hstart, ?_⟩
  rw [Selection.stop, hphrase.length]
  exact Nat.le_succ_of_le hend

/-- Selections that are apart do not share a token. -/
theorem eq_of_shared (h : selections.Pairwise fun a b => a.stop ≤ b.startPos.toNat) {p n : Nat}
    (hn : 0 < n) {a b : Selection} (ha : a ∈ selections) (hb : b ∈ selections)
    (hin : a.startPos.toNat ≤ p ∧ p + n ≤ a.stop) (hin' : b.startPos.toNat ≤ p ∧ p + n ≤ b.stop) :
    a = b := by
  obtain ⟨i, hi, rfl⟩ := List.mem_iff_getElem.mp ha
  obtain ⟨j, hj, rfl⟩ := List.mem_iff_getElem.mp hb
  have hapart := List.pairwise_iff_getElem.mp h
  rcases Nat.lt_trichotomy i j with hlt | rfl | hgt
  · have hle := hapart i j hi hj hlt
    omega
  · rfl
  · have hle := hapart j i hj hi hgt
    omega

end

/-- **`get_selections` selects longest runs**, and every token that occurs: with tokens that are
words, in every subtitle that has 32-bit positions. -/
theorem getSelections_selects (tokens : List Bytes) (subtitle : Bytes)
    (htokens : ∀ token ∈ tokens, token ≠ [] ∧ 32 ∉ token)
    (hsize : subtitle.length + 1 < 2 ^ 32) : ∃ selections statistic phrases,
      (∀ fuel, subtitle.length + 2 < fuel →
        getSelections fuel tokens subtitle = some (selections, statistic)) ∧
      Selects tokens subtitle selections statistic phrases := by
  obtain ⟨m, selections, statistic, phrases, hrun, hfound, h⟩ :=
    getSelections_swept tokens subtitle hsize
  refine ⟨selections, statistic, phrases, hrun, h.longest, ?_, ?_, h.statistic⟩
  · refine List.Pairwise.imp_of_mem ?_ h.apart
    intro a b ha _ hle
    obtain ⟨phrase, hphrase⟩ := exists_longest h.longest ha
    have hlen := hphrase.length
    refine ⟨UInt32.lt_iff_toNat_lt.mpr ?_, hle⟩
    rw [Selection.stop] at hle
    omega
  · intro token htoken p hocc
    obtain ⟨hne, hsep⟩ := htokens token htoken
    obtain ⟨selection, hselection, hin⟩ := h.covers hfound hsize htoken hsep hocc
    refine ⟨selection, ⟨hselection, hin⟩, ?_⟩
    rintro other ⟨hother, hin'⟩
    exact eq_of_shared h.apart (List.length_pos_iff.mpr hne) hother hselection hin' hin

/-- Two words in a subtitle, one of them twice. -/
theorem getSelections_selects_aba : ∃ selections statistic phrases,
    (∀ fuel, 7 < fuel →
      getSelections fuel [[97], [98]] [97, 32, 98, 32, 97] = some (selections, statistic)) ∧
    Selects [[97], [98]] [97, 32, 98, 32, 97] selections statistic phrases :=
  getSelections_selects [[97], [98]] [97, 32, 98, 32, 97] (by decide) (by decide)

example : getSelections 8 [[97], [98]] [97, 32, 98, 32, 97]
    = some ([⟨0, 4⟩, ⟨4, 2⟩], [1, 1]) := by
  decide +kernel

/-- A word behind spaces occurs behind them. -/
theorem occursAt_spaces_iff (n p : Nat) :
    OccursAt 32 (List.replicate n 32 ++ [97]) ([97] : Bytes) p ↔ p = n := by
  constructor
  · intro h
    have hlen := h.length_le
    rw [List.length_append, List.length_replicate] at hlen
    change p + 1 ≤ n + 1 at hlen
    have hget := h.starts.getElem Nat.one_pos
    rw [List.getElem_drop] at hget
    by_contra hne
    rw [List.getElem_append_left (by rw [List.length_replicate]; omega), List.getElem_replicate]
      at hget
    cases hget
  · rintro rfl
    refine ⟨by simp, ?_, ?_, .inl (by simp)⟩
    · rw [List.drop_left' (List.length_replicate)]
    · rcases Nat.eq_zero_or_pos p with hzero | hpos
      · exact .inl hzero
      · have hlt : p - 1 < p := Nat.sub_lt hpos Nat.one_pos
        refine .inr ?_
        rw [List.getElem?_append_left (by rwa [List.length_replicate]),
          List.getElem?_replicate_of_lt hlt]

/-- Behind as many spaces as there are positions, no selection can say where the word is. -/
theorem not_selects_spaces {n : Nat} (hn : 2 ^ 32 ≤ n) (selections : List Selection)
    (statistic : List Nat) (phrases : List (List Bytes)) :
    ¬ Selects [[97]] (List.replicate n 32 ++ [97]) selections statistic phrases := by
  intro h
  obtain ⟨selection, ⟨hmem, -⟩, -⟩ :=
    h.covers [97] List.mem_cons_self n ((occursAt_spaces_iff n n).mpr rfl)
  obtain ⟨phrase, hphrase⟩ := exists_longest h.longest hmem
  obtain ⟨w, ws, rfl⟩ := List.exists_cons_of_ne_nil hphrase.nonempty
  have hw : w = [97] := List.mem_singleton.mp (hphrase.isInfix.subset List.mem_cons_self)
  have hocc := hphrase.occurs.first
  rw [hw, occursAt_spaces_iff] at hocc
  have hlt := UInt32.toNat_lt selection.startPos
  omega

/-- Behind 2^32 spaces the position of a word wraps: `get_selections` selects, but something
else. -/
theorem not_selects_farWord : ∃ selections statistic,
    (∀ fuel, (List.replicate (2 ^ 32) 32 ++ [97] : Bytes).length + 2 < fuel →
      getSelections fuel [[97]] (List.replicate (2 ^ 32) 32 ++ [97])
        = some (selections, statistic)) ∧
    ∀ phrases, ¬ Selects [[97]] (List.replicate (2 ^ 32) 32 ++ [97]) selections statistic
      phrases := by
  obtain ⟨selections, statistic, hrun⟩ :=
    getSelections_total [[97]] (List.replicate (2 ^ 32) 32 ++ [97])
  exact ⟨selections, statistic, hrun, not_selects_spaces (Nat.le_refl _) selections statistic⟩

/-! ## What the selections mark -/

/-- **A selection marks a run of tokens** and nothing else: its range is in the subtitle, and what
stands there is the tokens, with single spaces between them. -/
def Marks (tokens : List Bytes) (subtitle : Bytes) (selection : Selection) : Prop :=
  selection.stop ≤ subtitle.length ∧ ∃ phrase, phrase ≠ [] ∧ phrase <:+: tokens ∧
    (subtitle.drop selection.startPos.toNat).take selection.length.toNat = joined 32 phrase

/-- Every selection that `get_selections` delivers marks a run of tokens. -/
def Marked (tokens : List Bytes) (subtitle : Bytes) : Prop :=
  ∃ selections statistic, (∀ fuel, subtitle.length + 2 < fuel →
      getSelections fuel tokens subtitle = some (selections, statistic)) ∧
    ∀ selection ∈ selections, Marks tokens subtitle selection

/-- No token occurs in the subtitle. -/
def Unmatched (tokens : List Bytes) (subtitle : Bytes) : Prop :=
  ∀ token ∈ tokens, ∀ p, ¬ OccursAt 32 subtitle token p

/-- **No selection marks its run**: its range has the space behind the run as well, or ends behind
the subtitle. -/
theorem Longest.not_marks {tokens : List Bytes} {subtitle : Bytes} {selection : Selection}
    {phrase : List Bytes} (h : Longest tokens subtitle selection phrase)
    (htokens : ∀ token ∈ tokens, token ≠ [] ∧ 32 ∉ token) : ¬ Marks tokens subtitle selection := by
  rintro ⟨hle, phrase', -, hwithin, htake⟩
  rw [Selection.stop, h.length] at hle
  have hback := h.occurs.back.resolve_left fun hend => by omega
  rw [h.length, List.take_add_one, h.occurs.take_eq, List.getElem?_drop, hback] at htake
  exact joined_ne_concat (fun w hw => htokens w (hwithin.subset hw)) _ htake.symm

/-- Where no token occurs, nothing is found. -/
theorem Unmatched.not_found {tokens : List Bytes} {subtitle : Bytes}
    (h : Unmatched tokens subtitle) (key : UInt32) (select : SelectWithSize) :
    ¬ Found tokens subtitle key select := by
  rintro ⟨phrase, hne, hwithin, p, -, hocc, -⟩
  obtain ⟨w, ws, rfl⟩ := List.exists_cons_of_ne_nil hne
  exact h w (hwithin.subset List.mem_cons_self) p hocc.first

theorem Unmatched.marked {tokens : List Bytes} {subtitle : Bytes}
    (h : Unmatched tokens subtitle) : Marked tokens subtitle := by
  obtain ⟨m, hmap, hm, hfound⟩ := selectsMap_found tokens subtitle
  have hnil : m = [] := by
    apply List.eq_nil_iff_forall_not_mem.mpr
    rintro ⟨key, selects⟩ hmem
    obtain ⟨select, hselect⟩ := List.exists_mem_of_ne_nil _ (hm.nonempty _ hmem)
    exact h.not_found key select ((hfound key select).mp ⟨selects, hmem, hselect⟩)
  refine ⟨[], List.replicate tokens.length 0, fun fuel hfuel => ?_, by simp⟩
  rw [getSelections, hmap fuel hfuel, hnil]
  exact iterate_leave_of_lt hfuel rfl

/-- **Selections mark their runs just where nothing is selected**: the length that is recorded is
that of the run in the padded subtitle, with one of its two spaces. -/
theorem marked_iff_unmatched (tokens : List Bytes) (subtitle : Bytes)
    (htokens : ∀ token ∈ tokens, token ≠ [] ∧ 32 ∉ token) :
    (Unmatched tokens subtitle → Marked tokens subtitle) ∧
      (subtitle.length + 1 < 2 ^ 32 → (Marked tokens subtitle ↔ Unmatched tokens subtitle)) := by
  refine ⟨Unmatched.marked, fun hsize => ⟨?_, Unmatched.marked⟩⟩
  rintro ⟨selections, statistic, hrun, hmarks⟩ token htoken p hocc
  obtain ⟨m, selections', statistic', phrases, hrun', hfound, h⟩ :=
    getSelections_swept tokens subtitle hsize
  have hfuel := Nat.lt_succ_self (subtitle.length + 2)
  cases (hrun _ hfuel).symm.trans (hrun' _ hfuel)
  obtain ⟨selection, hselection, -⟩ := h.covers hfound hsize htoken (htokens token htoken).2 hocc
  obtain ⟨phrase, hphrase⟩ := exists_longest h.longest hselection
  exact hphrase.not_marks htokens (hmarks selection hselection)

/-- A word at the end of a subtitle: the range ends behind it. -/
theorem not_marked_lastWord : ¬ Marked [[97]] [98, 32, 97] := by
  rintro ⟨selections, statistic, hrun, hmarks⟩
  have hout : getSelections 6 [[97]] [98, 32, 97] = some ([⟨2, 2⟩], [1]) := by decide +kernel
  cases (hrun 6 (by decide)).symm.trans hout
  have hle := (hmarks ⟨2, 2⟩ List.mem_cons_self).1
  exact absurd hle (by decide)

/-- A word that a subtitle does not have, and one that it ends with. -/
theorem marked_iff_unmatched_ba : Marked [[97]] [98] ∧
    (Marked [[97]] [98, 32, 97] ↔ Unmatched [[97]] [98, 32, 97]) := by
  refine ⟨(marked_iff_unmatched [[97]] [98] (by decide)).1 ?_,
    (marked_iff_unmatched [[97]] [98, 32, 97] (by decide)).2 (by decide)⟩
  intro token htoken p hocc
  rw [List.mem_singleton.mp htoken] at hocc
  have hle : p + 1 ≤ 1 := hocc.length_le
  obtain rfl : p = 0 := Nat.le_zero.mp (Nat.le_of_succ_le_succ hle)
  exact absurd hocc.starts (by decide)

end Amigos.Searcher
