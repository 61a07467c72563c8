import Mathlib.Data.List.Dedup
import Mathlib.Data.List.Perm.Subperm
import Amigos.Indexer.Merge

/-!
# When the merge is right

`erase` leaves the iterator on the file behind the erased one, and the loop then advances it once
more: a file that stands behind one that has just run out is passed over in that walk. Unless the
walk happens to come round to it again, its entries for the token are left for the next round,
which writes the same token a second time.

Whether this happens depends on the token and on the files only through one letter for each file
(`Stand`): the token is not its next one, is its next one, or is its last one. `drains` is the walk
on such words. `Merges.strict_iff` says that the merged tokens are strictly increasing exactly if
the word of every token drains; as nothing is lost in any case (`Merges.perm`), that is all that
can be wrong with a merge, apart from a count that outgrows its field.
-/

set_option autoImplicit false

namespace Amigos.Indexer

open Amigos.Lib Amigos.Index

/-- Strictly increasing tokens: each token at most once. -/
def StrictTokens (items : List IdxItem) : Prop := items.Pairwise (fun a b => a.token < b.token)

instance (items : List IdxItem) : Decidable (StrictTokens items) := by
  unfold StrictTokens; infer_instance

/-! ## Words -/

/-- How a file stands to a token. -/
inductive Stand where
  | absent
  | more
  | last
  deriving DecidableEq, Repr

def stand (t : UInt32) (x : Live) : Stand :=
  if x.cur.token = t then (if x.more.isEmpty then .last else .more) else .absent

theorem stand_absent {t : UInt32} {x : Live} (h : x.cur.token ≠ t) : stand t x = .absent := if_neg h

theorem stand_last {t : UInt32} {it : IdxItem} (h : it.token = t) : stand t ⟨it, []⟩ = .last := by
  simp [stand, h]

theorem stand_more {t : UInt32} {it next : IdxItem} {more : List IdxItem} (h : it.token = t) :
    stand t ⟨it, next :: more⟩ = .more := by
  simp [stand, h]

theorem stand_eq_absent_iff {t : UInt32} {x : Live} : stand t x = .absent ↔ x.cur.token ≠ t := by
  refine ⟨fun h heq => ?_, stand_absent⟩
  by_cases hm : x.more.isEmpty <;> simp [stand, heq, hm] at h

/-- The walk on a word: does it leave no file that stands at the token? Behind a `last`, which is
erased, one file is passed over; behind a `last` at the end the walk starts again. -/
def drains (before : List Stand) : List Stand → Bool
  | [] => before.all (· == .absent)
  | .absent :: rest => drains (before ++ [.absent]) rest
  | .more :: rest => drains (before ++ [.absent]) rest
  | [.last] => drains [] before
  | .last :: passedOver :: rest => drains (before ++ [passedOver]) rest
termination_by rest => (before.length + rest.length, rest.length)
decreasing_by
  all_goals
    simp only [Prod.lex_def, List.length_append, List.length_cons, List.length_nil]
    omega

/-- The word of a token: the files that still have a token that is not below it. -/
def standing (t : UInt32) (files : List (List IdxItem)) : List Stand :=
  files.filterMap fun items =>
    (Live.ofItems (items.filter fun it => decide (t ≤ it.token))).map (stand t)

theorem drains_absent {before rest : List Stand} (hb : ∀ s ∈ before, s = .absent)
    (hr : ∀ s ∈ rest, s = .absent) : drains before rest = true := by
  induction rest generalizing before with
  | nil => simpa [drains] using hb
  | cons s rest ih =>
    obtain rfl : s = .absent := hr s List.mem_cons_self
    unfold drains
    refine ih (fun s hs => ?_) (fun s hs => hr s (List.mem_cons_of_mem _ hs))
    rcases List.mem_append.mp hs with hs | hs
    · exact hb s hs
    · exact List.mem_singleton.mp hs

/-! ## One walk -/

/-- A file without the token it stood at. -/
def strip (t : UInt32) (x : Live) : Option Live :=
  if x.cur.token = t then Live.ofItems x.more else some x

theorem StrictTokens.tail_ne {it : IdxItem} {more : List IdxItem}
    (h : StrictTokens (it :: more)) : ∀ x ∈ more, x.token ≠ it.token := fun x hx =>
  ne_of_gt ((List.pairwise_cons.mp h).1 x hx)

section Collects

variable {t : UInt32} {before rest live : List Live} {entries : List Entry}

/-- The files that the walk leaves still have increasing tokens. -/
theorem Collects.strict (h : Collects t before rest live entries)
    (hinc : ∀ x ∈ before ++ rest, StrictTokens x.items) : ∀ x ∈ live, StrictTokens x.items := by
  intro y hy
  obtain ⟨x, hx, hs⟩ := h.suffix y hy
  exact (hinc x hx).sublist hs.sublist

/-- Tokens other than the one looked for stay where they are. -/
theorem Collects.hasToken_iff (h : Collects t before rest live entries) {a : UInt32} (ha : a ≠ t) :
    (∃ x ∈ live, ∃ it ∈ x.items, it.token = a) ↔
      ∃ x ∈ before ++ rest, ∃ it ∈ x.items, it.token = a := by
  induction h with
  | stop => simp
  | pass _ _ ih => simpa using ih
  | @read _ _ _ _ it _ _ heq _ ih =>
    have hne : it.token ≠ a := heq ▸ ha.symm
    rw [ih]
    simp [Live.items, hne, or_and_right, exists_or]
  | @erase _ _ _ _ it _ heq _ ih =>
    have hne : it.token ≠ a := heq ▸ ha.symm
    rw [ih]
    simp [Live.items, hne, or_and_right, exists_or]
  | @eraseLast _ _ _ it heq _ ih =>
    have hne : it.token ≠ a := heq ▸ ha.symm
    rw [ih]
    simp [Live.items, hne, or_and_right, exists_or]

/-- What `Collects` needs of the cut list, and keeps: the tokens of every file increase. -/
theorem strict_read {before rest : List Live} {it next : IdxItem} {more : List IdxItem}
    (hinc : ∀ x ∈ before ++ ⟨it, next :: more⟩ :: rest, StrictTokens x.items) :
    ∀ x ∈ before ++ [⟨next, more⟩] ++ rest, StrictTokens x.items := by
  intro x hx
  simp only [List.append_assoc, List.mem_append, List.mem_singleton] at hx
  rcases hx with hx | rfl | hx
  · exact hinc x (List.mem_append_left _ hx)
  · have := hinc ⟨it, next :: more⟩ (List.mem_append_right _ List.mem_cons_self)
    exact (List.pairwise_cons.mp this).2
  · exact hinc x (List.mem_append_right _ (List.mem_cons_of_mem _ hx))

/-- What is read is not the token again. -/
theorem strict_next {before rest : List Live} {it next : IdxItem} {more : List IdxItem} {t : UInt32}
    (hinc : ∀ x ∈ before ++ ⟨it, next :: more⟩ :: rest, StrictTokens x.items)
    (heq : it.token = t) : next.token ≠ t := by
  have hstrict := hinc ⟨it, next :: more⟩ (List.mem_append_right _ List.mem_cons_self)
  exact heq ▸ hstrict.tail_ne next List.mem_cons_self

/-- **The word decides** whether a file is left at the token. -/
theorem Collects.drains_iff (h : Collects t before rest live entries)
    (hinc : ∀ x ∈ before ++ rest, StrictTokens x.items) :
    drains (before.map (stand t)) (rest.map (stand t)) = true ↔ ∀ x ∈ live, x.cur.token ≠ t := by
  induction h with
  | stop =>
    simp only [List.map_nil, drains, List.all_map, List.all_eq_true, Function.comp_apply,
      beq_iff_eq, stand_eq_absent_iff]
  | pass hne _ ih =>
    have hword := ih (by simpa using hinc)
    rw [List.map_append, List.map_cons, List.map_nil, stand_absent hne] at hword
    rw [List.map_cons, stand_absent hne, drains, hword]
  | @read before rest _ _ it next more heq _ ih =>
    have hword := ih (strict_read hinc)
    have hnext := strict_next hinc heq
    rw [List.map_append, List.map_cons, List.map_nil, stand_absent hnext] at hword
    rw [List.map_cons, stand_more heq, drains, hword]
  | erase heq _ ih =>
    have hword := ih (fun x hx => hinc x (by simp at hx ⊢; tauto))
    rw [List.map_append, List.map_cons, List.map_nil] at hword
    rw [List.map_cons, List.map_cons, stand_last heq, drains, hword]
  | eraseLast heq _ ih =>
    have hword := ih (fun x hx => hinc x (by simp at hx ⊢; tauto))
    rw [List.map_nil] at hword
    rw [List.map_cons, List.map_nil, stand_last heq, drains, hword]

/-- If no file is left at the token, every file has lost it and the others are as they were. -/
theorem Collects.eq_strip (h : Collects t before rest live entries)
    (hinc : ∀ x ∈ before ++ rest, StrictTokens x.items) (hlive : ∀ x ∈ live, x.cur.token ≠ t) :
    live = (before ++ rest).filterMap (strip t) := by
  induction h with
  | @stop before =>
    rw [List.append_nil, List.filterMap_congr (g := some), List.filterMap_some]
    exact fun x hx => if_neg (hlive x hx)
  | pass _ _ ih => simpa using ih (by simpa using hinc) hlive
  | @read before rest _ _ it next more heq _ ih =>
    have hnext := strict_next hinc heq
    rw [ih (strict_read hinc) hlive]
    simp [strip, heq, hnext, Live.ofItems]
  | erase heq _ ih =>
    rw [ih (fun x hx => hinc x (by simp at hx ⊢; tauto)) hlive]
    simp [List.filterMap_append, List.filterMap_cons, strip, heq, Live.ofItems]
  | eraseLast heq _ ih =>
    rw [ih (fun x hx => hinc x (by simp at hx ⊢; tauto)) hlive]
    simp [strip, heq, Live.ofItems]

end Collects

/-! ## All the rounds -/

section Merges

variable {S : StdSort} {live : List Live} {items : List IdxItem}

/-- Every token is written, and no other. -/
theorem Merges.hasToken_iff (h : Merges S live items) (a : UInt32) :
    (∃ it ∈ items, it.token = a) ↔ ∃ x ∈ live, ∃ it ∈ x.items, it.token = a := by
  induction h with
  | nil => simp
  | @round live rest entries items hne hcollect _ ih =>
    by_cases ha : a = leastToken live
    · subst ha
      obtain ⟨x, hx, hxt⟩ := leastToken_mem hne
      exact iff_of_true ⟨_, List.mem_cons_self, rfl⟩ ⟨x, hx, x.cur, List.mem_cons_self, hxt⟩
    · have hkeep := hcollect.hasToken_iff ha
      rw [← ih, List.nil_append] at hkeep
      rw [← hkeep]
      simp [Ne.symm ha]

/-- A file whose tokens are not below `m`, without those below `t`. -/
theorem standing_live {t : UInt32} {files : List Live}
    (h : ∀ x ∈ files, ∀ it ∈ x.items, t ≤ it.token) :
    standing t (files.map Live.items) = files.map (stand t) := by
  rw [standing, List.filterMap_map, ← List.filterMap_eq_map]
  apply List.filterMap_congr
  intro x hx
  have hall : x.items.filter (fun it => decide (t ≤ it.token)) = x.items :=
    List.filter_eq_self.mpr fun it hit => decide_eq_true (h x hx it hit)
  simp only [Function.comp_apply, hall]
  rfl

/-- Above the token, a file without it has the word it had. -/
theorem standing_strip {m t : UInt32} (hlt : m < t) (live : List Live) :
    standing t ((live.filterMap (strip m)).map Live.items) = standing t (live.map Live.items) := by
  simp only [standing, List.filterMap_map, List.map_filterMap, List.filterMap_filterMap]
  apply List.filterMap_congr
  intro x _
  obtain ⟨it, more⟩ := x
  by_cases heq : it.token = m
  · have hcur : decide (t ≤ it.token) = false := by simpa [heq] using hlt
    simp only [strip, heq, if_true, Function.comp_apply, Live.items]
    rw [List.filter_cons_of_neg (by simp [hcur])]
    cases more with
    | nil => rfl
    | cons next more => rfl
  · simp [strip, heq]

/-- Below all tokens, and at a token that no file has, every word drains. -/
theorem drains_of_not_hasToken {t : UInt32} {live : List Live}
    (h : ∀ x ∈ live, ∀ it ∈ x.items, it.token ≠ t) :
    drains [] (standing t (live.map Live.items)) = true := by
  apply drains_absent (fun s hs => absurd hs List.not_mem_nil)
  intro s hs
  simp only [standing, List.filterMap_map, List.mem_filterMap, Function.comp_apply,
    Option.map_eq_some_iff] at hs
  obtain ⟨x, hx, y, hy, rfl⟩ := hs
  refine stand_absent (h x hx y.cur ?_)
  have hmem : y.cur ∈ x.items.filter (fun it => decide (t ≤ it.token)) := by
    cases hf : x.items.filter (fun it => decide (t ≤ it.token)) with
    | nil => rw [hf] at hy; exact absurd hy (by simp [Live.ofItems])
    | cons it more =>
      rw [hf, Live.ofItems, Option.some.injEq] at hy
      rw [← hy]
      exact List.mem_cons_self
  exact (List.mem_filter.mp hmem).1

/-- **The merged tokens are strictly increasing exactly if every word drains.** -/
theorem Merges.strict_iff (h : Merges S live items) (hinc : ∀ x ∈ live, StrictTokens x.items) :
    StrictTokens items ↔ ∀ t, drains [] (standing t (live.map Live.items)) = true := by
  induction h with
  | nil => simp [StrictTokens, standing, drains]
  | @round live rest entries items hne hcollect hrest ih =>
    have hmin : ∀ x ∈ live, ∀ it ∈ x.items, leastToken live ≤ it.token := by
      intro x hx it hit
      rcases List.mem_cons.mp hit with rfl | hit
      · exact leastToken_le hx
      · exact (leastToken_le hx).trans (le_of_lt ((List.pairwise_cons.mp (hinc x hx)).1 it hit))
    have hkept := hcollect.strict (by simpa using hinc)
    have hword := hcollect.drains_iff (by simpa using hinc)
    rw [List.map_nil, ← standing_live hmin] at hword
    by_cases hdrained : ∀ x ∈ rest, x.cur.token ≠ leastToken live
    -- No file is left at the token: all later rounds are above it, and see the words they saw.
    · have hstrip := hcollect.eq_strip (by simpa using hinc) hdrained
      rw [List.nil_append] at hstrip
      have habove : ∀ x ∈ rest, ∀ it ∈ x.items, leastToken live < it.token := by
        intro x hx it hit
        obtain ⟨y, hy, hs⟩ := hcollect.suffix x hx
        have hcur : leastToken live < x.cur.token :=
          lt_of_le_of_ne (hmin y hy _ (hs.subset List.mem_cons_self)) (hdrained x hx).symm
        rcases List.mem_cons.mp hit with rfl | hit
        · exact hcur
        · exact hcur.trans ((List.pairwise_cons.mp (hkept x hx)).1 it hit)
      have hfirst : ∀ it ∈ items, leastToken live < it.token := by
        intro it hit
        obtain ⟨x, hx, it', hit', heq⟩ := (hrest.hasToken_iff it.token).mp ⟨it, hit, rfl⟩
        exact heq ▸ habove x hx it' hit'
      rw [StrictTokens, List.pairwise_cons, and_iff_right hfirst]
      refine (ih hkept).trans (forall_congr' fun t => ?_)
      -- Below the least token no file has the token, and at it the walk has drained the word.
      rcases lt_trichotomy t (leastToken live) with hlt | rfl | hgt
      · refine iff_of_true (drains_of_not_hasToken fun x hx it hit => ?_)
          (drains_of_not_hasToken fun x hx it hit => ?_)
        · exact ne_of_gt (hlt.trans (habove x hx it hit))
        · exact ne_of_gt (lt_of_lt_of_le hlt (hmin x hx it hit))
      · refine iff_of_true (drains_of_not_hasToken fun x hx it hit => ?_) (hword.mpr hdrained)
        exact ne_of_gt (habove x hx it hit)
      · rw [hstrip, standing_strip hgt]
    · -- A file left at the token: the next round writes the token again.
      refine iff_of_false (fun hstrict => hdrained fun x hx heq => ?_)
        (fun hall => hdrained (hword.mp (hall _)))
      obtain ⟨it, hit, htok⟩ :=
        (hrest.hasToken_iff (leastToken live)).mpr ⟨x, hx, x.cur, List.mem_cons_self, heq⟩
      exact absurd htok (ne_of_gt ((List.pairwise_cons.mp hstrict).1 it hit))

end Merges

/-! ## The raw index files -/

/-- A raw index file that holds a token: what `_flushToDisk` writes for a non-empty index. -/
structure RawFile where
  items : List IdxItem
  nonempty : items ≠ []
  strict : StrictTokens items
  fits : ∀ it ∈ items, it.Fits
  count : items.length < 2 ^ 32

namespace RawFile

def bytes (f : RawFile) : Bytes := indexBytes f.items

end RawFile

/-- The entries of a token. -/
def entriesOf (t : UInt32) (items : List IdxItem) : List Entry :=
  (items.filter fun it => it.token == t).flatMap IdxItem.entries

/-- **What the merged index should be.** -/
structure MergedCorrectly (files : List RawFile) (items : List IdxItem) : Prop where
  count : items.length < 2 ^ 32
  fits : ∀ it ∈ items, it.Fits
  strict : StrictTokens items
  tokens : ∀ t, (∃ it ∈ items, it.token = t) ↔ ∃ f ∈ files, ∃ it ∈ f.items, it.token = t
  sorted : ∀ it ∈ items, it.entries.Pairwise (fun a b => a.docIdOffset ≤ b.docIdOffset)
  perm : ∀ it ∈ items, it.entries.Perm (files.flatMap fun f => entriesOf it.token f.items)

/-- **When it is**: the word of every token drains, and the counts fit their 32 bits. -/
structure MergeCondition (files : List RawFile) : Prop where
  drained : ∀ t, drains [] (standing t (files.map RawFile.items)) = true
  tokens : (files.flatMap fun f => f.items.map IdxItem.token).dedup.length < 2 ^ 32
  entries : ∀ t, (files.flatMap fun f => entriesOf t f.items).length < 2 ^ 32

/-- The open files, before the first round. -/
def RawFile.lives (files : List RawFile) : List Live :=
  (files.map RawFile.items).filterMap Live.ofItems

theorem RawFile.exists_live (f : RawFile) :
    ∃ x, Live.ofItems f.items = some x ∧ x.items = f.items := by
  cases h : f.items with
  | nil => exact absurd h f.nonempty
  | cons it more => exact ⟨⟨it, more⟩, rfl, rfl⟩

theorem RawFile.map_items_lives (files : List RawFile) :
    (lives files).map Live.items = files.map RawFile.items := by
  induction files with
  | nil => rfl
  | cons f files ih =>
    obtain ⟨x, hx, hitems⟩ := f.exists_live
    simp only [lives, List.map_cons, List.filterMap_cons, hx, hitems] at ih ⊢
    rw [ih]

theorem RawFile.mem_lives {files : List RawFile} {x : Live} (hx : x ∈ lives files) :
    ∃ f ∈ files, f.items = x.items := by
  have hmem := List.mem_map_of_mem (f := Live.items) hx
  rw [map_items_lives] at hmem
  exact List.mem_map.mp hmem

theorem livePairs_eq (live : List Live) : livePairs live = (live.map Live.items).flatMap pairs := by
  rw [List.flatMap_map]
  rfl

/-- The pairs of a token are its entries. -/
theorem filter_pairs (t : UInt32) (items : List IdxItem) :
    (pairs items).filter (fun p => p.1 == t) = (entriesOf t items).map (t, ·) := by
  induction items with
  | nil => rfl
  | cons it items ih =>
    rw [pairs_cons, List.filter_append, ih]
    by_cases h : it.token = t
    · subst h
      have hall : (it.entries.map (it.token, ·)).filter (fun p => p.1 == it.token)
          = it.entries.map (it.token, ·) :=
        List.filter_eq_self.mpr fun p hp => by
          obtain ⟨e, -, rfl⟩ := List.mem_map.mp hp
          simp
      have hcons : entriesOf it.token (it :: items) = it.entries ++ entriesOf it.token items := by
        rw [entriesOf, List.filter_cons_of_pos (by simp)]
        rfl
      rw [hall, hcons, List.map_append]
    · have hnone : (it.entries.map (it.token, ·)).filter (fun p => p.1 == t) = [] :=
        List.filter_eq_nil_iff.mpr fun p hp => by
          obtain ⟨e, -, rfl⟩ := List.mem_map.mp hp
          simpa using h
      rw [hnone, List.nil_append, entriesOf, entriesOf, List.filter_cons_of_neg (by simpa using h)]

theorem filter_livePairs (t : UInt32) (files : List RawFile) :
    (livePairs (RawFile.lives files)).filter (fun p => p.1 == t)
      = (files.flatMap fun f => entriesOf t f.items).map (t, ·) := by
  rw [livePairs_eq, RawFile.map_items_lives, List.flatMap_map, List.filter_flatMap,
    List.map_flatMap]
  simp only [filter_pairs]

theorem entryCount_lives (t : UInt32) (files : List RawFile) :
    entryCount t (livePairs (RawFile.lives files))
      = (files.flatMap fun f => entriesOf t f.items).length := by
  rw [entryCount, List.countP_eq_length_filter, filter_livePairs, List.length_map]

/-- With strictly increasing tokens, the entries of a token are those of its item. -/
theorem entriesOf_strict {items : List IdxItem} (h : StrictTokens items) {it : IdxItem}
    (hit : it ∈ items) : entriesOf it.token items = it.entries := by
  induction items with
  | nil => exact absurd hit List.not_mem_nil
  | cons x items ih =>
    obtain ⟨hx, hitems⟩ := List.pairwise_cons.mp h
    rcases List.mem_cons.mp hit with rfl | hit
    · have hrest : items.filter (fun y => y.token == it.token) = [] :=
        List.filter_eq_nil_iff.mpr fun y hy => by simpa using ne_of_gt (hx y hy)
      simp [entriesOf, hrest]
    · have hne : x.token ≠ it.token := ne_of_lt (hx it hit)
      rw [entriesOf, List.filter_cons_of_neg (by simpa using hne)]
      exact ih hitems hit

section Correct

variable {S : StdSort} {files : List RawFile} {items : List IdxItem}

/-- What any merge of raw files does right, as long as the entry counts fit. -/
theorem Merges.mergeIndexes_eq (h : Merges S (RawFile.lives files) items)
    (hbound : ∀ t, (files.flatMap fun f => entriesOf t f.items).length < 2 ^ 32)
    (config : Config) :
    (∀ it ∈ items, it.Fits) ∧
    ∃ fuel₀ : Nat, ∀ fuel, fuel₀ ≤ fuel → mergeIndexes S fuel config (files.map RawFile.bytes)
      = some (indexBytes items,
          if config.invertIndexIPosFile.isEmpty then none else some (posBytes items)) := by
  have hcount : ∀ t, entryCount t (livePairs (RawFile.lives files)) < 2 ^ 32 := fun t => by
    rw [entryCount_lives]; exact hbound t
  have hbytes : files.map RawFile.bytes = (files.map RawFile.items).map indexBytes := by
    rw [List.map_map]; rfl
  have hall : ∀ {P : List IdxItem → Prop}, (∀ f : RawFile, P f.items) →
      ∀ items ∈ files.map RawFile.items, P items := by
    intro P hP items hitems
    obtain ⟨f, -, rfl⟩ := List.mem_map.mp hitems
    exact hP f
  have hself : ∀ items ∈ files.map RawFile.items, readable items = items :=
    hall fun f => readable_of_lt f.count
  have hread : (files.map RawFile.items).map readable = files.map RawFile.items :=
    (List.map_congr_left hself).trans (List.map_id _)
  have hne : ∀ items ∈ files.map RawFile.items, readable items ≠ [] := by
    intro items hitems
    rw [hself items hitems]
    exact hall (P := (· ≠ [])) RawFile.nonempty items hitems
  refine ⟨h.fits (fun x hx it hit => ?_) hcount, ?_⟩
  · obtain ⟨f, -, hf⟩ := RawFile.mem_lives hx
    exact f.fits it (hf ▸ hit)
  · rw [hbytes]
    rw [RawFile.lives, ← hread] at hcount h
    exact Indexer.mergeIndexes_eq hne (hall RawFile.fits) hcount config h

theorem Merges.strict_iff_drained (h : Merges S (RawFile.lives files) items) :
    StrictTokens items ↔ ∀ t, drains [] (standing t (files.map RawFile.items)) = true := by
  rw [h.strict_iff, RawFile.map_items_lives]
  intro x hx
  obtain ⟨f, -, hf⟩ := RawFile.mem_lives hx
  exact hf ▸ f.strict

theorem Merges.tokens_iff (h : Merges S (RawFile.lives files) items) (t : UInt32) :
    (∃ it ∈ items, it.token = t) ↔ ∃ f ∈ files, ∃ it ∈ f.items, it.token = t := by
  rw [h.hasToken_iff]
  constructor
  · rintro ⟨x, hx, it, hit, ht⟩
    obtain ⟨f, hf, hitems⟩ := RawFile.mem_lives hx
    exact ⟨f, hf, it, hitems ▸ hit, ht⟩
  · rintro ⟨f, hf, it, hit, ht⟩
    have hmem : f.items ∈ (RawFile.lives files).map Live.items := by
      rw [RawFile.map_items_lives]; exact List.mem_map_of_mem hf
    obtain ⟨x, hx, hitems⟩ := List.mem_map.mp hmem
    exact ⟨x, hx, it, hitems ▸ hit, ht⟩

theorem Merges.perm_entriesOf (h : Merges S (RawFile.lives files) items)
    (hstrict : StrictTokens items) {it : IdxItem} (hit : it ∈ items) :
    it.entries.Perm (files.flatMap fun f => entriesOf it.token f.items) := by
  have hperm := h.perm.symm.filter (fun p => p.1 == it.token)
  rw [filter_pairs, filter_livePairs, entriesOf_strict hstrict hit] at hperm
  have hsnd := hperm.map Prod.snd
  rwa [List.map_map, List.map_map, Function.comp_def, List.map_id', List.map_id'] at hsnd

/-- Strictly increasing tokens that are those of the files are as many as the files have. -/
theorem length_eq_tokens (hstrict : StrictTokens items)
    (htokens : ∀ t, (∃ it ∈ items, it.token = t) ↔ ∃ f ∈ files, ∃ it ∈ f.items, it.token = t) :
    items.length = (files.flatMap fun f => f.items.map IdxItem.token).dedup.length := by
  have hnodup : (items.map IdxItem.token).Nodup :=
    List.pairwise_map.mpr (hstrict.imp fun h => ne_of_lt h)
  have hperm : (items.map IdxItem.token).Perm
      (files.flatMap fun f => f.items.map IdxItem.token).dedup := by
    apply (List.perm_ext_iff_of_nodup hnodup (List.nodup_dedup _)).mpr
    intro t
    simpa using htokens t
  rw [← hperm.length_eq, List.length_map]

/-- The condition is enough. -/
theorem MergeCondition.correct (h : MergeCondition files) (S : StdSort) (config : Config) :
    ∃ (items : List IdxItem) (fuel₀ : Nat), MergedCorrectly files items ∧
      ∀ fuel, fuel₀ ≤ fuel → ∃ pos,
        mergeIndexes S fuel config (files.map RawFile.bytes) = some (indexBytes items, pos) := by
  obtain ⟨items, hm⟩ := Merges.total S (RawFile.lives files)
  obtain ⟨hfits, fuel₀, hrun⟩ := hm.mergeIndexes_eq h.entries config
  have hstrict := hm.strict_iff_drained.mpr h.drained
  refine ⟨items, fuel₀, ⟨?_, hfits, hstrict, hm.tokens_iff, hm.sorted,
    fun it hit => hm.perm_entriesOf hstrict hit⟩, fun fuel hfuel => ⟨_, hrun fuel hfuel⟩⟩
  rw [length_eq_tokens hstrict hm.tokens_iff]
  exact h.tokens

/-- The condition is needed: it can be read off a correct result. -/
theorem MergedCorrectly.condition (h : MergedCorrectly files items) {config : Config}
    (hrun : ∃ fuel₀ : Nat, ∀ fuel, fuel₀ ≤ fuel → ∃ pos,
      mergeIndexes S fuel config (files.map RawFile.bytes) = some (indexBytes items, pos)) :
    MergeCondition files := by
  have hbound : ∀ t, (files.flatMap fun f => entriesOf t f.items).length < 2 ^ 32 := by
    intro t
    by_cases ht : ∃ it ∈ items, it.token = t
    · obtain ⟨it, hit, rfl⟩ := ht
      rw [← (h.perm it hit).length_eq]
      exact (h.fits it hit).count
    · -- A token that no file has.
      have hnil : (files.flatMap fun f => entriesOf t f.items) = [] := by
        simp only [List.flatMap_eq_nil_iff, entriesOf, List.mem_filter, beq_iff_eq]
        rintro f hf it ⟨hit, htok⟩
        exact absurd ((h.tokens t).mpr ⟨f, hf, it, hit, htok⟩) ht
      rw [hnil]
      exact Nat.two_pow_pos 32
  -- The merge has only one result, so the correct one is that of `Merges`.
  obtain ⟨items', hm⟩ := Merges.total S (RawFile.lives files)
  obtain ⟨hfits, fuel₁, hrun'⟩ := hm.mergeIndexes_eq hbound config
  obtain ⟨fuel₀, hrun⟩ := hrun
  obtain ⟨pos, hout⟩ := hrun (max fuel₀ fuel₁) (Nat.le_max_left _ _)
  rw [hrun' _ (Nat.le_max_right _ _), Option.some.injEq, Prod.mk.injEq] at hout
  obtain rfl := indexBytes_injective hfits h.fits hout.1
  refine ⟨hm.strict_iff_drained.mp h.strict, ?_, hbound⟩
  rw [← length_eq_tokens h.strict h.tokens]
  exact h.count

/-- **`_mergeIndexes` merges correctly exactly under the condition.** -/
theorem mergeIndexes_correct_iff (S : StdSort) (config : Config) (files : List RawFile) :
    (∃ (items : List IdxItem) (fuel₀ : Nat), MergedCorrectly files items ∧
      ∀ fuel, fuel₀ ≤ fuel → ∃ pos,
        mergeIndexes S fuel config (files.map RawFile.bytes) = some (indexBytes items, pos)) ↔
    MergeCondition files :=
  ⟨fun ⟨_, fuel₀, h, hrun⟩ => h.condition ⟨fuel₀, hrun⟩, fun h => h.correct S config⟩

end Correct

/-! ## Two files with one token -/

/-- One token, in one document. -/
def oneToken : RawFile where
  items := [⟨7, [⟨0, ⟨1, 0, [1]⟩⟩]⟩]
  nonempty := by decide
  strict := by decide
  fits := by decide
  count := by decide

/-- The second file runs out where the first one does, and is passed over. -/
theorem not_mergedCorrectly_oneToken : ¬ ∀ (S : StdSort) (config : Config) (files : List RawFile),
    ∃ (items : List IdxItem) (fuel₀ : Nat), MergedCorrectly files items ∧
      ∀ fuel, fuel₀ ≤ fuel → ∃ pos,
        mergeIndexes S fuel config (files.map RawFile.bytes) = some (indexBytes items, pos) := by
  intro h
  obtain ⟨items, fuel₀, hitems, hrun⟩ := h mergeSorter
    { docIdTag := "id", invertIndexIPosFile := "", numZones := [], textZones := [],
      trashZones := [] } [oneToken, oneToken]
  have hword := (hitems.condition ⟨fuel₀, hrun⟩).drained 7
  have hstanding : standing 7 ([oneToken, oneToken].map RawFile.items) = [.last, .last] := by decide
  rw [hstanding] at hword
  simp [drains] at hword

/-- With three such files the walk comes round again, and the merge is right. -/
example : drains [] (standing 7 ([oneToken, oneToken, oneToken].map RawFile.items)) = true := by
  have hstanding : standing 7 ([oneToken, oneToken, oneToken].map RawFile.items)
      = [.last, .last, .last] := by decide
  rw [hstanding]
  simp [drains]

end Amigos.Indexer
