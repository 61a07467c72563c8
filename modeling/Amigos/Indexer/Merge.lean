import Mathlib.Data.List.Forall2
import Amigos.Index.Format

/-!
# Merging raw index files (`_mergeIndexes`)

`Indexer::_mergeIndexes` keeps a list of open files, each at the token it has to deliver next. A
round takes the least of these tokens, walks the list once to collect the entries of every file
that stands at it, and writes them as one item; a file that has delivered its last item is erased
from the list during the walk.

This module is the source, and the first half of its proof: `Live` is what is left of an open
file, `collect` is the walk on such rests, and `mergeIndexes_eq` says that the merge of bytes
computes `Merges`, the merge of items, and writes exactly `indexBytes` of its result. What
`Merges` does with the tokens is the subject of the next module.
-/

set_option autoImplicit false

namespace Amigos.Indexer

open Amigos.Lib Amigos.Index

/-! ## The source -/

/-- An open raw index file. `curTok` is indeterminate until a token has been read. -/
structure RawIndex where
  curTok : Option UInt32
  ifs : IStream
  size : UInt64
  deriving DecidableEq, Repr

namespace RawIndex

/-- `_size-- == 0` also decrements when it answers that nothing is left. -/
def readNextToken (r : RawIndex) : Option (Bool × RawIndex) :=
  if r.size = 0 then some (false, { r with size := r.size - 1 })
  else do
    let (curTok, ifs) ← readFrom r.ifs
    return (true, { curTok := some curTok, ifs, size := r.size - 1 })

/-- The constructor. -/
def ofFile (file : Bytes) : Option RawIndex := do
  let (size, ifs) ← readFromEnd ⟨file, 0⟩
  let (_, r) ← readNextToken { curTok := none, ifs, size := size.toUInt64 }
  return r

def readTokEntries (r : RawIndex) (entries : List Entry) : Option (List Entry × RawIndex) := do
  let (entries, ifs) ← readEntries r.ifs entries
  return (entries, { r with ifs })

end RawIndex

/-- The files being written; a position file only when the configuration names one. -/
structure MergeFiles where
  ofs : Bytes
  ofsForOpt : Option Bytes
  size : UInt32
  deriving DecidableEq, Repr

namespace MergeFiles

def create (config : Config) : MergeFiles :=
  { ofs := []
    ofsForOpt := if config.invertIndexIPosFile.isEmpty then none else some []
    size := 0 }

/-- The end of a round: the position of the item, then the item. -/
def write (m : MergeFiles) (min : UInt32) (entries : List Entry) : MergeFiles :=
  { ofs := writeIdxItem m.ofs min entries
    ofsForOpt := m.ofsForOpt.map (writeTo · (UInt64.ofNat m.ofs.length))
    size := m.size + 1 }

def close (m : MergeFiles) : Bytes × Option Bytes := (writeTo m.ofs m.size, m.ofsForOpt)

end MergeFiles

/-- The iterator of the walk: the list is cut where it stands. -/
structure Cursor where
  before : List RawIndex
  rest : List RawIndex
  entries : List Entry

/-- `++it`. The list is circular, as in libstdc++: behind `end()` comes `begin()`. -/
def advance {α : Type} (before : List α) : List α → List α × List α
  | [] => ([], before)
  | x :: rest => (before ++ [x], rest)

def collectPass (min : UInt32) (c : Cursor) : Option (Pass Cursor (List RawIndex × List Entry)) :=
  match c.rest with
  | [] => some (.leave (c.before, c.entries))
  | itIdx :: rest => do
    if (← itIdx.curTok) = min then
      let (entries, itIdx) ← itIdx.readTokEntries c.entries
      let (more, itIdx) ← itIdx.readNextToken
      -- `erase` leaves the iterator on the file behind, and `++` then passes that one over.
      let (before, rest) := advance c.before (if more then itIdx :: rest else rest)
      return .again ⟨before, rest, entries⟩
    else
      let (before, rest) := advance c.before c.rest
      return .again ⟨before, rest, c.entries⟩

def minToken (indexes : List RawIndex) : Option UInt32 :=
  indexes.foldlM (fun m index => index.curTok.map (min m)) 0xFFFFFFFF

def mergePass (S : StdSort) (fuel : Nat) :
    List RawIndex × MergeFiles → Option (Pass (List RawIndex × MergeFiles) MergeFiles)
  | ([], m) => some (.leave m)
  | (indexes, m) => do
    let min ← minToken indexes
    let (indexes, entries) ← iterate (collectPass min) fuel ⟨[], indexes, []⟩
    return .again (indexes, m.write min (S.sort compareEntries entries))

/-- `_mergeIndexes` on the files it found, in their order: the new index file, and the position
file if there is one. -/
def mergeIndexes (S : StdSort) (fuel : Nat) (config : Config) (files : List Bytes) :
    Option (Bytes × Option Bytes) := do
  let indexes ← files.mapM RawIndex.ofFile
  let m ← iterate (mergePass S fuel) fuel (indexes, .create config)
  return m.close

/-! ## What is written -/

/-- Where the items stand in a file that already has `base` bytes. -/
def positions (base : Nat) : List IdxItem → List UInt64
  | [] => []
  | it :: items => UInt64.ofNat base :: positions (base + it.bytes.length) items

/-- The position file that belongs to an index file. -/
def posBytes (items : List IdxItem) : Bytes := (positions 0 items).flatMap podBytes

/-- The rounds' writes, one after the other. -/
def MergeFiles.writeAll : MergeFiles → List IdxItem → MergeFiles
  | m, [] => m
  | m, it :: items => (m.write it.token it.entries).writeAll items

theorem MergeFiles.writeAll_eq (items : List IdxItem) (m : MergeFiles) :
    m.writeAll items
      = { ofs := m.ofs ++ items.flatMap IdxItem.bytes
          ofsForOpt := m.ofsForOpt.map (· ++ (positions m.ofs.length items).flatMap podBytes)
          size := m.size + UInt32.ofNat items.length } := by
  induction items generalizing m with
  | nil => cases m with | mk ofs pos size => cases pos <;> simp [writeAll, positions]
  | cons it items ih =>
    have hsize : m.size + 1 + UInt32.ofNat items.length
        = m.size + UInt32.ofNat (items.length + 1) := by
      rw [UInt32.ofNat_add, UInt32.add_assoc, UInt32.add_comm 1]
      rfl
    rw [writeAll, ih]
    cases hpos : m.ofsForOpt <;>
      simp [MergeFiles.write, writeIdxItem_eq, positions, writeTo, hpos, hsize]

/-- **The files that a sequence of writes leaves behind.** -/
theorem MergeFiles.close_writeAll (config : Config) (items : List IdxItem) :
    ((create config).writeAll items).close
      = (indexBytes items,
          if config.invertIndexIPosFile.isEmpty then none else some (posBytes items)) := by
  rw [writeAll_eq]
  by_cases h : config.invertIndexIPosFile.isEmpty <;>
    simp [create, close, writeTo, indexBytes, posBytes, h]

theorem MergeFiles.writeAll_snoc (m : MergeFiles) (items : List IdxItem) (it : IdxItem) :
    m.writeAll (items ++ [it]) = (m.writeAll items).write it.token it.entries := by
  induction items generalizing m with
  | nil => rfl
  | cons x items ih => exact ih _

/-- The entries collected so far are those of an item that fits. -/
theorem collectPass_fits {t : UInt32} {c c' : Cursor}
    (hc : c.entries.length < 2 ^ 32 ∧ ∀ e ∈ c.entries, e.Fits)
    (h : collectPass t c = some (.again c')) :
    c'.entries.length < 2 ^ 32 ∧ ∀ e ∈ c'.entries, e.Fits := by
  obtain ⟨before, rest, entries⟩ := c
  cases rest with
  | nil => exact absurd h (by simp [collectPass])
  | cons r rest =>
    simp only [collectPass, Option.bind_eq_bind, Option.bind_eq_some_iff] at h
    obtain ⟨tok, -, h⟩ := h
    by_cases ht : tok = t
    · simp only [if_pos ht, RawIndex.readTokEntries, Option.bind_eq_bind, Option.bind_eq_some_iff,
        Option.pure_def, Option.some.injEq, Pass.again.injEq] at h
      obtain ⟨_, ⟨⟨es, s⟩, hread, rfl⟩, _, -, rfl⟩ := h
      exact fits_of_readEntries hc.2 hread
    · simp only [if_neg ht, Option.pure_def, Option.some.injEq, Pass.again.injEq] at h
      subst h
      exact hc

theorem collectPass_leave {t : UInt32} {c : Cursor} {b : List RawIndex × List Entry}
    (h : collectPass t c = some (.leave b)) : b = (c.before, c.entries) := by
  obtain ⟨before, rest, entries⟩ := c
  cases rest with
  | nil =>
    simp only [collectPass, Option.some.injEq, Pass.leave.injEq] at h
    exact h.symm
  | cons r rest =>
    simp only [collectPass, Option.bind_eq_bind, Option.bind_eq_some_iff] at h
    obtain ⟨tok, -, h⟩ := h
    by_cases ht : tok = t
    · simp [if_pos ht, Option.bind_eq_some_iff] at h
    · simp [if_neg ht] at h

/-- The files under construction are those of some items that fit. -/
def Written (config : Config) (m : MergeFiles) : Prop :=
  ∃ items : List IdxItem, (∀ it ∈ items, it.Fits) ∧ m = (MergeFiles.create config).writeAll items

theorem mergePass_written {S : StdSort} {fuel : Nat} {config : Config}
    {s s' : List RawIndex × MergeFiles} (hs : Written config s.2)
    (h : mergePass S fuel s = some (.again s')) : Written config s'.2 := by
  obtain ⟨indexes, m⟩ := s
  cases indexes with
  | nil => exact absurd h (by simp [mergePass])
  | cons r indexes =>
    simp only [mergePass, Option.bind_eq_bind, Option.bind_eq_some_iff, Option.pure_def,
      Option.some.injEq, Pass.again.injEq] at h
    obtain ⟨t, -, ⟨l, entries⟩, hwalk, rfl⟩ := h
    have hentries : entries.length < 2 ^ 32 ∧ ∀ e ∈ entries, e.Fits := by
      refine iterate_inv (fun c => c.entries.length < 2 ^ 32 ∧ ∀ e ∈ c.entries, e.Fits)
        (fun b => b.2.length < 2 ^ 32 ∧ ∀ e ∈ b.2, e.Fits)
        (fun c c' hc hc' => collectPass_fits hc hc') (fun c b hc hb => ?_)
        ⟨Nat.two_pow_pos 32, fun e he => absurd he List.not_mem_nil⟩ hwalk
      rw [collectPass_leave hb]
      exact hc
    obtain ⟨items, hfits, rfl⟩ := hs
    refine ⟨items ++ [⟨t, S.sort compareEntries entries⟩], fun it hit => ?_,
      (MergeFiles.writeAll_snoc _ items ⟨t, S.sort compareEntries entries⟩).symm⟩
    rcases List.mem_append.mp hit with hit | hit
    · exact hfits it hit
    · rw [List.mem_singleton.mp hit]
      exact ⟨by simpa using hentries.1, fun e he => hentries.2 e (by simpa using he)⟩

theorem mergePass_leave {S : StdSort} {fuel : Nat} {s : List RawIndex × MergeFiles} {b : MergeFiles}
    (h : mergePass S fuel s = some (.leave b)) : b = s.2 := by
  obtain ⟨indexes, m⟩ := s
  cases indexes with
  | nil =>
    simp only [mergePass, Option.some.injEq, Pass.leave.injEq] at h
    exact h.symm
  | cons r indexes => simp [mergePass, Option.bind_eq_some_iff] at h

/-- **Whatever `_mergeIndexes` is given**, if it delivers anything it is the index file of some
items that fit, with their position file. -/
theorem mergeIndexes_writes {S : StdSort} {fuel : Nat} {config : Config} {files : List Bytes}
    {out : Bytes × Option Bytes} (h : mergeIndexes S fuel config files = some out) :
    ∃ items : List IdxItem, (∀ it ∈ items, it.Fits) ∧ out = (indexBytes items,
      if config.invertIndexIPosFile.isEmpty then none else some (posBytes items)) := by
  simp only [mergeIndexes, Option.bind_eq_bind, Option.bind_eq_some_iff, Option.pure_def,
    Option.some.injEq] at h
  obtain ⟨indexes, -, m, hrounds, rfl⟩ := h
  have hwritten : Written config m :=
    iterate_inv (fun s => Written config s.2) (Written config)
      (fun s s' hs hpass => mergePass_written hs hpass)
      (fun s b hs hpass => mergePass_leave hpass ▸ hs)
      ⟨[], fun it hit => absurd hit List.not_mem_nil, rfl⟩ hrounds
  obtain ⟨items, hfits, rfl⟩ := hwritten
  exact ⟨items, hfits, MergeFiles.close_writeAll config items⟩

/-! ## The merge of items -/

/-- What is left of an open file: the item that its token begins, and the items behind. -/
structure Live where
  cur : IdxItem
  more : List IdxItem
  deriving DecidableEq, Repr

def Live.items (x : Live) : List IdxItem := x.cur :: x.more

def Live.ofItems : List IdxItem → Option Live
  | [] => none
  | it :: more => some ⟨it, more⟩

/-- **The walk of `_mergeIndexes`, on what the files hold**: from the list cut into `before` and
`rest`, looking for `t`, it leaves `live` and has read `entries`. One constructor for each thing
that can happen at the iterator. -/
inductive Collects (t : UInt32) :
    (before rest : List Live) → (live : List Live) → (entries : List Entry) → Prop where
  | stop {before : List Live} : Collects t before [] before []
  | pass {before rest live : List Live} {entries : List Entry} {x : Live} (hne : x.cur.token ≠ t)
      (h : Collects t (before ++ [x]) rest live entries) :
      Collects t before (x :: rest) live entries
  | read {before rest live : List Live} {entries : List Entry} {it next : IdxItem}
      {more : List IdxItem} (heq : it.token = t)
      (h : Collects t (before ++ [⟨next, more⟩]) rest live entries) :
      Collects t before (⟨it, next :: more⟩ :: rest) live (it.entries ++ entries)
  | erase {before rest live : List Live} {entries : List Entry} {it : IdxItem} {passedOver : Live}
      (heq : it.token = t) (h : Collects t (before ++ [passedOver]) rest live entries) :
      Collects t before (⟨it, []⟩ :: passedOver :: rest) live (it.entries ++ entries)
  | eraseLast {before live : List Live} {entries : List Entry} {it : IdxItem} (heq : it.token = t)
      (h : Collects t [] before live entries) :
      Collects t before [⟨it, []⟩] live (it.entries ++ entries)

def leastToken (live : List Live) : UInt32 :=
  live.foldl (fun m x => min m x.cur.token) 0xFFFFFFFF

/-- The rounds: `live` is merged into `items`. -/
inductive Merges (S : StdSort) : List Live → List IdxItem → Prop where
  | nil : Merges S [] []
  | round {live rest : List Live} {entries : List Entry} {items : List IdxItem} (hne : live ≠ [])
      (hcollect : Collects (leastToken live) [] live rest entries) (h : Merges S rest items) :
      Merges S live (⟨leastToken live, S.sort compareEntries entries⟩ :: items)

/-! ### The walk always ends -/

theorem Collects.total (t : UInt32) : ∀ before rest : List Live,
    ∃ live entries, Collects t before rest live entries
  | before, [] => ⟨before, [], .stop⟩
  | before, ⟨it, more⟩ :: rest => by
    by_cases heq : it.token = t
    · cases more with
      | cons next more =>
        obtain ⟨live, entries, h⟩ := Collects.total t (before ++ [⟨next, more⟩]) rest
        exact ⟨live, _, .read heq h⟩
      | nil =>
        cases rest with
        | cons passedOver rest =>
          obtain ⟨live, entries, h⟩ := Collects.total t (before ++ [passedOver]) rest
          exact ⟨live, _, .erase heq h⟩
        | nil =>
          obtain ⟨live, entries, h⟩ := Collects.total t [] before
          exact ⟨live, _, .eraseLast heq h⟩
    · obtain ⟨live, entries, h⟩ := Collects.total t (before ++ [⟨it, more⟩]) rest
      exact ⟨live, entries, .pass heq h⟩
termination_by before rest => (before.length + rest.length, rest.length)
decreasing_by
  all_goals
    simp only [Prod.lex_def, List.length_append, List.length_cons, List.length_nil]
    omega

/-! ### What the walk keeps -/

/-- The items that are still to be delivered. -/
def weight (live : List Live) : Nat := (live.map fun x => x.items.length).sum

@[simp] theorem weight_nil : weight [] = 0 := rfl

@[simp] theorem weight_cons (x : Live) (live : List Live) :
    weight (x :: live) = x.items.length + weight live := by simp [weight]

@[simp] theorem weight_append (live live' : List Live) :
    weight (live ++ live') = weight live + weight live' := by simp [weight]

@[simp] theorem length_items (it : IdxItem) (more : List IdxItem) :
    (Live.items ⟨it, more⟩).length = more.length + 1 := rfl

/-- The entries of some items, each with its token. -/
def pairs (items : List IdxItem) : List (UInt32 × Entry) :=
  items.flatMap fun it => it.entries.map (it.token, ·)

def livePairs (live : List Live) : List (UInt32 × Entry) := live.flatMap fun x => pairs x.items

section Collects

variable {t : UInt32} {before rest live : List Live} {entries : List Entry}

theorem Collects.weight_le (h : Collects t before rest live entries) :
    weight live ≤ weight before + weight rest := by
  induction h with
  | stop => simp
  | pass _ _ ih => simp only [weight_append, weight_cons, weight_nil] at ih ⊢; omega
  | read _ _ ih =>
    simp only [weight_append, weight_cons, weight_nil, length_items, List.length_cons] at ih ⊢
    omega
  | erase _ _ ih => simp only [weight_append, weight_cons, weight_nil] at ih ⊢; omega
  | eraseLast _ _ ih => simp only [weight_cons, weight_nil] at ih ⊢; omega

/-- If a file ahead of the iterator stands at the token, some item is delivered. -/
theorem Collects.weight_lt (h : Collects t before rest live entries)
    (hx : ∃ x ∈ rest, x.cur.token = t) : weight live < weight before + weight rest := by
  induction h with
  | stop => obtain ⟨x, hx, -⟩ := hx; exact absurd hx List.not_mem_nil
  | pass hne _ ih =>
    obtain ⟨x, hx, hxt⟩ := hx
    rcases List.mem_cons.mp hx with rfl | hx
    · exact absurd hxt hne
    · have := ih ⟨x, hx, hxt⟩
      simp only [weight_append, weight_cons, weight_nil] at this ⊢
      omega
  | read _ h _ =>
    have := h.weight_le
    simp only [weight_append, weight_cons, weight_nil, length_items] at this ⊢
    simp only [List.length_cons]
    omega
  | erase _ h _ =>
    have := h.weight_le
    simp only [weight_append, weight_cons, weight_nil, length_items] at this ⊢
    omega
  | eraseLast _ h _ =>
    have := h.weight_le
    simp only [weight_cons, weight_nil, length_items] at this ⊢
    omega

/-- What a file still holds is the end of what it held. -/
theorem Collects.suffix (h : Collects t before rest live entries) :
    ∀ y ∈ live, ∃ x ∈ before ++ rest, y.items <:+ x.items := by
  induction h with
  | stop => exact fun y hy => ⟨y, by simpa using hy, List.suffix_rfl⟩
  | pass _ _ ih => simpa using ih
  | read _ _ ih =>
    intro y hy
    obtain ⟨x, hx, hs⟩ := ih y hy
    simp only [List.append_assoc, List.mem_append, List.mem_singleton] at hx
    rcases hx with hx | rfl | hx
    · exact ⟨x, by simp [hx], hs⟩
    · exact ⟨_, List.mem_append_right _ List.mem_cons_self, hs.trans (List.suffix_cons _ _)⟩
    · exact ⟨x, by simp [hx], hs⟩
  | erase _ _ ih =>
    intro y hy
    obtain ⟨x, hx, hs⟩ := ih y hy
    exact ⟨x, by simp at hx ⊢; tauto, hs⟩
  | eraseLast _ _ ih =>
    intro y hy
    obtain ⟨x, hx, hs⟩ := ih y hy
    exact ⟨x, by simp at hx ⊢; tauto, hs⟩

theorem pairs_cons (it : IdxItem) (items : List IdxItem) :
    pairs (it :: items) = it.entries.map (it.token, ·) ++ pairs items := rfl

theorem livePairs_cons (x : Live) (live : List Live) :
    livePairs (x :: live) = pairs x.items ++ livePairs live := rfl

theorem livePairs_append (live live' : List Live) :
    livePairs (live ++ live') = livePairs live ++ livePairs live' := by
  simp [livePairs]

/-- **Nothing is lost and nothing is doubled by the walk**: what the files held is what was read,
under `t`, and what they still hold. -/
theorem Collects.perm (h : Collects t before rest live entries) :
    (livePairs before ++ livePairs rest).Perm (entries.map (t, ·) ++ livePairs live) := by
  induction h with
  | stop => simp [livePairs]
  | pass _ _ ih => simpa [livePairs_cons, livePairs_append, livePairs] using ih
  | @read before rest live entries it next more heq _ ih =>
    subst heq
    -- The entries of `it` move to the front; the rest of the file stays in its place.
    simp only [livePairs_append, livePairs_cons, Live.items] at ih ⊢
    rw [pairs_cons it, List.map_append, List.append_assoc, List.append_assoc]
    refine List.perm_append_comm_assoc _ _ _ |>.trans (List.Perm.append_left _ ?_)
    simpa [livePairs] using ih
  | @erase before rest live entries it passedOver heq _ ih =>
    subst heq
    simp only [livePairs_append, livePairs_cons, Live.items] at ih ⊢
    rw [pairs_cons it, List.map_append, List.append_assoc, List.append_assoc]
    refine List.perm_append_comm_assoc _ _ _ |>.trans (List.Perm.append_left _ ?_)
    simpa [livePairs, pairs] using ih
  | @eraseLast before live entries it heq _ ih =>
    subst heq
    simp only [livePairs_cons, Live.items, pairs_cons, List.map_append, List.append_assoc]
    refine List.perm_append_comm_assoc _ _ _ |>.trans (List.Perm.append_left _ ?_)
    simpa [livePairs, pairs] using ih

end Collects

/-! ## The open files deliver the items -/

/-- An open file stands in front of `more`. -/
structure Behind (r : RawIndex) (more : List IdxItem) : Prop where
  size : r.size = UInt64.ofNat more.length
  count : more.length < 2 ^ 32
  fits : ∀ it ∈ more, it.Fits
  unread : ∃ trailer, r.ifs.unread = more.flatMap IdxItem.bytes ++ trailer

/-- An open file has read the token of `x.cur`, and stands in front of its entries. -/
structure Holds (r : RawIndex) (x : Live) : Prop where
  curTok : r.curTok = some x.cur.token
  size : r.size = UInt64.ofNat x.more.length
  count : x.more.length < 2 ^ 32
  fits : ∀ it ∈ x.items, it.Fits
  unread : ∃ trailer,
    r.ifs.unread = entriesBytes x.cur.entries ++ (x.more.flatMap IdxItem.bytes ++ trailer)

theorem Behind.readNextToken_nil {r : RawIndex} (h : Behind r []) :
    ∃ r', r.readNextToken = some (false, r') :=
  ⟨_, if_pos h.size⟩

theorem Behind.readNextToken_cons {r : RawIndex} {it : IdxItem} {more : List IdxItem}
    (h : Behind r (it :: more)) :
    ∃ r', r.readNextToken = some (true, r') ∧ Holds r' ⟨it, more⟩ := by
  obtain ⟨trailer, hunread⟩ := h.unread
  have hcount := h.count
  have hsize := h.size
  simp only [List.length_cons, UInt64.ofNat_add] at hcount hsize
  -- 64 bits are enough for the count, so there is an item as long as there is one left.
  have hne : r.size ≠ 0 := by
    intro h0
    have hnat := congrArg UInt64.toNat (h0.symm.trans h.size)
    rw [List.length_cons, UInt64.toNat_ofNat', Nat.mod_eq_of_lt (by omega)] at hnat
    exact absurd hnat (by simp)
  have hless : r.size - 1 = UInt64.ofNat more.length := by
    rw [hsize]
    exact UInt64.add_sub_cancel _ _
  rw [List.flatMap_cons, IdxItem.bytes, List.append_assoc, List.append_assoc] at hunread
  have hread := decodes_readFrom it.token r.ifs _ hunread
  refine ⟨⟨some it.token, r.ifs.seek (r.ifs.pos + (podBytes it.token).length), r.size - 1⟩, ?_, ?_⟩
  · rw [RawIndex.readNextToken, if_neg hne, hread]
    rfl
  · exact ⟨rfl, hless, by simp only; omega, h.fits,
      ⟨trailer, IStream.unread_seek_append hunread⟩⟩

theorem Holds.readTokEntries {r : RawIndex} {x : Live} (h : Holds r x) (acc : List Entry)
    (hlen : acc.length + x.cur.entries.length < 2 ^ 32) :
    ∃ r', r.readTokEntries acc = some (acc ++ x.cur.entries, r') ∧ Behind r' x.more := by
  obtain ⟨trailer, hunread⟩ := h.unread
  have hfits : x.cur.Fits := h.fits _ List.mem_cons_self
  have hread : readEntries r.ifs acc = some (acc ++ x.cur.entries,
      r.ifs.seek (r.ifs.pos + (entriesBytes x.cur.entries).length)) :=
    decodes_readEntries acc x.cur.entries hfits.entries hlen r.ifs _ hunread
  refine ⟨{ r with ifs := r.ifs.seek (r.ifs.pos + (entriesBytes x.cur.entries).length) }, ?_,
    ⟨h.size, h.count, fun it hit => h.fits it (List.mem_cons_of_mem _ hit),
      ⟨trailer, IStream.unread_seek_append hunread⟩⟩⟩
  rw [RawIndex.readTokEntries, hread]
  rfl

/-- What a reader of a file comes to: its trailer says how many items there are. -/
def readable (items : List IdxItem) : List IdxItem :=
  items.take (UInt32.ofNat items.length).toNat

theorem length_readable (items : List IdxItem) :
    (readable items).length = (UInt32.ofNat items.length).toNat := by
  rw [readable, List.length_take, UInt32.toNat_ofNat']
  exact Nat.min_eq_left (Nat.mod_le _ _)

theorem readable_of_lt {items : List IdxItem} (h : items.length < 2 ^ 32) :
    readable items = items := by
  rw [readable, UInt32.toNat_ofNat', Nat.mod_eq_of_lt h, List.take_length]

theorem indexBytes_readable (items : List IdxItem) :
    ∃ trailer, indexBytes items = (readable items).flatMap IdxItem.bytes ++ trailer := by
  refine ⟨(items.drop (UInt32.ofNat items.length).toNat).flatMap IdxItem.bytes
    ++ podBytes (UInt32.ofNat items.length), ?_⟩
  rw [← List.append_assoc, readable, ← List.flatMap_append, List.take_append_drop, indexBytes]

/-- A file in front of its first token. -/
theorem Behind.ofFile {items : List IdxItem} (hfits : ∀ x ∈ items, x.Fits) :
    Behind ⟨none, ⟨indexBytes items, 0⟩, (UInt32.ofNat items.length).toUInt64⟩
      (readable items) := by
  obtain ⟨trailer, htrailer⟩ := indexBytes_readable items
  have hlt : (UInt32.ofNat items.length).toNat < 2 ^ 32 := (UInt32.ofNat items.length).toNat_lt
  refine ⟨?_, ?_, fun it hit => hfits it (List.mem_of_mem_take hit), ⟨trailer, ?_⟩⟩
  · apply UInt64.toNat_inj.mp
    rw [UInt32.toNat_toUInt64, length_readable, UInt64.toNat_ofNat', Nat.mod_eq_of_lt (by omega)]
  · rw [length_readable]
    exact hlt
  · exact (IStream.unread_mk _).trans htrailer

/-- **Opening a file** that holds an item. -/
theorem Holds.ofFile {items : List IdxItem} {it : IdxItem} {more : List IdxItem}
    (hread : readable items = it :: more) (hfits : ∀ x ∈ items, x.Fits) :
    ∃ r, RawIndex.ofFile (indexBytes items) = some r ∧ Holds r ⟨it, more⟩ := by
  have hbehind := Behind.ofFile hfits
  rw [hread] at hbehind
  obtain ⟨r, hnext, hholds⟩ := hbehind.readNextToken_cons
  refine ⟨r, ?_, hholds⟩
  simp only [RawIndex.ofFile, readFromEnd_indexBytes, Option.bind_eq_bind, Option.bind_some, hnext,
    Option.pure_def]

/-- Opening a file that holds none: its token is not initialised, and its counter has wrapped. -/
theorem ofFile_nil {items : List IdxItem} (hread : readable items = []) :
    RawIndex.ofFile (indexBytes items)
      = some ⟨none, ⟨indexBytes items, 0⟩, 0xFFFFFFFFFFFFFFFF⟩ := by
  have hzero : (UInt32.ofNat items.length).toUInt64 = 0 := by
    have hlen := length_readable items
    rw [hread, List.length_nil] at hlen
    apply UInt64.toNat_inj.mp
    rw [UInt32.toNat_toUInt64, ← hlen]
    rfl
  simp only [RawIndex.ofFile, readFromEnd_indexBytes, Option.bind_eq_bind, Option.bind_some,
    RawIndex.readNextToken, hzero, if_true, Option.pure_def]
  rfl

/-- The files of a list, item lists for bytes. -/
theorem Holds.mapM {files : List (List IdxItem)} (hne : ∀ items ∈ files, readable items ≠ [])
    (hfits : ∀ items ∈ files, ∀ it ∈ items, it.Fits) :
    ∃ indexes, (files.map indexBytes).mapM RawIndex.ofFile = some indexes ∧
      List.Forall₂ Holds indexes ((files.map readable).filterMap Live.ofItems) := by
  induction files with
  | nil => exact ⟨[], rfl, .nil⟩
  | cons items files ih =>
    obtain ⟨indexes, hindexes, hholds⟩ := ih (fun i h => hne i (List.mem_cons_of_mem _ h))
      (fun i h => hfits i (List.mem_cons_of_mem _ h))
    cases hread : readable items with
    | nil => exact absurd hread (hne items List.mem_cons_self)
    | cons it more =>
      obtain ⟨r, hr, hx⟩ := Holds.ofFile hread (hfits _ List.mem_cons_self)
      refine ⟨r :: indexes, ?_, ?_⟩
      · simp only [List.map_cons, List.mapM_cons, hr, hindexes, Option.bind_eq_bind,
          Option.bind_some, Option.pure_def]
      · rw [List.map_cons, hread]
        exact .cons hx hholds

theorem leastToken_eq {indexes : List RawIndex} {live : List Live}
    (h : List.Forall₂ Holds indexes live) : minToken indexes = some (leastToken live) := by
  have hfold : ∀ {indexes : List RawIndex} {live : List Live}, List.Forall₂ Holds indexes live →
      ∀ m, indexes.foldlM (fun m index => index.curTok.map (min m)) m
        = some (live.foldl (fun m x => min m x.cur.token) m) := by
    intro indexes live h
    induction h with
    | nil => exact fun _ => rfl
    | cons hx _ ih =>
      intro m
      simp only [List.foldlM_cons, hx.curTok, Option.map_some, Option.bind_eq_bind,
        Option.bind_some, ih, List.foldl_cons]
  exact hfold h _

/-- A file that delivers nothing at this token is passed. -/
theorem collectPass_pass {t : UInt32} {r : RawIndex} {x : Live} (h : Holds r x)
    (hne : x.cur.token ≠ t) {before rest : List RawIndex} {acc : List Entry} :
    collectPass t ⟨before, r :: rest, acc⟩ = some (.again ⟨before ++ [r], rest, acc⟩) := by
  simp [collectPass, h.curTok, hne, advance]

theorem collectPass_read {t : UInt32} {r : RawIndex} {it next : IdxItem} {more : List IdxItem}
    (h : Holds r ⟨it, next :: more⟩) (heq : it.token = t) {before rest : List RawIndex}
    {acc : List Entry} (hlen : acc.length + it.entries.length < 2 ^ 32) :
    ∃ r', collectPass t ⟨before, r :: rest, acc⟩
        = some (.again ⟨before ++ [r'], rest, acc ++ it.entries⟩) ∧ Holds r' ⟨next, more⟩ := by
  obtain ⟨r₁, hread, hbehind⟩ := h.readTokEntries acc hlen
  obtain ⟨r', hnext, hholds⟩ := hbehind.readNextToken_cons
  exact ⟨r', by simp [collectPass, h.curTok, heq, hread, hnext, advance], hholds⟩

/-- A file that has delivered its last item is erased, and the file behind it passed over. -/
theorem collectPass_erase {t : UInt32} {r : RawIndex} {it : IdxItem} (h : Holds r ⟨it, []⟩)
    (heq : it.token = t) {before rest : List RawIndex} {acc : List Entry}
    (hlen : acc.length + it.entries.length < 2 ^ 32) :
    collectPass t ⟨before, r :: rest, acc⟩
      = some (.again ⟨(advance before rest).1, (advance before rest).2, acc ++ it.entries⟩) := by
  obtain ⟨r₁, hread, hbehind⟩ := h.readTokEntries acc hlen
  obtain ⟨r', hnext⟩ := hbehind.readNextToken_nil
  simp [collectPass, h.curTok, heq, hread, hnext]

/-- A measure of the walk: squared, so that an erasure pays for going back to the start. -/
def walkSize (before rest : List Live) : Nat :=
  (before.length + rest.length) * (before.length + rest.length) + rest.length

theorem walkSize_step (before rest : List Live) (x y : Live) :
    walkSize (before ++ [x]) rest < walkSize before (y :: rest) := by
  simp only [walkSize, List.length_append, List.length_cons, List.length_nil,
    show before.length + (0 + 1) + rest.length = before.length + (rest.length + 1) by omega]
  omega

theorem walkSize_erase (before rest : List Live) (x y z : Live) :
    walkSize (before ++ [x]) rest < walkSize before (y :: z :: rest) := by
  simp only [walkSize, List.length_append, List.length_cons, List.length_nil,
    show before.length + (rest.length + 1 + 1) = before.length + (0 + 1) + rest.length + 1 by omega,
    Nat.succ_mul, Nat.mul_succ]
  omega

theorem walkSize_eraseLast (before : List Live) (x : Live) :
    walkSize [] before < walkSize before [x] := by
  simp only [walkSize, List.length_cons, List.length_nil, Nat.zero_add, Nat.succ_mul, Nat.mul_succ]
  omega

/-- **The walk over open files is the walk over what they hold.** By induction on the latter,
whose constructors are the passes of the former. -/
theorem Collects.iterate {t : UInt32} {before rest live : List Live} {entries : List Entry}
    (h : Collects t before rest live entries) :
    ∀ {b r : List RawIndex} {acc : List Entry} {fuel : Nat}, List.Forall₂ Holds b before →
      List.Forall₂ Holds r rest → acc.length + entries.length < 2 ^ 32 →
      walkSize before rest < fuel →
      ∃ l, Lib.iterate (collectPass t) fuel ⟨b, r, acc⟩ = some (l, acc ++ entries) ∧
        List.Forall₂ Holds l live := by
  induction h with
  | stop =>
    intro b r acc fuel hb hr _ hfuel
    cases hr
    have hleave : collectPass t ⟨b, [], acc⟩ = some (.leave (b, acc)) := rfl
    exact ⟨b, by rw [iterate_leave_of_lt hfuel hleave, List.append_nil], hb⟩
  | @pass before rest _ _ _ hne _ ih =>
    intro b r acc fuel hb hr hacc hfuel
    cases hr with
    | cons hx hr =>
      obtain ⟨fuel', hle, hrun⟩ := iterate_again_of_lt hfuel (collectPass_pass hx hne)
      rw [hrun]
      exact ih (List.rel_append hb (.cons hx .nil)) hr hacc
        (Nat.lt_of_lt_of_le (walkSize_step _ _ _ _) hle)
  | @read before rest live entries it next more heq _ ih =>
    intro b r acc fuel hb hr hacc hfuel
    rw [List.length_append] at hacc
    cases hr with
    | cons hx hr =>
      have hroom : acc.length + it.entries.length < 2 ^ 32 := by omega
      obtain ⟨r', hpass, hnext⟩ := collectPass_read hx heq hroom
      obtain ⟨fuel', hle, hrun⟩ := iterate_again_of_lt hfuel hpass
      rw [hrun, ← List.append_assoc]
      exact ih (List.rel_append hb (.cons hnext .nil)) hr
        (by rw [List.length_append]; omega)
        (Nat.lt_of_lt_of_le (walkSize_step _ _ _ _) hle)
  | @erase before rest live entries it passedOver heq _ ih =>
    -- The erased file is in front of the one that is passed over: two open files are taken at once.
    intro b r acc fuel hb hr hacc hfuel
    rw [List.length_append] at hacc
    cases hr with
    | cons hx hr =>
      cases hr with
      | cons hy hr =>
        have hroom : acc.length + it.entries.length < 2 ^ 32 := by omega
        obtain ⟨fuel', hle, hrun⟩ := iterate_again_of_lt hfuel (collectPass_erase hx heq hroom)
        rw [hrun, ← List.append_assoc]
        exact ih (List.rel_append hb (.cons hy .nil)) hr
          (by rw [List.length_append]; omega)
          (Nat.lt_of_lt_of_le (walkSize_erase _ _ _ _ _) hle)
  | @eraseLast before live entries it heq _ ih =>
    -- Behind the last file is `begin()`: what was before the iterator is ahead of it again.
    intro b r acc fuel hb hr hacc hfuel
    rw [List.length_append] at hacc
    cases hr with
    | cons hx hr =>
      cases hr
      have hroom : acc.length + it.entries.length < 2 ^ 32 := by omega
      obtain ⟨fuel', hle, hrun⟩ := iterate_again_of_lt hfuel (collectPass_erase hx heq hroom)
      rw [hrun, ← List.append_assoc]
      exact ih .nil hb (by rw [List.length_append]; omega)
        (Nat.lt_of_lt_of_le (walkSize_eraseLast _ _) hle)

/-! ## The rounds -/

theorem Collects.length_le {t : UInt32} {before rest live : List Live} {entries : List Entry}
    (h : Collects t before rest live entries) : live.length ≤ before.length + rest.length := by
  induction h with
  | stop => simp
  | pass _ _ ih => simp only [List.length_append, List.length_cons, List.length_nil] at ih ⊢; omega
  | read _ _ ih => simp only [List.length_append, List.length_cons, List.length_nil] at ih ⊢; omega
  | erase _ _ ih => simp only [List.length_append, List.length_cons, List.length_nil] at ih ⊢; omega
  | eraseLast _ _ ih => simp only [List.length_cons, List.length_nil] at ih ⊢; omega

theorem leastToken_foldl (live : List Live) (m : UInt32) :
    let r := live.foldl (fun m x => min m x.cur.token) m
    r ≤ m ∧ (∀ x ∈ live, r ≤ x.cur.token) ∧ (r = m ∨ ∃ x ∈ live, x.cur.token = r) := by
  induction live generalizing m with
  | nil => exact ⟨le_refl _, fun x hx => absurd hx List.not_mem_nil, Or.inl rfl⟩
  | cons y live ih =>
    obtain ⟨hm, hall, hmem⟩ := ih (min m y.cur.token)
    simp only [List.foldl_cons]
    refine ⟨hm.trans (min_le_left _ _), fun x hx => ?_, ?_⟩
    · rcases List.mem_cons.mp hx with rfl | hx
      · exact hm.trans (min_le_right _ _)
      · exact hall x hx
    · rcases hmem with heq | ⟨x, hx, hxt⟩
      · rcases le_total m y.cur.token with h | h
        · exact Or.inl (heq.trans (min_eq_left h))
        · exact Or.inr ⟨y, List.mem_cons_self, (heq.trans (min_eq_right h)).symm⟩
      · exact Or.inr ⟨x, List.mem_cons_of_mem _ hx, hxt⟩

theorem leastToken_le {live : List Live} {x : Live} (hx : x ∈ live) :
    leastToken live ≤ x.cur.token :=
  (leastToken_foldl live 0xFFFFFFFF).2.1 x hx

/-- The least token is one: the start value is no smaller than any token. -/
theorem leastToken_mem {live : List Live} (hne : live ≠ []) :
    ∃ x ∈ live, x.cur.token = leastToken live := by
  rcases (leastToken_foldl live 0xFFFFFFFF).2.2 with h | h
  · obtain ⟨x, hx⟩ := List.exists_mem_of_ne_nil live hne
    refine ⟨x, hx, le_antisymm ?_ (leastToken_le hx)⟩
    rw [leastToken, h, UInt32.le_iff_toNat_le]
    exact Nat.le_of_lt_succ x.cur.token.toNat_lt
  · exact h

section Merges

variable {S : StdSort} {live : List Live} {items : List IdxItem}

/-- **The merge always ends**: every round delivers an item. -/
theorem Merges.total (S : StdSort) (live : List Live) : ∃ items, Merges S live items := by
  by_cases hne : live = []
  · exact ⟨[], hne ▸ .nil⟩
  · obtain ⟨rest, entries, hcollect⟩ := Collects.total (leastToken live) [] live
    have hlt : weight rest < weight live := by
      simpa using hcollect.weight_lt (leastToken_mem hne)
    obtain ⟨items, h⟩ := Merges.total S rest
    exact ⟨_, .round hne hcollect h⟩
termination_by weight live

/-- **Nothing is lost and nothing is doubled.** -/
theorem Merges.perm (h : Merges S live items) : (livePairs live).Perm (pairs items) := by
  induction h with
  | nil => exact .refl _
  | @round live rest entries items _ hcollect _ ih =>
    have hperm := hcollect.perm
    simp only [livePairs, List.flatMap_nil, List.nil_append] at hperm
    refine hperm.trans ?_
    rw [pairs_cons]
    exact ((S.perm compareEntries entries).symm.map _).append ih

theorem Merges.sorted (h : Merges S live items) :
    ∀ it ∈ items, it.entries.Pairwise (fun a b => a.docIdOffset ≤ b.docIdOffset) := by
  induction h with
  | nil => exact fun it hit => absurd hit List.not_mem_nil
  | round _ _ _ ih =>
    intro it hit
    rcases List.mem_cons.mp hit with rfl | hit
    · exact sorted_compareEntries S _
    · exact ih it hit

/-- How many entries there are for a token. -/
def entryCount (t : UInt32) (ps : List (UInt32 × Entry)) : Nat := ps.countP (fun p => p.1 == t)

@[simp] theorem entryCount_append (t : UInt32) (ps qs : List (UInt32 × Entry)) :
    entryCount t (ps ++ qs) = entryCount t ps + entryCount t qs := List.countP_append

@[simp] theorem entryCount_map (t : UInt32) (entries : List Entry) :
    entryCount t (entries.map (t, ·)) = entries.length := by
  simp [entryCount, List.countP_map, Function.comp_def]

theorem length_entries_le {it : IdxItem} {items : List IdxItem} (hit : it ∈ items) :
    it.entries.length ≤ entryCount it.token (pairs items) := by
  obtain ⟨a, b, rfl⟩ := List.append_of_mem hit
  have happ : pairs (a ++ it :: b) = pairs a ++ (it.entries.map (it.token, ·) ++ pairs b) := by
    simp [pairs]
  rw [happ, entryCount_append, entryCount_append, entryCount_map]
  omega

theorem mem_pairs {items : List IdxItem} {t : UInt32} {e : Entry} :
    (t, e) ∈ pairs items ↔ ∃ it ∈ items, it.token = t ∧ e ∈ it.entries := by
  simp only [pairs, List.mem_flatMap, List.mem_map, Prod.mk.injEq]
  constructor
  · rintro ⟨it, hit, e', he', rfl, rfl⟩
    exact ⟨it, hit, rfl, he'⟩
  · rintro ⟨it, hit, rfl, he⟩
    exact ⟨it, hit, e, he, rfl, rfl⟩

theorem mem_livePairs {live : List Live} {t : UInt32} {e : Entry} :
    (t, e) ∈ livePairs live ↔ ∃ x ∈ live, ∃ it ∈ x.items, it.token = t ∧ e ∈ it.entries := by
  simp only [livePairs, List.mem_flatMap, mem_pairs]

/-- Every merged item fits its counts, when no token has too many entries in all. -/
theorem Merges.fits (h : Merges S live items) (hfits : ∀ x ∈ live, ∀ it ∈ x.items, it.Fits)
    (hbound : ∀ t, entryCount t (livePairs live) < 2 ^ 32) : ∀ it ∈ items, it.Fits := by
  intro it hit
  refine ⟨?_, fun e he => ?_⟩
  · have hle := length_entries_le hit
    rw [entryCount, ← h.perm.countP_eq] at hle
    exact Nat.lt_of_le_of_lt hle (hbound it.token)
  · have hmem := h.perm.mem_iff.mpr (mem_pairs.mpr ⟨it, hit, rfl, he⟩)
    obtain ⟨x, hx, it', hit', -, he'⟩ := mem_livePairs.mp hmem
    exact (hfits x hx it' hit').entries e he'

/-- A round over open files. -/
theorem mergePass_round {fuel : Nat} {rest : List Live} {entries : List Entry}
    {indexes : List RawIndex} {m : MergeFiles} (hne : live ≠ [])
    (hcollect : Collects (leastToken live) [] live rest entries)
    (hholds : List.Forall₂ Holds indexes live)
    (hbound : entryCount (leastToken live) (livePairs live) < 2 ^ 32)
    (hfuel : walkSize [] live < fuel) :
    ∃ indexes', mergePass S fuel (indexes, m) = some (.again (indexes',
        m.write (leastToken live) (S.sort compareEntries entries))) ∧
      List.Forall₂ Holds indexes' rest := by
  -- What the walk reads are entries of the least token.
  have hlen : entries.length < 2 ^ 32 := by
    have hcount := hcollect.perm.countP_eq (fun p => p.1 == leastToken live)
    have hmap := entryCount_map (leastToken live) entries
    simp only [livePairs, List.flatMap_nil, List.nil_append, List.countP_append] at hcount
    simp only [entryCount, livePairs] at hbound hmap
    omega
  have hacc : ([] : List Entry).length + entries.length < 2 ^ 32 := by simpa using hlen
  obtain ⟨indexes', hwalk, hrest⟩ := hcollect.iterate .nil hholds hacc hfuel
  refine ⟨indexes', ?_, hrest⟩
  cases hholds with
  | nil => exact absurd rfl hne
  | cons hx hholds =>
    simp only [mergePass, leastToken_eq (.cons hx hholds), Option.bind_eq_bind, Option.bind_some,
      hwalk, List.nil_append, Option.pure_def]

/-- **The rounds over open files write the items of the merge.** -/
theorem Merges.iterate {F : Nat} (h : Merges S live items) :
    ∀ {indexes : List RawIndex} {m : MergeFiles} {fuel : Nat},
      List.Forall₂ Holds indexes live → (∀ t, entryCount t (livePairs live) < 2 ^ 32) →
      walkSize [] live < F → items.length < fuel →
      Lib.iterate (mergePass S F) fuel (indexes, m) = some (m.writeAll items) := by
  induction h with
  | nil =>
    intro indexes m fuel hholds _ _ hfuel
    cases hholds
    exact iterate_leave_of_lt hfuel rfl
  | @round live rest entries items hne hcollect _ ih =>
    intro indexes m fuel hholds hbound hF hfuel
    obtain ⟨indexes', hpass, hrest⟩ := mergePass_round (S := S) (m := m) hne hcollect hholds
      (hbound _) hF
    obtain ⟨fuel', hle, hrun⟩ := iterate_again_of_lt hfuel hpass
    rw [hrun, MergeFiles.writeAll]
    refine ih hrest (fun t => ?_) ?_ (Nat.lt_of_succ_le hle)
    · -- What is left for the later rounds is part of what there was.
      have hcount := hcollect.perm.countP_eq (fun p => p.1 == t)
      have ht := hbound t
      simp only [livePairs, List.flatMap_nil, List.nil_append, List.countP_append] at hcount
      simp only [entryCount, livePairs] at ht ⊢
      omega
    · have hle := hcollect.length_le
      simp only [List.length_nil, Nat.zero_add] at hle
      have hmul := Nat.mul_le_mul hle hle
      simp only [walkSize, List.length_nil, Nat.zero_add] at hF ⊢
      omega

/-- **`_mergeIndexes` writes the merge of the items in its files.** -/
theorem mergeIndexes_eq {files : List (List IdxItem)} (hne : ∀ items ∈ files, readable items ≠ [])
    (hfits : ∀ items ∈ files, ∀ it ∈ items, it.Fits)
    (hbound : ∀ t, entryCount t
      (livePairs ((files.map readable).filterMap Live.ofItems)) < 2 ^ 32)
    (config : Config) (h : Merges S ((files.map readable).filterMap Live.ofItems) items) :
    ∃ fuel₀ : Nat, ∀ fuel, fuel₀ ≤ fuel → mergeIndexes S fuel config (files.map indexBytes)
      = some (indexBytes items,
          if config.invertIndexIPosFile.isEmpty then none else some (posBytes items)) := by
  obtain ⟨indexes, hopen, hholds⟩ := Holds.mapM hne hfits
  refine ⟨walkSize [] ((files.map readable).filterMap Live.ofItems) + items.length + 1,
    fun fuel hfuel => ?_⟩
  have hrounds : Lib.iterate (mergePass S fuel) fuel (indexes, .create config)
      = some ((MergeFiles.create config).writeAll items) :=
    h.iterate hholds hbound (by omega) (by omega)
  simp only [mergeIndexes, hopen, hrounds, Option.bind_eq_bind, Option.bind_some, Option.pure_def,
    MergeFiles.close_writeAll]

end Merges

/-! ## What a merge that ends has done -/

theorem mergePass_mono {S : StdSort} {fuel fuel' : Nat} (hle : fuel ≤ fuel')
    (s : List RawIndex × MergeFiles) (p : Pass (List RawIndex × MergeFiles) MergeFiles)
    (h : mergePass S fuel s = some p) : mergePass S fuel' s = some p := by
  obtain ⟨indexes, m⟩ := s
  cases indexes with
  | nil => exact h
  | cons r indexes =>
    simp only [mergePass, Option.bind_eq_bind, Option.bind_eq_some_iff, Option.pure_def] at h ⊢
    obtain ⟨min, hmin, walked, hwalk, hp⟩ := h
    exact ⟨min, hmin, walked, iterate_mono (fun _ _ h => h) hle hwalk, hp⟩

theorem mergeIndexes_mono {S : StdSort} {fuel fuel' : Nat} (hle : fuel ≤ fuel') {config : Config}
    {files : List Bytes} {out : Bytes × Option Bytes}
    (h : mergeIndexes S fuel config files = some out) :
    mergeIndexes S fuel' config files = some out := by
  simp only [mergeIndexes, Option.bind_eq_bind, Option.bind_eq_some_iff, Option.pure_def] at h ⊢
  obtain ⟨indexes, hopen, m, hrounds, hout⟩ := h
  exact ⟨indexes, hopen, m, iterate_mono (mergePass_mono hle) hle hrounds, hout⟩

/-- A token that is not initialised leaves the least token undefined. -/
theorem minToken_eq_none {indexes : List RawIndex} {r : RawIndex} (hr : r ∈ indexes)
    (h : r.curTok = none) : minToken indexes = none := by
  have hfold : ∀ (indexes : List RawIndex) (m : UInt32), r ∈ indexes →
      indexes.foldlM (fun m index => index.curTok.map (min m)) m = none := by
    intro indexes
    induction indexes with
    | nil => exact fun _ hr => absurd hr List.not_mem_nil
    | cons r' indexes ih =>
      intro m hr
      rw [List.foldlM_cons]
      rcases List.mem_cons.mp hr with rfl | hr
      · rw [h]
        rfl
      · cases r'.curTok with
        | none => rfl
        | some t => exact ih (min m t) hr
  exact hfold indexes _ hr

/-- A file without a token, and there is no merge. -/
theorem mergeIndexes_eq_none {S : StdSort} {fuel : Nat} {config : Config} {files : List Bytes}
    {file : Bytes} {r : RawIndex} (hfile : file ∈ files) (hopen : RawIndex.ofFile file = some r)
    (hnone : r.curTok = none) : mergeIndexes S fuel config files = none := by
  cases hindexes : files.mapM RawIndex.ofFile with
  | none => simp only [mergeIndexes, hindexes, Option.bind_eq_bind, Option.bind_none]
  | some indexes =>
    have hr : r ∈ indexes := (mem_of_mapM hindexes r).mpr ⟨file, hfile, hopen⟩
    -- The first round takes the least token of all files, and this one has none to read.
    have hbody : mergePass S fuel (indexes, .create config) = none := by
      cases indexes with
      | nil => exact absurd hr List.not_mem_nil
      | cons r' indexes =>
        simp only [mergePass, minToken_eq_none hr hnone, Option.bind_eq_bind, Option.bind_none]
    have hrounds : Lib.iterate (mergePass S fuel) fuel (indexes, .create config) = none := by
      cases fuel with
      | zero => rfl
      | succ fuel => simp only [Lib.iterate, hbody]
    simp only [mergeIndexes, hindexes, hrounds, Option.bind_eq_bind, Option.bind_some,
      Option.bind_none]

/-- A merge that ends has found an item in every file. -/
theorem readable_ne_nil {S : StdSort} {fuel : Nat} {config : Config} {files : List (List IdxItem)}
    {out : Bytes × Option Bytes}
    (h : mergeIndexes S fuel config (files.map indexBytes) = some out) :
    ∀ items ∈ files, readable items ≠ [] := by
  intro items hitems hread
  rw [mergeIndexes_eq_none (List.mem_map_of_mem hitems) (ofFile_nil hread) rfl] at h
  cases h

theorem livePairs_ofItems (files : List (List IdxItem)) :
    livePairs (files.filterMap Live.ofItems) = files.flatMap pairs := by
  induction files with
  | nil => rfl
  | cons items files ih =>
    cases items with
    | nil => exact ih
    | cons it more => exact congrArg (pairs (it :: more) ++ ·) ih

/-- **What a merge that ends has written**: the readable items of its files, merged. -/
theorem mergeIndexes_eq_some {S : StdSort} {fuel : Nat} {config : Config}
    {files : List (List IdxItem)} {index : Bytes} {ipos : Option Bytes}
    (hfits : ∀ items ∈ files, ∀ it ∈ items, it.Fits)
    (hbound : ∀ t, entryCount t ((files.map readable).flatMap pairs) < 2 ^ 32)
    (h : mergeIndexes S fuel config (files.map indexBytes) = some (index, ipos)) :
    ∃ items, index = indexBytes items ∧
      Merges S ((files.map readable).filterMap Live.ofItems) items := by
  rw [← livePairs_ofItems] at hbound
  obtain ⟨items, hmerges⟩ := Merges.total S ((files.map readable).filterMap Live.ofItems)
  obtain ⟨fuel₀, hmerge⟩ := mergeIndexes_eq (readable_ne_nil h) hfits hbound config hmerges
  have hout := (mergeIndexes_mono (Nat.le_max_left fuel fuel₀) h).symm.trans
    (hmerge _ (Nat.le_max_right fuel fuel₀))
  exact ⟨items, congrArg Prod.fst (Option.some.inj hout), hmerges⟩

end Amigos.Indexer
