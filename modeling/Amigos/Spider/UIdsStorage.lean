import Mathlib.Data.Finset.Sort
import Mathlib.Algebra.Order.Group.Nat
import Amigos.Lib.Loop
import Amigos.Lib.Bytes

/-!
# The spider's set of known uids (`uids_storage.py`)

A uid is in one of three places. `proc_uids` are the ones that have been added and are being
worked on, `ram_uids` the ones that have been committed since the last flush, and the rest is in
a file of fixed-size big-endian records that is searched by halving. A flush merges `ram_uids`
into that file.

The storage is a set all the same: `UIdSet` is that set, and `Refines` says how a storage holds
one. Each operation is put against it by one lemma. The search is `isAtHdd_eq`, by the window that
still may hold the uid; the merge is `flushToDisk_eq`, whose loop computes `List.merge`.
-/

set_option autoImplicit false

namespace Amigos.Spider

open Amigos.Lib

/-! ## The source -/

/-- Python's `set`s as finite sets; the file is the one that `bd_fd` has open. -/
structure UIdsStorage where
  procUids : Finset ℕ
  ramUids : Finset ℕ
  maxCnt : ℤ
  uidSize : ℕ
  bdFd : IStream

/-- `int.to_bytes`, big-endian; `none` is `OverflowError`. -/
def toBytes (uidSize uid : ℕ) : Option Bytes :=
  if uid < 256 ^ uidSize then some (beBytes uidSize uid) else none

namespace UIdsStorage

/-- `__init__`; a file that does not exist is created empty. -/
def init (uidSize : ℕ) (bdFile : Bytes) (maxCnt : ℤ) : UIdsStorage :=
  { procUids := ∅, ramUids := ∅, maxCnt, uidSize, bdFd := ⟨bdFile, 0⟩ }

/-- `__len__`. -/
def len (s : UIdsStorage) : ℕ := s.ramUids.card + s.bdFd.data.length / s.uidSize

/-- More than any loop of the storage goes round, when the file is one of its own. -/
def fuel (s : UIdsStorage) : ℕ := (s.len + 1) * (s.uidSize + 1) + 1

/-- The halving loop of `isAtHdd`, on `(l_pos, r_pos)` and the file. -/
def isAtHddPass (uidSize : ℕ) (val : Bytes) :
    ℕ × ℕ × IStream → Option (Pass (ℕ × ℕ × IStream) (Bool × IStream))
  | (lPos, rPos, fd) =>
    if lPos < rPos then
      let mPos := (lPos + rPos) / 2
      let (mVal, fd) := (fd.seek (mPos * uidSize)).readUpTo uidSize
      if mVal < val then some (.again (mPos + 1, rPos, fd))
      else if mVal > val then some (.again (lPos, mPos, fd))
      else some (.leave (true, fd))
    else some (.leave (false, fd))

def isAtHdd (fuel : ℕ) (s : UIdsStorage) (uid : ℕ) : Option (Bool × UIdsStorage) := do
  let val ← toBytes s.uidSize uid
  let bdSize := s.bdFd.data.length / s.uidSize
  let (exist, bdFd) ← iterate (isAtHddPass s.uidSize val) fuel (0, bdSize, s.bdFd)
  return (exist, { s with bdFd })

/-- `__contains__`. -/
def contains (fuel : ℕ) (s : UIdsStorage) (uid : ℕ) : Option (Bool × UIdsStorage) :=
  if uid ∈ s.procUids then some (true, s)
  else if uid ∈ s.ramUids then some (true, s)
  else isAtHdd fuel s uid

def add (fuel : ℕ) (s : UIdsStorage) (newUid : ℕ) : Option (Bool × UIdsStorage) := do
  let (exist, s) ← s.contains fuel newUid
  if exist then return (false, s)
  else return (true, { s with procUids := insert newUid s.procUids })

/-- The state of the merge in `flushToDisk`: what has been written, the two records in hand, the
uids and the file behind them. -/
structure Flush where
  outFd : Bytes
  ramUidBytes : Bytes
  ramUids : List ℕ
  hddUidBytes : Bytes
  bdFd : IStream

def flushPass (uidSize : ℕ) (f : Flush) : Option (Pass Flush Bytes) :=
  if f.hddUidBytes.isEmpty then do
    let rest ← f.ramUids.mapM (toBytes uidSize)
    return .leave (f.outFd ++ f.ramUidBytes ++ rest.flatten)
  else if f.ramUidBytes ≤ f.hddUidBytes then
    let outFd := f.outFd ++ f.ramUidBytes
    match f.ramUids with
    -- `StopIteration`
    | [] => some (.leave (outFd ++ f.hddUidBytes ++ f.bdFd.unread))
    | uid :: ramUids => do
      let ramUidBytes ← toBytes uidSize uid
      return .again { f with outFd, ramUidBytes, ramUids }
  else
    let (hddUidBytes, bdFd) := f.bdFd.readUpTo uidSize
    some (.again { f with outFd := f.outFd ++ f.hddUidBytes, hddUidBytes, bdFd })

def flushToDisk (fuel : ℕ) (s : UIdsStorage) : Option UIdsStorage :=
  match s.ramUids.sort with
  | [] => some s
  | uid :: ramUids => do
    let (hddUidBytes, bdFd) := (s.bdFd.seek 0).readUpTo s.uidSize
    let ramUidBytes ← toBytes s.uidSize uid
    let bdFile ← iterate (flushPass s.uidSize) fuel
      { outFd := [], ramUidBytes, ramUids, hddUidBytes, bdFd }
    return { s with ramUids := ∅, bdFd := ⟨bdFile, 0⟩ }

/-- `set.remove` raises before anything has changed. -/
inductive CommitResult where
  | done
  | keyError
  deriving DecidableEq, Repr

def commit (fuel : ℕ) (s : UIdsStorage) (uid : ℕ) : Option (CommitResult × UIdsStorage) :=
  if uid ∈ s.procUids then do
    let s := { s with procUids := s.procUids.erase uid, ramUids := insert uid s.ramUids }
    let s ← if (s.ramUids.card : ℤ) > s.maxCnt then s.flushToDisk fuel else some s
    return (.done, s)
  else some (.keyError, s)

end UIdsStorage

/-! ## Operations and replies -/

inductive Op where
  | add (uid : ℕ)
  | commit (uid : ℕ)
  | flushToDisk
  | contains (uid : ℕ)
  | len
  deriving DecidableEq, Repr

inductive Reply where
  | none
  | bool (b : Bool)
  | num (n : ℕ)
  | keyError
  deriving DecidableEq, Repr

/-- The uid of an operation is below the bound of a record. -/
def Op.Below (bound : ℕ) : Op → Prop
  | .add uid => uid < bound
  | .commit uid => uid < bound
  | .contains uid => uid < bound
  | .flushToDisk => True
  | .len => True

instance (bound : ℕ) (op : Op) : Decidable (op.Below bound) := by
  cases op <;> unfold Op.Below <;> infer_instance

def UIdsStorage.step (fuel : ℕ) (s : UIdsStorage) : Op → Option (Reply × UIdsStorage)
  | .add uid => (s.add fuel uid).map fun p => (.bool p.1, p.2)
  | .commit uid => (s.commit fuel uid).map fun p =>
    (match p.1 with
      | .done => .none
      | .keyError => .keyError, p.2)
  | .flushToDisk => (s.flushToDisk fuel).map fun s => (.none, s)
  | .contains uid => (s.contains fuel uid).map fun p => (.bool p.1, p.2)
  | .len => some (.num s.len, s)

def UIdsStorage.run (fuel : ℕ) : UIdsStorage → List Op → Option (List Reply × UIdsStorage)
  | s, [] => some ([], s)
  | s, op :: ops => do
    let (reply, s) ← s.step fuel op
    let (replies, s) ← s.run fuel ops
    return (reply :: replies, s)

/-! ## The set that it is -/

/-- The uids that are known, and those among them that have been committed. -/
structure UIdSet where
  added : Finset ℕ
  committed : Finset ℕ

def UIdSet.step (a : UIdSet) : Op → Reply × UIdSet
  | .add uid => (.bool (decide (uid ∉ a.added)), { a with added := insert uid a.added })
  | .commit uid =>
    if uid ∈ a.added ∧ uid ∉ a.committed then
      (.none, { a with committed := insert uid a.committed })
    else (.keyError, a)
  | .flushToDisk => (.none, a)
  | .contains uid => (.bool (decide (uid ∈ a.added)), a)
  | .len => (.num a.committed.card, a)

def UIdSet.run : UIdSet → List Op → List Reply × UIdSet
  | a, [] => ([], a)
  | a, op :: ops =>
    let (reply, a) := a.step op
    let (replies, a) := a.run ops
    (reply :: replies, a)

/-- The file of some uids. -/
def records (uidSize : ℕ) (uids : List ℕ) : Bytes := uids.flatMap (beBytes uidSize)

/-- **How a storage holds a set**: `hdd` is what the file holds. -/
structure Holds (s : UIdsStorage) (hdd : List ℕ) : Prop where
  size : 1 ≤ s.uidSize
  file : s.bdFd.data = records s.uidSize hdd
  increasing : hdd.Pairwise (· < ·)
  procBelow : ∀ uid ∈ s.procUids, uid < 256 ^ s.uidSize
  ramBelow : ∀ uid ∈ s.ramUids, uid < 256 ^ s.uidSize
  hddBelow : ∀ uid ∈ hdd, uid < 256 ^ s.uidSize
  procRam : Disjoint s.procUids s.ramUids
  procHdd : Disjoint s.procUids hdd.toFinset
  ramHdd : Disjoint s.ramUids hdd.toFinset

/-- **The storage is that set.** -/
def Refines (s : UIdsStorage) (a : UIdSet) : Prop :=
  ∃ hdd, Holds s hdd ∧ a.added = s.procUids ∪ (s.ramUids ∪ hdd.toFinset) ∧
    a.committed = s.ramUids ∪ hdd.toFinset

/-! ## The search -/

@[simp] theorem length_records (w : ℕ) (uids : List ℕ) :
    (records w uids).length = uids.length * w := by
  induction uids with
  | nil => simp [records]
  | cons uid uids ih =>
    simp only [records, List.flatMap_cons, List.length_append, length_beBytes] at ih ⊢
    rw [ih, List.length_cons, Nat.succ_mul, Nat.add_comm]

theorem records_cons (w uid : ℕ) (uids : List ℕ) :
    records w (uid :: uids) = beBytes w uid ++ records w uids := rfl

theorem records_append (w : ℕ) (a b : List ℕ) : records w (a ++ b) = records w a ++ records w b :=
  List.flatMap_append

/-- The record at a position, and what is behind it. -/
theorem unread_record {w : ℕ} {hdd : List ℕ} {fd : IStream} (hfd : fd.data = records w hdd)
    {m : ℕ} (hm : m < hdd.length) :
    (fd.seek (m * w)).unread = beBytes w hdd[m] ++ records w (hdd.drop (m + 1)) := by
  have hsplit : records w hdd
      = records w (hdd.take m) ++ (beBytes w hdd[m] ++ records w (hdd.drop (m + 1))) := by
    rw [← records_cons, ← List.drop_eq_getElem_cons hm, ← records_append, List.take_append_drop]
  have hlen : (records w (hdd.take m)).length = m * w := by
    rw [length_records, List.length_take, Nat.min_eq_left (Nat.le_of_lt hm)]
  rw [← hlen]
  exact IStream.unread_seek_of_data (hfd.trans hsplit)

/-- **The window**: below it everything is smaller than the uid, above it everything is larger. -/
structure Window (w : ℕ) (hdd : List ℕ) (uid : ℕ) (c : ℕ × ℕ × IStream) : Prop where
  file : c.2.2.data = records w hdd
  le : c.1 ≤ c.2.1
  top : c.2.1 ≤ hdd.length
  below : ∀ i (h : i < hdd.length), i < c.1 → hdd[i] < uid
  above : ∀ i (h : i < hdd.length), c.2.1 ≤ i → uid < hdd[i]

/-- If the record at `m` is smaller than the uid, the window begins behind it. -/
theorem Window.raise {w : ℕ} {hdd : List ℕ} {uid l r : ℕ} {fd : IStream}
    (hc : Window w hdd uid (l, r, fd)) (hinc : hdd.Pairwise (· < ·)) {m : ℕ} (hm : m < hdd.length)
    (hmr : m < r) (hcmp : hdd[m] < uid) {fd' : IStream} (hfd' : fd'.data = records w hdd) :
    Window w hdd uid (m + 1, r, fd') where
  file := hfd'
  le := Nat.succ_le_of_lt hmr
  top := hc.top
  below i hi hilt := by
    rcases Nat.lt_or_eq_of_le (Nat.le_of_lt_succ hilt) with h | rfl
    · exact Nat.lt_trans (List.pairwise_iff_getElem.mp hinc i m hi hm h) hcmp
    · exact hcmp
  above := hc.above

/-- If it is larger, the window ends in front of it. -/
theorem Window.lower {w : ℕ} {hdd : List ℕ} {uid l r : ℕ} {fd : IStream}
    (hc : Window w hdd uid (l, r, fd)) (hinc : hdd.Pairwise (· < ·)) {m : ℕ} (hm : m < hdd.length)
    (hlm : l ≤ m) (hcmp : uid < hdd[m]) {fd' : IStream} (hfd' : fd'.data = records w hdd) :
    Window w hdd uid (l, m, fd') where
  file := hfd'
  le := hlm
  top := Nat.le_of_lt hm
  below := hc.below
  above i hi hmi := by
    rcases Nat.lt_or_eq_of_le hmi with h | rfl
    · exact Nat.lt_trans hcmp (List.pairwise_iff_getElem.mp hinc m i hm hi h)
    · exact hcmp

/-- In an empty window there is no uid. -/
theorem Window.not_mem {w : ℕ} {hdd : List ℕ} {uid l r : ℕ} {fd : IStream}
    (hc : Window w hdd uid (l, r, fd)) (hrl : r ≤ l) : uid ∉ hdd := by
  intro hmem
  obtain ⟨i, hi, rfl⟩ := List.getElem_of_mem hmem
  rcases Nat.lt_or_ge i l with h | h
  · exact Nat.lt_irrefl _ (hc.below i hi h)
  · exact Nat.lt_irrefl _ (hc.above i hi (Nat.le_trans hrl h))

theorem isAtHddPass_keeps {w : ℕ} {hdd : List ℕ} {uid : ℕ} (hinc : hdd.Pairwise (· < ·))
    (hbelow : ∀ u ∈ hdd, u < 256 ^ w) (huid : uid < 256 ^ w) (c : ℕ × ℕ × IStream)
    (hc : Window w hdd uid c) :
    (∃ b, UIdsStorage.isAtHddPass w (beBytes w uid) c = some (.leave b) ∧
      (b.1 = decide (uid ∈ hdd) ∧ b.2.data = records w hdd)) ∨
    ∃ c', UIdsStorage.isAtHddPass w (beBytes w uid) c = some (.again c') ∧ Window w hdd uid c' ∧
      c'.2.1 - c'.1 < c.2.1 - c.1 := by
  obtain ⟨l, r, fd⟩ := c
  have hfd : fd.data = records w hdd := hc.file
  have htop : r ≤ hdd.length := hc.top
  by_cases hlt : l < r
  · obtain ⟨m, hm⟩ : ∃ m, (l + r) / 2 = m := ⟨_, rfl⟩
    have hlm : l ≤ m := by omega
    have hmr : m < r := by omega
    have hmlen : m < hdd.length := Nat.lt_of_lt_of_le hmr htop
    have hread : (fd.seek (m * w)).readUpTo w
        = (beBytes w hdd[m], (fd.seek (m * w)).seek (m * w + w)) := by
      have := IStream.readUpTo_append (unread_record hfd hmlen)
      rwa [length_beBytes] at this
    have hmw := hbelow _ (List.getElem_mem hmlen)
    rcases Nat.lt_trichotomy hdd[m] uid with hcmp | hcmp | hcmp
    · refine Or.inr ⟨(m + 1, r, (fd.seek (m * w)).seek (m * w + w)), ?_,
        hc.raise hinc hmlen hmr hcmp hfd, by simp only; omega⟩
      simp [UIdsStorage.isAtHddPass, hlt, hm, hread, (beBytes_lt_iff hmw huid).mpr hcmp]
    · refine Or.inl ⟨(true, (fd.seek (m * w)).seek (m * w + w)), ?_, ?_, hfd⟩
      · have hirrefl : ¬ beBytes w uid < beBytes w uid := fun h =>
          Nat.lt_irrefl _ ((beBytes_lt_iff huid huid).mp h)
        simp [UIdsStorage.isAtHddPass, hlt, hm, hread, hcmp, hirrefl]
      · exact (decide_eq_true (hcmp ▸ List.getElem_mem hmlen)).symm
    · have hnot : ¬ beBytes w hdd[m] < beBytes w uid := fun h =>
        absurd ((beBytes_lt_iff hmw huid).mp h) (Nat.not_lt.mpr (Nat.le_of_lt hcmp))
      refine Or.inr ⟨(l, m, (fd.seek (m * w)).seek (m * w + w)), ?_,
        hc.lower hinc hmlen hlm hcmp hfd, by simp only; omega⟩
      simp [UIdsStorage.isAtHddPass, hlt, hm, hread, hnot, (beBytes_lt_iff huid hmw).mpr hcmp]
  · have hnone := hc.not_mem (Nat.not_lt.mp hlt)
    exact Or.inl ⟨(false, fd), by simp [UIdsStorage.isAtHddPass, hlt],
      (decide_eq_false hnone).symm, hfd⟩

section Ops

variable {s : UIdsStorage} {hdd : List ℕ}

theorem Holds.records_div (h : Holds s hdd) : s.bdFd.data.length / s.uidSize = hdd.length := by
  rw [h.file, length_records, Nat.mul_div_cancel _ h.size]

/-- Moving the file's position changes nothing. -/
theorem Holds.setFd (h : Holds s hdd) {fd : IStream} (hfd : fd.data = records s.uidSize hdd) :
    Holds { s with bdFd := fd } hdd :=
  { h with file := hfd }

/-- **The search answers whether the uid is in the file.** -/
theorem isAtHdd_eq (h : Holds s hdd) {uid : ℕ} (huid : uid < 256 ^ s.uidSize) {fuel : ℕ}
    (hfuel : hdd.length < fuel) :
    ∃ fd, fd.data = records s.uidSize hdd ∧
      s.isAtHdd fuel uid = some (decide (uid ∈ hdd), { s with bdFd := fd }) := by
  have hstart : Window s.uidSize hdd uid (0, hdd.length, s.bdFd) :=
    ⟨h.file, Nat.zero_le _, Nat.le_refl _, fun _ _ hi => absurd hi (Nat.not_lt_zero _),
      fun i hi hle => absurd hi (Nat.not_lt.mpr hle)⟩
  obtain ⟨⟨b, fd⟩, hsearch, rfl, hfd⟩ := iterate_total _ _ (fun c => c.2.1 - c.1) _
    (isAtHddPass_keeps h.increasing h.hddBelow huid) _ hstart
    (show hdd.length - 0 < fuel by omega)
  refine ⟨fd, hfd, ?_⟩
  simp only [UIdsStorage.isAtHdd, toBytes, if_pos huid, Option.bind_eq_bind, Option.bind_some,
    h.records_div, hsearch, Option.pure_def]

theorem contains_eq (h : Holds s hdd) {uid : ℕ} (huid : uid < 256 ^ s.uidSize) {fuel : ℕ}
    (hfuel : hdd.length < fuel) :
    ∃ fd, fd.data = records s.uidSize hdd ∧ s.contains fuel uid
      = some (decide (uid ∈ s.procUids ∪ (s.ramUids ∪ hdd.toFinset)), { s with bdFd := fd }) := by
  by_cases hproc : uid ∈ s.procUids
  · exact ⟨s.bdFd, h.file, by simp [UIdsStorage.contains, hproc]⟩
  · by_cases hram : uid ∈ s.ramUids
    · exact ⟨s.bdFd, h.file, by simp [UIdsStorage.contains, hproc, hram]⟩
    · obtain ⟨fd, hfd, hsearch⟩ := isAtHdd_eq h huid hfuel
      exact ⟨fd, hfd, by simp [UIdsStorage.contains, hproc, hram, hsearch]⟩

end Ops

/-! ## The flush -/

/-- The two lists in hand, as `List.merge` merges them. -/
def mergeUids (ram hdd : List ℕ) : List ℕ := ram.merge hdd (fun a b => decide (a ≤ b))

theorem mergeUids_nil_left (hdd : List ℕ) : mergeUids [] hdd = hdd := List.nil_merge hdd

theorem mergeUids_nil_right (ram : List ℕ) : mergeUids ram [] = ram := List.merge_right ram

theorem mergeUids_of_le {uid h : ℕ} (ram hdd : List ℕ) (hle : uid ≤ h) :
    mergeUids (uid :: ram) (h :: hdd) = uid :: mergeUids ram (h :: hdd) :=
  List.cons_merge_cons_pos _ ram hdd (decide_eq_true hle)

theorem mergeUids_of_not_le {uid h : ℕ} (ram hdd : List ℕ) (hle : ¬ uid ≤ h) :
    mergeUids (uid :: ram) (h :: hdd) = h :: mergeUids (uid :: ram) hdd :=
  List.cons_merge_cons_neg _ ram hdd (by simpa using hle)

theorem beBytes_le_iff {w m n : ℕ} (hm : m < 256 ^ w) (hn : n < 256 ^ w) :
    beBytes w m ≤ beBytes w n ↔ m ≤ n := by
  rw [← List.not_lt, beBytes_lt_iff hn hm, Nat.not_lt]

theorem mapM_toBytes {w : ℕ} {uids : List ℕ} (h : ∀ uid ∈ uids, uid < 256 ^ w) :
    uids.mapM (toBytes w) = some (uids.map (beBytes w)) := by
  induction uids with
  | nil => rfl
  | cons uid uids ih =>
    have hrest := ih fun u hu => h u (List.mem_cons_of_mem _ hu)
    simp [List.mapM_cons, toBytes, h uid List.mem_cons_self, hrest]

/-- The record in hand and the file behind it hold `hdd`. -/
def Ahead (w : ℕ) (f : UIdsStorage.Flush) : List ℕ → Prop
  | [] => f.hddUidBytes = [] ∧ f.bdFd.unread = []
  | uid :: hdd => f.hddUidBytes = beBytes w uid ∧ f.bdFd.unread = records w hdd

/-- Reading the next record. -/
theorem ahead_readUpTo {w : ℕ} {fd : IStream} {hdd : List ℕ} (hfd : fd.unread = records w hdd)
    (f : UIdsStorage.Flush) :
    Ahead w { f with hddUidBytes := (fd.readUpTo w).1, bdFd := (fd.readUpTo w).2 } hdd := by
  cases hdd with
  | nil =>
    have hnil : fd.unread = [] := hfd
    simp only [Ahead, IStream.readUpTo, hnil, List.take_nil, List.length_nil, Nat.add_zero]
    exact ⟨trivial, hnil⟩
  | cons uid hdd =>
    rw [records_cons] at hfd
    have hread := IStream.readUpTo_append hfd
    rw [length_beBytes] at hread
    have hnext := IStream.unread_seek_append hfd
    rw [length_beBytes] at hnext
    exact ⟨by rw [hread], by rw [hread]; exact hnext⟩

/-- **The invariant of the merge**: what has been written and the merge of what has not are
together `all`. -/
structure Flushing (w : ℕ) (all : List ℕ) (f : UIdsStorage.Flush) : Prop where
  exists_lists : ∃ uid hdd, f.ramUidBytes = beBytes w uid ∧ Ahead w f hdd ∧
    (∀ u ∈ uid :: f.ramUids, u < 256 ^ w) ∧ (∀ u ∈ hdd, u < 256 ^ w) ∧
    f.outFd ++ records w (mergeUids (uid :: f.ramUids) hdd) = records w all

theorem length_readUpTo (fd : IStream) (n : ℕ) :
    (fd.readUpTo n).1.length + (fd.readUpTo n).2.unread.length = fd.unread.length := by
  simp only [IStream.readUpTo, IStream.unread, IStream.data_seek, IStream.pos_seek,
    List.length_drop, List.length_take]
  omega

def flushSize (f : UIdsStorage.Flush) : ℕ :=
  f.ramUids.length + (f.hddUidBytes.length + f.bdFd.unread.length)

theorem flushPass_keeps {w : ℕ} (hw : 1 ≤ w) {all : List ℕ} (f : UIdsStorage.Flush)
    (hf : Flushing w all f) :
    (∃ b, UIdsStorage.flushPass w f = some (.leave b) ∧ b = records w all) ∨
    ∃ f', UIdsStorage.flushPass w f = some (.again f') ∧ Flushing w all f' ∧
      flushSize f' < flushSize f := by
  obtain ⟨uid, hdd, huid, hahead, hram, hhdd, hall⟩ := hf.exists_lists
  obtain ⟨outFd, ramUidBytes, ramUids, hddUidBytes, bdFd⟩ := f
  simp only at huid hram hall
  subst huid
  cases hdd with
  | nil =>
    -- The file has run out: the rest of the uids is written as it is.
    obtain ⟨rfl, hbehind⟩ := hahead
    simp only at hbehind
    refine Or.inl ⟨_, ?_, rfl⟩
    have hrest := mapM_toBytes fun u hu => hram u (List.mem_cons_of_mem _ hu)
    rw [mergeUids_nil_right, records_cons, records, List.flatMap_def] at hall
    simp [UIdsStorage.flushPass, hrest, ← hall]
  | cons h hdd =>
    obtain ⟨rfl, hbehind⟩ := hahead
    simp only at hbehind
    have huid := hram uid List.mem_cons_self
    have hh := hhdd h List.mem_cons_self
    have hne : (beBytes w h).isEmpty = false := by
      rw [List.isEmpty_eq_false_iff, ← List.length_pos_iff, length_beBytes]
      exact hw
    by_cases hle : uid ≤ h
    · have hcmp := (beBytes_le_iff huid hh).mpr hle
      cases ramUids with
      | nil =>
        -- `StopIteration`: the rest of the file is copied.
        refine Or.inl ⟨_, ?_, rfl⟩
        rw [mergeUids_of_le _ _ hle, mergeUids_nil_left, records_cons, records_cons] at hall
        simp [UIdsStorage.flushPass, hne, hcmp, hbehind, ← hall]
      | cons next ramUids =>
        have hnext : next < 256 ^ w := hram next (List.mem_cons_of_mem _ List.mem_cons_self)
        refine Or.inr ⟨⟨outFd ++ beBytes w uid, beBytes w next, ramUids, beBytes w h, bdFd⟩, ?_,
          ⟨next, h :: hdd, rfl, ⟨rfl, hbehind⟩, fun u hu => hram u (List.mem_cons_of_mem _ hu),
            hhdd, ?_⟩, by simp [flushSize]⟩
        · simp [UIdsStorage.flushPass, hne, hcmp, toBytes, hnext]
        · rwa [mergeUids_of_le _ _ hle, records_cons, ← List.append_assoc] at hall
    · have hcmp := (beBytes_le_iff huid hh).not.mpr hle
      have hahead' := ahead_readUpTo hbehind
        ⟨outFd ++ beBytes w h, beBytes w uid, ramUids, beBytes w h, bdFd⟩
      refine Or.inr ⟨_, ?_, ⟨uid, hdd, rfl, hahead', hram,
        fun u hu => hhdd u (List.mem_cons_of_mem _ hu), ?_⟩, ?_⟩
      · simp [UIdsStorage.flushPass, hne, hcmp]
      · rwa [mergeUids_of_not_le _ _ hle, records_cons, ← List.append_assoc] at hall
      · have hread := length_readUpTo bdFd w
        simp only [flushSize, length_beBytes]
        omega

/-- The merged list of two disjoint sets is strictly increasing and has the elements of both. -/
theorem mergeUids_sort {ram : Finset ℕ} {hdd : List ℕ} (hinc : hdd.Pairwise (· < ·))
    (hdisj : Disjoint ram hdd.toFinset) :
    (mergeUids ram.sort hdd).Pairwise (· < ·) ∧
      ∀ uid, uid ∈ mergeUids ram.sort hdd ↔ uid ∈ ram ∨ uid ∈ hdd := by
  have hmem : ∀ uid, uid ∈ mergeUids ram.sort hdd ↔ uid ∈ ram ∨ uid ∈ hdd := fun uid => by
    rw [mergeUids, List.mem_merge, Finset.mem_sort]
  refine ⟨?_, hmem⟩
  have hle : (mergeUids ram.sort hdd).Pairwise (fun a b => decide (a ≤ b) = true) :=
    List.pairwise_merge (fun a b c hab hbc => by simp only [decide_eq_true_eq] at *; omega)
      (fun a b => by simpa using Nat.le_total a b) _ _
      ((Finset.pairwise_sort ram _).imp fun h => decide_eq_true h)
      (hinc.imp fun h => decide_eq_true (Nat.le_of_lt h))
  have hnodup : (mergeUids ram.sort hdd).Nodup := by
    refine (List.Perm.nodup_iff (List.merge_perm_append _)).mpr (List.Nodup.append
      (Finset.sort_nodup ram _) (hinc.imp Nat.ne_of_lt) fun uid hr hh => ?_)
    exact Finset.disjoint_left.mp hdisj ((Finset.mem_sort _).mp hr) (List.mem_toFinset.mpr hh)
  exact (hle.and hnodup).imp fun h => Nat.lt_of_le_of_ne (of_decide_eq_true h.1) h.2

section Ops

variable {s : UIdsStorage} {hdd : List ℕ}

/-- **A flush moves the uids from RAM into the file.** -/
theorem flushToDisk_eq (h : Holds s hdd) {fuel : ℕ}
    (hfuel : s.ramUids.card + s.bdFd.data.length < fuel) :
    ∃ (s' : UIdsStorage) (hdd' : List ℕ), s.flushToDisk fuel = some s' ∧ Holds s' hdd' ∧
      s'.procUids = s.procUids ∧ s'.uidSize = s.uidSize ∧ s'.ramUids = ∅ ∧
      hdd'.toFinset = s.ramUids ∪ hdd.toFinset := by
  obtain ⟨hinc, hmem⟩ := mergeUids_sort h.increasing h.ramHdd
  cases hsort : s.ramUids.sort with
  | nil =>
    have hempty : s.ramUids = ∅ := by
      rw [← Finset.card_eq_zero, ← Finset.length_sort (· ≤ ·), hsort]
      rfl
    exact ⟨s, hdd, by simp [UIdsStorage.flushToDisk, hsort], h, rfl, rfl, hempty, by simp [hempty]⟩
  | cons uid ramUids =>
    rw [hsort] at hinc hmem
    have hlen : ramUids.length + 1 = s.ramUids.card := by
      rw [← Finset.length_sort (· ≤ ·), hsort, List.length_cons]
    have hram : ∀ u ∈ uid :: ramUids, u < 256 ^ s.uidSize := fun u hu =>
      h.ramBelow u ((Finset.mem_sort _).mp (hsort ▸ hu))
    have hunread : (s.bdFd.seek 0).unread = records s.uidSize hdd := h.file
    have hread := ahead_readUpTo hunread
      ⟨[], beBytes s.uidSize uid, ramUids, [], s.bdFd⟩
    have hstart : Flushing s.uidSize (mergeUids (uid :: ramUids) hdd)
        ⟨[], beBytes s.uidSize uid, ramUids, ((s.bdFd.seek 0).readUpTo s.uidSize).1,
          ((s.bdFd.seek 0).readUpTo s.uidSize).2⟩ :=
      ⟨uid, hdd, rfl, hread, hram, h.hddBelow, rfl⟩
    have hsize : flushSize ⟨[], beBytes s.uidSize uid, ramUids,
        ((s.bdFd.seek 0).readUpTo s.uidSize).1, ((s.bdFd.seek 0).readUpTo s.uidSize).2⟩
        < fuel := by
      have hread := length_readUpTo (s.bdFd.seek 0) s.uidSize
      have hzero : (s.bdFd.seek 0).unread.length = s.bdFd.data.length := by simp [IStream.unread]
      simp only [flushSize]
      omega
    obtain ⟨_, hloop, rfl⟩ := iterate_total (UIdsStorage.flushPass s.uidSize) _ flushSize _
      (flushPass_keeps h.size) _ hstart hsize
    refine ⟨{ s with
        ramUids := ∅, bdFd := ⟨records s.uidSize (mergeUids (uid :: ramUids) hdd), 0⟩ },
      mergeUids (uid :: ramUids) hdd, ?_, ⟨h.size, rfl, hinc, h.procBelow, ?_, ?_, ?_, ?_, ?_⟩, rfl,
      rfl, rfl, ?_⟩
    · simp [UIdsStorage.flushToDisk, hsort, toBytes, hram uid List.mem_cons_self, hloop]
    · simp
    · intro u hu
      rcases (hmem u).mp hu with hr | hh
      · exact h.ramBelow u hr
      · exact h.hddBelow u hh
    · simp
    · rw [Finset.disjoint_left]
      intro u hproc hu
      rcases (hmem u).mp (List.mem_toFinset.mp hu) with hr | hh
      · exact Finset.disjoint_left.mp h.procRam hproc hr
      · exact Finset.disjoint_left.mp h.procHdd hproc (List.mem_toFinset.mpr hh)
    · simp
    · ext u
      simp [hmem]

end Ops

/-! ## Every operation -/

section Refinement

variable {s : UIdsStorage} {hdd : List ℕ} {a : UIdSet}

theorem Holds.card_committed (h : Holds s hdd) :
    (s.ramUids ∪ hdd.toFinset).card = s.ramUids.card + hdd.length := by
  rw [Finset.card_union_of_disjoint h.ramHdd,
    List.toFinset_card_of_nodup (h.increasing.imp Nat.ne_of_lt)]

/-- `len` counts the committed uids. -/
theorem Holds.len_eq (h : Holds s hdd) : s.len = (s.ramUids ∪ hdd.toFinset).card := by
  rw [UIdsStorage.len, h.records_div, h.card_committed]

/-- Fuel for the loops, by the number of committed uids. -/
def fuelFor (uidSize : ℕ) (a : UIdSet) : ℕ := a.committed.card * (uidSize + 1)

theorem Holds.fuel (h : Holds s hdd) (hcom : a.committed = s.ramUids ∪ hdd.toFinset) :
    hdd.length ≤ fuelFor s.uidSize a ∧
      s.ramUids.card + s.bdFd.data.length ≤ fuelFor s.uidSize a := by
  rw [fuelFor, hcom, h.card_committed, h.file, length_records, Nat.mul_add, Nat.add_mul]
  omega

theorem add_refines (h : Refines s a) {uid : ℕ} (huid : uid < 256 ^ s.uidSize) {fuel : ℕ}
    (hfuel : fuelFor s.uidSize a < fuel) :
    ∃ s', s.add fuel uid = some (decide (uid ∉ a.added), s') ∧ s'.uidSize = s.uidSize ∧
      Refines s' { a with added := insert uid a.added } := by
  obtain ⟨hdd, hh, hadd, hcom⟩ := h
  obtain ⟨fd, hfd, hcontains⟩ := contains_eq hh huid (Nat.lt_of_le_of_lt (hh.fuel hcom).1 hfuel)
  have hh' := hh.setFd hfd
  rw [← hadd] at hcontains
  by_cases hmem : uid ∈ a.added
  · refine ⟨{ s with bdFd := fd }, by simp [UIdsStorage.add, hcontains, hmem], rfl, hdd, hh', ?_,
      hcom⟩
    rw [Finset.insert_eq_of_mem hmem]
    exact hadd
  · have hnew := hmem
    rw [hadd, Finset.mem_union, Finset.mem_union, not_or, not_or] at hnew
    refine ⟨{ s with bdFd := fd, procUids := insert uid s.procUids },
      by simp [UIdsStorage.add, hcontains, hmem], rfl, hdd, ?_, ?_, hcom⟩
    · refine { hh' with procBelow := fun u hu => ?_, procRam := ?_, procHdd := ?_ }
      · rcases Finset.mem_insert.mp hu with rfl | hu
        · exact huid
        · exact hh.procBelow u hu
      · exact Finset.disjoint_insert_left.mpr ⟨hnew.2.1, hh.procRam⟩
      · exact Finset.disjoint_insert_left.mpr ⟨hnew.2.2, hh.procHdd⟩
    · rw [hadd, Finset.insert_union]

/-- Committing moves a uid from `proc_uids` to `ram_uids`. -/
theorem Holds.commit (h : Holds s hdd) {uid : ℕ} (huid : uid ∈ s.procUids) :
    Holds { s with procUids := s.procUids.erase uid, ramUids := insert uid s.ramUids } hdd := by
  have hram := Finset.disjoint_left.mp h.procRam huid
  have hhdd := Finset.disjoint_left.mp h.procHdd huid
  refine { h with procBelow := fun u hu => h.procBelow u (Finset.mem_of_mem_erase hu),
                  ramBelow := fun u hu => ?_, procRam := ?_, procHdd := ?_, ramHdd := ?_ }
  · rcases Finset.mem_insert.mp hu with rfl | hu
    · exact h.procBelow u huid
    · exact h.ramBelow u hu
  · exact Finset.disjoint_insert_right.mpr ⟨Finset.notMem_erase _ _,
      h.procRam.mono_left (Finset.erase_subset _ _)⟩
  · exact h.procHdd.mono_left (Finset.erase_subset _ _)
  · exact Finset.disjoint_insert_left.mpr ⟨hhdd, h.ramHdd⟩

theorem flushToDisk_refines (h : Refines s a) {fuel : ℕ} (hfuel : fuelFor s.uidSize a < fuel) :
    ∃ s', s.flushToDisk fuel = some s' ∧ s'.uidSize = s.uidSize ∧ Refines s' a := by
  obtain ⟨hdd, hh, hadd, hcom⟩ := h
  obtain ⟨s', hdd', hflush, hh', hproc, hsize, hram, hhdd⟩ :=
    flushToDisk_eq hh (Nat.lt_of_le_of_lt (hh.fuel hcom).2 hfuel)
  refine ⟨s', hflush, hsize, hdd', hh', ?_, ?_⟩
  · rw [hadd, hproc, hram, hhdd, Finset.empty_union]
  · rw [hcom, hram, hhdd, Finset.empty_union]

theorem commit_refines (h : Refines s a) {uid : ℕ} {fuel : ℕ}
    (hfuel : fuelFor s.uidSize (a.step (.commit uid)).2 < fuel) :
    ∃ s' r, s.commit fuel uid = some (r, s') ∧ s'.uidSize = s.uidSize ∧
      (match r with
        | .done => Reply.none
        | .keyError => Reply.keyError) = (a.step (.commit uid)).1 ∧
      Refines s' (a.step (.commit uid)).2 := by
  obtain ⟨hdd, hh, hadd, hcom⟩ := h
  have hproc : uid ∈ s.procUids ↔ uid ∈ a.added ∧ uid ∉ a.committed := by
    rw [hadd, hcom]
    constructor
    · intro hu
      refine ⟨Finset.mem_union_left _ hu, fun hmem => ?_⟩
      rcases Finset.mem_union.mp hmem with hmem | hmem
      · exact Finset.disjoint_left.mp hh.procRam hu hmem
      · exact Finset.disjoint_left.mp hh.procHdd hu hmem
    · rintro ⟨hu, hnot⟩
      exact (Finset.mem_union.mp hu).resolve_right hnot
  by_cases huid : uid ∈ s.procUids
  · have hstep : a.step (.commit uid)
        = (.none, { a with committed := insert uid a.committed }) := by
      rw [UIdSet.step, if_pos (hproc.mp huid)]
    rw [hstep] at hfuel ⊢
    -- The set is the same, whether or not the move makes a flush due.
    have hmoved : Refines { s with procUids := s.procUids.erase uid,
                                   ramUids := insert uid s.ramUids }
        { a with committed := insert uid a.committed } := by
      refine ⟨hdd, hh.commit huid, ?_, by simp only [hcom, Finset.insert_union]⟩
      ext u
      by_cases hu : u = uid
      · simp [hadd, hu, huid]
      · simp [hadd, hu]
    by_cases hfull : ((insert uid s.ramUids).card : ℤ) > s.maxCnt
    · obtain ⟨s', hflush, hsize, href⟩ := flushToDisk_refines hmoved hfuel
      exact ⟨s', .done, by simp [UIdsStorage.commit, huid, hfull, hflush], hsize, rfl, href⟩
    · exact ⟨{ s with procUids := s.procUids.erase uid, ramUids := insert uid s.ramUids }, .done,
        by simp [UIdsStorage.commit, huid, hfull], rfl, rfl, hmoved⟩
  · have hstep : a.step (.commit uid) = (.keyError, a) := by
      rw [UIdSet.step, if_neg (fun hu => huid (hproc.mpr hu))]
    rw [hstep]
    exact ⟨s, .keyError, if_neg huid, rfl, rfl, hdd, hh, hadd, hcom⟩

/-- The uid is one that `commit` accepts. -/
def UIdSet.Pending (a : UIdSet) (uid : ℕ) : Prop := uid ∈ a.added ∧ uid ∉ a.committed

/-- The storage's own fuel is enough for every operation. -/
theorem Refines.fuel_gt (h : Refines s a) (uid : ℕ) :
    fuelFor s.uidSize a < s.fuel ∧ fuelFor s.uidSize (a.step (.commit uid)).2 < s.fuel := by
  obtain ⟨hdd, hh, -, hcom⟩ := h
  have hlen : s.len = a.committed.card := by rw [hh.len_eq, hcom]
  have hcard : (a.step (.commit uid)).2.committed.card ≤ a.committed.card + 1 := by
    by_cases hpending : uid ∈ a.added ∧ uid ∉ a.committed
    · rw [UIdSet.step, if_pos hpending]
      exact Finset.card_insert_le _ _
    · rw [UIdSet.step, if_neg hpending]
      exact Nat.le_succ _
  unfold fuelFor UIdsStorage.fuel
  rw [hlen]
  exact ⟨Nat.lt_succ_of_le (Nat.mul_le_mul_right _ (Nat.le_succ _)),
    Nat.lt_succ_of_le (Nat.mul_le_mul_right _ hcard)⟩

/-- What `add` is, whenever it returns: for a uid that no record has room for it does not. -/
theorem Refines.add (h : Refines s a) {uid : ℕ} {b : Bool} {s' : UIdsStorage}
    (hadd : s.add s.fuel uid = some (b, s')) :
    b = decide (uid ∉ a.added) ∧ Refines s' { a with added := insert uid a.added } := by
  by_cases huid : uid < 256 ^ s.uidSize
  · obtain ⟨s₁, hadd₁, -, href⟩ := add_refines h huid (h.fuel_gt uid).1
    rw [hadd₁] at hadd
    cases hadd
    exact ⟨rfl, href⟩
  · obtain ⟨hdd, hh, -, -⟩ := h
    have hproc : uid ∉ s.procUids := fun hmem => huid (hh.procBelow uid hmem)
    have hram : uid ∉ s.ramUids := fun hmem => huid (hh.ramBelow uid hmem)
    simp [UIdsStorage.add, UIdsStorage.contains, UIdsStorage.isAtHdd, hproc, hram, toBytes, huid]
      at hadd

theorem Refines.commit (h : Refines s a) {uid : ℕ} {r : UIdsStorage.CommitResult}
    {s' : UIdsStorage} (hcommit : s.commit s.fuel uid = some (r, s')) :
    (r = .done ∧ a.Pending uid ∧ Refines s' { a with committed := insert uid a.committed }) ∨
      (r = .keyError ∧ ¬ a.Pending uid ∧ Refines s' a) := by
  obtain ⟨s₁, r₁, hcommit₁, -, hreply, href⟩ := commit_refines h (h.fuel_gt uid).2
  rw [hcommit₁] at hcommit
  cases hcommit
  by_cases hpending : uid ∈ a.added ∧ uid ∉ a.committed
  · rw [UIdSet.step, if_pos hpending] at hreply href
    cases r with
    | done => exact Or.inl ⟨rfl, hpending, href⟩
    | keyError => cases hreply
  · rw [UIdSet.step, if_neg hpending] at hreply href
    cases r with
    | done => cases hreply
    | keyError => exact Or.inr ⟨rfl, hpending, href⟩

theorem Refines.flushToDisk (h : Refines s a) {s' : UIdsStorage}
    (hflush : s.flushToDisk s.fuel = some s') : Refines s' a := by
  obtain ⟨s₁, hflush₁, -, href⟩ := flushToDisk_refines h (h.fuel_gt 0).1
  rw [hflush₁] at hflush
  cases hflush
  exact href

/-- **One step**: the storage replies what the set replies, and holds the set that is left. -/
theorem step_refines (h : Refines s a) {op : Op} (hop : op.Below (256 ^ s.uidSize)) {fuel : ℕ}
    (hfuel : fuelFor s.uidSize (a.step op).2 < fuel) :
    ∃ s', s.step fuel op = some ((a.step op).1, s') ∧ s'.uidSize = s.uidSize ∧
      Refines s' (a.step op).2 := by
  cases op with
  | add uid =>
    obtain ⟨s', hadd, hsize, href⟩ := add_refines h hop hfuel
    exact ⟨s', by rw [UIdsStorage.step, hadd]; rfl, hsize, href⟩
  | commit uid =>
    obtain ⟨s', r, hcommit, hsize, hreply, href⟩ := commit_refines h hfuel
    exact ⟨s', by rw [UIdsStorage.step, hcommit, ← hreply]; rfl, hsize, href⟩
  | flushToDisk =>
    obtain ⟨s', hflush, hsize, href⟩ := flushToDisk_refines h hfuel
    exact ⟨s', by rw [UIdsStorage.step, hflush]; rfl, hsize, href⟩
  | contains uid =>
    obtain ⟨hdd, hh, hadd, hcom⟩ := h
    obtain ⟨fd, hfd, hcontains⟩ := contains_eq hh hop (Nat.lt_of_le_of_lt (hh.fuel hcom).1 hfuel)
    refine ⟨{ s with bdFd := fd }, ?_, rfl, hdd, hh.setFd hfd, hadd, hcom⟩
    rw [UIdsStorage.step, hcontains, ← hadd]
    rfl
  | len =>
    obtain ⟨hdd, hh, hadd, hcom⟩ := h
    exact ⟨s, by rw [UIdsStorage.step, hh.len_eq, ← hcom]; rfl, rfl, hdd, hh, hadd, hcom⟩

theorem UIdSet.committed_subset_step (a : UIdSet) (op : Op) :
    a.committed ⊆ (a.step op).2.committed := by
  cases op with
  | commit uid =>
    by_cases h : uid ∈ a.added ∧ uid ∉ a.committed
    · rw [step, if_pos h]; exact Finset.subset_insert _ _
    · rw [step, if_neg h]
  | _ => exact Finset.Subset.refl _

theorem UIdSet.committed_subset_run (a : UIdSet) (ops : List Op) :
    a.committed ⊆ (a.run ops).2.committed := by
  induction ops generalizing a with
  | nil => exact Finset.Subset.refl _
  | cons op ops ih => exact (a.committed_subset_step op).trans (ih _)

/-- **A whole run**, by induction on the operations. -/
theorem run_refines {ops : List Op} :
    ∀ {s : UIdsStorage} {a : UIdSet}, Refines s a → (∀ op ∈ ops, op.Below (256 ^ s.uidSize)) →
      ∀ {fuel : ℕ}, fuelFor s.uidSize (a.run ops).2 < fuel →
        ∃ s', s.run fuel ops = some ((a.run ops).1, s') ∧ s'.uidSize = s.uidSize ∧
          Refines s' (a.run ops).2 := by
  induction ops with
  | nil => exact fun h _ _ _ => ⟨_, rfl, rfl, h⟩
  | cons op ops ih =>
    intro s a h hops fuel hfuel
    have hstepFuel : fuelFor s.uidSize (a.step op).2 ≤ fuelFor s.uidSize (a.run (op :: ops)).2 :=
      Nat.mul_le_mul_right _ (Finset.card_le_card ((a.step op).2.committed_subset_run ops))
    obtain ⟨s₁, hstep, hsize₁, href₁⟩ := step_refines h (hops op List.mem_cons_self)
      (Nat.lt_of_le_of_lt hstepFuel hfuel)
    obtain ⟨s', hrun, hsize', href'⟩ := ih href₁
      (fun o ho => hsize₁ ▸ hops o (List.mem_cons_of_mem _ ho)) (hsize₁ ▸ hfuel)
    refine ⟨s', ?_, hsize'.trans hsize₁, href'⟩
    simp only [UIdsStorage.run, hstep, Option.bind_eq_bind, Option.bind_some, hrun, Option.pure_def,
      UIdSet.run]

/-- The uids that a run adds. -/
def addedUids : List Op → Finset ℕ
  | [] => ∅
  | .add uid :: ops => insert uid (addedUids ops)
  | _ :: ops => addedUids ops

theorem UIdSet.run_added (a : UIdSet) (ops : List Op) :
    (a.run ops).2.added = a.added ∪ addedUids ops := by
  induction ops generalizing a with
  | nil => simp [run, addedUids]
  | cons op ops ih =>
    rw [run, ih]
    cases op with
    | add uid => simp [step, addedUids]
    | commit uid =>
      by_cases h : uid ∈ a.added ∧ uid ∉ a.committed
      · simp only [step, if_pos h, addedUids]
      · simp only [step, if_neg h, addedUids]
    | _ => rfl

/-- A new storage on a file of increasing records is the set of those. -/
theorem init_refines {uidSize : ℕ} (hsize : 1 ≤ uidSize) {hdd : List ℕ}
    (hinc : hdd.Pairwise (· < ·)) (hbelow : ∀ uid ∈ hdd, uid < 256 ^ uidSize) (maxCnt : ℤ) :
    Refines (.init uidSize (records uidSize hdd) maxCnt) ⟨hdd.toFinset, hdd.toFinset⟩ := by
  refine ⟨hdd, ⟨hsize, rfl, hinc, ?_, ?_, hbelow, ?_, ?_, ?_⟩, ?_, ?_⟩ <;>
    simp [UIdsStorage.init]

/-- **The storage is a set of uids.** After any run from a file of increasing records, every reply
has been that of the set; the uids in the storage are those of the file and those added since; the
file is again one of increasing records; no uid is in two places; `len` is the number of committed
uids; and committing a uid that is not in `proc_uids` raises and changes nothing. -/
theorem uidsStorage_correct (uidSize : ℕ) (hsize : 1 ≤ uidSize) (maxCnt : ℤ) (hdd : List ℕ)
    (hinc : hdd.Pairwise (· < ·)) (hbelow : ∀ uid ∈ hdd, uid < 256 ^ uidSize) (ops : List Op)
    (hops : ∀ op ∈ ops, op.Below (256 ^ uidSize)) :
    ∃ fuel₀ : ℕ, ∀ fuel, fuel₀ ≤ fuel → ∃ (s : UIdsStorage) (hdd' : List ℕ) (a : UIdSet),
      UIdsStorage.run fuel (.init uidSize (records uidSize hdd) maxCnt) ops
        = some ((UIdSet.run ⟨hdd.toFinset, hdd.toFinset⟩ ops).1, s) ∧
      (UIdSet.run ⟨hdd.toFinset, hdd.toFinset⟩ ops).2 = a ∧
      a.added = hdd.toFinset ∪ addedUids ops ∧
      (∀ uid < 256 ^ uidSize, ∃ s', s.contains fuel uid = some (decide (uid ∈ a.added), s')) ∧
      s.bdFd.data = records uidSize hdd' ∧ hdd'.Pairwise (· < ·) ∧
      (∀ uid ∈ hdd', uid < 256 ^ uidSize) ∧
      Disjoint s.procUids s.ramUids ∧ Disjoint s.procUids hdd'.toFinset ∧
      Disjoint s.ramUids hdd'.toFinset ∧
      s.len = a.committed.card ∧
      ∀ uid ∉ s.procUids, s.commit fuel uid = some (.keyError, s) := by
  refine ⟨fuelFor uidSize (UIdSet.run ⟨hdd.toFinset, hdd.toFinset⟩ ops).2 + 1, fun fuel hfuel => ?_⟩
  have hinit := init_refines hsize hinc hbelow maxCnt
  obtain ⟨s, hrun, hs, hdd', hh, hadd, hcom⟩ := run_refines hinit hops (Nat.lt_of_succ_le hfuel)
  have hw : s.uidSize = uidSize := hs
  refine ⟨s, hdd', _, hrun, rfl, UIdSet.run_added _ _, fun uid huid => ?_, hw ▸ hh.file,
    hh.increasing, hw ▸ hh.hddBelow, hh.procRam, hh.procHdd, hh.ramHdd, by rw [hh.len_eq, hcom],
    fun uid huid => if_neg huid⟩
  have henough : hdd'.length < fuel :=
    Nat.lt_of_le_of_lt (hh.fuel hcom).1 (hw.symm ▸ Nat.lt_of_succ_le hfuel)
  obtain ⟨fd, -, hcontains⟩ := contains_eq hh (hw.symm ▸ huid) henough
  rw [hadd]
  exact ⟨_, hcontains⟩

/-- Records of two bytes, room for one uid in RAM: the second commit flushes. -/
theorem uidsStorage_correct_flush :
    let ops : List Op :=
      [.add 5, .add 700, .add 5, .commit 700, .commit 5, .commit 5, .contains 5, .len]
    ∃ fuel₀ : ℕ, ∀ fuel, fuel₀ ≤ fuel → ∃ s : UIdsStorage,
      UIdsStorage.run fuel (.init 2 (records 2 [3, 256]) 1) ops
        = some
          ([.bool true, .bool true, .bool false, .none, .none, .keyError, .bool true, .num 4],
            s) := by
  intro ops
  obtain ⟨fuel₀, h⟩ := uidsStorage_correct 2 (by decide) 1 [3, 256] (by decide) (by decide) ops
    (by decide)
  refine ⟨fuel₀, fun fuel hfuel => ?_⟩
  obtain ⟨s, -, -, hrun, -⟩ := h fuel hfuel
  exact ⟨s, hrun⟩

end Refinement

end Amigos.Spider
