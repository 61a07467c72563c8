import Mathlib.Data.List.Nodup
import Amigos.Common.Words
import Amigos.Indexer.Stores
import Amigos.Indexer.Merge

/-!
# The text of an item (`_extractTextZones`)

The words of all text zones are numbered through, zone after zone. For each token a dictionary
collects the numbers of the words that hash to it; then each token gets an entry, whose numbers
`splitByZones` cuts back into zones and `addTokenPosting` writes to the postings file.

Numbers are 16 bits wide. `addZones_collected` says what the dictionary holds: the places of the
token in the text of all zones, one behind the other, as far as 16 bits suffice to tell them.
-/

set_option autoImplicit false

namespace Amigos.Indexer

open Amigos.Lib
open Amigos.Common
open Amigos.Index

/-! ## Words -/

/-- What the text of an item is put through, and what the code leaves to the library. -/
structure TextEnv where
  /-- `Common::terminate2vec`. -/
  terminate2vec : Bytes → List Bytes
  codec : Codec
  stopwords : List Bytes
  /-- The order in which a loop over `tmpDict` meets its elements. -/
  iterate : List (UInt32 × List UInt16) → List (UInt32 × List UInt16)
  iterate_perm : ∀ dict, (iterate dict).Perm dict
  /-- How often the loop of `splitByZones` may go round for one position. -/
  fuel : Nat
  fuel_gt : 255 < fuel

/-- The words of a zone: what `bigram2vec` puts into `bterms`. -/
def TextEnv.bterms (env : TextEnv) (text : Bytes) : Option (List Bytes) :=
  bigram2vec env.codec env.stopwords (env.terminate2vec text)

/-- `std::isalnum`, in a UTF-8 locale. -/
def isAlnum (ch : UInt8) : Bool :=
  (48 ≤ ch && ch ≤ 57) || (65 ≤ ch && ch ≤ 90) || (97 ≤ ch && ch ≤ 122)

def hasBadSymbols (str : Bytes) : Bool := str.any fun ch => !isAlnum ch && ch != 95

/-- What the loop over the words changes. -/
structure TextState where
  pos : UInt16
  tmpDict : List (UInt32 × List UInt16)
  charsCnt : UInt64
  statDict : List (Bytes × UInt32)
  deriving Repr

/-- `tmpDict[tokId].push_back(pos)`. -/
def pushPos (tokId : UInt32) (pos : UInt16) :
    List (UInt32 × List UInt16) → List (UInt32 × List UInt16)
  | [] => [(tokId, [pos])]
  | (t, ps) :: dict =>
    if t = tokId then (t, ps ++ [pos]) :: dict else (t, ps) :: pushPos tokId pos dict

/-- `++it->second`. -/
def bumpStat (word : Bytes) : List (Bytes × UInt32) → List (Bytes × UInt32)
  | [] => []
  | (w, n) :: dict => if w = word then (w, n + 1) :: dict else (w, n) :: bumpStat word dict

def TextState.addToStatDict (s : TextState) (word : Bytes) : TextState :=
  if s.statDict.any fun entry => entry.1 == word then
    { s with statDict := bumpStat word s.statDict }
  else { s with
    charsCnt := s.charsCnt + UInt64.ofNat word.length
    statDict := s.statDict ++ [(word, 1)] }

/-- One word; `wordsCnt` is that of its zone. -/
def addWord (wordsCnt : UInt16) (s : TextState) (word : Bytes) : UInt16 × TextState :=
  let wordsCnt := wordsCnt + 1
  if hasBadSymbols word then (wordsCnt, { s with pos := s.pos + 1 })
  else
    let s := s.addToStatDict word
    let tokId := murmurHash2 word
    (wordsCnt, { s with tmpDict := pushPos tokId s.pos s.tmpDict, pos := s.pos + 1 })

def addWords (s : TextState) (words : List Bytes) : UInt16 × TextState :=
  words.foldl (fun c word => addWord c.1 c.2 word) (0, s)

/-- The loop over the zones, given their words. -/
def addZones (s : TextState) : List (List Bytes) → List UInt16 × TextState
  | [] => ([], s)
  | words :: zones =>
    let (cnt, s) := addWords s words
    let (wordsCnt, s) := addZones s zones
    (cnt :: wordsCnt, s)

/-! ## Entries -/

/-- The locals of `splitByZones`, and what it fills. -/
structure Split where
  zi : UInt8
  offset : UInt16
  isNewZone : Bool
  splitPosting : List (List UInt16)
  inZone : UInt8
  deriving DecidableEq, Repr

/-- The inner loop of `splitByZones`, on `(zi, offset, isNewZone)`. -/
def skipPass (zwCnt : List UInt16) (val : UInt16) :
    UInt8 × UInt16 × Bool → Option (Pass (UInt8 × UInt16 × Bool) (UInt8 × UInt16 × Bool))
  | (zi, offset, isNewZone) => do
    let cnt ← zwCnt[zi.toNat]?
    if offset.toNat + cnt.toNat ≤ val.toNat then return .again (zi + 1, offset + cnt, true)
    else return .leave (zi, offset, isNewZone)

/-- One position. -/
def splitVal (fuel : Nat) (zwCnt : List UInt16) (s : Split) (val : UInt16) : Option Split := do
  let (zi, offset, isNewZone) ← iterate (skipPass zwCnt val) fuel (s.zi, s.offset, s.isNewZone)
  if isNewZone then
    let mask ← i2mask[zi.toNat]?
    return { zi, offset, isNewZone := false
             splitPosting := s.splitPosting ++ [[val - offset]]
             inZone := s.inZone ||| mask }
  else
    let back ← s.splitPosting.getLast?
    return { s with
      zi, offset, isNewZone
      splitPosting := s.splitPosting.dropLast ++ [back ++ [val - offset]] }

def splitVals (fuel : Nat) (zwCnt : List UInt16) : Split → List UInt16 → Option Split
  | s, [] => some s
  | s, val :: posting => do
    let s ← splitVal fuel zwCnt s val
    splitVals fuel zwCnt s posting

/-- `splitByZones`, of a new entry. -/
def splitByZones (fuel : Nat) (posting zwCnt : List UInt16) :
    Option (List (List UInt16) × PostingInfo) := do
  let start : Split :=
    { zi := 0, offset := 0, isNewZone := true, splitPosting := [], inZone := 0 }
  let s ← splitVals fuel zwCnt start posting
  return (s.splitPosting,
    { inZone := s.inZone
      postingOffset := 0
      postingSizes := s.splitPosting.map fun vec => UInt16.ofNat vec.length })

/-- The body of the loop over `tmpDict`: the new entry of a token. -/
def recordToken (fuel : Nat) (wordsCnt : List UInt16) (docIdOffset : UInt32)
    (postingStore : DynPostingStore) (pair : UInt32 × List UInt16) :
    Option ((UInt32 × Entry) × DynPostingStore) := do
  let (fzpBuf, postingInfo) ← splitByZones fuel pair.2 wordsCnt
  let (postingOffset, postingStore) := postingStore.addTokenPosting fzpBuf
  return ((pair.1, { docIdOffset, postingInfo := { postingInfo with postingOffset } }),
    postingStore)

/-- The loop over `tmpDict`: the entries in the order in which they are recorded. -/
def recordTokens (fuel : Nat) (wordsCnt : List UInt16) (docIdOffset : UInt32) :
    DynPostingStore → List (UInt32 × List UInt16) →
      Option (List (UInt32 × Entry) × DynPostingStore)
  | postingStore, [] => some ([], postingStore)
  | postingStore, pair :: dict => do
    let (entry, postingStore) ← recordToken fuel wordsCnt docIdOffset postingStore pair
    let (recorded, postingStore) ← recordTokens fuel wordsCnt docIdOffset postingStore dict
    return (entry :: recorded, postingStore)

/-- `_invIdx[token].push_back(entry)`: a `std::map` is kept sorted. -/
def addEntry (token : UInt32) (entry : Entry) : List IdxItem → List IdxItem
  | [] => [⟨token, [entry]⟩]
  | it :: items =>
    if token < it.token then ⟨token, [entry]⟩ :: it :: items
    else if token = it.token then { it with entries := it.entries ++ [entry] } :: items
    else it :: addEntry token entry items

/-! ## The dictionary -/

/-- An indexable word with this token. -/
def isToken (t : UInt32) (word : Bytes) : Bool := !hasBadSymbols word && murmurHash2 word == t

/-- **The places of a token in a sequence of words**, in ascending order. -/
def tokenPositions (t : UInt32) (words : List Bytes) : List Nat := words.findIdxs (isToken t)

/-- What the dictionary holds for a token. -/
def lookUpPos (t : UInt32) (dict : List (UInt32 × List UInt16)) : List UInt16 :=
  (dict.lookup t).getD []

/-- Each token once, and with a position. -/
structure DictOk (dict : List (UInt32 × List UInt16)) : Prop where
  nodup : (dict.map Prod.fst).Nodup
  nonempty : ∀ pair ∈ dict, pair.2 ≠ []

theorem map_fst_pushPos (t : UInt32) (pos : UInt16) (dict : List (UInt32 × List UInt16)) :
    (pushPos t pos dict).map Prod.fst
      = if t ∈ dict.map Prod.fst then dict.map Prod.fst else dict.map Prod.fst ++ [t] := by
  induction dict with
  | nil => rfl
  | cons pair dict ih =>
    obtain ⟨t', ps⟩ := pair
    by_cases ht : t' = t
    · simp [pushPos, ht]
    · have ht' : ¬ t = t' := fun h => ht h.symm
      simp only [pushPos, if_neg ht, List.map_cons, ih, List.mem_cons, ht', false_or]
      split <;> rfl

theorem DictOk.pushPos {dict : List (UInt32 × List UInt16)} (h : DictOk dict) (t : UInt32)
    (pos : UInt16) : DictOk (pushPos t pos dict) where
  nodup := by
    rw [map_fst_pushPos]
    split
    · exact h.nodup
    · rename_i hnot
      exact List.nodup_append.mpr ⟨h.nodup, List.nodup_singleton t,
        fun a ha b hb => by
          rw [List.mem_singleton.mp hb]
          exact fun hab => hnot (hab ▸ ha)⟩
  nonempty := by
    have hall := h.nonempty
    clear h
    induction dict with
    | nil => simp [Indexer.pushPos]
    | cons pair dict ih =>
      obtain ⟨t', ps⟩ := pair
      have hrest := ih fun p hp => hall p (List.mem_cons_of_mem _ hp)
      intro p hp
      simp only [Indexer.pushPos] at hp
      split at hp
      · rcases List.mem_cons.mp hp with rfl | hp
        · simp
        · exact hall p (List.mem_cons_of_mem _ hp)
      · rcases List.mem_cons.mp hp with rfl | hp
        · exact hall _ List.mem_cons_self
        · exact hrest p hp

theorem lookUpPos_cons (t t' : UInt32) (ps : List UInt16) (dict : List (UInt32 × List UInt16)) :
    lookUpPos t ((t', ps) :: dict) = if t' = t then ps else lookUpPos t dict := by
  unfold lookUpPos
  rw [List.lookup_cons]
  by_cases ht : t' = t
  · rw [if_pos ht, ht, beq_self_eq_true]
    rfl
  · rw [if_neg ht, beq_eq_false_iff_ne.mpr fun h => ht h.symm]

theorem lookUpPos_pushPos (t t' : UInt32) (pos : UInt16) (dict : List (UInt32 × List UInt16)) :
    lookUpPos t (pushPos t' pos dict)
      = lookUpPos t dict ++ if t' = t then [pos] else [] := by
  induction dict with
  | nil =>
    rw [pushPos, lookUpPos_cons]
    split <;> rfl
  | cons pair dict ih =>
    obtain ⟨t₁, ps⟩ := pair
    unfold pushPos
    by_cases h₁ : t₁ = t'
    · subst h₁
      rw [if_pos rfl, lookUpPos_cons, lookUpPos_cons]
      by_cases ht : t₁ = t <;> simp [ht]
    · -- Another token stands in front: it is found first, or both searches go on behind it.
      rw [if_neg h₁, lookUpPos_cons, lookUpPos_cons, ih]
      by_cases ht : t₁ = t
      · have hne : t' ≠ t := fun h => h₁ (ht.trans h.symm)
        rw [if_pos ht, if_pos ht, if_neg hne, List.append_nil]
      · rw [if_neg ht, if_neg ht]

/-- In a dictionary an element is what the search for its token finds. -/
theorem DictOk.lookUpPos_of_mem {dict : List (UInt32 × List UInt16)} (h : DictOk dict)
    {t : UInt32} {ps : List UInt16} (hmem : (t, ps) ∈ dict) : lookUpPos t dict = ps := by
  have hnodup := h.nodup
  clear h
  induction dict with
  | nil => exact absurd hmem List.not_mem_nil
  | cons pair dict ih =>
    obtain ⟨t', ps'⟩ := pair
    obtain ⟨hnot, hnodup⟩ := List.nodup_cons.mp hnodup
    rw [lookUpPos_cons]
    rcases List.mem_cons.mp hmem with heq | hmem
    · cases heq
      exact if_pos rfl
    · have hne : t' ≠ t := by
        rintro rfl
        exact hnot (List.mem_map.mpr ⟨(t', ps), hmem, rfl⟩)
      rw [if_neg hne]
      exact ih hmem hnodup

theorem mem_of_lookUpPos_ne_nil {dict : List (UInt32 × List UInt16)} {t : UInt32}
    (h : lookUpPos t dict ≠ []) : (t, lookUpPos t dict) ∈ dict := by
  induction dict with
  | nil => exact absurd rfl h
  | cons pair dict ih =>
    obtain ⟨t', ps'⟩ := pair
    rw [lookUpPos_cons] at h ⊢
    by_cases ht : t' = t
    · rw [if_pos ht, ht]
      exact List.mem_cons_self
    · rw [if_neg ht] at h ⊢
      exact List.mem_cons_of_mem _ (ih h)

/-! ## What the dictionary collects -/

/-- From `s` to `s'` the words behind number `base` have been collected. -/
structure Collected (base : Nat) (words : List Bytes) (s s' : TextState) : Prop where
  pos : s.pos = UInt16.ofNat base → s'.pos = UInt16.ofNat (base + words.length)
  ok : DictOk s.tmpDict → DictOk s'.tmpDict
  lookUp : s.pos = UInt16.ofNat base → ∀ t, lookUpPos t s'.tmpDict
    = lookUpPos t s.tmpDict ++ (words.findIdxs (isToken t) base).map UInt16.ofNat

theorem Collected.nil (base : Nat) (s : TextState) : Collected base [] s s where
  pos h := h
  ok h := h
  lookUp _ t := by simp

theorem Collected.trans {base : Nat} {words words' : List Bytes} {s s' s'' : TextState}
    (h : Collected base words s s') (h' : Collected (base + words.length) words' s' s'') :
    Collected base (words ++ words') s s'' where
  pos hp := by rw [h'.pos (h.pos hp), List.length_append, Nat.add_assoc]
  ok hok := h'.ok (h.ok hok)
  lookUp hp t := by
    rw [h'.lookUp (h.pos hp), h.lookUp hp, List.findIdxs_append, List.map_append,
      List.append_assoc]

theorem addWord_collected (cnt : UInt16) (s : TextState) (word : Bytes) (base : Nat) :
    (addWord cnt s word).1 = cnt + 1 ∧ Collected base [word] s (addWord cnt s word).2 := by
  have hnext : ∀ {pos : UInt16}, pos = UInt16.ofNat base →
      pos + 1 = UInt16.ofNat (base + [word].length) := by
    intro pos h
    rw [h, List.length_singleton, UInt16.ofNat_add]
    rfl
  cases hbad : hasBadSymbols word with
  | true =>
    -- A word with bad symbols takes a number, and no place in the dictionary.
    rw [addWord, hbad, if_pos rfl]
    refine ⟨rfl, hnext, id, fun _ t => ?_⟩
    simp [isToken, hbad, List.findIdxs_cons]
  | false =>
    have hkeep : (s.addToStatDict word).tmpDict = s.tmpDict ∧
        (s.addToStatDict word).pos = s.pos := by
      unfold TextState.addToStatDict
      split <;> exact ⟨rfl, rfl⟩
    rw [addWord, hbad, if_neg Bool.false_ne_true]
    dsimp only
    rw [hkeep.1, hkeep.2]
    refine ⟨rfl, hnext, fun hok => hok.pushPos _ _, fun hp t => ?_⟩
    dsimp only
    rw [lookUpPos_pushPos, hp]
    by_cases ht : murmurHash2 word = t <;> simp [isToken, hbad, List.findIdxs_cons, ht]

theorem addWords_collected (s : TextState) (words : List Bytes) (base : Nat) :
    (addWords s words).1 = UInt16.ofNat words.length ∧
      Collected base words s (addWords s words).2 := by
  have hfold : ∀ (words : List Bytes) (cnt : UInt16) (s : TextState) (base : Nat),
      let c := words.foldl (fun c word => addWord c.1 c.2 word) (cnt, s)
      c.1 = cnt + UInt16.ofNat words.length ∧ Collected base words s c.2 := by
    intro words
    induction words with
    | nil => exact fun cnt s base => ⟨by simp, .nil base s⟩
    | cons word words ih =>
      intro cnt s base
      obtain ⟨hcnt, hword⟩ := addWord_collected cnt s word base
      obtain ⟨hcnt', hwords⟩ := ih (addWord cnt s word).1 (addWord cnt s word).2 (base + 1)
      refine ⟨?_, hword.trans hwords⟩
      rw [List.foldl_cons]
      refine hcnt'.trans ?_
      rw [hcnt, List.length_cons, UInt16.add_assoc, Nat.add_comm, UInt16.ofNat_add]
      rfl
  have h := hfold words 0 s base
  rw [UInt16.zero_add] at h
  exact h

/-- **All zones.** The counts are those of the zones, and the dictionary collects the words of
all zones as one sequence. -/
theorem addZones_collected (zones : List (List Bytes)) : ∀ (s : TextState) (base : Nat),
    (addZones s zones).1 = zones.map (fun words => UInt16.ofNat words.length) ∧
      Collected base zones.flatten s (addZones s zones).2 := by
  induction zones with
  | nil => exact fun s base => ⟨rfl, .nil base s⟩
  | cons words zones ih =>
    intro s base
    obtain ⟨hcnt, hwords⟩ := addWords_collected s words base
    obtain ⟨hcnts, hzones⟩ := ih (addWords s words).2 (base + words.length)
    exact ⟨by simp only [addZones, hcnt, hcnts, List.map_cons], hwords.trans hzones⟩

end Amigos.Indexer
