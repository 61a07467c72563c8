import Amigos.Index.Struct

/-!
# The index file (`index_io.hpp`)

An index file is a sequence of items, each a token and its entry list, and a trailing item
count. Every count is stored in a field narrower than a length: 8 bits for the posting sizes of
an entry, 32 for the entries of an item and for the items of the file. `Fits` says that they are
not cut off; it is what `readEntries` needs to undo `writeEntries` (`decodes_readEntries`).

The writers append to what is already written, so each has an equation `write… ofs x = ofs ++ …`
with the bytes on the right, and no proof looks into a writer again.
-/

set_option autoImplicit false

namespace Amigos.Index

open Amigos.Lib

/-! ## Writers and readers -/

def writePostingInfo (ofs : Bytes) (postingInfo : PostingInfo) : Bytes :=
  let ofs := writeTo ofs (UInt8.ofNat postingInfo.postingSizes.length)
  let ofs := ofs ++ postingInfo.postingSizes.flatMap podBytes
  let ofs := writeTo ofs postingInfo.inZone
  writeTo ofs postingInfo.postingOffset

def readPostingInfo (ifs : IStream) : Option (PostingInfo × IStream) := do
  let (size, ifs) ← readFrom ifs (α := UInt8)
  let (postingSizes, ifs) ← readMany size.toNat ifs
  let (inZone, ifs) ← readFrom ifs
  let (postingOffset, ifs) ← readFrom ifs
  return ({ inZone, postingOffset, postingSizes }, ifs)

def writeEntries (ofs : Bytes) (entries : List Entry) : Bytes :=
  entries.foldl
    (fun ofs entry => writeTo (writePostingInfo ofs entry.postingInfo) entry.docIdOffset)
    (writeTo ofs (UInt32.ofNat entries.length))

/-- The loop of `readEntries` over the new positions of the vector. -/
def readEntriesLoop : Nat → IStream → Option (List Entry × IStream)
  | 0, ifs => some ([], ifs)
  | n + 1, ifs => do
    let (postingInfo, ifs) ← readPostingInfo ifs
    let (docIdOffset, ifs) ← readFrom ifs
    let (entries, ifs) ← readEntriesLoop n ifs
    return ({ docIdOffset, postingInfo } :: entries, ifs)

/-- `readEntries` appends. Both sizes are `uint32_t`: the vector is cut to the sum modulo 2^32,
and the positions from `curSize` on are overwritten. -/
def readEntries (ifs : IStream) (entries : List Entry) : Option (List Entry × IStream) := do
  let curSize := UInt32.ofNat entries.length
  let (size, ifs) ← readFrom ifs (α := UInt32)
  let entries := resize (curSize + size).toNat default entries
  let (new, ifs) ← readEntriesLoop ((curSize + size).toNat - curSize.toNat) ifs
  return (entries.take curSize.toNat ++ new, ifs)

/-- `readFromEnd` reads the trailer and puts the position back. -/
def readFromEnd (ifs : IStream) : Option (UInt32 × IStream) := do
  let curPos := ifs.pos
  if ifs.data.length < 4 then none else
  let (res, ifs) ← readFrom (ifs.seek (ifs.data.length - 4))
  return (res, ifs.seek curPos)

/-- What one `writeIdxItem` call is given. -/
structure IdxItem where
  token : UInt32
  entries : List Entry
  deriving DecidableEq, Repr

def writeIdxItem (ofs : Bytes) (token : UInt32) (entries : List Entry) : Bytes :=
  writeEntries (writeTo ofs token) entries

/-! ## The bytes that are written -/

def postingInfoBytes (p : PostingInfo) : Bytes :=
  podBytes (UInt8.ofNat p.postingSizes.length) ++ (p.postingSizes.flatMap podBytes ++
    (podBytes p.inZone ++ podBytes p.postingOffset))

def entryBytes (e : Entry) : Bytes := postingInfoBytes e.postingInfo ++ podBytes e.docIdOffset

def entriesBytes (es : List Entry) : Bytes :=
  podBytes (UInt32.ofNat es.length) ++ es.flatMap entryBytes

def IdxItem.bytes (it : IdxItem) : Bytes := podBytes it.token ++ entriesBytes it.entries

/-- The whole file: the items, and their number. -/
def indexBytes (items : List IdxItem) : Bytes :=
  items.flatMap IdxItem.bytes ++ podBytes (UInt32.ofNat items.length)

theorem writePostingInfo_eq (ofs : Bytes) (p : PostingInfo) :
    writePostingInfo ofs p = ofs ++ postingInfoBytes p := by
  simp [writePostingInfo, postingInfoBytes, writeTo]

theorem writeEntries_eq (ofs : Bytes) (es : List Entry) :
    writeEntries ofs es = ofs ++ entriesBytes es := by
  have hfold : ∀ (es : List Entry) (ofs : Bytes),
      es.foldl (fun ofs e => writeTo (writePostingInfo ofs e.postingInfo) e.docIdOffset) ofs
        = ofs ++ es.flatMap entryBytes := by
    intro es
    induction es with
    | nil => simp
    | cons e es ih =>
      intro ofs
      rw [List.foldl_cons, ih, List.flatMap_cons, writePostingInfo_eq, writeTo, entryBytes]
      simp
  rw [writeEntries, hfold, entriesBytes, writeTo, List.append_assoc]

theorem writeIdxItem_eq (ofs : Bytes) (it : IdxItem) :
    writeIdxItem ofs it.token it.entries = ofs ++ it.bytes := by
  simp [writeIdxItem, writeEntries_eq, writeTo, IdxItem.bytes]

/-! ## Counts that fit their fields -/

/-- The number of posting sizes fits its 8-bit field. -/
def Entry.Fits (e : Entry) : Prop := e.postingInfo.postingSizes.length < 2 ^ 8

/-- The number of entries fits its 32-bit field. -/
structure IdxItem.Fits (it : IdxItem) : Prop where
  count : it.entries.length < 2 ^ 32
  entries : ∀ e ∈ it.entries, e.Fits

instance (e : Entry) : Decidable e.Fits := by unfold Entry.Fits; infer_instance

instance (it : IdxItem) : Decidable it.Fits :=
  decidable_of_iff (it.entries.length < 2 ^ 32 ∧ ∀ e ∈ it.entries, e.Fits)
    ⟨fun h => ⟨h.1, h.2⟩, fun h => ⟨h.1, h.2⟩⟩

/-! ## Reading back -/

theorem decodes_readPostingInfo {p : PostingInfo} (h : p.postingSizes.length < 2 ^ 8) :
    Decodes readPostingInfo (postingInfoBytes p) p := by
  have hsize : (UInt8.ofNat p.postingSizes.length).toNat = p.postingSizes.length := by
    rw [UInt8.toNat_ofNat', Nat.mod_eq_of_lt h]
  have hmany : Decodes (readMany (UInt8.ofNat p.postingSizes.length).toNat)
      (p.postingSizes.flatMap podBytes) p.postingSizes := by
    rw [hsize]; exact decodes_readMany _
  refine (decodes_readFrom _).bind (hmany.bind ((decodes_readFrom _).bind ?_))
  exact (decodes_readFrom p.postingOffset).map fun _ => rfl

theorem decodes_readEntriesLoop (es : List Entry) (h : ∀ e ∈ es, e.Fits) :
    Decodes (readEntriesLoop es.length) (es.flatMap entryBytes) es := by
  induction es with
  | nil => exact Decodes.pure []
  | cons e es ih =>
    have hrest := ih fun x hx => h x (List.mem_cons_of_mem _ hx)
    rw [List.flatMap_cons, entryBytes, List.append_assoc]
    refine (decodes_readPostingInfo (h e List.mem_cons_self)).bind ?_
    exact (decodes_readFrom e.docIdOffset).bind (hrest.map fun _ => rfl)

/-- **`readEntries` undoes `writeEntries`**, behind the entries the vector already has, as long
as the 32-bit sum of the two sizes does not wrap. -/
theorem decodes_readEntries (acc es : List Entry) (h : ∀ e ∈ es, e.Fits)
    (hlen : acc.length + es.length < 2 ^ 32) :
    Decodes (readEntries · acc) (entriesBytes es) (acc ++ es) := by
  have hes : (UInt32.ofNat es.length).toNat = es.length := by
    rw [UInt32.toNat_ofNat', Nat.mod_eq_of_lt (by omega)]
  have hacc : (UInt32.ofNat acc.length).toNat = acc.length := by
    rw [UInt32.toNat_ofNat', Nat.mod_eq_of_lt (by omega)]
  have hsum : (UInt32.ofNat acc.length + UInt32.ofNat es.length).toNat
      = acc.length + es.length := by
    rw [UInt32.toNat_add, hacc, hes, Nat.mod_eq_of_lt hlen]
  have hloop : Decodes (readEntriesLoop ((UInt32.ofNat acc.length
      + UInt32.ofNat es.length).toNat - (UInt32.ofNat acc.length).toNat))
      (es.flatMap entryBytes) es := by
    rw [hsum, hacc, Nat.add_sub_cancel_left]
    exact decodes_readEntriesLoop es h
  refine (decodes_readFrom _).bind (hloop.map fun s => ?_)
  have hresize : resize (acc.length + es.length) default acc
      = acc ++ List.replicate es.length default := by
    rw [resize, List.take_of_length_le (by omega), Nat.add_sub_cancel_left]
  simp only [hsum, hacc, hresize, List.take_left']

/-- Reading the entries of one item into an empty vector. -/
theorem decodes_readEntries_nil {it : IdxItem} (h : it.Fits) :
    Decodes (readEntries · []) (entriesBytes it.entries) it.entries :=
  decodes_readEntries [] it.entries h.entries (by simpa using h.count)

/-- The trailer, wherever the stream stands. -/
theorem readFromEnd_of_data {s : IStream} {body : Bytes} {n : UInt32}
    (h : s.data = body ++ podBytes n) : readFromEnd s = some (n, s) := by
  have hlen : s.data.length = body.length + 4 := by simp [h]
  have hpos : s.data.length - 4 = body.length := by omega
  have hread := decodes_readFrom n (s.seek body.length) []
    (by rw [List.append_nil]; exact IStream.unread_seek_of_data h)
  have hback : (s.seek body.length).seek s.pos = s := rfl
  simp only [readFromEnd, if_neg (show ¬ s.data.length < 4 by omega), hpos, hread,
    Option.bind_eq_bind, Option.bind_some, IStream.seek_seek, Option.pure_def]
  rfl

theorem readFromEnd_indexBytes (items : List IdxItem) :
    readFromEnd ⟨indexBytes items, 0⟩ = some (UInt32.ofNat items.length, ⟨indexBytes items, 0⟩) :=
  readFromEnd_of_data rfl

/-! ## Whatever is read fits -/

theorem fits_of_readEntriesLoop {n : Nat} {s s' : IStream} {es : List Entry}
    (h : readEntriesLoop n s = some (es, s')) : es.length = n ∧ ∀ e ∈ es, e.Fits := by
  induction n generalizing s s' es with
  | zero =>
    simp only [readEntriesLoop, Option.some.injEq, Prod.mk.injEq] at h
    rw [← h.1]
    exact ⟨rfl, fun e he => absurd he List.not_mem_nil⟩
  | succ n ih =>
    simp only [readEntriesLoop, readPostingInfo, Option.bind_eq_bind, Option.bind_eq_some_iff,
      Option.pure_def, Option.some.injEq, Prod.mk.injEq] at h
    obtain ⟨⟨p, s₁⟩, ⟨⟨size, s₂⟩, -, ⟨sizes, s₃⟩, hmany, ⟨inZone, s₄⟩, -, ⟨ofs, s₅⟩, -, rfl, -⟩,
      ⟨doc, s₆⟩, -, ⟨rest, s₇⟩, hrest, rfl, -⟩ := h
    obtain ⟨hlen, hfits⟩ := ih hrest
    refine ⟨by rw [List.length_cons, hlen], fun e he => ?_⟩
    rcases List.mem_cons.mp he with rfl | he
    · have hsizes : sizes.length < 2 ^ 8 := by rw [length_of_readMany hmany]; exact size.toNat_lt
      exact hsizes
    · exact hfits e he

/-- A vector that has been filled by `readEntries` is one that an item can have: the counts were
read from the fields they have to fit. -/
theorem fits_of_readEntries {s s' : IStream} {acc es : List Entry} (hacc : ∀ e ∈ acc, e.Fits)
    (h : readEntries s acc = some (es, s')) : es.length < 2 ^ 32 ∧ ∀ e ∈ es, e.Fits := by
  simp only [readEntries, Option.bind_eq_bind, Option.bind_eq_some_iff, Option.pure_def,
    Option.some.injEq, Prod.mk.injEq] at h
  obtain ⟨⟨size, s₁⟩, -, ⟨new, s₂⟩, hloop, rfl, -⟩ := h
  obtain ⟨hlen, hnew⟩ := fits_of_readEntriesLoop hloop
  have hsum := (UInt32.ofNat acc.length + size).toNat_lt
  refine ⟨?_, fun e he => ?_⟩
  · simp only [List.length_append, List.length_take, resize, List.length_replicate, hlen]
    omega
  · rcases List.mem_append.mp he with he | he
    · rcases List.mem_append.mp (List.mem_of_mem_take he) with he | he
      · exact hacc e (List.mem_of_mem_take he)
      · have hdefault : (default : Entry).Fits := by decide
        exact (List.eq_of_mem_replicate he) ▸ hdefault
    · exact hnew e he

/-! ## The bytes determine the items -/

theorem IdxItem.bytes_ne_nil (it : IdxItem) : it.bytes ≠ [] := by
  intro h
  have hlen := congrArg List.length h
  simp [IdxItem.bytes] at hlen

/-- One item, read as the two calls of the merge read it. -/
theorem IdxItem.bytes_unique {it it' : IdxItem} {rest rest' : Bytes} (h : it.Fits)
    (h' : it'.Fits) (heq : it.bytes ++ rest = it'.bytes ++ rest') : it = it' ∧ rest = rest' := by
  obtain ⟨token, entries⟩ := it
  obtain ⟨token', entries'⟩ := it'
  simp only [IdxItem.bytes, List.append_assoc] at heq
  obtain ⟨rfl, hrest⟩ := (decodes_readFrom token).unique (decodes_readFrom token') heq
  obtain ⟨rfl, htail⟩ := (decodes_readEntries_nil h).unique (decodes_readEntries_nil h') hrest
  exact ⟨rfl, htail⟩

theorem flatMap_bytes_injective : ∀ {items items' : List IdxItem}, (∀ it ∈ items, it.Fits) →
    (∀ it ∈ items', it.Fits) → items.flatMap IdxItem.bytes = items'.flatMap IdxItem.bytes →
    items = items'
  | [], [], _, _, _ => rfl
  | [], it :: _, _, _, h => by simp [IdxItem.bytes_ne_nil it] at h
  | it :: _, [], _, _, h => by simp [IdxItem.bytes_ne_nil it] at h
  | it :: items, it' :: items', hf, hf', h => by
    rw [List.flatMap_cons, List.flatMap_cons] at h
    obtain ⟨rfl, hrest⟩ := IdxItem.bytes_unique (hf it List.mem_cons_self)
      (hf' it' List.mem_cons_self) h
    rw [flatMap_bytes_injective (fun x hx => hf x (List.mem_cons_of_mem _ hx))
      (fun x hx => hf' x (List.mem_cons_of_mem _ hx)) hrest]

/-- **An index file says what is in it.** The trailer plays no part: where an item ends is
decided by its own counts. -/
theorem indexBytes_injective {items items' : List IdxItem} (hf : ∀ it ∈ items, it.Fits)
    (hf' : ∀ it ∈ items', it.Fits) (h : indexBytes items = indexBytes items') :
    items = items' :=
  flatMap_bytes_injective hf hf' (List.append_inj_left' h (by simp))

end Amigos.Index
