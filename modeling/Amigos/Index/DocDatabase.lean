import Amigos.Index.Struct
import Amigos.Lib.Decimal

/-!
# The database of documents (`index_struct.cpp`)

A document is kept under the decimal text of its id, as four strings with their lengths in front.
LevelDB is a map from keys to values. A number has one text, so two ids never share a key, and
four length-prefixed strings decode in the order in which they were written, whatever their bytes
are: what is read under an id is the document last put there.
-/

set_option autoImplicit false

namespace Amigos.Index

open Amigos.Lib

/-! ## Strings in a stream -/

/-- The length is cast to 32 bits. -/
def writeStr (os : Bytes) (str : Bytes) : Bytes :=
  writeTo os (UInt32.ofNat str.length) ++ str

/-- A stream that ends early leaves the string indeterminate. -/
def readStr (is : IStream) : Option (Bytes × IStream) :=
  (readFrom is : Option (UInt32 × IStream)).bind fun (size, is) => is.read size.toNat

/-- What `writeStr` writes. -/
def strBytes (str : Bytes) : Bytes := podBytes (UInt32.ofNat str.length) ++ str

theorem writeStr_eq (os str : Bytes) : writeStr os str = os ++ strBytes str := by
  unfold writeStr writeTo strBytes
  rw [List.append_assoc]

/-- **A string is read back**, if its length has 32 bits. -/
theorem decodes_readStr {str : Bytes} (h : str.length < 2 ^ 32) :
    Decodes readStr (strBytes str) str := by
  have hsize : (UInt32.ofNat str.length).toNat = str.length := by
    rw [UInt32.toNat_ofNat', Nat.mod_eq_of_lt h]
  apply Decodes.bind (decodes_readFrom (UInt32.ofNat str.length))
  simp only [hsize]
  exact decodes_read str

/-! ## The database -/

/-- What LevelDB holds. -/
abbrev DocDatabase := Bytes → Option Bytes

/-- A database that has just been created. -/
def DocDatabase.empty : DocDatabase := fun _ => none

/-- The value of a document. -/
def docBytes (doc : RawDoc) : Bytes :=
  let oss := writeStr [] doc.videoId
  let oss := writeStr oss doc.title
  let oss := writeStr oss doc.subtitles
  writeStr oss doc.time

/-- `putDoc`; the status of `Put` is not looked at. -/
def DocDatabase.putDoc (db : DocDatabase) (key : UInt32) (doc : RawDoc) : DocDatabase :=
  Function.update db (decimal key.toNat) (some (docBytes doc))

/-- `getDoc`: its answer, and what `res` is then. -/
def DocDatabase.getDoc (db : DocDatabase) (key : UInt32) (res : RawDoc) : Option (Bool × RawDoc) :=
  match db (decimal key.toNat) with
  | none => some (false, res)
  | some value => do
    let iss := IStream.mk value 0
    let (videoId, iss) ← readStr iss
    let (title, iss) ← readStr iss
    let (subtitles, iss) ← readStr iss
    let (time, _) ← readStr iss
    return (true, { res with videoId, title, subtitles, time })

/-- Calls of `putDoc`, one after the other. -/
def DocDatabase.putDocs (db : DocDatabase) (calls : List (UInt32 × RawDoc)) : DocDatabase :=
  calls.foldl (fun db call => db.putDoc call.1 call.2) db

/-- The document that was put last under a key. -/
def lastPut (calls : List (UInt32 × RawDoc)) (key : UInt32) : Option RawDoc :=
  (calls.reverse.find? fun call => call.1 == key).map Prod.snd

/-- Each string of the document has a length of 32 bits. -/
structure RawDoc.Fits (doc : RawDoc) : Prop where
  videoId : doc.videoId.length < 2 ^ 32
  title : doc.title.length < 2 ^ 32
  subtitles : doc.subtitles.length < 2 ^ 32
  time : doc.time.length < 2 ^ 32

theorem docBytes_eq (doc : RawDoc) : docBytes doc =
    strBytes doc.videoId ++ (strBytes doc.title ++ (strBytes doc.subtitles
      ++ (strBytes doc.time ++ []))) := by
  simp only [docBytes, writeStr_eq, List.nil_append, List.append_nil, List.append_assoc]

/-- The key of a document is that of no other one. -/
theorem key_injective {k k' : UInt32} (h : decimal k.toNat = decimal k'.toNat) : k = k' :=
  UInt32.toNat_inj.mp (decimal_injective h)

/-- **A document is read back from the database it was put into.** -/
theorem getDoc_putDoc (db : DocDatabase) (key : UInt32) {doc : RawDoc} (h : doc.Fits)
    (res : RawDoc) : (db.putDoc key doc).getDoc key res = some (true, doc) := by
  unfold DocDatabase.getDoc DocDatabase.putDoc
  rw [Function.update_self]
  simp only
  obtain ⟨iss₁, hread₁, hrest₁⟩ := (decodes_readStr h.videoId).run
    (s := IStream.mk (docBytes doc) 0) ((IStream.unread_mk _).trans (docBytes_eq doc))
  obtain ⟨iss₂, hread₂, hrest₂⟩ := (decodes_readStr h.title).run hrest₁
  obtain ⟨iss₃, hread₃, hrest₃⟩ := (decodes_readStr h.subtitles).run hrest₂
  obtain ⟨iss₄, hread₄, -⟩ := (decodes_readStr h.time).run hrest₃
  simp only [hread₁, hread₂, hread₃, hread₄, Option.bind_eq_bind, Option.bind_some,
    Option.pure_def]

/-- **Another key is not touched.** -/
theorem getDoc_putDoc_of_ne (db : DocDatabase) {key key' : UInt32} (h : key ≠ key') (doc : RawDoc)
    (res : RawDoc) : (db.putDoc key doc).getDoc key' res = db.getDoc key' res := by
  have hkey : decimal key'.toNat ≠ decimal key.toNat := fun heq => h (key_injective heq).symm
  unfold DocDatabase.getDoc DocDatabase.putDoc
  rw [Function.update_of_ne hkey]

theorem getDoc_empty (key : UInt32) (res : RawDoc) :
    DocDatabase.empty.getDoc key res = some (false, res) := rfl

/-! ## Any sequence of calls -/

theorem putDocs_snoc (db : DocDatabase) (calls : List (UInt32 × RawDoc))
    (call : UInt32 × RawDoc) :
    db.putDocs (calls ++ [call]) = (db.putDocs calls).putDoc call.1 call.2 := by
  unfold DocDatabase.putDocs
  rw [List.foldl_append, List.foldl_cons, List.foldl_nil]

theorem lastPut_snoc_self (calls : List (UInt32 × RawDoc)) (key : UInt32) (doc : RawDoc) :
    lastPut (calls ++ [(key, doc)]) key = some doc := by
  unfold lastPut
  rw [List.reverse_concat, List.find?_cons_of_pos (by simp)]
  rfl

theorem lastPut_snoc_of_ne (calls : List (UInt32 × RawDoc)) {key key' : UInt32} (h : key ≠ key')
    (doc : RawDoc) : lastPut (calls ++ [(key, doc)]) key' = lastPut calls key' := by
  unfold lastPut
  rw [List.reverse_concat, List.find?_cons_of_neg (by simpa using h)]

/-- What a sequence of calls leaves under a key: the last document put there, or what was there
before. -/
theorem getDoc_putDocs (db : DocDatabase) (key : UInt32) (res : RawDoc)
    (calls : List (UInt32 × RawDoc)) (hfits : ∀ call ∈ calls, call.2.Fits) :
    (db.putDocs calls).getDoc key res =
      (lastPut calls key).elim (db.getDoc key res) fun doc => some (true, doc) := by
  induction calls using List.reverseRecOn with
  | nil => rfl
  | append_singleton calls call ih =>
    obtain ⟨key', doc⟩ := call
    have hdoc : doc.Fits := hfits (key', doc) (List.mem_append_right _ List.mem_cons_self)
    have hcalls : ∀ call ∈ calls, call.2.Fits :=
      fun call hcall => hfits call (List.mem_append_left _ hcall)
    rw [putDocs_snoc]
    by_cases hkey : key' = key
    · subst hkey
      rw [getDoc_putDoc _ _ hdoc, lastPut_snoc_self, Option.elim_some]
    · rw [getDoc_putDoc_of_ne _ hkey, ih hcalls, lastPut_snoc_of_ne _ hkey]

/-- **The database gives what was put last**: after any calls of `putDoc`, `getDoc` answers with
the last document of that key, and with false for a key that was never put; and a further call
for another key changes nothing of it. -/
theorem docDatabase_correct (calls : List (UInt32 × RawDoc)) (hfits : ∀ call ∈ calls, call.2.Fits)
    (key : UInt32) (res : RawDoc) :
    (DocDatabase.empty.putDocs calls).getDoc key res =
        (match lastPut calls key with
        | some doc => some (true, doc)
        | none => some (false, res)) ∧
      (lastPut calls key = none ↔ ∀ call ∈ calls, call.1 ≠ key) ∧
      ∀ key' doc, key' ≠ key →
        ((DocDatabase.empty.putDocs calls).putDoc key' doc).getDoc key res
          = (DocDatabase.empty.putDocs calls).getDoc key res := by
  refine ⟨?_, ?_, fun key' doc hkey => getDoc_putDoc_of_ne _ hkey doc res⟩
  · rw [getDoc_putDocs _ _ _ _ hfits, getDoc_empty]
    cases lastPut calls key <;> rfl
  · unfold lastPut
    rw [Option.map_eq_none_iff, List.find?_eq_none]
    simp only [List.mem_reverse, beq_iff_eq]

/-- Two documents under one key, the second with a title that looks like a length. -/
theorem docDatabase_correct_two :
    (DocDatabase.empty.putDocs
      [(7, { title := [65], videoId := [66], subtitles := [], time := [67, 10] }),
        (7, { title := [1, 0, 0, 0], videoId := [], subtitles := [68], time := [] })]).getDoc 7
        { title := [], videoId := [], subtitles := [], time := [] }
      = some (true, { title := [1, 0, 0, 0], videoId := [], subtitles := [68], time := [] }) :=
  (docDatabase_correct
    [(7, { title := [65], videoId := [66], subtitles := [], time := [67, 10] }),
      (7, { title := [1, 0, 0, 0], videoId := [], subtitles := [68], time := [] })]
    (by
      simp only [List.forall_mem_cons, List.not_mem_nil, false_implies, implies_true, and_true]
      exact ⟨⟨by decide, by decide, by decide, by decide⟩,
        ⟨by decide, by decide, by decide, by decide⟩⟩)
    7 { title := [], videoId := [], subtitles := [], time := [] }).1

end Amigos.Index
