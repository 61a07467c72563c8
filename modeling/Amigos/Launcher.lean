import Amigos.Indexer.Recorded
import Amigos.Searcher

/-!
# From a query to its tokens (`Launcher::launch_searcher`)

A query goes through the words and the bigrams that the text of a document went through. A phrase
out of a text gives bigrams of the text (`bigram2vec_infix`): where it is cut off, some are
missing, and none is another. But the indexer leaves out tokens with bad symbols
(`hasBadSymbols`) and the launcher does not. `looksUpRecorded_iff` says when this matters, which
is nearly always: bytes that are not ASCII are bad symbols, so a document is not found by any
word that has one.
-/

set_option autoImplicit false

namespace Amigos.Launcher

open Amigos.Lib
open Amigos.Common
open Amigos.Index
open Amigos.Indexer
open Amigos.Ranker
open Amigos.Searcher

/-! ## The source -/

/-- `MAX_TOKEN_CNT`. -/
def maxTokenCnt : Nat := 10

/-- The tokens that `launch_searcher` makes of a query. -/
def queryTokens (env : TextEnv) (query : Bytes) : Option (List Bytes) :=
  let normWords := env.terminate2vec query
  let normWords :=
    if normWords.length > maxTokenCnt then normWords.take maxTokenCnt else normWords
  bigram2vec env.codec env.stopwords normWords

def launchSearcher {δ τ σ : Type} [LinearOrder δ] [LinearOrder τ] [LinearOrder σ] (fuel : Nat)
    (S : StdSort) (r : Ranks δ τ σ) (index : InvertIndex) (env : TextEnv) (query : Bytes)
    (docsId : List UInt32) : Option (List UInt32 × InvertIndex) := do
  let tokens ← queryTokens env query
  search fuel S r index tokens docsId

/-! ## A phrase out of a text -/

/-- **Every token that the query is looked up by is one that the text has recorded** an entry for,
of its document. -/
def LooksUpRecorded (env : TextEnv) (query : Bytes) (recorded : List (UInt32 × Entry))
    (docIdOffset : UInt32) : Prop :=
  ∃ tokens, queryTokens env query = some tokens ∧
    ∀ token ∈ tokens, ∃ e, (murmurHash2 token, e) ∈ recorded ∧ e.docIdOffset = docIdOffset

/-- No token of the query has bad symbols, unless a token of the text that has none happens to
have its hash. -/
def NoBadTokens (env : TextEnv) (texts : List Bytes) (query : Bytes) : Prop :=
  ∀ tokens, env.bterms query = some tokens → ∀ token ∈ tokens, hasBadSymbols token = true →
    ∃ text ∈ texts, ∃ words, env.bterms text = some words ∧
      ∃ word ∈ words, hasBadSymbols word = false ∧ murmurHash2 word = murmurHash2 token

/-- A short query is not cut. -/
theorem queryTokens_eq {env : TextEnv} {query : Bytes}
    (hlen : (env.terminate2vec query).length ≤ maxTokenCnt) :
    queryTokens env query = env.bterms query := by
  rw [queryTokens, if_neg (Nat.not_lt.mpr hlen)]
  rfl

section

variable {env : TextEnv} {ix ix' : Indexer} {texts : List Bytes} {wordsCnt : List UInt16}
  {recorded : List (UInt32 × Entry)}

/-- **A phrase out of a text** of at most ten words: it is looked up by tokens that the text has
recorded exactly if it has none with bad symbols. -/
theorem looksUpRecorded_iff (hadd : ix.addText env texts = some (wordsCnt, recorded, ix'))
    {text query : Bytes} (htext : text ∈ texts)
    (hphrase : env.terminate2vec query <:+: env.terminate2vec text)
    (hlen : (env.terminate2vec query).length ≤ maxTokenCnt) :
    LooksUpRecorded env query recorded (UInt32.ofNat (DynDocStorage.size ix.docStore)) ↔
      NoBadTokens env texts query := by
  obtain ⟨zones, dict, hadds⟩ := addText_eq_some hadd
  obtain ⟨words, hwords⟩ : ∃ words, env.bterms text = some words :=
    defined_of_mapM hadds.words htext
  obtain ⟨tokens, htokens, hsub⟩ : ∃ tokens, env.bterms query = some tokens ∧ tokens ⊆ words :=
    bigram2vec_infix hphrase hwords
  rw [LooksUpRecorded, queryTokens_eq hlen, NoBadTokens, htokens]
  simp only [Option.some.injEq, exists_eq_left', forall_eq', hadds.recorded_iff, hadds.mem_words]
  constructor
  · intro h token htoken _
    obtain ⟨word, ⟨text', htext', words', hwords', hword⟩, hgood, hhash⟩ := h token htoken
    exact ⟨text', htext', words', hwords', word, hword, hgood, hhash⟩
  · intro h token htoken
    cases hbad : hasBadSymbols token with
    | false => exact ⟨token, ⟨text, htext, words, hwords, hsub htoken⟩, hbad, rfl⟩
    | true =>
      obtain ⟨text', htext', words', hwords', word, hword, hgood, hhash⟩ := h token htoken hbad
      exact ⟨word, ⟨text', htext', words', hwords', hword⟩, hgood, hhash⟩

/-- **The document is a candidate**: in an index that has what the text has recorded, the query is
searched for by tokens that all occur, and the document has every one of them. -/
theorem LooksUpRecorded.candidate {δ τ σ : Type} [LinearOrder δ] [LinearOrder τ] [LinearOrder σ]
    {li : LoadedIndex} {query : Bytes} {d : UInt32} (h : LooksUpRecorded env query recorded d)
    (hne : queryTokens env query ≠ some [])
    (hli : ∀ word e, (murmurHash2 word, e) ∈ recorded → e ∈ li.entriesOf word) :
    ∃ tokens, (∀ fuel S (r : Ranks δ τ σ) docsId,
        launchSearcher fuel S r li.index env query docsId
          = search fuel S r li.index tokens docsId) ∧
      (∀ token ∈ tokens, li.Occurs token) ∧ li.Contains tokens d := by
  obtain ⟨tokens, htokens, hrecorded⟩ := h
  have hentries : ∀ token ∈ tokens, ∃ e ∈ li.entriesOf token, e.docIdOffset = d := by
    intro token htoken
    obtain ⟨e, hmem, hoffset⟩ := hrecorded token htoken
    exact ⟨e, hli token e hmem, hoffset⟩
  have hsome : tokens ≠ [] := fun hnil => hne (htokens.trans (congrArg some hnil))
  refine ⟨tokens, fun fuel S r docsId => ?_, fun token htoken => ?_, ?_⟩
  · rw [launchSearcher, htokens]
    rfl
  · obtain ⟨e, he, -⟩ := hentries token htoken
    exact li.occurs_of_mem_entriesOf he
  · apply (li.contains_iff hsome d).mpr
    intro l hl
    obtain ⟨token, htoken, rfl⟩ := List.mem_map.mp hl
    exact hentries token htoken

end

/-! ## A title of one letter -/

/-- The bytes of a Latin and of a Cyrillic one. -/
def latinX : Bytes := [120]
def cyrillicYa : Bytes := [209, 143]

/-- The word `я` as the title and as the query: it is looked up, and nothing is recorded for it.
It is one word, in lower case, and the stemmer returns a word of two bytes as it is. -/
theorem not_looksUpRecorded_cyrillicYa :
    ¬ ∀ (env : TextEnv) (ix : Indexer) (texts : List Bytes) (wordsCnt : List UInt16)
      (recorded : List (UInt32 × Entry)) (ix' : Indexer),
      ix.addText env texts = some (wordsCnt, recorded, ix') →
      ∀ text ∈ texts, ∀ query : Bytes, env.terminate2vec query <:+: env.terminate2vec text →
        (env.terminate2vec query).length ≤ maxTokenCnt →
        LooksUpRecorded env query recorded (UInt32.ofNat (DynDocStorage.size ix.docStore)) := by
  intro hclaim
  have heval : ((empty titleConfig).addText Env.oneWord.toTextEnv [cyrillicYa]).map
      (fun r => (r.1, r.2.1)) = some ([1], []) := by decide +kernel
  obtain ⟨⟨wordsCnt, recorded, ix'⟩, hadd, hrecorded⟩ := Option.map_eq_some_iff.mp heval
  cases hrecorded
  obtain ⟨tokens, htokens, h⟩ := hclaim Env.oneWord.toTextEnv (empty titleConfig) [cyrillicYa] [1]
    [] ix' hadd cyrillicYa List.mem_cons_self cyrillicYa List.infix_rfl (by decide)
  have hlooked : queryTokens Env.oneWord.toTextEnv cyrillicYa = some [cyrillicYa] := by
    decide +kernel
  rw [hlooked, Option.some.injEq] at htokens
  obtain ⟨e, hmem, -⟩ := h cyrillicYa (htokens ▸ List.mem_cons_self)
  exact absurd hmem List.not_mem_nil

/-- The word `x` as the title and as the query. -/
theorem looksUpRecorded_iff_latinX : ∃ wordsCnt recorded ix',
    (empty titleConfig).addText Env.oneWord.toTextEnv [latinX] = some (wordsCnt, recorded, ix') ∧
    (LooksUpRecorded Env.oneWord.toTextEnv latinX recorded 0 ↔
      NoBadTokens Env.oneWord.toTextEnv [latinX] latinX) := by
  have heval : ((empty titleConfig).addText Env.oneWord.toTextEnv [latinX]).isSome = true := by
    decide +kernel
  obtain ⟨⟨wordsCnt, recorded, ix'⟩, hadd⟩ := Option.isSome_iff_exists.mp heval
  exact ⟨wordsCnt, recorded, ix', hadd,
    looksUpRecorded_iff hadd List.mem_cons_self List.infix_rfl (by decide)⟩

end Amigos.Launcher
