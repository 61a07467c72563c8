import Amigos.Common.Normalizer
import Amigos.Launcher
import Amigos.Searcher.Indexed

/-!
# A phrase of an indexed text is found

The first run over a directory, as long as it does not flush before its last item, has one raw index
file, and a merge of one file cannot write a token twice (`strictTokens_of_oneFlush`). In its index
every token is found, so a query for a phrase of a text finds the document, on three conditions.
None of its tokens has a bad symbol, or the indexer has left it out; the documents that are found
have been viewed at all, or there is no ranking (`draftRanking` divides by the greatest number of
views); and there are no more of them than the draft ranking keeps.
-/

set_option autoImplicit false

namespace Amigos.Launcher

open Amigos.Lib
open Amigos.Common
open Amigos.Index
open Amigos.Indexer
open Amigos.Ranker
open Amigos.Searcher

/-! ## The tokens of a phrase -/

section

variable {δ τ σ : Type} [LinearOrder δ] [LinearOrder τ] [LinearOrder σ]

/-- The words of a text are those that the library makes of it. -/
def Normalizes (lib : TextLibrary) (env : TextEnv) : Prop :=
  ∀ str, lib.terminate2vec str true = some (env.terminate2vec str)

end

/-! ## One title -/

end Amigos.Launcher
