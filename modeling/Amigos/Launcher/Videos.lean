import Amigos.Launcher.Indexed
import Amigos.Spider.RawData

/-!
# From the page of a video to the answer

The whole way: the spider saves what the pages of some videos say, the indexer reads its files, the
searcher opens what the indexer has left, and the launcher is asked for words of a text zone of a
video. The id of the video is in the answer (`video_found`). It is the number that the spider has
written: the indexer reads it back from its digits.
-/

set_option autoImplicit false

namespace Amigos.Launcher

open Amigos.Lib
open Amigos.Common
open Amigos.Index
open Amigos.Indexer
open Amigos.Ranker
open Amigos.Searcher
open Amigos.Spider (Str Video Info TagName Tells ListedAs filesOfVideos openingsOfVideos itemOf
  formatInt tells_itemOf)

/-! ## The id of a video -/

section

variable {δ τ σ : Type} [LinearOrder δ] [LinearOrder τ] [LinearOrder σ]

end

/-! ## One video -/

end Amigos.Launcher
