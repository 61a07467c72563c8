import Amigos.Lib.Loop
import Amigos.Lib.Outcome
import Amigos.Lib.Bytes
import Amigos.Lib.Utf8
import Amigos.Lib.Decimal
import Amigos.Lib.Sorting
import Amigos.Lib.Steps
import Amigos.Lib.Flow
import Amigos.Lib.Regex
import Amigos.Lib.Scan
import Amigos.Lib.Windows
import Amigos.Lib.Delimited
import Amigos.Lib.Escape
import Amigos.Common.Words
import Amigos.Common.Bigrams
import Amigos.Common.Porter2Stemmer
import Amigos.Common.Normalizer
import Amigos.Contrib.TinyXml2
import Amigos.Contrib.Elements
import Amigos.Contrib.Values
import Amigos.Index.Struct
import Amigos.Index.DocDatabase
import Amigos.Index.Format
import Amigos.Index.Storage
import Amigos.Index.Phrases
import Amigos.Index.Intersect
import Amigos.Index.InvertIndex
import Amigos.Index.FindToken
import Amigos.Index.ZonesTf
import Amigos.Index.Configure
import Amigos.Indexer.Merge
import Amigos.Indexer.MergeOrder
import Amigos.Indexer.Stores
import Amigos.Indexer.Zones
import Amigos.Indexer.Text
import Amigos.Indexer.Split
import Amigos.Indexer.Run
import Amigos.Indexer.Recorded
import Amigos.Indexer.Counters
import Amigos.Indexer.TermFrequency
import Amigos.Indexer.ReadBack
import Amigos.Indexer.SavedZones
import Amigos.Indexer.FailedItem
import Amigos.Indexer.History
import Amigos.Indexer.Flushed
import Amigos.Indexer.Sessions
import Amigos.Indexer.Collection
import Amigos.Spider.UIdsStorage
import Amigos.Spider.FlushFails
import Amigos.Spider.Text
import Amigos.Spider.Tags
import Amigos.Spider.Related
import Amigos.Spider.Section
import Amigos.Spider.Parser
import Amigos.Spider.ExtractInfo
import Amigos.Spider.Converter
import Amigos.Spider.System
import Amigos.Spider.Workers
import Amigos.Spider.Frames
import Amigos.Spider.Tasks
import Amigos.Spider.Once
import Amigos.Spider.Saved
import Amigos.Spider.Reload
import Amigos.Spider.Terminate
import Amigos.Ranker
import Amigos.Ranker.Draft
import Amigos.Ranker.Windows
import Amigos.Ranker.Positions
import Amigos.Ranker.DocRank
import Amigos.Searcher
import Amigos.Searcher.Selections
import Amigos.Searcher.Sweep
import Amigos.Searcher.Snippets
import Amigos.Searcher.Outcomes
import Amigos.Searcher.Indexed
import Amigos.Launcher
import Amigos.Launcher.Indexed
import Amigos.Listener.Format
import Amigos.Listener.Query
import Amigos.Spider.Records
import Amigos.Spider.Subs
import Amigos.Spider.LostSubs
import Amigos.Listener.Answer
import Amigos.Indexer.Database
import Amigos.Listener.Indexed
import Amigos.Indexer.RawFile
import Amigos.Spider.RawData
import Amigos.Launcher.Videos
import Amigos.Lib.Numbering
import Amigos.Spider.Page
