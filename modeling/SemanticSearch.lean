import SemanticSearch.AskPage
import SemanticSearch.EvaluatedServer
import SemanticSearch.SearchPage
import SemanticSearch.ClientSession
import SemanticSearch.LiveSearch
import SemanticSearch.LockedProgress
import SemanticSearch.Delivery
import SemanticSearch.ListenerClose
import SemanticSearch.ServerShutdown
import SemanticSearch.RootCheck
import SemanticSearch.CutBody
import SemanticSearch.KeepAlive
import SemanticSearch.LiveIndex
import SemanticSearch.EmbedRuns
import SemanticSearch.IndexRace
import SemanticSearch.Rebuild
import SemanticSearch.RebuildRace
import SemanticSearch.PoolRuns
import SemanticSearch.CacheRace
import SemanticSearch.QueryRace
import SemanticSearch.FileStore
import SemanticSearch.Decimal
import SemanticSearch.RequestRoundTrip
import SemanticSearch.BodyLength
import SemanticSearch.ResponseFraming
import SemanticSearch.QueryTerms
import SemanticSearch.RrfMerge
import SemanticSearch.HybridRanking
import SemanticSearch.AskAnswer
import SemanticSearch.PostRace
import SemanticSearch.VersionRace
import SemanticSearch.PercentCoding
import SemanticSearch.SearchHits
import SemanticSearch.Utf8
import SemanticSearch.Json
import SemanticSearch.JsonText
import SemanticSearch.EmbedMessages
import SemanticSearch.EmbeddedText
import SemanticSearch.Binary32
import SemanticSearch.FloatText
import SemanticSearch.SearchBody
import SemanticSearch.MaximalRuns
import SemanticSearch.QueryGrammar
import SemanticSearch.QuestionText
import SemanticSearch.StringScan
import SemanticSearch.Reassembly
import SemanticSearch.HeaderSpacing
import SemanticSearch.WriteFailure
import SemanticSearch.ScoreOverflow
import SemanticSearch.FixedText
import SemanticSearch.SearchTsv
import SemanticSearch.Download
import SemanticSearch.RebuildAlone
