import MathWebSearch.Library.PrefixCode
import MathWebSearch.Library.Fuel
import MathWebSearch.Library.Simulation
import MathWebSearch.Library.BinarySearch
import MathWebSearch.Library.Bytes
import MathWebSearch.Library.PatternWord
import MathWebSearch.Library.EventStream
import MathWebSearch.Library.Pages
import MathWebSearch.Library.OrderedMap
import MathWebSearch.Library.PartialTree
import MathWebSearch.Library.Grouping
import MathWebSearch.Library.InvertedIndex
import MathWebSearch.Library.TextSearch
import MathWebSearch.Library.Xml
import MathWebSearch.Types.EncodedToken
import MathWebSearch.Types.VectorMap
import MathWebSearch.Types.CmmlToken
import MathWebSearch.Types.Parcelable
import MathWebSearch.Types.IdDictionary
import MathWebSearch.Types.Query
import MathWebSearch.Types.Decimal
import MathWebSearch.Types.FiniteMap
import MathWebSearch.Dbc.MemDb
import MathWebSearch.Dbc.LevFormulaDb
import MathWebSearch.Dbc.LevCrawlDb
import MathWebSearch.Index.TmpIndex
import MathWebSearch.Index.TrieContents
import MathWebSearch.Index.InsertedFormulas
import MathWebSearch.Index.IndexIterator
import MathWebSearch.Index.IteratorTrace
import MathWebSearch.Index.AccessorSimulation
import MathWebSearch.Index.Enumeration
import MathWebSearch.Index.ExpressionEncoder
import MathWebSearch.Index.MeaningDictionary
import MathWebSearch.Index.EncoderSpec
import MathWebSearch.Index.EncodingInjective
import MathWebSearch.Index.CiRenaming
import MathWebSearch.Index.IdClasses
import MathWebSearch.Index.EncodedShape
import MathWebSearch.Index.IndexBuilder
import MathWebSearch.Index.HitCounters
import MathWebSearch.Index.Memsector
import MathWebSearch.Index.Inode
import MathWebSearch.Index.LoadSafety
import MathWebSearch.Index.Export
import MathWebSearch.Index.Layout
import MathWebSearch.Index.IndexAccessor
import MathWebSearch.Index.Addressing
import MathWebSearch.Query.SearchContext
import MathWebSearch.Dbc.DbQueryManager
import MathWebSearch.Query.Engine
import MathWebSearch.Query.VariableScan
import MathWebSearch.Query.EngineSpec
import MathWebSearch.Query.EngineHits
import MathWebSearch.Query.EngineRun
import MathWebSearch.Query.EngineBounds
import MathWebSearch.Query.EngineFrame
import MathWebSearch.Query.SearchSimulation
import MathWebSearch.Query.WatchedRuns
import MathWebSearch.Query.SearchSpec
import MathWebSearch.Query.QueryEncoding
import MathWebSearch.Query.SearchTable
import MathWebSearch.Query.SearchExact
import MathWebSearch.Query.ExportedSearch
import MathWebSearch.Query.FormulaSearch
import MathWebSearch.Query.RangeContexts
import MathWebSearch.Xmlparser.TokenCursor
import MathWebSearch.Xmlparser.ProcessMwsHarvest
import MathWebSearch.Xmlparser.HarvestCalls
import MathWebSearch.Xmlparser.HarvestErrors
import MathWebSearch.Index.HarvestLoading
import MathWebSearch.Index.RelatedDatabases
import MathWebSearch.Index.LoadedHarvests
import MathWebSearch.Index.IndexWriter
import MathWebSearch.Index.SizeEstimate
import MathWebSearch.Index.CompleteEncodings
import MathWebSearch.Index.StoredMeanings
import MathWebSearch.Index.IndexedTrees
import MathWebSearch.Index.HoleEncodings
import MathWebSearch.Xmlparser.ReadMwsQuery
import MathWebSearch.Xmlparser.PrintedTokens
import MathWebSearch.Query.RangeBounds
import MathWebSearch.Query.QueryTrees
import MathWebSearch.Query.AnswerPositions
import MathWebSearch.Query.SchemaEngine
import MathWebSearch.Query.SchemaCut
import MathWebSearch.Query.SchemaDecode
import MathWebSearch.Query.Schemata
import MathWebSearch.Query.SchemaHeads
import MathWebSearch.Query.SchemaTrees
import MathWebSearch.Query.SchemaInstances
import MathWebSearch.Query.SchemaGroups
import MathWebSearch.Query.RelativeCutoff
import MathWebSearch.Query.RelativeSchemata
import MathWebSearch.Query.Paging
import MathWebSearch.Daemon.QueryHandlers
import MathWebSearch.Daemon.ServingSafety
import MathWebSearch.Daemon.Retrieval
import MathWebSearch.Daemon.LoadedServer
import MathWebSearch.Daemon.SchemaQueryHandler
import MathWebSearch.Daemon.SchemaRequests
import MathWebSearch.Daemon.ResponseMemory
import MathWebSearch.Crawler.Robotstxt
import MathWebSearch.Crawler.MwsCrawler
import MathWebSearch.Crawler.MwsGetMath
import MathWebSearch.Crawler.Harvests2json
import MathWebSearch.Crawler.MathParser
import MathWebSearch.Crawler.CrawledHarvests
import MathWebSearch.Daemon.CompressedServer
