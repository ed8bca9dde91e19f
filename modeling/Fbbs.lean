import Fbbs.AccountChains
import Fbbs.AccountCreation
import Fbbs.AccountRuns
import Fbbs.AccountTable
import Fbbs.AccountUpdates
import Fbbs.ApiTreeJson
import Fbbs.ApiTreeXml
import Fbbs.ApiTrees
import Fbbs.ArticleEditing
import Fbbs.AsciiBytes
import Fbbs.AuthorSlots
import Fbbs.Autocompletion
import Fbbs.BackendFrames
import Fbbs.BackendMessages
import Fbbs.BackendProtocol
import Fbbs.BallotFile
import Fbbs.Base128Codes
import Fbbs.BlockElements
import Fbbs.BoardIsolation
import Fbbs.BoardListRuns
import Fbbs.BoardLists
import Fbbs.BoardrcClear
import Fbbs.BoardrcMerge
import Fbbs.BoardrcRecords
import Fbbs.BoardrcSession
import Fbbs.Calendar
import Fbbs.CallbackScan
import Fbbs.CapacityGrowth
import Fbbs.CharArrays
import Fbbs.ColumnCut
import Fbbs.CommonPrefixes
import Fbbs.ContentAssembly
import Fbbs.ContentCache
import Fbbs.Conversion
import Fbbs.ConversionCut
import Fbbs.ConversionOrder
import Fbbs.DecimalText
import Fbbs.Degrees
import Fbbs.DescendingPages
import Fbbs.DisplayColumns
import Fbbs.DoublingLoops
import Fbbs.Editor
import Fbbs.EditorCursor
import Fbbs.EditorFiles
import Fbbs.EditorJoin
import Fbbs.EditorKeys
import Fbbs.EditorLineBreaks
import Fbbs.EditorReflow
import Fbbs.EditorRun
import Fbbs.EditorText
import Fbbs.EditorWindow
import Fbbs.Ellipsis
import Fbbs.FailedLoads
import Fbbs.FilterAgreement
import Fbbs.FilteredIndex
import Fbbs.FirstOccurrences
import Fbbs.FollowGraph
import Fbbs.FreshMemory
import Fbbs.GbkRepair
import Fbbs.GbkSearch
import Fbbs.GbkText
import Fbbs.GroupedTable
import Fbbs.HashTable
import Fbbs.HashTableChains
import Fbbs.HashTableExpansion
import Fbbs.HashTableRefinement
import Fbbs.HashTableRuns
import Fbbs.JsonText
import Fbbs.LikePatterns
import Fbbs.LineFraming
import Fbbs.LineInput
import Fbbs.LinkedChains
import Fbbs.ListFileCalls
import Fbbs.ListFiles
import Fbbs.ListNeighbours
import Fbbs.MailboxSize
import Fbbs.MentionScan
import Fbbs.MenuBackground
import Fbbs.MenuRun
import Fbbs.MessageFile
import Fbbs.NonPrintable
import Fbbs.Notifications
import Fbbs.Pager
import Fbbs.PagerLines
import Fbbs.PagerPartition
import Fbbs.PagerSeek
import Fbbs.Parcel
import Fbbs.ParcelBounds
import Fbbs.ParcelRoundTrip
import Fbbs.PoolStringRuns
import Fbbs.PoolStrings
import Fbbs.PostContents
import Fbbs.PostCounts
import Fbbs.PostList
import Fbbs.PostMarkup
import Fbbs.PostMarkupBounds
import Fbbs.PostMarkupForm
import Fbbs.PostRecordPages
import Fbbs.PostStamps
import Fbbs.PostStatistics
import Fbbs.PostTables
import Fbbs.QueryBuilder
import Fbbs.QueryPaths
import Fbbs.QueryText
import Fbbs.QuoteLines
import Fbbs.QuoteSelection
import Fbbs.Quoting
import Fbbs.RangeDeletion
import Fbbs.RangeParts
import Fbbs.ReadMarks
import Fbbs.RecentList
import Fbbs.RecordApply
import Fbbs.RecordCache
import Fbbs.RecordEdits
import Fbbs.RecordFiles
import Fbbs.RecordMerge
import Fbbs.RecordRefresh
import Fbbs.RecordScan
import Fbbs.RecordSearch
import Fbbs.RegistrationCode
import Fbbs.RegistrationList
import Fbbs.ReplyCounts
import Fbbs.RequestReply
import Fbbs.Retitling
import Fbbs.RingBuffer
import Fbbs.RunLengths
import Fbbs.SavedLines
import Fbbs.ScreenBuffer
import Fbbs.ScreenGrowth
import Fbbs.ScreenPuts
import Fbbs.ScreenRuns
import Fbbs.ScreenUpdates
import Fbbs.SortedSearch
import Fbbs.SourceQuotes
import Fbbs.SqlRows
import Fbbs.StableMerge
import Fbbs.StreamConversion
import Fbbs.SysconfBuild
import Fbbs.SysconfImage
import Fbbs.SysconfLayout
import Fbbs.SysconfText
import Fbbs.TaggedMarkup
import Fbbs.TelnetInput
import Fbbs.TelnetStreams
import Fbbs.TerminalGrid
import Fbbs.TerminalOutput
import Fbbs.TextScan
import Fbbs.TextValidation
import Fbbs.ThreadStats
import Fbbs.TitleLedger
import Fbbs.TitleRuns
import Fbbs.TransitionRuns
import Fbbs.UnreadJump
import Fbbs.UploadParsing
import Fbbs.UserCache
import Fbbs.UserIdCache
import Fbbs.UserLookup
import Fbbs.Utf8Tail
import Fbbs.Utf8Text
import Fbbs.VaruintDecoding
import Fbbs.Vectors
import Fbbs.VoteTally
import Fbbs.WebListPages
import Fbbs.WebParameters
import Fbbs.WebPostCount
import Fbbs.WebPostSearch
import Fbbs.WebSessions
import Fbbs.WebThreadPages
import Fbbs.WideChars
import Fbbs.WideScan
import Fbbs.WordEncodings
import Fbbs.XmlPrinted
import Fbbs.XmlText
