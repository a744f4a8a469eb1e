import Gobo.Special
import Gobo.Traversal
import Gobo.SparseContainer
import Gobo.SparseTable
import Gobo.Buckets
import Gobo.SparseInvariant
import Gobo.SparseInsertion
import Gobo.SparseSearch
import Gobo.SparseRemoval
import Gobo.SparseRelink
import Gobo.SparseCompress
import Gobo.SparseAssociation
import Gobo.FiniteMap
import Gobo.SparseRuns
import Gobo.LinkedTree
import Gobo.TreeRotation
import Gobo.SortedMap
import Gobo.TreeContainer
import Gobo.TreeWalk
import Gobo.TreeSearch
import Gobo.TreeInvariant
import Gobo.TreeLaws
import Gobo.TreeInsertion
import Gobo.TreeCursors
import Gobo.TreeRemoval
import Gobo.AvlTree
import Gobo.RedBlackTree
import Gobo.Runs
import Gobo.TreeMoves
import Gobo.TreeRuns
import Gobo.TreeTraversals
import Gobo.ParserResumption
import Gobo.CharacterBuffer
import Gobo.Utf8FileBuffer
import Gobo.Utf8FileBufferFill
import Gobo.Utf8FileBufferRuns
import Gobo.LeftLeaningTree
import Gobo.LeftLeaningFixUp
import Gobo.LeftLeaningSearch
import Gobo.LeftLeaningRemoval
import Gobo.LeftLeaningRuns
import Gobo.DecimalCoefficient
import Gobo.Rounding
import Gobo.DecimalArithmetic
import Gobo.CivilCalendar
import Gobo.Date
import Gobo.DateConversion
import Gobo.DateTime
import Gobo.DateTimeAddition
import Gobo.CanonicalDuration
import Gobo.Utf8Routines
import Gobo.Utf8RoundTrip
import Gobo.Splitter
import Gobo.SplitterRoundTrip
import Gobo.Csv
import Gobo.CsvHandler
import Gobo.CsvRoundTrip
import Gobo.Base64Streams
import Gobo.Base64Encoding
import Gobo.Base64Decoding
import Gobo.Uri
import Gobo.UriParsing
import Gobo.UriPathParsing
import Gobo.UriRoundTrip
import Gobo.DotSegments
import Gobo.UriResolution
import Gobo.TreeNotLess
import Gobo.TreeKeyRange
import Gobo.ListSearch
import Gobo.UnicodeCharacterBuffer
import Gobo.Utf8Fill
import Gobo.DoublyLinked
import Gobo.Ring
import Gobo.ScoopLocks
import Gobo.ScoopSessions
import Gobo.Scoop
import Gobo.ScoopTransitions
import Gobo.ScoopLockedSessions
import Gobo.ScoopGroups
import Gobo.ScoopSound
import Gobo.ScoopLists
import Gobo.ScoopQueues
import Gobo.ScoopReservation
import Gobo.ScoopCallQueues
import Gobo.ScoopActive
import Gobo.ScoopCallOrder
import Gobo.ScoopAccounts
import Gobo.ScoopSubmissions
import Gobo.Indexable
import Gobo.BubbleSorter
import Gobo.ShellSorter
import Gobo.HeapSorter
import Gobo.QuickSorter
import Gobo.ContextFree
import Gobo.Grammar
import Gobo.GrammarReduction
import Gobo.GrammarKept
import Gobo.DefaultReduction
import Gobo.ReductionReport
import Gobo.TopologicalSorter
import Gobo.TopologicalOrder
import Gobo.TopologicalSorting
import Gobo.TopologicalCycle
import Gobo.TopologicalRelations
import Gobo.TopologicalRemoval
import Gobo.TopologicalRuns
import Gobo.SymbolClass
import Gobo.SymbolClassBits
import Gobo.SymbolClassUnion
import Gobo.SymbolClassRuns
import Gobo.EquivalenceClasses
import Gobo.BilinkedChain
import Gobo.EquivalenceSplit
import Gobo.EquivalencePartition
import Gobo.EquivalenceNumbers
import Gobo.EpsilonPaths
import Gobo.Nfa
import Gobo.NfaStates
import Gobo.NfaOperations
import Gobo.NfaCopy
import Gobo.NfaRuns
import Gobo.SymbolClassFull
import Gobo.SymbolClassConversion
import Gobo.SymbolClassAnswers
import Gobo.CharacterSet
import Gobo.CharacterSetUnion
import Gobo.CharacterSetRuns
import Gobo.Action
import Gobo.Decimal
import Gobo.DecimalBuilding
import Gobo.DecimalWritten
import Gobo.RegularExpression
import Gobo.DateShift
import Gobo.WeekNumber
import Gobo.DurationOrder
import Gobo.ExcludedCharacters
import Gobo.LexicalPath
import Gobo.Pathname
import Gobo.FileSystem
import Gobo.ScoopLockBalance
import Gobo.ScoopSynchronousCalls
import Gobo.Time
import Gobo.UnixPathname
import Gobo.UriSetters
import Gobo.Utf16Routines
import Gobo.SparseSetOperations
import Gobo.SparseSetRuns
import Gobo.Base64Normalizing
import Gobo.WindowsPathname
import Gobo.WindowsPathnameRoundTrip
import Gobo.WordWrapper
import Gobo.WrappedWords
import Gobo.DecimalText
import Gobo.DecimalRoundTrip
