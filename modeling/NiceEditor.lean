import NiceEditor.Pools
import NiceEditor.DeleteRefinement
import NiceEditor.SaveRoundTrip
import NiceEditor.StrategyAgreement
import NiceEditor.Cursor
import NiceEditor.EditFrames
import NiceEditor.EditLog
import NiceEditor.EditSteps
import NiceEditor.Undo
import NiceEditor.UndoCalls
import NiceEditor.UndoRuns
import NiceEditor.Preferences
import NiceEditor.PreferencesText
import NiceEditor.PreferencesEffects
import NiceEditor.PreferencesRoundTrip
import NiceEditor.PreferencesLosses
import NiceEditor.Flows
import NiceEditor.UndoChains
import NiceEditor.ChainedActions
import NiceEditor.OptionFrames
import NiceEditor.ChainRuns
import NiceEditor.Clips
import NiceEditor.ClipBlocks
import NiceEditor.ClipPasses
import NiceEditor.ClipRoundTrip
import NiceEditor.Places
import NiceEditor.RegexBounds
import NiceEditor.LineSearch
import NiceEditor.Find
import NiceEditor.FindRefinement
import NiceEditor.FindRegexp
import NiceEditor.Movement
import NiceEditor.RepeatCounts
import NiceEditor.OpenDocuments
import NiceEditor.TabSizes
import NiceEditor.InputLine
import NiceEditor.CharacterRows
import NiceEditor.InputRows
import NiceEditor.Macros
import NiceEditor.OptimizedMacros
import NiceEditor.InputEvents
import NiceEditor.InputIntegrity
import NiceEditor.Nesting
import NiceEditor.Characters
import NiceEditor.BracketMatching
import NiceEditor.WordSearch
import NiceEditor.WantedColumns
import NiceEditor.Columns
import NiceEditor.CharMoves
import NiceEditor.Blocks
import NiceEditor.WriteCalls
import NiceEditor.CharStreams
import NiceEditor.StreamFiles
import NiceEditor.SaveBlocks
import NiceEditor.KeyTables
import NiceEditor.FirstDifferences
import NiceEditor.KeyDecoding
import NiceEditor.Tilings
import NiceEditor.ReqPages
import NiceEditor.MaximalRuns
import NiceEditor.Completions
import NiceEditor.PasteBookmarks
import NiceEditor.Arenas
import NiceEditor.SortedLists
import NiceEditor.ReqLists
import NiceEditor.ReqListOrder
import NiceEditor.ReqListRuns
import NiceEditor.Radix
import NiceEditor.Sequences
import NiceEditor.Utf8Encodings
import NiceEditor.Utf8Detection
import NiceEditor.CharSteps
import NiceEditor.ColumnPositions
import NiceEditor.AutoIndent
import NiceEditor.LexicalPaths
import NiceEditor.Paths
import NiceEditor.NormalizedPaths
import NiceEditor.RelativePaths
import NiceEditor.VerticalClips
import NiceEditor.FailedClips
import NiceEditor.PathCosts
import NiceEditor.CursorMotion
import NiceEditor.CheapestMotion
import NiceEditor.TerminalScreen
import NiceEditor.ScreenRuns
import NiceEditor.DrawnScreens
import NiceEditor.ShiftedLines
import NiceEditor.Drawings
