import Oxplow.Proofs.JobStoreRuns
import Oxplow.Proofs.PumpOrder
import Oxplow.Proofs.LetterCalls
import Oxplow.Proofs.EffortSpans
import Oxplow.Proofs.MergeWords
import Oxplow.Proofs.ChainReadback
import Oxplow.Proofs.PruneRuns
import Oxplow.Proofs.Retention
import Oxplow.Proofs.UriAgreement
import Oxplow.Proofs.PermissionCovers
import Oxplow.Proofs.Announcements
import Oxplow.Proofs.AssetRuns
import Oxplow.Proofs.ChangeRefreshes
import Oxplow.Proofs.TabSessions
import Oxplow.Proofs.BufferDrafts
import Oxplow.Proofs.TranscriptReads
import Oxplow.Proofs.TokenCuts
import Oxplow.Proofs.TaskUndo
import Oxplow.Proofs.ContentCleanup
import Oxplow.Proofs.AssetCurrency
import Oxplow.Proofs.CaptureRuns
import Oxplow.Proofs.TerminalKeys
import Oxplow.Proofs.TerminalInput
import Oxplow.Proofs.TerminalReplay
import Oxplow.Proofs.RegistryRuns
import Oxplow.Proofs.ProposalRuns
import Oxplow.Proofs.PendingBatches
import Oxplow.Proofs.PatternSpelling
import Oxplow.Proofs.CachedScans
import Oxplow.Proofs.AnalysisRuns
import Oxplow.Proofs.ListReads
import Oxplow.Proofs.FilterWalks
import Oxplow.Proofs.MergeSymmetry
import Oxplow.Proofs.MergeDisjoint
import Oxplow.Proofs.MergeOrder
import Oxplow.Proofs.VisibilityRuns
import Oxplow.Proofs.CubeSeeds
import Oxplow.Proofs.TopLevel
import Oxplow.Proofs.JobChecks
import Oxplow.Proofs.JobPages
import Oxplow.Proofs.PacedRuns
import Oxplow.Proofs.Masking
import Oxplow.Proofs.MemoRuns
import Oxplow.Proofs.RelistedMoves
import Oxplow.Proofs.TestReadback
import Oxplow.Proofs.LineDiffs
import Oxplow.Proofs.StateExchanges
import Oxplow.Proofs.DocumentTrees
import Oxplow.Proofs.ReplayedModes
import Oxplow.Proofs.CompositeUndo
import Oxplow.Proofs.FilterRuns
import Oxplow.Proofs.ChangedRuns
import Oxplow.Proofs.CacheBooks
import Oxplow.Proofs.CycleErrors
import Oxplow.Proofs.WhenWriting
import Oxplow.Proofs.ScopedRescans
import Oxplow.Proofs.ClonedFunctions
import Oxplow.Proofs.EventSweeps
import Oxplow.Proofs.AnchorMatches
