import DurableFlow.Action
import DurableFlow.Binary64
import DurableFlow.Binary64.Column
import DurableFlow.Binary64.Decimal
import DurableFlow.Context
import DurableFlow.Engine
import DurableFlow.Engine.Cancel
import DurableFlow.Engine.Faults
import DurableFlow.Engine.Input
import DurableFlow.Engine.Level
import DurableFlow.Engine.Lifecycle
import DurableFlow.Engine.Loading
import DurableFlow.Engine.Wakeup
import DurableFlow.Failure
import DurableFlow.Flow.Compile
import DurableFlow.Flow.Definition
import DurableFlow.Flow.Graph
import DurableFlow.Flow.Localization
import DurableFlow.Identifier
import DurableFlow.Json
import DurableFlow.Json.Checksum
import DurableFlow.Json.Keyed
import DurableFlow.Json.Reader
import DurableFlow.Json.Written
import DurableFlow.Moment
import DurableFlow.Registry
import DurableFlow.Retry
import DurableFlow.Settings
import DurableFlow.Store
import DurableFlow.Store.Choice
import DurableFlow.Store.Keys
import DurableFlow.Store.Memory
import DurableFlow.Store.Path
import DurableFlow.Store.Row
import DurableFlow.Store.Rows
import DurableFlow.Store.Scored
import DurableFlow.Table
import DurableFlow.Text.Blank
import DurableFlow.Text.Digit
import DurableFlow.Text.Glob
import DurableFlow.Text.Numeral
import DurableFlow.Text.Printable
import DurableFlow.Text.Quoted
import DurableFlow.Uuid
import DurableFlow.Worker
import DurableFlow.Proofs.Store.StoredRows
import DurableFlow.Proofs.Store.SoundStores
import DurableFlow.Proofs.Store.OptimisticUpdates
import DurableFlow.Proofs.Store.StoredCopies
import DurableFlow.Proofs.Store.RowLives
import DurableFlow.Proofs.Engine.QuietSteps
import DurableFlow.Proofs.Engine.StoreWrites
import DurableFlow.Proofs.Store.HeldCopies
import DurableFlow.Proofs.Engine.HeldTransitions
import DurableFlow.Proofs.Engine.SubFlows
import DurableFlow.Proofs.Engine.EngineOperations
import DurableFlow.Proofs.Engine.FamilyCancellation
import DurableFlow.Proofs.Session.Requests
import DurableFlow.Proofs.Session.RecordedResults
import DurableFlow.Proofs.Session.CompletedContexts
import DurableFlow.Proofs.Engine.SuccessfulTransitions
import DurableFlow.Proofs.Session.RepeatedCompletion
import DurableFlow.Proofs.Engine.SparingSteps
import DurableFlow.Proofs.Store.DueTimes
import DurableFlow.Proofs.Store.StoredFlows
import DurableFlow.Proofs.Engine.TickSteps
import DurableFlow.Proofs.Session.InterleavedTicks
import DurableFlow.Proofs.Engine.RootedFamilies
import DurableFlow.Proofs.Engine.SweptFamilies
import DurableFlow.Proofs.Engine.DisciplinedOperations
import DurableFlow.Proofs.Engine.SingleWrites
import DurableFlow.Proofs.Session.DisciplinedSessions
import DurableFlow.Proofs.Session.CancelledFamilies
import DurableFlow.Proofs.Flow.AuthoredGraphs
import DurableFlow.Proofs.Flow.Publications
import DurableFlow.Proofs.Engine.PublishedFlows
import DurableFlow.Proofs.Engine.WalkedRows
import DurableFlow.Proofs.Session.AuthoredWalks
import DurableFlow.Proofs.Store.PublishedRevisions
import DurableFlow.Proofs.Store.Ledgers
import DurableFlow.Proofs.Store.ScoredSets
import DurableFlow.Proofs.Store.LedgerTables
import DurableFlow.Proofs.Store.LedgerServers
import DurableFlow.Proofs.Store.InterchangeableStores
import DurableFlow.Proofs.Store.WakeupIndexes
import DurableFlow.Proofs.Store.FlowIdentities
import DurableFlow.Proofs.Flow.WellFormedDocuments
import DurableFlow.Proofs.Json.AlikeValues
import DurableFlow.Proofs.Flow.FaithfulGraphs
import DurableFlow.Proofs.Flow.ReorderedDocuments
import DurableFlow.Proofs.Store.ListedFlows
import DurableFlow.Proofs.Store.RevisionAges
import DurableFlow.Proofs.Engine.LoadedRegistries
import DurableFlow.Proofs.Engine.CatalogueRuns
import DurableFlow.Proofs.Engine.IsolatedFailures
import DurableFlow.Proofs.Binary64.ShortestDigits
import DurableFlow.Proofs.Binary64.WrittenDecimals
import DurableFlow.Proofs.Json.CanonicalTexts
import DurableFlow.Proofs.Flow.ReorderedTexts
import DurableFlow.Proofs.Engine.RefreshedRegistries
import DurableFlow.Proofs.Session.EnteredSubFlows
import DurableFlow.Proofs.Session.VouchingVersions
import DurableFlow.Proofs.Store.SharedServers
import DurableFlow.Proofs.Engine.ResolvedFlows
import DurableFlow.Proofs.Engine.ShapedRegistries
import DurableFlow.Proofs.Session.StraddledScans
import DurableFlow.Proofs.Engine.ConfinedSteps
import DurableFlow.Proofs.Engine.AnsweredSteps
import DurableFlow.Proofs.Session.ConfinedRequests
import DurableFlow.Proofs.Session.SubFlowStacks
import DurableFlow.Proofs.Engine.LostRaces
import DurableFlow.Proofs.Engine.InputCourses
import DurableFlow.Proofs.Engine.RacingInputs
import DurableFlow.Proofs.Engine.RetryDelays
import DurableFlow.Proofs.Engine.RetriedInputs
import DurableFlow.Proofs.Engine.RecordedInputs
import DurableFlow.Proofs.Engine.RefusedReturns
import DurableFlow.Proofs.Engine.TakenTurns
import DurableFlow.Proofs.Engine.RefusedExits
import DurableFlow.Proofs.Engine.DrainedQueues
import DurableFlow.Proofs.Engine.BlockedQueues
import DurableFlow.Proofs.Store.TimelyRuns
import DurableFlow.Proofs.Flow.FallbackTexts
import DurableFlow.Proofs.Engine.UsualDelays
import DurableFlow.Proofs.Engine.UsableSettings
import DurableFlow.Proofs.Engine.FlowRuns
import DurableFlow.Proofs.Engine.WorkerLoops
import DurableFlow.Proofs.Engine.WorkerShifts
import DurableFlow.Proofs.Flow.DressedDocuments
import DurableFlow.Proofs.Flow.FlattenedTexts
import DurableFlow.Proofs.Engine.CanonicalNames
import DurableFlow.Proofs.Engine.KeptCompilations
import DurableFlow.Proofs.Store.FlooredRows
