import Layr.AuthorityChain
import Layr.Blame
import Layr.CommandsOnce
import Layr.CostsExact
import Layr.DbOrder
import Layr.DraftsReconcile
import Layr.DurableCursor
import Layr.DurableFeed
import Layr.EntityPullSound
import Layr.EntityTransfer
import Layr.FederationOrder
import Layr.FormatTree
import Layr.Glob
import Layr.IndexCommitSafe
import Layr.MergeBase
import Layr.MonitorOutputExact
import Layr.NotificationsCurrent
import Layr.OnlineMigration
import Layr.ProjectSource
import Layr.ProtectionSafe
import Layr.PushContent
import Layr.PushGc
import Layr.RecordSegmentsRead
import Layr.RulesPaths
import Layr.SteerOutcome
import Layr.StreamCheck
import Layr.SupervisorJournal
import Layr.Thin
