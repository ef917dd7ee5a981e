import EffectMQ.Properties.Membership
import EffectMQ.Properties.Fencing
import EffectMQ.Properties.Settlement
import EffectMQ.Properties.StatePath
import EffectMQ.Properties.Retention
import EffectMQ.Properties.Rejection
import EffectMQ.Properties.HoldFrame
import EffectMQ.Properties.Retries
import EffectMQ.Properties.Windows
import EffectMQ.Properties.Cursors
import EffectMQ.Properties.Paging
import EffectMQ.Properties.EventIndexes
import EffectMQ.Properties.EagerEvents
import EffectMQ.Properties.Deliveries
import EffectMQ.Properties.EventDrain
import EffectMQ.Properties.HistoryStore
import EffectMQ.Properties.FailureRouting
import EffectMQ.Properties.OutcomeCopies
import EffectMQ.Properties.RunOrder
import EffectMQ.Properties.DuplicateOffer
import EffectMQ.Properties.ProgressEntries
import EffectMQ.Properties.RetryEvidence
import EffectMQ.Properties.Upkeep
import EffectMQ.Properties.Keys
import EffectMQ.Properties.RetryReplay
import EffectMQ.Properties.StorageValidation
import EffectMQ.Properties.HistoryCursors
import EffectMQ.Properties.Budget
import EffectMQ.Properties.RetriedOffer
import EffectMQ.Lifecycle.Budget
import EffectMQ.Properties.Generations
import EffectMQ.Properties.ScheduleCursor
import EffectMQ.Properties.TickGenerations
import EffectMQ.Properties.StorageRoundTrip
import EffectMQ.Properties.Waiting
import EffectMQ.Properties.ReferenceModel
import EffectMQ.Properties.PassedTicks
import EffectMQ.Properties.Attempts
import EffectMQ.Properties.Handover
import EffectMQ.Properties.Heartbeats
