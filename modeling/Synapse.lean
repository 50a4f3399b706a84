import Synapse.AccessTokens
import Synapse.AppserviceQueues
import Synapse.BackwardExtremities
import Synapse.Bans
import Synapse.ChainCoverExactness
import Synapse.ConnectionPositions
import Synapse.CurrentState
import Synapse.DeferredCacheCallbacks
import Synapse.DeviceInbox
import Synapse.DeviceListPokes
import Synapse.DictionaryCacheRuns
import Synapse.EventPersistenceOrder
import Synapse.EventsAfterTimestamp
import Synapse.FallbackKeys
import Synapse.LinearizerSlots
import Synapse.LockExclusion
import Synapse.MultiWriterSafety
import Synapse.OneTimeKeys
import Synapse.Pagination
import Synapse.PendingReceipts
import Synapse.PerDestinationQueue
import Synapse.PowerLevels
import Synapse.PresenceCombination
import Synapse.PresenceGrace
import Synapse.Ratelimiter
import Synapse.ReadWriteLock
import Synapse.RedactionAuth
import Synapse.RegistrationTokens
import Synapse.RemoteDeviceLists
import Synapse.ReplicationCommands
import Synapse.ReplicationReader
import Synapse.RoomUpgrades
import Synapse.SendQueueAcks
import Synapse.SenderPowerLevels
import Synapse.SlidingSyncTables
import Synapse.StateFilterDifference
import Synapse.StateGroupPurges
import Synapse.StateGroupReads
import Synapse.StateResolutionV1Order
import Synapse.SyncStateDelta
import Synapse.TaskScheduler
import Synapse.ThirdPartyInvites
import Synapse.TokenLattice
import Synapse.TopologicalBatches
import Synapse.UnreadCounts
import Synapse.Visibility
