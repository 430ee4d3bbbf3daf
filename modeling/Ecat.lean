import Ecat.ArchivePhases
import Ecat.ArchiveRestore
import Ecat.ArchiveSafety
import Ecat.BoolGrammar
import Ecat.Breaker
import Ecat.BreakerClassify
import Ecat.BreakerEpisodes
import Ecat.CassandraMaps
import Ecat.CassandraNumbers
import Ecat.CassandraTime
import Ecat.EventsDelivery
import Ecat.EventsOnce
import Ecat.FenceLock
import Ecat.GraphqlArguments
import Ecat.GraphqlExact
import Ecat.GraphqlSelection
import Ecat.HbaseCells
import Ecat.HbaseScan
import Ecat.InfluxLines
import Ecat.LockSafety
import Ecat.MqWakeups
import Ecat.OAuth2Cache
import Ecat.OAuth2Expiry
import Ecat.OrmBatchSends
import Ecat.OrmClause
import Ecat.OrmDeleteExact
import Ecat.OrmMigrate
import Ecat.OrmPaging
import Ecat.OrmRelationExact
import Ecat.OrmTime
import Ecat.OrmTrashedExact
import Ecat.OrmUpsert
import Ecat.OrmVersions
import Ecat.OutboxDelivery
import Ecat.OutboxLate
import Ecat.OutboxLease
import Ecat.RateLimit
import Ecat.RateLimitRedis
import Ecat.RoutedReads
import Ecat.RoutedRotation
import Ecat.S3List
import Ecat.SagaContexts
import Ecat.SagaDiscipline
import Ecat.SecurityDecode
import Ecat.ShardCanonical
import Ecat.ShardCompare
import Ecat.ShardMoveIds
import Ecat.ShardOrder
import Ecat.ShardPlanExact
import Ecat.ShardReads
import Ecat.ShardResume
import Ecat.ShardRouting
import Ecat.SinkS3
import Ecat.SnowflakeIds
import Ecat.TierInterval
import Ecat.TierMerge
import Ecat.TierPartition
import Ecat.TierQuery
import Ecat.TierSqlValue
import Ecat.TwoPhaseAccounting
import Ecat.TwoPhaseAtomicity
import Ecat.Versioning
import Ecat.DualWrite
import Ecat.MssqlPool
import Ecat.MssqlSessions
import Ecat.SagaShared
import Ecat.SagaTables
import Ecat.RegistryDirectory
import Ecat.RegistryKept
import Ecat.RegistryNames
import Ecat.Follower
import Ecat.TopologyFollows
import Ecat.Typestate
import Ecat.XaAtomicity
