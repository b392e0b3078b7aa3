import ResilientDb.Transition
import ResilientDb.OrderedMap
import ResilientDb.PrefixScan
import ResilientDb.PrefixOrder
import ResilientDb.Quorum
import ResilientDb.UtxoLedger
import ResilientDb.UtxoConservation
import ResilientDb.UtxoWallet
import ResilientDb.UtxoAuthorization
import ResilientDb.UtxoRobustness
import ResilientDb.DuplicateManager
import ResilientDb.ExecutionOrder
import ResilientDb.RaftReplica
import ResilientDb.RaftHandlers
import ResilientDb.RaftCluster
import ResilientDb.RaftSpecs
import ResilientDb.RaftLeader
import ResilientDb.RaftEvents
import ResilientDb.RaftLogMatching
import ResilientDb.RaftHistory
import ResilientDb.RaftSafety
import ResilientDb.RaftRecovery
import ResilientDb.RaftDeployment
import ResilientDb.RaftElection
import ResilientDb.PbftReplica
import ResilientDb.PbftSpecs
import ResilientDb.PbftNetwork
import ResilientDb.PbftAgreement
import ResilientDb.PbftCertificate
import ResilientDb.PbftHealth
import ResilientDb.PbftViewChange
import ResilientDb.PbftNewView
import ResilientDb.PbftViewEntry
import ResilientDb.PbftCheckPoint
import ResilientDb.PbftServer
import ResilientDb.PbftRemoteRecovery
import ResilientDb.PbftStatus
import ResilientDb.PbftProofs
import ResilientDb.PbftCheckPointThread
import ResilientDb.PbftClient
import ResilientDb.PbftWindow
import ResilientDb.PbftResponse
import ResilientDb.Wire
import ResilientDb.AsyncAcceptor
import ResilientDb.PowFeed
import ResilientDb.PowChain
import ResilientDb.PowDigest
import ResilientDb.Poe
import ResilientDb.FileSystem
import ResilientDb.LruCache
import ResilientDb.LruNodes
import ResilientDb.KvStorage
import ResilientDb.MemoryDb
import ResilientDb.KvBatch
import ResilientDb.LevelDb
import ResilientDb.CompositeKeys
import ResilientDb.LevelDbReads
import ResilientDb.SnapshotTransfer
import ResilientDb.KvCells
import ResilientDb.KvReplay
import ResilientDb.StorageLaws
import ResilientDb.StorageTwins
import ResilientDb.WalFile
import ResilientDb.WalDirectory
import ResilientDb.WalServe
import ResilientDb.RaftReplay
import ResilientDb.RaftInstall
import ResilientDb.RaftCommitIndex
import ResilientDb.RaftMerge
import ResilientDb.RaftProbe
import ResilientDb.RaftVote
import ResilientDb.RaftDelivery
import ResilientDb.RaftShape
import ResilientDb.RaftProgress
import ResilientDb.ThunderboltBlocks
import ResilientDb.ThunderboltReplica
import ResilientDb.ThunderboltNetwork
import ResilientDb.ThunderboltCertificates
import ResilientDb.ThunderboltShards
import ResilientDb.ThunderboltSoundness
import ResilientDb.ThunderboltReferences
import ResilientDb.GeoExecutor
import ResilientDb.GeoCommitment
import ResilientDb.PbftEvidence
import ResilientDb.CommitData
