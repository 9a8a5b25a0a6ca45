import BitcoindRs.Chain.Supply
import BitcoindRs.Chain.MissingCache
import BitcoindRs.Storage.UndoLimit
import BitcoindRs.Chain.HeaderRecovery
import BitcoindRs.Chain.PruneWindow
import BitcoindRs.Chain.BackgroundRestart
import BitcoindRs.Chain.ScriptCacheRun
import BitcoindRs.Consensus.PathIndependence
import BitcoindRs.P2p.CompactBlock
import BitcoindRs.P2p.HeadersSyncComplete
import BitcoindRs.P2p.OrphanRun
import BitcoindRs.Mempool.Eviction
import BitcoindRs.Mempool.DisconnectOrder
import BitcoindRs.Mempool.FeePending
import BitcoindRs.Mempool.FeeTracking
import BitcoindRs.Mempool.Chunks
import BitcoindRs.Mempool.TouchedClusters
import BitcoindRs.Consensus.SequenceLocks
import BitcoindRs.Chain.Locator
import BitcoindRs.Chain.Transition
import BitcoindRs.Chain.HeaderMerkle
import BitcoindRs.Chain.Verify
import BitcoindRs.Rpc.WitnessProofExact
import BitcoindRs.Consensus.MandatorySignalling
import BitcoindRs.P2p.AsmapSafety
import BitcoindRs.Chain.MuHash
import BitcoindRs.Chain.JournalFile
import BitcoindRs.Storage.RecordCodec
import BitcoindRs.Storage.CoinCodec
import BitcoindRs.Mempool.EphemeralDust
import BitcoindRs.Chain.MerkleBranch
import BitcoindRs.Chain.TransactionEncoding
import BitcoindRs.P2p.BloomFilter
import BitcoindRs.P2p.ProcessingGate
