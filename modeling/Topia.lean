import Topia.Transaction.Replay
import Topia.Consensus.Proposer
import Topia.Consensus.VoteLiveness
import Topia.Execution.InFlight
import Topia.TransactionPool.NonceOrder
import Topia.TransactionPool.Restart
import Topia.State.LatestBlock
import Topia.State.RegistryRun
import Topia.State.ChainCells
import Topia.State.AccountMap
import Topia.Consensus.DkgCompletion
import Topia.Ledger.MemDBVersions
import Topia.Ledger.MemDBWriters
import Topia.Ledger.VersionsFile
import Topia.State.MemSnapshot
import Topia.Consensus.PrepareBarrier
import Topia.Consensus.BestProposal
import Topia.Execution.BatchList
import Topia.Consensus.PreparedProposals
import Topia.TransactionPool.NonceQueue
import Topia.Rpc.SubscriptionCenter
import Topia.Network.SendWithResponse
import Topia.Rpc.ResponseCache
import Topia.Consensus.Committee
import Topia.Consensus.CommitRecord
import Topia.Consensus.DomainCollection
import Topia.Consensus.ParallelDecoding
import Topia.Chain.ForkChoice
import Topia.Consensus.ValidationRequest
import Topia.Consensus.ActiveWeights
import Topia.Consensus.DomainLifetime
import Topia.Consensus.ProposerLottery
import Topia.TransactionPool.RejectedAdd
import Topia.Transaction.GasEstimate
import Topia.Execution.PackedBatch
import Topia.Chain.BlockInfoSub
import Topia.Ledger.AllState
import Topia.TransactionPool.Expiry
import Topia.TransactionPool.ListOrder
import Topia.TransactionPool.Replacement
import Topia.Common.ShrinkMap
import Topia.Rpc.Protocol
import Topia.Rpc.Filter
import Topia.Network.StreamReader
import Topia.Web3.Fees
import Topia.Web3.Signature
import Topia.Time.Timers
import Topia.EventHub
