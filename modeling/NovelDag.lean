import NovelDag.Lib.PrefixLog
import NovelDag.Lib.FinMap
import NovelDag.Lib.SortedMap
import NovelDag.Lib.Weighted
import NovelDag.Proofs.Messages
import NovelDag.Proofs.HeaderId
import NovelDag.Consensus
import NovelDag.Narwhal
import NovelDag.Proofs.Narwhal
import NovelDag.Proofs.MahiMahi
import NovelDag.ThresholdCoin
import NovelDag.Proofs.MahiBatch
import NovelDag.Proofs.ConsensusState
import NovelDag.Proofs.ShortfinRun
import NovelDag.Proofs.OutputOnce
import NovelDag.Proofs.WahooAdvance
import NovelDag.Proofs.WahooWaiting
import NovelDag.Proofs.WahooClosure
import NovelDag.Proofs.CertifiedUnique
import NovelDag.Proofs.MahiCaches
import NovelDag.Proofs.MahiLinearize
import NovelDag.Proofs.CoreHandlers
import NovelDag.Proofs.CoreHistory
import NovelDag.Proofs.ReliableSender
import NovelDag.Proofs.ShortfinLeader
import NovelDag.Lib.Answers
import NovelDag.Lib.Tally
import NovelDag.Proofs.Aggregators
import NovelDag.Proofs.ShortfinFrontier
import NovelDag.Proofs.WahooPb
import NovelDag.Proofs.WahooDone
import NovelDag.Proofs.WahooShares
import NovelDag.Proofs.Machine
import NovelDag.Proofs.Keys
import NovelDag.Proofs.QuorumWaiter
import NovelDag.Proofs.Store
import NovelDag.Proofs.ShortfinIndex
import NovelDag.Proofs.Byzantine
import NovelDag.Proofs.CoinCaches
import NovelDag.Proofs.DebugBuild
import NovelDag.Proofs.CoreSignals
import NovelDag.Proofs.Proposer
import NovelDag.Proofs.CoreNetwork
import NovelDag.Proofs.CoreDelivery
import NovelDag.Proofs.Primary
import NovelDag.Lib.Channel
import NovelDag.Lib.ContentStore
import NovelDag.Lib.Decoding
import NovelDag.Lib.Waiters
import NovelDag.Proofs.Waiters
import NovelDag.Proofs.Worker
import NovelDag.Proofs.WorkerNetwork
