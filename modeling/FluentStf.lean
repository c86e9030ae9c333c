import FluentStf.Mpt.WitnessBinding
import FluentStf.Mpt.StateWitness
import FluentStf.Mpt.Transition
import FluentStf.Mpt.FullUpdate
import FluentStf.Mpt.UpdateOrder
import FluentStf.Mpt.MultiproofState
import FluentStf.Mpt.CacheValidity
import FluentStf.BlobBuilder.RoundTrip
import FluentStf.Sp1
import FluentStf.Nitro.Linkage
import FluentStf.Orchestrator.MessageOrder
import FluentStf.Orchestrator.External
import FluentStf.Orchestrator.KeyCheck
import FluentStf.Orchestrator.Workers
import FluentStf.Orchestrator.Finality
import FluentStf.Orchestrator.Crash
import FluentStf.Orchestrator.Listener
import FluentStf.Orchestrator.Driver
import FluentStf.L1RollupClient
import FluentStf.Proxy.Handshake
import FluentStf.Nitro.InvalidBlocks
import FluentStf.Executor.EventsHash
import FluentStf.Executor.BlockHash
import FluentStf.Orchestrator.Redelivery
import FluentStf.Orchestrator.Heights
import FluentStf.Mpt.DecodeSafety
import FluentStf.Mpt.Termination
import FluentStf.NonceAllocator
import FluentStf.Orchestrator.StartupWalk
import FluentStf.Orchestrator.Rbf
import FluentStf.Orchestrator.Unwind
import FluentStf.Blob.IterSafety
import FluentStf.NitroValidator.Verify
import FluentStf.Nitro.BlockStore
import FluentStf.Mpt.ForEachLeaves
import FluentStf.Program
import FluentStf.Executor.BridgeHashes
import FluentStf.Mpt.Shown
import FluentStf.Executor.World
import FluentStf.Executor.WitnessDb
import FluentStf.Executor.ClientExecutor
import FluentStf.Executor.Soundness
import FluentStf.Executor.SignedBatch
import FluentStf.Sp1.Main
import FluentStf.Mpt.MultiproofReads
import FluentStf.Executor.ExExDb
import FluentStf.Executor.HostExecutor
import FluentStf.Mpt.Rewrite
import FluentStf.Executor.Replay
import FluentStf.Executor.HostCompleteness
