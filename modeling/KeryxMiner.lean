import KeryxMiner.Runs
import KeryxMiner.ChainOrder
import KeryxMiner.Table
import KeryxMiner.Directory
import KeryxMiner.Text
import KeryxMiner.Format
import KeryxMiner.LineFile
import KeryxMiner.Outcome
import KeryxMiner.Lookups
import KeryxMiner.LowMask
import KeryxMiner.LittleEndian
import KeryxMiner.BigEndian
import KeryxMiner.Bytes
import KeryxMiner.Aead
import KeryxMiner.Limbs
import KeryxMiner.Framing
import KeryxMiner.Keccak
import KeryxMiner.Blocks
import KeryxMiner.Wire
import KeryxMiner.Borsh
import KeryxMiner.ReadWalk
import KeryxMiner.MerkleTree
import KeryxMiner.MerkleBinding
import KeryxMiner.Escrow.Basic
import KeryxMiner.Escrow.Json
import KeryxMiner.Escrow.Select
import KeryxMiner.Escrow.Claim
import KeryxMiner.Escrow.Watcher
import KeryxMiner.Escrow.Moves
import KeryxMiner.Escrow.Run
import KeryxMiner.Escrow.Batches
import KeryxMiner.Escrow.Starvation
import KeryxMiner.Escrow.Txid
import KeryxMiner.Escrow.Address
import KeryxMiner.Escrow.Invariants
import KeryxMiner.Escrow.Tracking
import KeryxMiner.Escrow.InFlight
import KeryxMiner.Escrow.Response
import KeryxMiner.Escrow.Slashing
import KeryxMiner.Escrow.RedSweep
import KeryxMiner.Escrow.Clock
import KeryxMiner.Escrow.Bisection
import KeryxMiner.Escrow.Journal
import KeryxMiner.Stratum.Basic
import KeryxMiner.Stratum.Replies
import KeryxMiner.Stratum.Traces
import KeryxMiner.Stratum.TraceStore
import KeryxMiner.Stratum.Target
import KeryxMiner.Stratum.Difficulty
import KeryxMiner.Pow.Header
import KeryxMiner.Work.Basic
import KeryxMiner.Work.Range
import KeryxMiner.Work.Nonces
import KeryxMiner.Work.WatchSteps
import KeryxMiner.Work.WatchRuns
import KeryxMiner.Requests.Basic
import KeryxMiner.Requests.Queue
import KeryxMiner.Worklist
import KeryxMiner.Requests.BackfillRuns
import KeryxMiner.Trace.Basic
import KeryxMiner.Trace.Client
import KeryxMiner.Trace.ChainLog
import KeryxMiner.Trace.Acceptance
import KeryxMiner.Trace.Draws
import KeryxMiner.Trace.Kept
import KeryxMiner.Trace.Openings
import KeryxMiner.Pom.Basic
import KeryxMiner.Pom.Index
import KeryxMiner.Pom.Walk
import KeryxMiner.Pom.Tiles
import KeryxMiner.Pom.Proofs
import KeryxMiner.Pom.Soundness
import KeryxMiner.Pom.Ranges
import KeryxMiner.Pom.Steps
import KeryxMiner.Pom.Wire
import KeryxMiner.Openings.Basic
import KeryxMiner.Openings.Codec
import KeryxMiner.Openings.RoundTrip
import KeryxMiner.Openings.Canonical
import KeryxMiner.Openings.Seeded
import KeryxMiner.Openings.Bundle
import KeryxMiner.RangeTree
import KeryxMiner.Inference.Merkle
import KeryxMiner.Inference.Chunks
import KeryxMiner.Inference.RangeProof
import KeryxMiner.Inference.Spans
import KeryxMiner.Inference.Manifest
import KeryxMiner.Inference.ChainBytes
import KeryxMiner.Inference.ManifestBytes
import KeryxMiner.Inference.Draws
import KeryxMiner.Inference.Verify
import KeryxMiner.Replay.Record
import KeryxMiner.Replay.Point
import KeryxMiner.Replay.Recorded
import KeryxMiner.Replay.Site
import KeryxMiner.Replay.ChainDraw
import KeryxMiner.Replay.ChainOpening
import KeryxMiner.Replay.Accepted
import KeryxMiner.Inference.BlockTree
import KeryxMiner.Inference.BlockPartition
import KeryxMiner.Inference.BlockWords
import KeryxMiner.Inference.BlockSizes
import KeryxMiner.Inference.Attention
import KeryxMiner.Replay.SeqParts
import KeryxMiner.Replay.AttnDraw
import KeryxMiner.Replay.AttnMatches
import KeryxMiner.Replay.Leaves
import KeryxMiner.Replay.AttnChecks
import KeryxMiner.Replay.AttnAccepted
import KeryxMiner.Inference.Recurrent
import KeryxMiner.Replay.RecurDraw
import KeryxMiner.Replay.RecurMatches
import KeryxMiner.Replay.RecurAccepted
import KeryxMiner.Engine.TraceConfig
import KeryxMiner.Engine.Stop
import KeryxMiner.Engine.Replays
import KeryxMiner.Assign
import KeryxMiner.Weighted
import KeryxMiner.Inference.Answer
import KeryxMiner.Inference.Sites
import KeryxMiner.Engine.SeqPlaces
import KeryxMiner.Ipfs.Base58
import KeryxMiner.Private.Payload
import KeryxMiner.Private.Codec
import KeryxMiner.Private.Keys
import KeryxMiner.Private.Envelope
import KeryxMiner.Private.Seal
import KeryxMiner.Private.Sealed
import KeryxMiner.Segments
import KeryxMiner.Vulkan.SegTable
import KeryxMiner.Vulkan.PadV5
import KeryxMiner.Vulkan.SeedV4
import KeryxMiner.MachineWords
import KeryxMiner.SharedMemory
import KeryxMiner.Vulkan.WalkV4
import KeryxMiner.Vulkan.WalkStep
import KeryxMiner.Vulkan.WalkAgrees
import KeryxMiner.Pow.Hasher
import KeryxMiner.Pow.HeavyHash
import KeryxMiner.Vulkan.Khh
import KeryxMiner.Vulkan.KhhAgrees
import KeryxMiner.Inference.LayoutWords
import KeryxMiner.Inference.LeafSites
import KeryxMiner.Replay.ChainRecord
import KeryxMiner.Trace.Placing
import KeryxMiner.Pom.Eras
import KeryxMiner.Vulkan.MineV4
import KeryxMiner.Vulkan.MineAgrees
import KeryxMiner.Pow.Generate
import KeryxMiner.Pow.Winners
import KeryxMiner.Vulkan.MineBlock
import KeryxMiner.Stepwise
import KeryxMiner.Pom.Lineup
import KeryxMiner.ByteMemory
import KeryxMiner.Vulkan.Upload
import KeryxMiner.Vulkan.PomGpu
import KeryxMiner.Vulkan.PomGpuRuns
