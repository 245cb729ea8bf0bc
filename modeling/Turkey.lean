import Turkey.Blackscholes.Chunks
import Turkey.Blackscholes.Loader
import Turkey.Canneal.Annealer
import Turkey.Canneal.AtomicPtr
import Turkey.Canneal.Cost
import Turkey.Canneal.Netlist
import Turkey.Dedup.Accept
import Turkey.Dedup.Accesses
import Turkey.Dedup.Anchors
import Turkey.Dedup.Archive
import Turkey.Dedup.Binheap
import Turkey.Dedup.Buffers
import Turkey.Dedup.ContentDefined
import Turkey.Dedup.Conversions
import Turkey.Dedup.Cutters
import Turkey.Dedup.Deadlock
import Turkey.Dedup.Delivery
import Turkey.Dedup.Fingerprint
import Turkey.Dedup.Flow
import Turkey.Dedup.Format
import Turkey.Dedup.Fragment
import Turkey.Dedup.FullQueue
import Turkey.Dedup.Greedy
import Turkey.Dedup.Hashing
import Turkey.Dedup.Hashtable
import Turkey.Dedup.InSequence
import Turkey.Dedup.Lanes
import Turkey.Dedup.Link
import Turkey.Dedup.Lossless
import Turkey.Dedup.Matching
import Turkey.Dedup.Mbuffer
import Turkey.Dedup.Moves
import Turkey.Dedup.Mpmc
import Turkey.Dedup.OneStep
import Turkey.Dedup.Pipeline
import Turkey.Dedup.PriorityQueue
import Turkey.Dedup.Queue
import Turkey.Dedup.Rabin
import Turkey.Dedup.Reorder
import Turkey.Dedup.ReorderStage
import Turkey.Dedup.Resequencer
import Turkey.Dedup.Ringbuffer
import Turkey.Dedup.RoundTrip
import Turkey.Dedup.Scan
import Turkey.Dedup.Sentinel
import Turkey.Dedup.Sha1
import Turkey.Dedup.Sha1Block
import Turkey.Dedup.Simulation
import Turkey.Dedup.Tree
import Turkey.Dedup.TreeMap
import Turkey.Dedup.TwoLevel
import Turkey.Dedup.Wakeups
import Turkey.Dedup.Xio
import Turkey.Fluidanimate.Cellpool
import Turkey.Fluidanimate.Collisions
import Turkey.Fluidanimate.Densities
import Turkey.Fluidanimate.Forces
import Turkey.Fluidanimate.Frames
import Turkey.Fluidanimate.Grids
import Turkey.Fluidanimate.InitSim
import Turkey.Fluidanimate.Invariant
import Turkey.Fluidanimate.PairCounts
import Turkey.Fluidanimate.Physics
import Turkey.Fluidanimate.Rebuild
import Turkey.Fluidanimate.Simulation
import Turkey.Fluidanimate.Sweeps
import Turkey.Fluidanimate.Tiling
import Turkey.Fluidanimate.Walls
import Turkey.Jobs.Job
import Turkey.Jobs.Literals
import Turkey.Jobs.Moldable
import Turkey.Jobs.Parser
import Turkey.Jobs.Task
import Turkey.Jobs.Text
import Turkey.Jobs.Vmstat
import Turkey.Schemes.Accumulate
import Turkey.Schemes.Barriers
import Turkey.Schemes.BinaryPoly
import Turkey.Schemes.Chains
import Turkey.Schemes.Circular
import Turkey.Schemes.Conditions
import Turkey.Schemes.Cursor
import Turkey.Schemes.Facility
import Turkey.Schemes.HeapOrder
import Turkey.Schemes.Locks
import Turkey.Schemes.Monitor
import Turkey.Schemes.Objects
import Turkey.Schemes.Packing
import Turkey.Schemes.ParallelFor
import Turkey.Schemes.Run
import Turkey.Schemes.Segmentation
import Turkey.Schemes.Streaming
import Turkey.Schemes.Tally
import Turkey.Schemes.Transfer
import Turkey.Schemes.Uses
import Turkey.Schemes.WireLength
import Turkey.Schemes.WorkSplit
import Turkey.Server.Client
import Turkey.Server.Deregister
import Turkey.Server.Sched
import Turkey.Server.Stages
import Turkey.Server.Updates
import Turkey.Streamcluster.Candidates
import Turkey.Streamcluster.Centers
import Turkey.Streamcluster.Handshake
import Turkey.Streamcluster.Location
import Turkey.Streamcluster.Median
import Turkey.Streamcluster.Parallel
import Turkey.Streamcluster.ParsecBarrier
import Turkey.Streamcluster.Pgain
import Turkey.Streamcluster.Phases
import Turkey.Streamcluster.Pspeedy
import Turkey.Streamcluster.Rounds
import Turkey.Streamcluster.Speedy
import Turkey.Streamcluster.Stream
import Turkey.Streamcluster.Threads
import Turkey.Swaptions.Worker
