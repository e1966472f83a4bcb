import ConcurrencyLab.Lts
import ConcurrencyLab.Walk
import ConcurrencyLab.Relaxation
import ConcurrencyLab.Topology
import ConcurrencyLab.Solution
import ConcurrencyLab.HopCount
import ConcurrencyLab.Router
import ConcurrencyLab.Buffer
import ConcurrencyLab.System
import ConcurrencyLab.Transition
import ConcurrencyLab.Loop
import ConcurrencyLab.Sound
import ConcurrencyLab.Pipeline
import ConcurrencyLab.Quiescence
import ConcurrencyLab.Asynchronous
import ConcurrencyLab.History
import ConcurrencyLab.Reuse
import ConcurrencyLab.Probe
import ConcurrencyLab.Progress
import ConcurrencyLab.Termination
import ConcurrencyLab.Liveness
import ConcurrencyLab.Detection
import ConcurrencyLab.Acceptance
import ConcurrencyLab.Shutdown
import ConcurrencyLab.Fifo
import ConcurrencyLab.Queue
import ConcurrencyLab.RingBuffer
import ConcurrencyLab.DriverQueue
import ConcurrencyLab.EpochCheck
import ConcurrencyLab.MatrixMemory
import ConcurrencyLab.QuietCall
import ConcurrencyLab.Finish
import ConcurrencyLab.OneWay
import ConcurrencyLab.Rendezvous
import ConcurrencyLab.Fairness
import ConcurrencyLab.LightLinks
import ConcurrencyLab.Scan
import ConcurrencyLab.Numerals
import ConcurrencyLab.TopologyFile
import ConcurrencyLab.TopologyText
import ConcurrencyLab.Generator
import ConcurrencyLab.GeneratedRun
import ConcurrencyLab.SizeLoop
import ConcurrencyLab.TopologyBlocks
