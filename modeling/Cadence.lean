import Cadence.Bench.Lemmas.DiskVerdict
import Cadence.Spsc.Lemmas.WaitFree
import Cadence.Bench.Lemmas.Knobs
import Cadence.Bus.Lemmas.OneSub
import Cadence.Bus.Lemmas.Progress
import Cadence.Persist.Lemmas.Backlog
import Cadence.Persist.Lemmas.Faults
import Cadence.Spsc.Lemmas.Abandoned
import Cadence.Persist.Lemmas.Memory
import Cadence.Persist.Lemmas.Recovery
import Cadence.Bench.Lemmas.Workload
import Cadence.Bench.Lemmas.Crossbeam
import Cadence.Bench.Lemmas.Latency
import Cadence.OpenLoop.Samples
import Cadence.Bench.Lemmas.Base64
import Cadence.Bench.Lemmas.PersistVerify
import Cadence.Bench.Lemmas.Shutdown
import Cadence.Bench.Lemmas.TailBench
import Cadence.Bus.Lemmas.Enumeration
import Cadence.Bus.Lemmas.Isolation
import Cadence.Bus.Lemmas.Routing
import Cadence.Bus.Lemmas.Timestamps
import Cadence.Bus.Lemmas.Topic
import Cadence.Message.Lemmas.Views
import Cadence.Persist.Lemmas.CleanRing
import Cadence.Persist.Lemmas.Retry
import Cadence.Persist.Lemmas.Sessions
import Cadence.Persist.Lemmas.StdCalls
import Cadence.Spsc.Lemmas.Blocking
import Cadence.Spsc.Lemmas.Delayed
import Cadence.Spsc.Lemmas.Handles
import Cadence.Spsc.Lemmas.Fresh
