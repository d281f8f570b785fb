import LiberalOS.Cache.Freshness
import LiberalOS.Cache.Exactness
import LiberalOS.Cache.RoleIsolation
import LiberalOS.Cache.Durability
import LiberalOS.Cache.Promotion
import LiberalOS.Cache.LastWriter
import LiberalOS.Cache.Paraphrase
import LiberalOS.Cache.Framing
import LiberalOS.Cache.BlockOverlay
import LiberalOS.Cache.Tiers
import LiberalOS.Cache.FieldBounds
import LiberalOS.Kernel.Quota
import LiberalOS.Kernel.ProxyLock
import LiberalOS.Kernel.RoundRobin
import LiberalOS.Kernel.AgentMeta
import LiberalOS.Kernel.Checkpoint
import LiberalOS.Kernel.Verdicts
import LiberalOS.Kernel.ConsoleWrite
import LiberalOS.Proxy.ByValue
import LiberalOS.Proxy.Pairing
import LiberalOS.Proxy.ErrorCaching
import LiberalOS.Agents.Stages
import LiberalOS.Agents.Amendment
import LiberalOS.Proxy.Crossing
import LiberalOS.Proxy.RequestFrames
import LiberalOS.Proxy.Codec
import LiberalOS.Proxy.SendBuffer
import LiberalOS.Proxy.RecvBuffer
import LiberalOS.Syscalls.StackBytes
import LiberalOS.Syscalls.Setrole
import LiberalOS.Syscalls.Agentstat
import LiberalOS.Host.WaitFor
import LiberalOS.Host.Triage
import LiberalOS.Host.Proxytest
import LiberalOS.Host.Priotest
import LiberalOS.Bench.EvalRetry
import LiberalOS.Kernel.LogProgress
import LiberalOS.Kernel.Pipe
import LiberalOS.Kernel.Family
import LiberalOS.Agents.Wiring
