import SysDemos.Lib.Lts
import SysDemos.Lib.Threads
import SysDemos.Lib.Children
import SysDemos.Lib.Refinement
import SysDemos.Lib.Slots
import SysDemos.Lib.CString
import SysDemos.Csapp.Sbuf
import SysDemos.Csapp.Sbuf.Balance
import SysDemos.Csapp.Sbuf.Fifo
import SysDemos.Csapp.Sbuf.Indices
import SysDemos.Csapp.Sbuf.Progress
import SysDemos.Csapp.Sbuf.OneSlot
import SysDemos.Csapp.Rio
import SysDemos.Csapp.Rio.Conservation
import SysDemos.Csapp.Rio.Fragmentation
import SysDemos.Csapp.EchoServers
import SysDemos.Csapp.EchoServers.Steps
import SysDemos.Csapp.EchoServers.Fidelity
import SysDemos.Csapp.EchoServers.Pool
import SysDemos.Csapp.EchoServers.Rounds
import SysDemos.Csapp.EchoServers.Limit
import SysDemos.Csapp.Echo
import SysDemos.Csapp.Echo.FailedRead
import SysDemos.Csapp.Select
import SysDemos.Csapp.EchoServerp
import SysDemos.Csapp.Procmask2
import SysDemos.Csapp.Shellex
import SysDemos.Csapp.Shellex.Parseline
import SysDemos.Csapp.Shellex.Eval
import SysDemos.Csapp.Shellex.Input
import SysDemos.HotUpgrade.InetConn
import SysDemos.HotUpgrade.Receiver
import SysDemos.HotUpgrade.Receiver.Bounds
import SysDemos.HotUpgrade.Receiver.Close
import SysDemos.HotUpgrade.UnixSocket
import SysDemos.HotUpgrade.SendFd
import SysDemos.HotUpgrade.Server
import SysDemos.HotUpgrade.Receiver.Wakeup
import SysDemos.HotUpgrade.Server.Steps
import SysDemos.HotUpgrade.Server.Frame
import SysDemos.HotUpgrade.Server.Isolation
import SysDemos.HotUpgrade.Server.Failure
import SysDemos.HotUpgrade.Server.Dispatch
import SysDemos.HotUpgrade.Server.Roles
import SysDemos.HotUpgrade.System
import SysDemos.HotUpgrade.Client
import SysDemos.HotUpgrade.Session
import SysDemos.HotUpgrade.Receiver.Framing
import SysDemos.HotUpgrade.Server.Sessions
import SysDemos.HotUpgrade.System.Steps
import SysDemos.HotUpgrade.System.Framing
import SysDemos.HotUpgrade.System.LockStep
import SysDemos.HotUpgrade.System.InFlight
import SysDemos.HotUpgrade.System.Live
import SysDemos.HotUpgrade.System.Listener
import SysDemos.HotUpgrade.System.Clients
import SysDemos.HotUpgrade.System.Owners
import SysDemos.HotUpgrade.System.Transparency
import SysDemos.HotUpgrade.System.Transmission
import SysDemos.HotUpgrade.Server.Accounting
import SysDemos.HotUpgrade.Receiver.Departure
import SysDemos.HotUpgrade.Receiver.Phases
import SysDemos.Csapp.EchoSession
import SysDemos.Csapp.EchoSession.Stages
import SysDemos.Csapp.EchoSession.Progress
import SysDemos.Csapp.EchoSession.Iterative
import SysDemos.Csapp.EchoServerp.Steps
import SysDemos.Csapp.EchoSession.Forking
import SysDemos.Csapp.Procmask1
import SysDemos.Csapp.Sigchld
import SysDemos.Csapp.Waitpid1
import SysDemos.Csapp.EchoServerp.Descriptors
import SysDemos.HotUpgrade.Server.Draining
import SysDemos.HotUpgrade.System.ClientMain
import SysDemos.HotUpgrade.Rendezvous
