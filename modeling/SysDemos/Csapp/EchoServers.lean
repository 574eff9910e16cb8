import SysDemos.Csapp.Rio

/-!
# SysDemos.Csapp.EchoServers

The event-driven echo server of `csapp/concurrent_program/echoservers.cc`:
a pool of clients watched by `select`, one line echoed to each ready client
in a round of the loop of `main`.

The connections are modelled from the outside by what their `read` and
`write` calls will return (`Client.input`, `Client.output`); the history of
a connection is what its `read` calls have returned and what has been
written to it.  A round in which a call blocks for ever gives `none`.
-/

namespace SysDemos.EchoServers

open Rio

/-- `FD_SETSIZE`: slots of the pool, and bits of an `fd_set`. -/
def fdSetsize : Nat := 1024

/-- `pool`. -/
structure Pool where
  maxfd : Int
  readSet : Finset Int
  readySet : Finset Int
  nready : Int
  maxi : Int
  clientfd : Nat → Int
  clientrio : Nat → RioT

/-- `init_pool`, on the zeroed static `pool` of `main`. -/
def initPool (listenfd : Int) : Pool :=
  { maxfd := listenfd, readSet := {listenfd}, readySet := ∅, nready := 0, maxi := -1
    clientfd := fun _ => -1
    clientrio := fun _ => { rioFd := 0, rioCnt := 0, rioBufptr := 0, rioBuf := [] } }

/-- The first slot from `i` on, among `k`, that satisfies `f`. -/
def findSlot (f : Nat → Bool) : Nat → Nat → Option Nat
  | 0, _ => none
  | k + 1, i => if f i then some i else findSlot f k (i + 1)

/-- The first free slot, if there is one. -/
def Pool.freeSlot (p : Pool) : Option Nat := findSlot (fun i => p.clientfd i < 0) fdSetsize 0

/-- The pool with `connfd` in slot `i`. -/
def Pool.added (p : Pool) (i : Nat) (connfd : Int) : Pool :=
  { p with
    nready := p.nready - 1
    clientfd := Function.update p.clientfd i connfd
    clientrio := Function.update p.clientrio i (rioReadinitb (p.clientrio i) connfd)
    readSet := insert connfd p.readSet
    maxfd := if connfd > p.maxfd then connfd else p.maxfd
    maxi := if (i : Int) > p.maxi then i else p.maxi }

/-- `add_client`; without a free slot only `nready` changes. -/
def addClient (connfd : Int) (p : Pool) : Pool :=
  match p.freeSlot with
  | none => { p with nready := p.nready - 1 }
  | some i => p.added i connfd

/-- A client: the results of the calls on its connection still to come,
and the history of the connection. -/
structure Client where
  input : List ReadRet
  output : List WriteRet
  /-- results of the `read` calls so far -/
  returned : List ReadRet
  /-- bytes written so far -/
  echoed : List UInt8

/-- The server with its clients; `conn` gives the client at the other end
of an open connected descriptor. -/
structure Server where
  listenfd : Int
  pool : Pool
  byteCnt : Int
  conn : Int → Option Nat
  clients : Nat → Client
  nclients : Nat

/-- All the bytes the client sends. -/
def Client.sent (c : Client) : List UInt8 := dataOf (c.returned ++ c.input)

/-- The unread bytes in the pool entry of client `c`. -/
def Server.held (s : Server) (c : Nat) : List UInt8 :=
  match findSlot (fun i => s.pool.clientfd i > 0 && s.conn (s.pool.clientfd i) = some c)
      fdSetsize 0 with
  | none => []
  | some i => (s.pool.clientrio i).unread

/-- `main` before its first round. -/
def init (listenfd : Int) : Server :=
  { listenfd := listenfd, pool := initPool listenfd, byteCnt := 0, conn := fun _ => none
    clients := fun _ => { input := [], output := [], returned := [], echoed := [] }
    nclients := 0 }

/-- Client `c` after a line read from its connection: the calls that the
reader made have moved from the future into the history. -/
def Client.afterRead (c : Client) (r : Res) : Client :=
  { c with input := r.rest
           returned := c.returned ++ c.input.take (c.input.length - r.rest.length) }

/-- The body of the loop of `check_clients` for slot `i`.  The line is read
through `rio`, a copy of the pool entry, which is not copied back. -/
def checkClient (s : Server) (i : Nat) : Option Server :=
  let connfd := s.pool.clientfd i
  let rio := s.pool.clientrio i
  if connfd > 0 ∧ connfd ∈ s.pool.readySet then
    match s.conn connfd with
    | none => none
    | some c =>
      match rioReadlineb rio maxline (s.clients c).input with
      | none => none
      | some r =>
        let client := (s.clients c).afterRead r
        if r.ret ≠ 0 then
          match rioWriten r.usrbuf (sizeT r.ret) client.output with
          | none => none
          | some (_, out, rest) =>
            some { s with
              pool := { s.pool with nready := s.pool.nready - 1 }
              byteCnt := s.byteCnt + r.ret
              clients := Function.update s.clients c
                { client with output := rest, echoed := client.echoed ++ out } }
        else
          some { s with
            pool := { s.pool with
              nready := s.pool.nready - 1
              readSet := s.pool.readSet.erase connfd
              clientfd := Function.update s.pool.clientfd i (-1) }
            conn := Function.update s.conn connfd none
            clients := Function.update s.clients c client }
  else some s

/-- The loop of `check_clients` from slot `i` on, for `k` more slots. -/
def checkLoop : Nat → Nat → Server → Option Server
  | 0, _, s => some s
  | k + 1, i, s =>
    if (i : Int) ≤ s.pool.maxi ∧ s.pool.nready > 0 then
      match checkClient s i with
      | none => none
      | some s' => checkLoop k (i + 1) s'
    else some s

/-- `check_clients`: the slots `0 .. maxi`. -/
def checkClients (s : Server) : Option Server := checkLoop (s.pool.maxi + 1).toNat 0 s

/-- What the environment decides in a round: the result of `select` (`none`
when it fails) and, should `accept` be called, the descriptor it returns
and the behaviour of the new connection. -/
structure Round where
  ready : Option (Finset Int)
  connfd : Int
  input : List ReadRet
  output : List WriteRet
  deriving DecidableEq

/-- `select`: it overwrites `ready_set`; when it fails it leaves the set as
it was passed. -/
def Server.select (s : Server) (ready : Option (Finset Int)) : Server :=
  match ready with
  | some set => { s with pool := { s.pool with readySet := set, nready := set.card } }
  | none => { s with pool := { s.pool with readySet := s.pool.readSet, nready := -1 } }

/-- `accept` and `add_client`. -/
def Server.accept (s : Server) (r : Round) : Server :=
  { s with
    pool := addClient r.connfd s.pool
    conn := Function.update s.conn r.connfd (some s.nclients)
    clients := Function.update s.clients s.nclients
      { input := r.input, output := r.output, returned := [], echoed := [] }
    nclients := s.nclients + 1 }

/-- One round of the loop of `main`.  The kernel reports only watched
descriptors and accepts on a descriptor that is not open; the process may
not open more than `FD_SETSIZE` descriptors.  A failing `accept` is left out:
`main` does not notice it, and what `FD_SET` does with `-1` in `add_client` is
not defined. -/
def round (s : Server) (r : Round) : Option Server :=
  if r.ready.all (fun set => decide (set ⊆ s.pool.readSet)) then
    let s := s.select r.ready
    if s.listenfd ∈ s.pool.readySet then
      if 0 < r.connfd ∧ r.connfd < fdSetsize ∧ r.connfd ≠ s.listenfd ∧
          s.conn r.connfd = none then
        checkClients (s.accept r)
      else none
    else checkClients s
  else none

end SysDemos.EchoServers
