import SysDemos.Lib.Bytes
import SysDemos.Lib.Pipe
import SysDemos.Csapp.Echo
import SysDemos.Csapp.Rio.Blocking
import SysDemos.Csapp.Shellex.Input

/-!
# SysDemos.Csapp.EchoSession

One client of an echo server: `main` of `csapp/network_program/client.cc`, the
connection, and the `echo` of `server.cc` (or of `echo_serverp.cc`, where it is the
same) that serves it.

The two programs run side by side.  A step is a system call of one of them, with
the result that the label gives it, and the local work up to the next one.  A
program that is in a function of the `rio` package is described by the arguments
of the call and the results its system calls have given so far; the function is
the one of `SysDemos.Csapp.Rio`, and the call goes on while that is `none`.

`read` and `write` return short counts and may be interrupted; they block on an
empty or a full stream.  `connect` and `accept` succeed, and the connection does
not fail.
-/

namespace SysDemos.EchoSession

open Posix Rio
open Shellex (fgets)

/-- The string in a buffer. -/
def cstr (buf : List UInt8) : List UInt8 := buf.takeWhile (· ≠ 0)

/-! ## the client -/

/-- Where `main` of the client stands. -/
inductive ClientPc where
  /-- in `open_clientfd` -/
  | connect
  | fgets
  /-- in `rio_writen` -/
  | writen (writes : List WriteRet)
  /-- in `rio_readlineb` -/
  | readlineb (reads : List ReadRet)
  | exited
  deriving DecidableEq, Repr

/-- The client, with what is left of its standard input and what it has printed.  `buf` is the part
of the array that has been written. -/
structure Client where
  pc : ClientPc
  stdin : List UInt8
  buf : List UInt8
  rio : RioT
  stdout : List UInt8
  deriving DecidableEq, Repr

namespace Client

/-- `rio_readlineb(&rio, buf, MAXLINE)`, and `fputs(buf, stdout)` once it has returned: its result
is not looked at. -/
def readlineb (c : Client) (reads : List ReadRet) : Client :=
  match rioReadlineb c.rio maxline reads with
  | none => { c with pc := .readlineb reads }
  | some r =>
    let buf := Bytes.writeAt c.buf 0 r.usrbuf
    { c with pc := .fgets, buf, rio := r.rp, stdout := c.stdout ++ cstr buf }

/-- `rio_writen(clientfd, buf, strlen(buf))`, and on to `rio_readlineb`. -/
def writen (c : Client) (writes : List WriteRet) : Client :=
  match rioWriten c.buf (cstr c.buf).length writes with
  | none => { c with pc := .writen writes }
  | some _ => c.readlineb []

/-- `fgets(buf, MAXLINE, stdin)`, and on to `rio_writen`.  It returns `NULL` if the input is used
up; then the client closes the connection and exits. -/
def fgets (c : Client) : Client :=
  match Shellex.fgets maxline c.stdin with
  | (line, rest, _) =>
    if line = [] then { c with pc := .exited }
    else { c with stdin := rest, buf := line ++ [0] }.writen []

end Client

/-! ## the server's side -/

/-- Where the server stands with a connection. -/
inductive ServerPc where
  /-- there is no connection -/
  | absent
  /-- the connection has not been accepted -/
  | backlog
  /-- in `rio_readlineb` -/
  | readlineb (reads : List ReadRet)
  /-- in `rio_writen` -/
  | writen (writes : List WriteRet)
  /-- `echo` has returned -/
  | close
  | closed
  deriving DecidableEq, Repr

/-- `echo`, with the line it has read and the length that `rio_readlineb` has returned. -/
structure Server where
  pc : ServerPc
  buf : List UInt8
  n : Nat
  rio : RioT
  deriving DecidableEq, Repr

namespace Server

/-- `rio_readlineb(&rio, buf, MAXLINE)`, and on to `rio_writen`, which has something to write. -/
def readlineb (v : Server) (reads : List ReadRet) : Server :=
  match rioReadlineb v.rio maxline reads with
  | none => { v with pc := .readlineb reads }
  | some r =>
    if r.ret ≠ 0 then { pc := .writen [], buf := r.usrbuf, n := sizeT r.ret, rio := r.rp }
    else { v with pc := .close, rio := r.rp }

/-- `rio_writen(connfd, buf, n)`, and back to `rio_readlineb`. -/
def writen (v : Server) (writes : List WriteRet) : Server :=
  match rioWriten v.buf v.n writes with
  | none => { v with pc := .writen writes }
  | some _ => v.readlineb []

/-- The beginning of `echo`, with what its `rio_t` happens to hold. -/
def accept (v : Server) (rp : RioT) (connfd : Int) : Server :=
  { v with rio := rioReadinitb rp connfd }.readlineb []

end Server

/-! ## the session -/

/-- A client and its connection. -/
structure Session where
  client : Client
  server : Server
  toServer : Pipe
  toClient : Pipe
  deriving DecidableEq, Repr

/-- The system calls. -/
inductive Label where
  | connect (clientfd : Int)
  | fgets
  | clientWrite (r : WriteRet)
  | clientRead (r : ReadRet)
  | accept (rp : RioT) (connfd : Int)
  | serverRead (r : ReadRet)
  | serverWrite (r : WriteRet)
  | close
  deriving DecidableEq, Repr

/-- The result of a system call that has been interrupted. -/
def Label.interrupted : Label → Bool
  | .clientWrite (.fail .EINTR) => true
  | .clientRead (.err .EINTR) => true
  | .serverRead (.err .EINTR) => true
  | .serverWrite (.fail .EINTR) => true
  | _ => false

/-- Who makes the call. -/
def Label.byServer : Label → Bool
  | .accept _ _ => true
  | .serverRead _ => true
  | .serverWrite _ => true
  | .close => true
  | _ => false

/-- The stream after a `write` of the bytes `offered`. -/
def writeTo (cap : Nat) (p : Pipe) (offered : List UInt8) : WriteRet → Option Pipe
  | .ret n => if n ≤ offered.length then p.write cap (offered.take n) else none
  | .fail .EINTR => some p
  | .fail _ => none

/-- The stream after a `read` into the buffer of a `rio_t`. -/
def readFrom (p : Pipe) : ReadRet → Option Pipe
  | .ret bs => p.read rioBufsize bs
  | .err .EINTR => some p
  | .err _ => none

namespace Session

/-- The client before `open_clientfd`, with `stdin` before it. -/
def start (rp : RioT) (stdin : List UInt8) : Session :=
  { client := { pc := .connect, stdin, buf := [], rio := rp, stdout := [] }
    server := { pc := .absent, buf := [], n := 0, rio := rp }
    toServer := .opened, toClient := .opened }

/-- One step, on streams with room for `cap` bytes. -/
def step (cap : Nat) (s : Session) : Label → Option Session
  | .connect clientfd =>
    if s.client.pc = .connect then
      some { s with
        client := { s.client with pc := .fgets, rio := rioReadinitb s.client.rio clientfd }
        server := { s.server with pc := .backlog } }
    else none
  | .fgets =>
    if s.client.pc = .fgets then
      let c := s.client.fgets
      some { s with
        client := c, toServer := if c.pc = .exited then s.toServer.close else s.toServer }
    else none
  | .clientWrite r =>
    match s.client.pc with
    | .writen writes =>
      (writeTo cap s.toServer ((cstr s.client.buf).drop (taken writes)) r).map fun p =>
        { s with client := s.client.writen (writes ++ [r]), toServer := p }
    | _ => none
  | .clientRead r =>
    match s.client.pc with
    | .readlineb reads =>
      (readFrom s.toClient r).map fun p =>
        { s with client := s.client.readlineb (reads ++ [r]), toClient := p }
    | _ => none
  | .accept rp connfd =>
    if s.server.pc = .backlog then some { s with server := s.server.accept rp connfd } else none
  | .serverRead r =>
    match s.server.pc with
    | .readlineb reads =>
      (readFrom s.toServer r).map fun p =>
        { s with server := s.server.readlineb (reads ++ [r]), toServer := p }
    | _ => none
  | .serverWrite r =>
    match s.server.pc with
    | .writen writes =>
      (writeTo cap s.toClient ((s.server.buf.take s.server.n).drop (taken writes)) r).map fun p =>
        { s with server := s.server.writen (writes ++ [r]), toClient := p }
    | _ => none
  | .close =>
    if s.server.pc = .close then
      some { s with server := { s.server with pc := .closed }, toClient := s.toClient.close }
    else none

end Session
end SysDemos.EchoSession
