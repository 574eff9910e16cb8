import SysDemos.Lib.Lts
import SysDemos.Lib.Threads

/-!
# SysDemos.Csapp.Sbuf

The shared bounded buffer of `csapp/concurrent_program/sbuf.c` under
arbitrary interleaving.

A thread runs a finite program of `sbuf_insert` / `sbuf_remove` calls.  The
steps of the model are the ones other threads can come between: each `P`,
each `V`, and each memory access of the critical section — `++sp->rear` is
a load followed by a store, and the access of the slot is a third step.
The semaphores themselves are atomic.

`front` and `rear` are C `int`s: the increment wraps at 32 bits (`incr`),
and `%` is the truncating remainder of C (`Int.tmod`).  The history
variables of `State` record the calls that have started, the order of the
increments of the two counters, and the items stored and taken.
-/

namespace SysDemos.Sbuf

open Lts Threads

/-- `sbuf_t`.  The array is the memory at the offsets from `buf`: nothing
in the code checks an index against `n`. -/
structure SbufT where
  buf : Int → Int
  n : Int
  front : Int
  rear : Int
  mutex : Nat
  slots : Nat
  items : Nat

/-- `sbuf_init`: the array is zeroed by `calloc`. -/
def sbufInit (n : Int) : SbufT :=
  { buf := fun _ => 0, n := n, front := 0, rear := 0, mutex := 1, slots := n.toNat, items := 0 }

/-- `++x` on a 32-bit signed `int`. -/
def incr (x : Int) : Int := Int.bmod (x + 1) (2 ^ 32)

/-- A call in a thread's program. -/
inductive Op where
  | insert (item : Int)
  | remove
  deriving DecidableEq, Repr

/-- Where a thread is: between calls, or before the named access of
`sbuf_insert` (`ins`) or `sbuf_remove` (`rem`). -/
inductive Pc where
  | idle
  | insSlots (item : Int)            -- P(&sp->slots)
  | insLock (item : Int)             -- P(&sp->mutex)
  | insLoad (item : Int)             -- read sp->rear
  | insBump (item r : Int)           -- sp->rear = r + 1
  | insStore (item x : Int)          -- sp->buf[x % sp->n] = item
  | insUnlock                        -- V(&sp->mutex)
  | insItems                         -- V(&sp->items)
  | remItems                         -- P(&sp->items)
  | remLock                          -- P(&sp->mutex)
  | remLoad                          -- read sp->front
  | remBump (r : Int)                -- sp->front = r + 1
  | remTake (x : Int)                -- item = sp->buf[x % sp->n]
  | remUnlock (item : Int)           -- V(&sp->mutex)
  | remSlots (item : Int)            -- V(&sp->slots)
  deriving DecidableEq, Repr

/-- A thread: the calls still to make and the position in the current one. -/
structure Thread where
  prog : List Op
  pc : Pc

/-- One entry of the history of the buffer: who accessed which slot, and
the value stored or read there. -/
structure Access (ι : Type*) where
  thread : ι
  value : Int
  slot : Int

/-- The buffer, the threads, and the history variables. -/
structure State (ι : Type*) where
  sp : SbufT
  threads : ι → Thread
  /-- calls of `sbuf_insert` / `sbuf_remove` that have started -/
  insStarted : Nat
  remStarted : Nat
  /-- threads in the order of their increments of `rear` / `front` -/
  rearOrder : List ι
  frontOrder : List ι
  /-- slot accesses of `sbuf_insert` / `sbuf_remove`, in order -/
  stored : List (Access ι)
  taken : List (Access ι)

variable {ι : Type*} [DecidableEq ι]

/-- All threads before their first call on a fresh buffer. -/
def init (n : Int) (progs : ι → List Op) : State ι :=
  { sp := sbufInit n, threads := fun i => ⟨progs i, .idle⟩, insStarted := 0, remStarted := 0,
    rearOrder := [], frontOrder := [], stored := [], taken := [] }

/-- Two producers and a consumer. -/
def producersAndConsumer (i : Fin 3) : List Op :=
  if i = 2 then [.remove] else [.insert (5 + i.val)]

/-- Thread `i` moves on to `pc`. -/
def State.goto (s : State ι) (i : ι) (pc : Pc) : State ι :=
  { s with threads := Function.update s.threads i { s.threads i with pc := pc } }

/-- Thread `i` starts the call `op`, leaving `prog` for later. -/
def State.call (s : State ι) (i : ι) (op : Op) (prog : List Op) : State ι :=
  match op with
  | .insert item =>
    { s with threads := Function.update s.threads i ⟨prog, .insSlots item⟩
             insStarted := s.insStarted + 1 }
  | .remove =>
    { s with threads := Function.update s.threads i ⟨prog, .remItems⟩
             remStarted := s.remStarted + 1 }

/-- One step of thread `i`; `none` when it is blocked at a `P` or done. -/
def step (s : State ι) (i : ι) : Option (State ι) :=
  let sp := s.sp
  match (s.threads i).pc with
  | .idle =>
    match (s.threads i).prog with
    | [] => none
    | op :: prog => some (s.call i op prog)
  -- sbuf_insert
  | .insSlots item =>
    if 0 < sp.slots then
      some { s.goto i (.insLock item) with sp := { sp with slots := sp.slots - 1 } }
    else none
  | .insLock item =>
    if 0 < sp.mutex then
      some { s.goto i (.insLoad item) with sp := { sp with mutex := sp.mutex - 1 } }
    else none
  | .insLoad item => some (s.goto i (.insBump item sp.rear))
  | .insBump item r =>
    some { s.goto i (.insStore item (incr r)) with
           sp := { sp with rear := incr r }
           rearOrder := s.rearOrder ++ [i] }
  | .insStore item x =>
    some { s.goto i .insUnlock with
           sp := { sp with buf := Function.update sp.buf (x.tmod sp.n) item }
           stored := s.stored ++ [⟨i, item, x.tmod sp.n⟩] }
  | .insUnlock => some { s.goto i .insItems with sp := { sp with mutex := sp.mutex + 1 } }
  | .insItems => some { s.goto i .idle with sp := { sp with items := sp.items + 1 } }
  -- sbuf_remove
  | .remItems =>
    if 0 < sp.items then
      some { s.goto i .remLock with sp := { sp with items := sp.items - 1 } }
    else none
  | .remLock =>
    if 0 < sp.mutex then
      some { s.goto i .remLoad with sp := { sp with mutex := sp.mutex - 1 } }
    else none
  | .remLoad => some (s.goto i (.remBump sp.front))
  | .remBump r =>
    some { s.goto i (.remTake (incr r)) with
           sp := { sp with front := incr r }
           frontOrder := s.frontOrder ++ [i] }
  | .remTake x =>
    some { s.goto i (.remUnlock (sp.buf (x.tmod sp.n))) with
           taken := s.taken ++ [⟨i, sp.buf (x.tmod sp.n), x.tmod sp.n⟩] }
  | .remUnlock item =>
    some { s.goto i (.remSlots item) with sp := { sp with mutex := sp.mutex + 1 } }
  | .remSlots _ => some { s.goto i .idle with sp := { sp with slots := sp.slots + 1 } }

end SysDemos.Sbuf
