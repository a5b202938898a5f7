/-
The servers on the event loop: `reactor_common.c`, `reactor_epoll.c`, `coro.c`, `netutil.c`, and
the coroutines of `ws.c` and `http.c`.

One thread runs everything. It is in the main context (the script, a timer callback, the loop of
`reactor_run`), or in a coroutine that stays in control until it awaits a descriptor or ends.
What the system calls return is part of the events; the bytes that are read are left out, as
which of them arrive is up to the peer.

* `Phase` — where a coroutine stands in `ws_conn_entry`, `http_conn_entry` or an accept loop;
* `Server`, `ServerEvent` — the state, and what may happen;
* `Server.Enabled`, `Server.after` — when it may happen, and what it leads to;
* `serverSystem` — the transition system.
-/
import Jaguar.Runs
import Jaguar.WsFrames
import Mathlib.Data.List.Nodup
import Mathlib.Logic.Function.Basic

namespace Jaguar

/-- The bytes that `ws_write_frame` writes. -/
def wsWriteFrame (opcode : ℕ) (payload : Text) : Text :=
  let len := payload.length
  let lengthBytes : Text :=
    if len < 126 then [UInt8.ofNat len]
    else if len < 65536 then [126, UInt8.ofNat (len >>> 8), UInt8.ofNat len]
    else 127 :: (List.range 8).map fun i => UInt8.ofNat (len >>> (8 * (7 - i)))
  UInt8.ofNat (0x80 ||| (opcode &&& 0x0F)) :: (lengthBytes ++ payload)

/-! ### The state -/

inductive Kind
  | http
  | ws
  deriving DecidableEq

/-- `REACTOR_READABLE` and `REACTOR_WRITABLE`. -/
inductive Interest
  | readable
  | writable
  deriving DecidableEq

/-- What a descriptor stands for: a listening socket, the socket of a connection (named by the
coroutine that serves it), or something that the servers have nothing to do with. -/
inductive File
  | other
  | listener (k : Kind)
  | socket (co : ℕ)
  deriving DecidableEq

/-- Who calls `net_write_all`: `ws.send` and `ws.close` on connection `c`, the frame loop of a
connection, or a handshake or an HTTP connection. -/
inductive Purpose
  | response
  | pong
  | answerClose (c : ℕ)
  | send (c : ℕ)
  | close (c : ℕ)
  deriving DecidableEq

/-- A call of `net_write_all`. -/
structure Write where
  fd : ℕ
  data : Text
  sent : ℕ
  purpose : Purpose
  deriving DecidableEq

/-- Where a coroutine stands. The descriptor is its local `fd`, and `c` its `native`. -/
inductive Phase
  | unborn
  | listening (k : Kind)
  | accepting (k : Kind)
  | request (k : Kind) (fd : ℕ)
  | handler (fd : ℕ)
  | responding (fd : ℕ)
  | upgrading (fd : ℕ)
  | routeHandler (fd c : ℕ)
  | frames (fd c : ℕ)
  | message (fd c : ℕ)
  | pong (fd c : ℕ)
  | closeFrame (fd c : ℕ)
  | leaving (fd c : ℕ)
  | onClose (fd c : ℕ)
  | closing (fd : ℕ)
  | done
  deriving DecidableEq

/-- A connection coroutine owns the descriptor that it was started with until it closes it. -/
inductive Life
  | unborn
  | accepts
  | owns (fd : ℕ)
  | done
  deriving DecidableEq

structure Coro where
  phase : Phase
  write : Option Write
  awaiting : Option (ℕ × Interest)
  deriving DecidableEq

/-- A connection value, with the coroutine whose `ws_conn_entry` made it. Of a callback all
that counts here is that it is set. -/
structure Connection extends SocketConn Unit where
  fd : ℕ
  owner : ℕ

/-- `ws.on("message", f)` and `ws.on("close", f)`. -/
def Connection.on (c : Connection) (message : Bool) : Connection :=
  if message then { c with onMessage := some () } else { c with onClose := some () }

/-- What one `send()` took of a frame: who called it, the call, and the number of bytes. -/
structure Chunk where
  sender : Option ℕ
  write : Write
  taken : ℕ
  deriving DecidableEq

structure Server where
  files : ℕ → Option File
  listenFd : Kind → Option ℕ
  /-- The epoll set: for each registered descriptor the events and the coroutine. -/
  epoll : ℕ → Option (Interest × ℕ)
  coros : ℕ → Coro
  coroCount : ℕ
  conns : ℕ → Connection
  connCount : ℕ
  /-- The coroutine in control, and those that resumed it. -/
  running : List ℕ
  /-- What is left of the events of the last `epoll_wait`. -/
  batch : List ℕ
  mainWrite : Option Write
  /-- The frame bytes that the socket of each connection has taken. -/
  accepted : ℕ → List Chunk

inductive ServerEvent
  | openFile (fd : ℕ)
  | closeFile (fd : ℕ)
  | on (k : Kind) (fd : ℕ)
  | listen (k : Kind)
  | accept (co : ℕ) (k : Kind) (fd : ℕ)
  | turn (co : ℕ) (p p' : Phase)
  | respond (co : ℕ) (p : Phase) (fd : ℕ) (data : Text)
  | upgrade (co fd : ℕ) (data : Text)
  | connect (co fd : ℕ)
  | pong (co fd c : ℕ) (payload : Text)
  | answerClose (co fd c : ℕ)
  | close (co fd : ℕ)
  | wsOn (c : ℕ) (message : Bool)
  | wsSend (c : ℕ) (text : Text)
  | wsClose (c : ℕ)
  | send (n : ℕ)
  | sendFails
  | writeReturns
  | await (co fd : ℕ) (interest : Interest)
  | wait (fds : List ℕ)
  | resume (co fd : ℕ) (interest : Interest)
  deriving DecidableEq

namespace Phase

/-- How far a coroutine has come with a descriptor of its own. -/
def life : Phase → Life
  | unborn => .unborn
  | listening _ | accepting _ => .accepts
  | request _ fd | handler fd | responding fd | upgrading fd | closing fd => .owns fd
  | routeHandler fd _ | frames fd _ | message fd _ | pong fd _ | closeFrame fd _ | leaving fd _
  | onClose fd _ => .owns fd
  | done => .done

/-- Inside a callback. -/
def inScript : Phase → Bool
  | handler _ | routeHandler _ _ | message _ _ | onClose _ _ => true
  | _ => false

/-- `recv`, or the accept loop, has nothing to do for now: what it awaits. -/
def awaits (listenFd : Kind → Option ℕ) : Phase → Option (ℕ × Interest)
  | listening k => (listenFd k).map (·, .readable)
  | request _ fd | frames fd _ => some (fd, .readable)
  | _ => none

/-- Where a coroutine is after `reactor_await_fd`. -/
def woken : Phase → Phase
  | listening k => accepting k
  | p => p

@[simp] theorem life_woken (p : Phase) : p.woken.life = p.life := by
  cases p <;> rfl

end Phase

namespace Purpose

/-- The connection that `ws.send` or `ws.close` is called on. -/
def method? : Purpose → Option ℕ
  | send c | close c => some c
  | _ => none

/-- What is written is a frame. -/
def isFrame : Purpose → Bool
  | response => false
  | _ => true

/-- The connection whose `closed` is set after the write. -/
def closes? : Purpose → Option ℕ
  | answerClose c | close c => some c
  | _ => none

end Purpose

namespace Server

/-- The process starts: three descriptors, and the script in control. -/
def start : Server where
  files fd := if fd < 3 then some .other else none
  listenFd _ := none
  epoll _ := none
  coros _ := ⟨.unborn, none, none⟩
  coroCount := 0
  conns _ := ⟨⟨none, none, false⟩, 0, 0⟩
  connCount := 0
  running := []
  batch := []
  mainWrite := none
  accepted _ := []

def setPhase (s : Server) (co : ℕ) (p : Phase) : Server :=
  { s with coros := Function.update s.coros co { s.coros co with phase := p } }

def setAwaiting (s : Server) (co : ℕ) (a : Option (ℕ × Interest)) : Server :=
  { s with coros := Function.update s.coros co { s.coros co with awaiting := a } }

/-- The call of `net_write_all` that the main context, or a coroutine, is in. -/
def writeOf (s : Server) : Option ℕ → Option Write
  | none => s.mainWrite
  | some co => (s.coros co).write

def setWrite (s : Server) (w : Option Write) : Option ℕ → Server
  | none => { s with mainWrite := w }
  | some co => { s with coros := Function.update s.coros co { s.coros co with write := w } }

/-- A coroutine calls `net_write_all`. -/
def startWrite (s : Server) (co : ℕ) (p : Phase) (w : Write) : Server :=
  (s.setPhase co p).setWrite (some w) (some co)

/-- Who is in control. -/
def current (s : Server) : Option ℕ := s.running.head?

def setFile (s : Server) (fd : ℕ) (f : Option File) : Server :=
  { s with files := Function.update s.files fd f }

/-- `reactor_watch_fd`: `EPOLL_CTL_ADD`, or `EPOLL_CTL_MOD` where the descriptor is registered. -/
def reactorWatchFd (s : Server) (fd : ℕ) (interest : Interest) (co : ℕ) : Server :=
  { s with epoll := Function.update s.epoll fd (some (interest, co)) }

/-- `reactor_unwatch_fd`: `EPOLL_CTL_DEL`. -/
def reactorUnwatchFd (s : Server) (fd : ℕ) : Server :=
  { s with epoll := Function.update s.epoll fd none }

/-- `coro_create` and `coro_resume`. -/
def startCoro (s : Server) (p : Phase) : Server :=
  { s.setPhase s.coroCount p with
    coroCount := s.coroCount + 1, running := s.coroCount :: s.running }

/-- `coro_yield`, or the end of a coroutine. -/
def leaveCoro (s : Server) : Server := { s with running := s.running.tail }

/-- `native->closed = 1`, after a write that does so. -/
def setClosed (s : Server) : Option ℕ → Server
  | some c => { s with conns := Function.update s.conns c { s.conns c with closed := true } }
  | none => s

/-- `accept`, `socket` and the like hand out the lowest free number. -/
def LowestFree (s : Server) (fd : ℕ) : Prop := s.files fd = none ∧ ∀ g < fd, s.files g ≠ none

instance (s : Server) (fd : ℕ) : Decidable (s.LowestFree fd) :=
  inferInstanceAs (Decidable (_ ∧ _))

/-- The script has control: in the main context when the loop has handed out its events, or in
a callback. -/
def inScript (s : Server) : Bool :=
  match s.running with
  | [] => s.batch = [] ∧ s.mainWrite = none
  | co :: _ => (s.coros co).write = none ∧ (s.coros co).phase.inScript

/-- The coroutine has control, here. -/
def At (s : Server) (co : ℕ) (p : Phase) : Prop :=
  s.current = some co ∧ (s.coros co).phase = p ∧ (s.coros co).write = none

instance (s : Server) (co : ℕ) (p : Phase) : Decidable (s.At co p) :=
  inferInstanceAs (Decidable (_ ∧ _))

/-- What a coroutine awaits when a call that it makes says `EAGAIN`. -/
def wants (s : Server) (co : ℕ) : Option (ℕ × Interest) :=
  match (s.coros co).write with
  | some w => if w.sent < w.data.length then some (w.fd, .writable) else none
  | none => (s.coros co).phase.awaits s.listenFd

/-- Where a coroutine goes on without a wait and without a write. -/
def Turn (s : Server) : Phase → Phase → Prop
  -- `accept` has no more connections
  | .accepting k, .listening k' => k' = k
  -- the end of the input, an error, or too much of it
  | .request _ fd, .closing fd' => fd' = fd
  | .request k fd, .handler fd' => k = .http ∧ fd' = fd
  | .responding fd, .closing fd' => fd' = fd
  | .routeHandler fd c, .frames fd' c' => fd' = fd ∧ c' = c
  | .frames fd c, .message fd' c' =>
    fd' = fd ∧ c' = c ∧ (s.conns c).onMessage.isSome ∧ (s.conns c).closed = false
  | .message fd c, .frames fd' c' => fd' = fd ∧ c' = c
  | .pong fd c, .frames fd' c' => fd' = fd ∧ c' = c
  -- the end of the input, an error, or a Close frame after ours
  | .frames fd c, .leaving fd' c' => fd' = fd ∧ c' = c
  | .closeFrame fd c, .leaving fd' c' => fd' = fd ∧ c' = c
  | .leaving fd c, .onClose fd' c' =>
    fd' = fd ∧ c' = c ∧ (s.conns c).onClose.isSome ∧ (s.conns c).closed = false
  | .leaving fd c, .closing fd' =>
    fd' = fd ∧ ¬ ((s.conns c).onClose.isSome ∧ (s.conns c).closed = false)
  | .onClose fd _, .closing fd' => fd' = fd
  | _, _ => False

instance (s : Server) (p p' : Phase) : Decidable (s.Turn p p') := by
  unfold Turn
  split <;> infer_instance

/-- From here an answer is written before the connection is closed. -/
def Responds : Phase → ℕ → Prop
  | .request _ fd, fd' => fd' = fd
  | .handler fd, fd' => fd' = fd
  | _, _ => False

instance (p : Phase) (fd : ℕ) : Decidable (Responds p fd) := by
  unfold Responds
  split <;> infer_instance

/-! What the updates leave as it was. -/

section Views

variable (s : Server) (co d : ℕ)

@[simp] theorem awaiting_setPhase (p : Phase) :
    ((s.setPhase co p).coros d).awaiting = (s.coros d).awaiting := by
  by_cases h : d = co <;> simp [setPhase, h]

@[simp] theorem write_setPhase (p : Phase) :
    ((s.setPhase co p).coros d).write = (s.coros d).write := by
  by_cases h : d = co <;> simp [setPhase, h]

@[simp] theorem phase_setPhase (p : Phase) :
    ((s.setPhase co p).coros d).phase = if d = co then p else (s.coros d).phase := by
  by_cases h : d = co <;> simp [setPhase, h]

@[simp] theorem phase_setAwaiting (a : Option (ℕ × Interest)) :
    ((s.setAwaiting co a).coros d).phase = (s.coros d).phase := by
  by_cases h : d = co <;> simp [setAwaiting, h]

@[simp] theorem write_setAwaiting (a : Option (ℕ × Interest)) :
    ((s.setAwaiting co a).coros d).write = (s.coros d).write := by
  by_cases h : d = co <;> simp [setAwaiting, h]

@[simp] theorem awaiting_setAwaiting (a : Option (ℕ × Interest)) :
    ((s.setAwaiting co a).coros d).awaiting = if d = co then a else (s.coros d).awaiting := by
  by_cases h : d = co <;> simp [setAwaiting, h]

@[simp] theorem awaiting_setWrite (w : Option Write) (ctx : Option ℕ) :
    ((s.setWrite w ctx).coros d).awaiting = (s.coros d).awaiting := by
  cases ctx with
  | none => rfl
  | some co => by_cases h : d = co <;> simp [setWrite, h]

@[simp] theorem phase_setWrite (w : Option Write) (ctx : Option ℕ) :
    ((s.setWrite w ctx).coros d).phase = (s.coros d).phase := by
  cases ctx with
  | none => rfl
  | some co => by_cases h : d = co <;> simp [setWrite, h]

@[simp] theorem writeOf_setWrite (w : Option Write) (ctx ctx' : Option ℕ) :
    (s.setWrite w ctx).writeOf ctx' = if ctx' = ctx then w else s.writeOf ctx' := by
  cases ctx with
  | none => cases ctx' <;> rfl
  | some co =>
    cases ctx' with
    | none => rfl
    | some d => by_cases h : d = co <;> simp [writeOf, setWrite, h]

@[simp] theorem writeOf_setPhase (p : Phase) (ctx : Option ℕ) :
    (s.setPhase co p).writeOf ctx = s.writeOf ctx := by
  cases ctx with
  | none => rfl
  | some d => exact write_setPhase s co d p

@[simp] theorem writeOf_setAwaiting (a : Option (ℕ × Interest)) (ctx : Option ℕ) :
    (s.setAwaiting co a).writeOf ctx = s.writeOf ctx := by
  cases ctx with
  | none => rfl
  | some d => exact write_setAwaiting s co d a

theorem writeOf_startWrite (p : Phase) (w : Write) (ctx : Option ℕ) :
    (s.startWrite co p w).writeOf ctx = if ctx = some co then some w else s.writeOf ctx := by
  rw [startWrite, writeOf_setWrite, writeOf_setPhase]

@[simp] theorem writeOf_setClosed (c ctx : Option ℕ) :
    (s.setClosed c).writeOf ctx = s.writeOf ctx := by
  cases c <;> rfl

@[simp] theorem awaiting_startWrite (p : Phase) (w : Write) :
    ((s.startWrite co p w).coros d).awaiting = (s.coros d).awaiting := by
  simp [startWrite]

@[simp] theorem coros_setClosed (c : Option ℕ) : (s.setClosed c).coros = s.coros := by
  cases c <;> rfl

@[simp] theorem epoll_setClosed (c : Option ℕ) : (s.setClosed c).epoll = s.epoll := by
  cases c <;> rfl

@[simp] theorem files_setClosed (c : Option ℕ) : (s.setClosed c).files = s.files := by
  cases c <;> rfl

@[simp] theorem files_setWrite (w : Option Write) (ctx : Option ℕ) :
    (s.setWrite w ctx).files = s.files := by
  cases ctx <;> rfl

@[simp] theorem accepted_setClosed (c : Option ℕ) : (s.setClosed c).accepted = s.accepted := by
  cases c <;> rfl

@[simp] theorem accepted_setWrite (w : Option Write) (ctx : Option ℕ) :
    (s.setWrite w ctx).accepted = s.accepted := by
  cases ctx <;> rfl

@[simp] theorem conns_setWrite (w : Option Write) (ctx : Option ℕ) :
    (s.setWrite w ctx).conns = s.conns := by
  cases ctx <;> rfl

@[simp] theorem connCount_setClosed (c : Option ℕ) : (s.setClosed c).connCount = s.connCount := by
  cases c <;> rfl

@[simp] theorem connCount_setWrite (w : Option Write) (ctx : Option ℕ) :
    (s.setWrite w ctx).connCount = s.connCount := by
  cases ctx <;> rfl

@[simp] theorem coroCount_setClosed (c : Option ℕ) : (s.setClosed c).coroCount = s.coroCount := by
  cases c <;> rfl

@[simp] theorem coroCount_setWrite (w : Option Write) (ctx : Option ℕ) :
    (s.setWrite w ctx).coroCount = s.coroCount := by
  cases ctx <;> rfl

@[simp] theorem epoll_setWrite (w : Option Write) (ctx : Option ℕ) :
    (s.setWrite w ctx).epoll = s.epoll := by
  cases ctx <;> rfl

end Views

/-- When an event may happen. -/
def Enabled (s : Server) : ServerEvent → Prop
  | .openFile fd => s.LowestFree fd
  | .closeFile fd => s.files fd = some .other
  | .on _ fd => s.inScript = true ∧ s.LowestFree fd
  | .listen k => s.inScript = true ∧ s.listenFd k ≠ none
  | .accept co k fd => s.At co (.accepting k) ∧ s.LowestFree fd
  | .turn co p p' => s.At co p ∧ s.Turn p p'
  | .respond co p fd _ => s.At co p ∧ Responds p fd
  | .upgrade co fd _ => s.At co (.request .ws fd)
  | .connect co fd => s.At co (.upgrading fd)
  | .pong co fd c _ => s.At co (.frames fd c)
  | .answerClose co fd c => s.At co (.frames fd c) ∧ (s.conns c).closed = false
  | .close co fd => s.At co (.closing fd)
  | .wsOn c _ => s.inScript = true ∧ c < s.connCount
  | .wsSend c _ => s.inScript = true ∧ c < s.connCount ∧ (s.conns c).closed = false
  | .wsClose c => s.inScript = true ∧ c < s.connCount ∧ (s.conns c).closed = false
  | .send n => ∃ w ∈ s.writeOf s.current,
    (s.files w.fd).isSome ∧ 0 < n ∧ w.sent + n ≤ w.data.length
  | .sendFails => ∃ w ∈ s.writeOf s.current, w.sent < w.data.length
  | .writeReturns => ∃ w ∈ s.writeOf s.current, w.sent = w.data.length
  -- `EAGAIN` comes from an open descriptor
  | .await co fd interest =>
    s.current = some co ∧ (s.files fd).isSome ∧ s.wants co = some (fd, interest)
  | .wait fds => s.running = [] ∧ s.batch = [] ∧ s.mainWrite = none ∧
    fds.Nodup ∧ fds.length ≤ 64 ∧ ∀ fd ∈ fds, (s.epoll fd).isSome
  | .resume co fd interest => s.running = [] ∧ s.batch.head? = some co ∧
    (s.coros co).awaiting = some (fd, interest)

instance (s : Server) (e : ServerEvent) : Decidable (s.Enabled e) := by
  unfold Enabled
  split <;> infer_instance

/-- On the way a coroutine keeps its descriptor. -/
theorem Turn.life {s : Server} {p p' : Phase} (h : s.Turn p p') : p'.life = p.life := by
  unfold Turn at h
  split at h <;> first
    | exact h.elim
    | (obtain ⟨rfl, -⟩ := h; rfl)
    | (obtain ⟨-, rfl⟩ := h; rfl)

theorem Responds.life {p : Phase} {fd : ℕ} (h : Responds p fd) : p.life = .owns fd := by
  unfold Responds at h
  split at h <;> first
    | exact h.elim
    | (subst h; rfl)

/-- What a write that is over leaves behind: `ws_write_frame`'s result is looked at by nobody. -/
def afterWrite (s : Server) : Server :=
  match s.writeOf s.current with
  | some w => (s.setWrite none s.current).setClosed w.purpose.closes?
  | none => s

/-- The logs after `send` has taken `n` bytes. -/
def logSend (s : Server) (w : Write) (n : ℕ) : ℕ → List Chunk :=
  match s.files w.fd with
  | some (.socket k) =>
    if w.purpose.isFrame then
      Function.update s.accepted k (s.accepted k ++ [⟨s.current, w, n⟩])
    else s.accepted
  | _ => s.accepted

/-- What `send` does with `n` bytes. -/
def afterSend (s : Server) (n : ℕ) : Server :=
  match s.writeOf s.current with
  | some w =>
    { s with accepted := s.logSend w n }.setWrite (some { w with sent := w.sent + n }) s.current
  | none => s

section Views

variable (s : Server) (n d : ℕ)

@[simp] theorem epoll_afterSend : (s.afterSend n).epoll = s.epoll := by
  unfold afterSend
  split <;> simp

@[simp] theorem awaiting_afterSend :
    ((s.afterSend n).coros d).awaiting = (s.coros d).awaiting := by
  unfold afterSend
  split <;> simp

@[simp] theorem phase_afterSend : ((s.afterSend n).coros d).phase = (s.coros d).phase := by
  unfold afterSend
  split <;> simp

@[simp] theorem files_afterSend : (s.afterSend n).files = s.files := by
  unfold afterSend
  split <;> simp

@[simp] theorem files_afterWrite : s.afterWrite.files = s.files := by
  unfold afterWrite
  split <;> simp

@[simp] theorem accepted_afterWrite : s.afterWrite.accepted = s.accepted := by
  unfold afterWrite
  split <;> simp

@[simp] theorem conns_afterSend : (s.afterSend n).conns = s.conns := by
  unfold afterSend
  split <;> simp

@[simp] theorem connCount_afterSend : (s.afterSend n).connCount = s.connCount := by
  unfold afterSend
  split <;> simp

@[simp] theorem connCount_afterWrite : s.afterWrite.connCount = s.connCount := by
  unfold afterWrite
  split <;> simp

@[simp] theorem coroCount_afterSend : (s.afterSend n).coroCount = s.coroCount := by
  unfold afterSend
  split <;> simp

@[simp] theorem coroCount_afterWrite : s.afterWrite.coroCount = s.coroCount := by
  unfold afterWrite
  split <;> simp

@[simp] theorem epoll_afterWrite : s.afterWrite.epoll = s.epoll := by
  unfold afterWrite
  split <;> simp

@[simp] theorem awaiting_afterWrite : (s.afterWrite.coros d).awaiting = (s.coros d).awaiting := by
  unfold afterWrite
  split <;> simp

@[simp] theorem phase_afterWrite : (s.afterWrite.coros d).phase = (s.coros d).phase := by
  unfold afterWrite
  split <;> simp

theorem writeOf_afterWrite (ctx : Option ℕ) :
    s.afterWrite.writeOf ctx = if ctx = s.current then none else s.writeOf ctx := by
  unfold afterWrite
  cases hw : s.writeOf s.current with
  | none =>
    split_ifs with hctx
    · rw [hctx, hw]
    · rfl
  | some w => rw [writeOf_setClosed, writeOf_setWrite]

theorem writeOf_afterSend (ctx : Option ℕ) :
    (s.afterSend n).writeOf ctx = if ctx = s.current
      then (s.writeOf s.current).map fun w => { w with sent := w.sent + n } else s.writeOf ctx := by
  unfold afterSend
  cases hw : s.writeOf s.current with
  | none =>
    split_ifs with hctx
    · rw [hctx, hw]
      rfl
    · rfl
  | some w => exact writeOf_setWrite _ _ _ _

@[simp] theorem writeOf_startCoro (p : Phase) (ctx : Option ℕ) :
    (s.startCoro p).writeOf ctx = s.writeOf ctx :=
  writeOf_setPhase s s.coroCount p ctx

@[simp] theorem awaiting_startCoro (p : Phase) :
    ((s.startCoro p).coros d).awaiting = (s.coros d).awaiting :=
  awaiting_setPhase s s.coroCount d p

@[simp] theorem phase_startCoro (p : Phase) :
    ((s.startCoro p).coros d).phase = if d = s.coroCount then p else (s.coros d).phase :=
  phase_setPhase s s.coroCount d p

end Views

/-- What an event leads to. -/
def after (s : Server) : ServerEvent → Server
  | .openFile fd => s.setFile fd (some .other)
  | .closeFile fd => s.setFile fd none
  | .on k fd =>
    { s.setFile fd (some (.listener k)) with listenFd := Function.update s.listenFd k (some fd) }
  | .listen k => s.startCoro (.listening k)
  | .accept _ k fd => (s.setFile fd (some (.socket s.coroCount))).startCoro (.request k fd)
  | .turn co _ p' => s.setPhase co p'
  | .respond co _ fd data =>
    s.startWrite co (.responding fd) ⟨fd, data, 0, .response⟩
  | .upgrade co fd data =>
    s.startWrite co (.upgrading fd) ⟨fd, data, 0, .response⟩
  | .connect co fd =>
    { s.setPhase co (.routeHandler fd s.connCount) with
      conns := Function.update s.conns s.connCount ⟨⟨none, none, false⟩, fd, co⟩
      connCount := s.connCount + 1 }
  | .pong co fd c payload =>
    s.startWrite co (.pong fd c) ⟨fd, wsWriteFrame 0xA payload, 0, .pong⟩
  | .answerClose co fd c =>
    s.startWrite co (.closeFrame fd c) ⟨fd, wsWriteFrame 0x8 [], 0, .answerClose c⟩
  -- the epoll set drops a descriptor that is closed
  | .close co fd => (((s.setFile fd none).reactorUnwatchFd fd).setPhase co .done).leaveCoro
  | .wsOn c message =>
    { s with conns := Function.update s.conns c ((s.conns c).on message) }
  | .wsSend c text =>
    s.setWrite (some ⟨(s.conns c).fd, wsWriteFrame 0x1 text, 0, .send c⟩) s.current
  | .wsClose c => s.setWrite (some ⟨(s.conns c).fd, wsWriteFrame 0x8 [], 0, .close c⟩) s.current
  | .send n => s.afterSend n
  | .sendFails => s.afterWrite
  | .writeReturns => s.afterWrite
  | .await co fd interest =>
    ((s.reactorWatchFd fd interest co).setAwaiting co (some (fd, interest))).leaveCoro
  | .wait fds => { s with batch := fds.filterMap fun fd => (s.epoll fd).map Prod.snd }
  | .resume co fd _ =>
    let s' := ((s.reactorUnwatchFd fd).setAwaiting co none).setPhase co (s.coros co).phase.woken
    { s' with running := [co], batch := s.batch.tail }

end Server

namespace Server

/-- The events may happen one after the other. -/
def Runs (s : Server) : List ServerEvent → Prop
  | [] => True
  | e :: es => s.Enabled e ∧ (s.after e).Runs es

/-- Each of the events meets a condition when it happens. -/
def Meets (C : Server → ServerEvent → Prop) (s : Server) : List ServerEvent → Prop
  | [] => True
  | e :: es => C s e ∧ Meets C (s.after e) es

def decideRuns (s : Server) : (es : List ServerEvent) → Decidable (s.Runs es)
  | [] => isTrue trivial
  | e :: es => @instDecidableAnd _ _ _ (decideRuns (s.after e) es)

instance (s : Server) (es : List ServerEvent) : Decidable (s.Runs es) := decideRuns s es

def decideMeets (C : Server → ServerEvent → Prop) [∀ s e, Decidable (C s e)] (s : Server) :
    (es : List ServerEvent) → Decidable (Meets C s es)
  | [] => isTrue trivial
  | e :: es => @instDecidableAnd _ _ _ (decideMeets C (s.after e) es)

instance (C : Server → ServerEvent → Prop) [∀ s e, Decidable (C s e)] (s : Server)
    (es : List ServerEvent) : Decidable (Meets C s es) := decideMeets C s es

/-! ### Where calls of `net_write_all` come from -/

/-- A call just made: nothing is sent, frames are what `ws_write_frame` builds, and the methods
of a connection write to its descriptor, while it is not marked closed. -/
structure FreshWrite (s : Server) (w : Write) : Prop where
  sent : w.sent = 0
  frame : w.purpose.isFrame = true → ∃ opcode payload, w.data = wsWriteFrame opcode payload
  method : ∀ c, w.purpose.method? = some c →
    w.fd = (s.conns c).fd ∧ c < s.connCount ∧ (s.conns c).closed = false

/-- The same call, wherever it stands. -/
structure SameWrite (w w' : Write) : Prop where
  fd : w'.fd = w.fd
  data : w'.data = w.data
  purpose : w'.purpose = w.purpose

theorem SameWrite.refl (w : Write) : SameWrite w w := ⟨rfl, rfl, rfl⟩

section Writes

variable {s : Server} {e : ServerEvent}

/-- A call under way after a step was under way before, or the step has made it. -/
theorem write_after (hen : s.Enabled e) {ctx : Option ℕ} {w' : Write}
    (h : (s.after e).writeOf ctx = some w') :
    (∃ w, s.writeOf ctx = some w ∧ SameWrite w w') ∨ FreshWrite s w' := by
  have hsame : ∀ {w : Write}, s.writeOf ctx = some w →
      (∃ w₀, s.writeOf ctx = some w₀ ∧ SameWrite w₀ w) ∨ FreshWrite s w :=
    fun hw => .inl ⟨_, hw, .refl _⟩
  have hstart : ∀ {co : ℕ} {p : Phase} {w : Write}, FreshWrite s w →
      (s.startWrite co p w).writeOf ctx = some w' →
      (∃ w₀, s.writeOf ctx = some w₀ ∧ SameWrite w₀ w') ∨ FreshWrite s w' := by
    intro co p w hw h
    rw [writeOf_startWrite] at h
    split_ifs at h with hctx
    · exact .inr (Option.some.inj h ▸ hw)
    · exact hsame h
  have hset : ∀ {w : Write}, FreshWrite s w → (s.setWrite (some w) s.current).writeOf ctx = some w' →
      (∃ w₀, s.writeOf ctx = some w₀ ∧ SameWrite w₀ w') ∨ FreshWrite s w' := by
    intro w hw h
    rw [writeOf_setWrite] at h
    split_ifs at h with hctx
    · exact .inr (Option.some.inj h ▸ hw)
    · exact hsame h
  have hown : ∀ w : Write, w.purpose.method? = none → w.sent = 0 →
      (w.purpose.isFrame = true → ∃ opcode payload, w.data = wsWriteFrame opcode payload) →
      FreshWrite s w := by
    intro w hnone hsent hframe
    refine ⟨hsent, hframe, fun c hc => ?_⟩
    rw [hnone] at hc
    cases hc
  cases e with
  | respond co p fd data => exact hstart (hown ⟨fd, data, 0, .response⟩ rfl rfl nofun) h
  | upgrade co fd data => exact hstart (hown ⟨fd, data, 0, .response⟩ rfl rfl nofun) h
  | pong co fd c payload =>
    exact hstart (hown ⟨fd, _, 0, .pong⟩ rfl rfl fun _ => ⟨_, _, rfl⟩) h
  | answerClose co fd c =>
    exact hstart (hown ⟨fd, _, 0, .answerClose c⟩ rfl rfl fun _ => ⟨_, _, rfl⟩) h
  | wsSend c text =>
    refine hset ⟨rfl, fun _ => ⟨_, _, rfl⟩, fun c' hc => ?_⟩ h
    obtain rfl := Option.some.inj hc
    exact ⟨rfl, hen.2⟩
  | wsClose c =>
    refine hset ⟨rfl, fun _ => ⟨_, _, rfl⟩, fun c' hc => ?_⟩ h
    obtain rfl := Option.some.inj hc
    exact ⟨rfl, hen.2⟩
  | send n =>
    rw [after, writeOf_afterSend] at h
    split_ifs at h with hctx
    · obtain ⟨w, hw, rfl⟩ := Option.map_eq_some_iff.mp h
      exact .inl ⟨w, hctx ▸ hw, rfl, rfl, rfl⟩
    · exact hsame h
  | sendFails | writeReturns =>
    rw [after, writeOf_afterWrite] at h
    split_ifs at h with hctx
    exact hsame h
  | listen | accept => exact hsame ((writeOf_startCoro _ _ _).symm.trans h)
  | turn | connect => exact hsame ((writeOf_setPhase _ _ _ _).symm.trans h)
  | close co fd =>
    exact hsame ((writeOf_setPhase ((s.setFile fd none).reactorUnwatchFd fd) co .done ctx).symm.trans h)
  | await co fd interest =>
    exact hsame ((writeOf_setAwaiting (s.reactorWatchFd fd interest co) co _ ctx).symm.trans h)
  | resume co fd interest =>
    exact hsame (((writeOf_setPhase _ co _ ctx).trans
      (writeOf_setAwaiting (s.reactorUnwatchFd fd) co none ctx)).symm.trans h)
  | _ => exact hsame h

end Writes

end Server

/-- The servers of one process. -/
def serverSystem : LTS Server ServerEvent where
  init s := s = Server.start
  step s e s' := s.Enabled e ∧ s' = s.after e

theorem Server.Runs.steps {C : Server → ServerEvent → Prop} {es : List ServerEvent} {s : Server}
    (h : s.Runs es) (hC : Server.Meets C s es) :
    (serverSystem.restrict C).Steps s es (es.foldl Server.after s) := by
  induction es generalizing s with
  | nil => exact .nil
  | cons e es ih => exact .cons ⟨⟨h.1, rfl⟩, hC.1⟩ (ih h.2 hC.2)

theorem Server.Runs.restrict {C : Server → ServerEvent → Prop} {es : List ServerEvent}
    (h : Server.start.Runs es) (hC : Server.Meets C .start es) :
    (serverSystem.restrict C).Run es (es.foldl Server.after .start) :=
  (LTS.Run.nil rfl).append (h.steps hC)

theorem Server.Runs.run {es : List ServerEvent} (h : Server.start.Runs es) :
    serverSystem.Run es (es.foldl Server.after .start) := by
  have hall : ∀ es s, Server.Meets (fun _ _ => True) s es := by
    intro es
    induction es with
    | nil => exact fun _ => trivial
    | cons e es ih => exact fun s => ⟨trivial, ih _⟩
  exact (h.restrict (hall es _)).of_restrict

/-- The answer to a handshake. -/
def switchingProtocols : Text :=
  txt ("HTTP/1.1 101 Switching Protocols\r\nUpgrade: websocket\r\nConnection: Upgrade\r\n" ++
    "Sec-WebSocket-Accept: s3pPLMBiTxaQ9kYGzzhZRbK+xOo=\r\n\r\n")

/-- A server on descriptor 3 that has accepted one connection, on descriptor 5: connection 0,
whose route handler has control. -/
def oneConnection : List ServerEvent :=
  [.on .ws 3, .listen .ws, .openFile 4, .await 0 3 .readable, .wait [3], .resume 0 3 .readable,
    .accept 0 .ws 5, .upgrade 1 5 switchingProtocols, .send 129, .writeReturns, .connect 1 5]

end Jaguar
