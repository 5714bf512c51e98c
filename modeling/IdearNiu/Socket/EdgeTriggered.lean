import IdearNiu.Socket.EpollServer

namespace IdearNiu.Socket.EdgeTriggered

/-- MAX_EPOLL_FDS. -/
def maxEpollFds : Nat := 1024*10

/-- The kernel's side of a client: the bytes not yet received, and whether it has shut down or
reset. -/
structure Sock where
  queued : Nat
  eof : Bool
  reset : Bool

inductive Arrival where
  | bytes (n : Nat)
  | shutdown
  | reset

/-- After a shutdown or a reset no bytes follow. -/
def Sock.arrive (k : Sock) : Arrival → Sock
  | .bytes n => if k.eof || k.reset then k else { k with queued := k.queued+n }
  | .shutdown => { k with eof := true }
  | .reset => { k with reset := true }

def Sock.ready (k : Sock) : Bool := 0<k.queued || k.eof || k.reset

/-- One recv() of at most BUFSIZE bytes. -/
def Sock.recv (k : Sock) : RecvResult :=
  if h : 0<k.queued then .data (min k.queued 1500) (by omega) (by omega)
  else if k.reset then .failed
  else if k.eof then .shutdown
  else .again

/-- An accepted connection with the address of its object and its edge; live until it is
cleaned. -/
structure Peer where
  ptr : BitVec 64
  readStatistics : Nat
  sock : Sock
  edge : Bool
  live : Bool

/-- Where an event of a batch comes from. -/
inductive Origin where
  | listener
  | peer (j : Nat)
deriving DecidableEq

/-- The thread is blocked in epoll_wait, at the index i of a batch of which the first seen events
have been looked at, or gone: aborted, or never back from sending a reply. -/
inductive Phase where
  | blocked
  | handling (i seen : Nat) (events : List (EpollEvent × Origin))
  | stopped

structure Server where
  listenSock : BitVec 32
  upper : BitVec 32
  backlog : List Sock
  listenEdge : Bool
  peers : List Peer
  phase : Phase

def start (listenSock upper : BitVec 32) : Server := ⟨listenSock,upper,[],false,[],.blocked⟩

inductive Input where
  | connect
  | early (b : Nat) (a : Arrival)
  | arrive (j : Nat) (a : Arrival)
  | wait (batch : List Origin)
  | turn (ptr : BitVec 64) (added : Bool) (sends : List SendResult)

/-- Something comes in that was not there. -/
def Sock.news (k : Sock) : Arrival → Bool
  | .bytes n => 0<n && !(k.eof || k.reset)
  | .shutdown => !k.eof
  | .reset => !k.reset

def Peer.arrive (a : Arrival) (p : Peer) : Peer :=
  { p with sock := p.sock.arrive a, edge := p.edge || p.sock.news a }

/-- The event that epoll_wait reports for a raised edge. -/
def report (s : Server) : Origin → Option EpollEvent
  | .listener =>
    if s.listenEdge then some (Ready.entry s.listenSock ⟨.listener s.upper,true,false⟩) else none
  | .peer j =>
    match s.peers[j]? with
    | some p =>
      if p.live && p.edge then
        some (Ready.entry s.listenSock ⟨.connection p.ptr p.readStatistics,true,false⟩)
      else none
    | none => none

def reports (s : Server) : List Origin → Option (List (EpollEvent × Origin))
  | [] => some []
  | o::batch => do
    let e ← report s o
    let events ← reports s batch
    return (e,o)::events

def lower (batch : List Origin) (j : Nat) (p : Peer) : Peer :=
  if .peer j∈batch then { p with edge := false } else p

/-- epoll_wait returns some of the raised edges, each once, and lowers them. -/
def epollWait (s : Server) (batch : List Origin) : Server :=
  match reports s batch with
  | some events =>
    if batch.Nodup ∧ batch.length ≤ maxEpollFds then
      { s with
        listenEdge := s.listenEdge && decide (.listener∉batch)
        peers := s.peers.mapIdx (lower batch)
        phase := .handling 0 0 events }
    else s
  | none => s

/-- The connection after the recv() for an event, which leaves the entry e. -/
def Peer.received (e : EpollEvent) (p : Peer) : Peer :=
  match p.sock.recv with
  | .data nr _ _ =>
    { p with
      readStatistics := e.readStatistics
      sock := { p.sock with queued := p.sock.queued-nr } }
  | .again => p
  | _ => { p with live := false }

/-- What an iteration does to the connections. A new one is reported at once if it has something
to report; it is cleaned if it cannot be added. -/
def perform (s : Server) (o : Origin) (e : EpollEvent) (ptr : BitVec 64) (added : Bool) :
    Action → Server
  | .accept =>
    match s.backlog with
    | k::backlog =>
      { s with backlog := backlog, peers := s.peers++[⟨ptr,0,k,k.ready,added⟩] }
    | [] => s
  | .recv _ =>
    match o with
    | .peer j => { s with peers := s.peers.modify j (Peer.received e) }
    | .listener => s
  | _ => s

def recvOf (s : Server) : Origin → RecvResult
  | .peer j => match s.peers[j]? with
    | some p => p.sock.recv
    | none => .again
  | .listener => .again

/-- One iteration of the loop over the batch, or its end. -/
def turn (s : Server) (ptr : BitVec 64) (added : Bool) (sends : List SendResult) : Server :=
  match s.phase with
  | .handling i seen events =>
    match events[i]? with
    | none => { s with phase := .blocked }
    | some (e,o) =>
      let calls : Calls :=
        ⟨fun _ _ => !s.backlog.isEmpty,fun _ _ => recvOf s o,fun _ _ => sends⟩
      match iteration s.listenSock calls 0 i e with
      | .next i' e' action =>
        { perform s o e' ptr added action with
          phase := .handling i' (max seen (i+1)) (events.set i (e',o)) }
      | _ => { s with phase := .stopped }
  | _ => s

def step (s : Server) : Input → Server
  | .connect => { s with backlog := s.backlog++[⟨0,false,false⟩], listenEdge := true }
  | .early b a => { s with backlog := s.backlog.modify b (·.arrive a) }
  | .arrive j a => { s with peers := s.peers.modify j (Peer.arrive a) }
  | .wait batch =>
    match s.phase with
    | .blocked => epollWait s batch
    | _ => s
  | .turn ptr added sends => turn s ptr added sends

def run (s : Server) (inputs : List Input) : Server := inputs.foldl step s

def Phase.isBlocked : Phase → Bool
  | .blocked => true
  | _ => false

def edgePending (s : Server) : Bool := s.listenEdge || s.peers.any fun p => p.live && p.edge

/-- Blocked without a pending edge, the server has received everything. -/
def Drained (s : Server) : Prop :=
  s.phase.isBlocked=true → edgePending s=false →
    ∀ p∈s.peers,p.live=true → p.sock.queued=0

/-- The loop finds the connection through its event. -/
def tagged (listenSock : BitVec 32) (ptr : BitVec 64) : Bool :=
  ptr.setWidth 32≠listenSock ∧ 0<(ptr.setWidth 32).toInt

/-- One recv() is enough for the connection, and the number of its bytes takes the index of the
loop past no event that has not been looked at. -/
def drains (listenSock : BitVec 32) (p : Peer) (i seen n : Nat) : Bool :=
  tagged listenSock p.ptr && (decide (p.sock.queued≤1500) || p.edge) &&
  (decide (p.sock.queued=0) || decide (min p.sock.queued 1500+1 ≤ max seen (i+1)) ||
    decide (n ≤ max seen (i+1)))

def orderly (s : Server) : Input → Bool
  | .turn _ _ _ =>
    match s.phase with
    | .handling i seen events =>
      match events[i]? with
      | some (_,.peer j) =>
        match s.peers[j]? with
        | some p => !p.live || drains s.listenSock p i seen events.length
        | none => true
      | _ => true
    | _ => true
  | _ => true

/-- Every step of the run is orderly. -/
def allOrderly : Server → List Input → Bool
  | _,[] => true
  | s,x::inputs => orderly s x && allOrderly (step s x) inputs

end IdearNiu.Socket.EdgeTriggered
