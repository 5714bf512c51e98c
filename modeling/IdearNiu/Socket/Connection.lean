import IdearNiu.Socket.Sockets

namespace IdearNiu.Socket

/-- connection_t; a pointer field is given by whether it is set. -/
structure Connection where
  host : Bool
  hostname : Bool
  hostip : Bool
  sin : Bool
  sock : Int
  readStatistics : Nat
deriving DecidableEq

/-- Which code runs a connection. -/
inductive Owner where
  | epollServer
  | threadServer
  | client
deriving DecidableEq

/-- A connection object that has not been freed. -/
structure Live where
  addr : Nat
  owner : Owner
  con : Connection
deriving DecidableEq

structure State where
  openSocks : List Int
  registered : List (Int × Nat)
  live : List Live
deriving DecidableEq

def State.init : State := ⟨[],[],[]⟩

/-- Closing a descriptor that is not open fails, and error() aborts. A closed descriptor
leaves the epoll instance. -/
def sockClose (s : State) (fd : Int) : Option State :=
  if fd∈s.openSocks then
    some { s with
      openSocks := s.openSocks.filter (· ≠ fd)
      registered := s.registered.filter (·.1≠fd) }
  else none

def createConnection : Connection := ⟨false,false,false,false,-1,0⟩

/-- Both get_connection functions, once accept has returned a descriptor. -/
def getConnection (fd : Int) (host : Bool) : Connection :=
  { createConnection with sin := true, sock := fd, host := host }

def createTcpClient (fd : Int) : Connection :=
  { createConnection with hostip := true, sock := fd }

/-- The descriptor is closed in the last branch only; then the object is freed. -/
def cleanConnection (s : State) (l : Live) : Option State := do
  let s ←
    if l.con.host then some s
    else if l.con.hostname then some s
    else if l.con.hostip then some s
    else if l.con.sin then some s
    else if l.con.sock≥0 then sockClose s l.con.sock
    else some s
  return { s with live := s.live.filter (·.addr≠l.addr) }

def destroyTcpClient (s : State) (l : Live) : Option State := do
  let s ← sockClose s l.con.sock
  cleanConnection s l

/-- The result of select() on one connection, with what recv() and send() give then. -/
inductive Poll where
  | ready (r : RecvResult) (sends : List SendResult)
  | timeout (sends : List SendResult)
  | again
  | failed

inductive Input where
  | epollAccept (addr : Nat) (fd : Int) (host added : Bool)
  | threadAccept (addr : Nat) (fd : Int) (host : Bool)
  | clientConnect (addr : Nat) (fd : Int)
  | epollRecv (addr : Nat) (r : RecvResult) (sends : List SendResult)
  | threadPoll (addr : Nat) (p : Poll)
  | clientPoll (addr : Nat) (p : Poll)

/-- A new object at an unused address, owning a descriptor that accept just opened. -/
def enter (s : State) (addr : Nat) (owner : Owner) (fd : Int) (con : Connection) :
    Option (State × Live) :=
  if 0≤fd ∧ fd∉s.openSocks ∧ ∀ l∈s.live,l.addr≠addr then
    let l : Live := ⟨addr,owner,con⟩
    some ({ s with openSocks := fd::s.openSocks, live := l::s.live },l)
  else none

def findLive (s : State) (addr : Nat) (owner : Owner) : Option Live :=
  s.live.find? fun l => l.addr=addr ∧ l.owner=owner

def countBytes (s : State) (l : Live) (nr : Nat) : State :=
  { s with live := s.live.map fun k =>
      if k.addr=l.addr then
        { k with con := { k.con with readStatistics := k.con.readStatistics+nr } }
      else k }

/-- Statistics are counted and sent back; none when the process aborts or hangs in it. -/
def reply (s : State) (l : Live) (nr : Nat) (sends : List SendResult) : Option State :=
  match sockWriteBytes sends (replyLength (l.con.readStatistics+nr)) with
  | .wrote _ => some (countBytes s l nr)
  | .aborted => none
  | .waiting => none

/-- The branches after recv() in the epoll server. -/
def epollRecv (s : State) (l : Live) (sends : List SendResult) : RecvResult → Option State
  | .data nr _ _ => reply s l nr sends
  | .shutdown => cleanConnection s l
  | .again => some s
  | .failed => cleanConnection s l

/-- One handle_recv; a connection that is dying is cleaned by handle_connection. -/
def handleRecv (s : State) (l : Live) : Poll → Option State
  | .ready (.data nr _ _) sends => reply s l nr sends
  | .ready .shutdown _ => cleanConnection s l
  | .ready .again _ => some s
  | .ready .failed _ => cleanConnection s l
  | .timeout _ => some s
  | .again => some s
  | .failed => cleanConnection s l

def clientRecv (s : State) (l : Live) : Poll → Option State
  | .ready (.data nr _ _) _ => some (countBytes s l nr)
  | .ready .shutdown _ => destroyTcpClient s l
  | .ready .again _ => some s
  | .ready .failed _ => destroyTcpClient s l
  | .timeout sends => reply s l 0 sends
  | .again => destroyTcpClient s l
  | .failed => destroyTcpClient s l

/-- One step; none when it is not possible, or ends the process. -/
def step (s : State) : Input → Option State
  | .epollAccept addr fd host added => do
    let (s,l) ← enter s addr .epollServer fd (getConnection fd host)
    if added then some { s with registered := (fd,addr)::s.registered }
    else cleanConnection s l
  | .threadAccept addr fd host => do
    let (s,_) ← enter s addr .threadServer fd (getConnection fd host)
    return s
  | .clientConnect addr fd => do
    let (s,_) ← enter s addr .client fd (createTcpClient fd)
    return s
  | .epollRecv addr r sends => do
    let l ← findLive s addr .epollServer
    epollRecv s l sends r
  | .threadPoll addr p => do
    let l ← findLive s addr .threadServer
    handleRecv s l p
  | .clientPoll addr p => do
    let l ← findLive s addr .client
    clientRecv s l p

def run (s : State) : List Input → Option State
  | [] => some s
  | x::xs => do
    let s ← step s x
    run s xs

/-- The open client sockets are those of the live objects, and every registration refers
to a live object and its socket. -/
def Owned (s : State) : Prop :=
  (∀ fd,fd∈s.openSocks ↔ ∃ l∈s.live,l.con.sock=fd) ∧
  ∀ r∈s.registered,∃ l∈s.live,l.addr=r.2 ∧ l.con.sock=r.1

/-- The step makes a server release a connection. -/
def Input.releases : Input → Bool
  | .epollAccept _ _ _ added => !added
  | .threadAccept _ _ _ => false
  | .clientConnect _ _ => false
  | .epollRecv _ .shutdown _ => true
  | .epollRecv _ .failed _ => true
  | .epollRecv _ _ _ => false
  | .threadPoll _ (.ready .shutdown _) => true
  | .threadPoll _ (.ready .failed _) => true
  | .threadPoll _ .failed => true
  | .threadPoll _ _ => false
  | .clientPoll _ _ => false

/-- What every live object looks like, by the code that made it. -/
def Live.wellFormed (l : Live) : Prop :=
  0≤l.con.sock ∧
  match l.owner with
  | .client => l.con.host=false ∧ l.con.hostname=false ∧ l.con.hostip=true
  | _ => l.con.sin=true

structure Inv (s : State) : Prop where
  owned : Owned s
  socks : (s.live.map (·.con.sock)).Nodup
  addrs : (s.live.map (·.addr)).Nodup
  formed : ∀ l∈s.live,l.wellFormed

theorem State.init_inv : Inv State.init :=
  ⟨⟨by simp [State.init],by simp [State.init]⟩,by simp [State.init],by simp [State.init],
    by simp [State.init]⟩

section

variable {s : State} {l : Live}

theorem Inv.eq_of_sock (h : Inv s) {a b : Live} (ha : a∈s.live) (hb : b∈s.live)
    (he : a.con.sock=b.con.sock) : a=b :=
  List.inj_on_of_nodup_map h.socks ha hb he

theorem Inv.eq_of_addr (h : Inv s) {a b : Live} (ha : a∈s.live) (hb : b∈s.live)
    (he : a.addr=b.addr) : a=b :=
  List.inj_on_of_nodup_map h.addrs ha hb he

theorem findLive_mem {addr : Nat} {owner : Owner} (h : findLive s addr owner=some l) :
    l∈s.live ∧ l.owner=owner := by
  have hp := List.find?_some h
  simp only [decide_eq_true_eq] at hp
  exact ⟨List.mem_of_find?_eq_some h,hp.2⟩

/-- A connection of a server has its sin set, so the branch that closes is not reached. -/
theorem cleanConnection_server (hl : l.wellFormed) (ho : l.owner≠.client) :
    cleanConnection s l=some { s with live := s.live.filter (·.addr≠l.addr) } := by
  have hsin : l.con.sin=true := by
    unfold Live.wellFormed at hl
    cases howner : l.owner with
    | client => exact absurd howner ho
    | epollServer | threadServer =>
      rw [howner] at hl
      exact hl.2
  rw [cleanConnection]
  cases l.con.host <;> cases l.con.hostname <;> cases l.con.hostip <;> simp [hsin]

/-- Freeing an object whose socket stays open leaves a socket that nobody owns. -/
theorem Inv.freed_leaks (h : Inv s) (hl : l∈s.live) :
    ¬Owned { s with live := s.live.filter (·.addr≠l.addr) } := by
  intro hgiven
  obtain ⟨hopen,_⟩ := hgiven
  obtain ⟨k,hk,hsock⟩ := (hopen l.con.sock).mp ((h.owned.1 _).mpr ⟨l,hl,rfl⟩)
  simp only [List.mem_filter,decide_eq_true_eq] at hk
  exact hk.2 (congrArg Live.addr (h.eq_of_sock hk.1 hl hsock))

theorem Inv.enter {addr : Nat} {owner : Owner} {fd : Int} {con : Connection} {s' : State}
    (h : Inv s) (hrun : enter s addr owner fd con=some (s',l)) (hsock : con.sock=fd)
    (hformed : 0≤fd → (⟨addr,owner,con⟩ : Live).wellFormed) :
    Inv s' ∧ l∈s'.live ∧ l.addr=addr ∧ l.owner=owner ∧ l.con.sock=fd := by
  unfold Socket.enter at hrun
  split_ifs at hrun with hc
  obtain ⟨hfd,hnew,haddr⟩ := hc
  injection hrun with hrun
  injection hrun with hs hl
  subst hs hl
  have hfresh : ∀ k∈s.live,k.con.sock≠fd :=
    fun k hk he => hnew ((h.owned.1 fd).mpr ⟨k,hk,he⟩)
  refine ⟨⟨⟨?_,?_⟩,?_,?_,?_⟩,List.mem_cons_self,rfl,rfl,hsock⟩
  · intro x
    simp only [List.mem_cons,h.owned.1 x,exists_eq_or_imp,hsock]
    constructor
    · intro hcase
      rcases hcase with rfl|hx
      · exact Or.inl rfl
      · exact Or.inr hx
    · intro hcase
      rcases hcase with rfl|hx
      · exact Or.inl rfl
      · exact Or.inr hx
  · intro r hr
    obtain ⟨k,hk,hkr⟩ := h.owned.2 r hr
    exact ⟨k,List.mem_cons_of_mem _ hk,hkr⟩
  · simp only [List.map_cons,List.nodup_cons,List.mem_map,not_exists,not_and,hsock]
    exact ⟨hfresh,h.socks⟩
  · simp only [List.map_cons,List.nodup_cons,List.mem_map,not_exists,not_and]
    exact ⟨haddr,h.addrs⟩
  · intro k hk
    rcases List.mem_cons.mp hk with rfl|hk
    · exact hformed hfd
    · exact h.formed k hk

theorem Inv.register (h : Inv s) (hl : l∈s.live) :
    Inv { s with registered := (l.con.sock,l.addr)::s.registered } := by
  refine ⟨⟨h.owned.1,?_⟩,h.socks,h.addrs,h.formed⟩
  intro r hr
  rcases List.mem_cons.mp hr with rfl|hr
  · exact ⟨l,hl,rfl,rfl⟩
  · exact h.owned.2 r hr

/-- Counting bytes keeps addresses, sockets and the shape of the objects. -/
theorem Inv.countBytes (h : Inv s) (nr : Nat) : Inv (countBytes s l nr) := by
  let count (k : Live) : Live :=
    if k.addr=l.addr then
      { k with con := { k.con with readStatistics := k.con.readStatistics+nr } }
    else k
  have hsame (k : Live) : (count k).addr=k.addr ∧ (count k).con.sock=k.con.sock ∧
      ((count k).wellFormed ↔ k.wellFormed) := by
    simp only [count]
    split_ifs
    · exact ⟨rfl,rfl,Iff.rfl⟩
    · exact ⟨rfl,rfl,Iff.rfl⟩
  have hlive : (Socket.countBytes s l nr).live=s.live.map count := rfl
  refine ⟨⟨?_,?_⟩,?_,?_,?_⟩
  · intro fd
    rw [hlive,show (Socket.countBytes s l nr).openSocks=s.openSocks from rfl,h.owned.1 fd]
    simp only [List.mem_map,exists_exists_and_eq_and,(hsame _).2.1]
  · intro r hr
    obtain ⟨k,hk,ha,hs⟩ := h.owned.2 r hr
    refine ⟨count k,?_,(hsame k).1.trans ha,(hsame k).2.1.trans hs⟩
    rw [hlive]
    exact List.mem_map_of_mem hk
  · rw [hlive,List.map_map]
    simpa only [Function.comp_def,(hsame _).2.1] using h.socks
  · rw [hlive,List.map_map]
    simpa only [Function.comp_def,(hsame _).1] using h.addrs
  · rw [hlive]
    intro k hk
    obtain ⟨k',hk',rfl⟩ := List.mem_map.mp hk
    exact (hsame k').2.2.mpr (h.formed k' hk')

theorem Inv.reply {s' : State} (h : Inv s) {nr : Nat} {sends : List SendResult}
    (hrun : reply s l nr sends=some s') : Inv s' := by
  unfold Socket.reply at hrun
  split at hrun
  · injection hrun with hrun
    exact hrun ▸ h.countBytes nr
  · cases hrun
  · cases hrun

/-- The client closes its socket itself; clean_connection then frees its host address. -/
theorem destroyTcpClient_eq (h : Inv s) (hl : l∈s.live) (ho : l.owner=.client) :
    destroyTcpClient s l=some {
      openSocks := s.openSocks.filter (· ≠ l.con.sock)
      registered := s.registered.filter (·.1≠l.con.sock)
      live := s.live.filter (·.addr≠l.addr) } := by
  have hopen : l.con.sock∈s.openSocks := (h.owned.1 _).mpr ⟨l,hl,rfl⟩
  have hf := (h.formed l hl).2
  rw [ho] at hf
  obtain ⟨h1,h2,h3⟩ := hf
  simp only [destroyTcpClient,sockClose,cleanConnection]
  rw [if_pos hopen]
  simp [h1,h2,h3]

theorem Inv.destroy {s' : State} (h : Inv s) (hl : l∈s.live) (ho : l.owner=.client)
    (hrun : destroyTcpClient s l=some s') : Inv s' := by
  rw [destroyTcpClient_eq h hl ho] at hrun
  injection hrun with hrun
  subst hrun
  have hsplit (k : Live) (hk : k∈s.live) : k.addr≠l.addr ↔ k.con.sock≠l.con.sock := by
    constructor
    · intro hne he
      exact hne (congrArg Live.addr (h.eq_of_sock hk hl he))
    · intro hne he
      exact hne (congrArg (fun k : Live => k.con.sock) (h.eq_of_addr hk hl he))
  refine ⟨⟨?_,?_⟩,?_,?_,?_⟩
  · intro fd
    simp only [List.mem_filter,decide_eq_true_eq,h.owned.1 fd]
    constructor
    · intro hgiven
      obtain ⟨⟨k,hk,rfl⟩,hne⟩ := hgiven
      exact ⟨k,⟨hk,(hsplit k hk).mpr hne⟩,rfl⟩
    · intro hgiven
      obtain ⟨k,⟨hk,hne⟩,rfl⟩ := hgiven
      exact ⟨⟨k,hk,rfl⟩,(hsplit k hk).mp hne⟩
  · intro r hr
    simp only [List.mem_filter,decide_eq_true_eq] at hr
    obtain ⟨k,hk,ha,hs⟩ := h.owned.2 r hr.1
    refine ⟨k,?_,ha,hs⟩
    simp only [List.mem_filter,decide_eq_true_eq]
    exact ⟨hk,(hsplit k hk).mpr (by rw [hs]; exact hr.2)⟩
  · exact h.socks.sublist (List.filter_sublist.map _)
  · exact h.addrs.sublist (List.filter_sublist.map _)
  · intro k hk
    exact h.formed k (List.mem_filter.mp hk).1

end

theorem getConnection_formed (addr : Nat) (owner : Owner) (fd : Int) (host : Bool)
    (ho : owner≠.client) (hfd : 0≤fd) :
    (⟨addr,owner,getConnection fd host⟩ : Live).wellFormed := by
  cases owner with
  | client => exact absurd rfl ho
  | epollServer | threadServer => exact ⟨hfd,rfl⟩

/-- A step that releases no connection of a server keeps the ownership. -/
theorem Inv.step {s s' : State} (h : Inv s) (x : Input) (hrun : step s x=some s')
    (hx : x.releases=false) : Inv s' := by
  cases x with
  | epollAccept addr fd host added =>
    obtain ⟨⟨s1,l⟩,henter,hrest⟩ := Option.bind_eq_some_iff.mp hrun
    obtain ⟨hinv,hl,ha,_,hs⟩ := h.enter henter rfl
      (getConnection_formed addr .epollServer fd host (by decide))
    have hadded : added=true := by simpa [Input.releases] using hx
    simp only [hadded,if_true] at hrest
    injection hrest with hrest
    rw [← hrest,← ha,← hs]
    exact hinv.register hl
  | threadAccept addr fd host =>
    obtain ⟨⟨s1,l⟩,henter,hrest⟩ := Option.bind_eq_some_iff.mp hrun
    injection hrest with hrest
    exact hrest ▸ (h.enter henter rfl
      (getConnection_formed addr .threadServer fd host (by decide))).1
  | clientConnect addr fd =>
    obtain ⟨⟨s1,l⟩,henter,hrest⟩ := Option.bind_eq_some_iff.mp hrun
    injection hrest with hrest
    exact hrest ▸ (h.enter henter rfl (fun hfd => ⟨hfd,rfl,rfl,rfl⟩)).1
  | epollRecv addr r sends =>
    obtain ⟨l,hfind,hrest⟩ := Option.bind_eq_some_iff.mp hrun
    cases r with
    | data nr pos fits => exact h.reply hrest
    | shutdown | failed => cases hx
    | again =>
      injection hrest with hrest
      exact hrest ▸ h
  | threadPoll addr p =>
    obtain ⟨l,hfind,hrest⟩ := Option.bind_eq_some_iff.mp hrun
    cases p with
    | ready r sends =>
      cases r with
      | data nr pos fits => exact h.reply hrest
      | shutdown | failed => cases hx
      | again =>
        injection hrest with hrest
        exact hrest ▸ h
    | timeout sends =>
      injection hrest with hrest
      exact hrest ▸ h
    | again =>
      injection hrest with hrest
      exact hrest ▸ h
    | failed => cases hx
  | clientPoll addr p =>
    obtain ⟨l,hfind,hrest⟩ := Option.bind_eq_some_iff.mp hrun
    obtain ⟨hl,ho⟩ := findLive_mem hfind
    cases p with
    | ready r sends =>
      cases r with
      | data nr pos fits =>
        injection hrest with hrest
        exact hrest ▸ h.countBytes nr
      | shutdown | failed => exact h.destroy hl ho hrest
      | again =>
        injection hrest with hrest
        exact hrest ▸ h
    | timeout sends => exact h.reply hrest
    | again | failed => exact h.destroy hl ho hrest

theorem Inv.clean_leaks {s s' : State} {l : Live} (h : Inv s) (hl : l∈s.live)
    (ho : l.owner≠.client) (hrun : cleanConnection s l=some s') : ¬Owned s' := by
  rw [cleanConnection_server (h.formed l hl) ho] at hrun
  injection hrun with hrun
  exact hrun ▸ h.freed_leaks hl

/-- A step in which a server releases a connection leaks its socket. -/
theorem Inv.release_leaks {s s' : State} (h : Inv s) (x : Input) (hrun : Socket.step s x=some s')
    (hx : x.releases=true) : ¬Owned s' := by
  cases x with
  | epollAccept addr fd host added =>
    obtain ⟨⟨s1,l⟩,henter,hrest⟩ := Option.bind_eq_some_iff.mp hrun
    obtain ⟨hinv,hl,_,ho,_⟩ := h.enter henter rfl
      (getConnection_formed addr .epollServer fd host (by decide))
    have hadded : added=false := by simpa [Input.releases] using hx
    simp only [hadded] at hrest
    exact hinv.clean_leaks hl (by rw [ho]; decide) hrest
  | threadAccept addr fd host => cases hx
  | clientConnect addr fd => cases hx
  | epollRecv addr r sends =>
    obtain ⟨l,hfind,hrest⟩ := Option.bind_eq_some_iff.mp hrun
    obtain ⟨hl,ho⟩ := findLive_mem hfind
    cases r with
    | data nr pos fits => cases hx
    | again => cases hx
    | shutdown | failed => exact h.clean_leaks hl (by rw [ho]; decide) hrest
  | threadPoll addr p =>
    obtain ⟨l,hfind,hrest⟩ := Option.bind_eq_some_iff.mp hrun
    obtain ⟨hl,ho⟩ := findLive_mem hfind
    cases p with
    | ready r sends =>
      cases r with
      | data nr pos fits => cases hx
      | again => cases hx
      | shutdown | failed => exact h.clean_leaks hl (by rw [ho]; decide) hrest
    | timeout sends => cases hx
    | again => cases hx
    | failed => exact h.clean_leaks hl (by rw [ho]; decide) hrest
  | clientPoll addr p => cases hx

theorem Inv.run_owned_iff {s final : State} (h : Inv s) (inputs : List Input)
    (hrun : run s inputs=some final) :
    (∀ pre s',pre<+:inputs → run s pre=some s' → Owned s') ↔
      ∀ x∈inputs,x.releases=false := by
  induction inputs generalizing s with
  | nil =>
    refine ⟨fun _ => by simp,fun _ pre s' hpre hs' => ?_⟩
    rw [List.prefix_nil.mp hpre] at hs'
    injection hs' with hs'
    exact hs' ▸ h.owned
  | cons x xs ih =>
    obtain ⟨s1,hstep,hrest⟩ := Option.bind_eq_some_iff.mp hrun
    have hcons (pre : List Input) : run s (x::pre)=run s1 pre := by
      simp only [run,hstep,Option.bind_eq_bind,Option.bind_some]
    by_cases hx : x.releases=true
    · constructor
      · intro hall
        exact absurd (hall [x] s1 (by simp) ((hcons []).trans rfl))
          (h.release_leaks x hstep hx)
      · intro hnone
        rw [hnone x List.mem_cons_self] at hx
        cases hx
    · have hx' : x.releases=false := by simpa using hx
      have hrec := ih (h.step x hstep hx') hrest
      constructor
      · intro hall y hy
        rcases List.mem_cons.mp hy with rfl|hy
        · exact hx'
        · refine hrec.mp ?_ y hy
          intro pre s' hpre hs'
          exact hall (x::pre) s' ((List.prefix_cons_inj x).mpr hpre) ((hcons pre).trans hs')
      · intro hnone pre s' hpre hs'
        rcases List.prefix_cons_iff.mp hpre with rfl|⟨pre',rfl,hpre'⟩
        · injection hs' with hs'
          exact hs' ▸ h.owned
        · exact hrec.mpr (fun y hy => hnone y (List.mem_cons_of_mem x hy)) pre' s' hpre'
            ((hcons pre').symm.trans hs')

/-- Along a run every open client socket belongs to a live object, and the other way
round, if and only if no server releases a connection in it. -/
theorem noLeak_iff (inputs : List Input) (final : State)
    (hrun : run State.init inputs=some final) :
    (∀ pre s,pre<+:inputs → run State.init pre=some s → Owned s) ↔
      ∀ x∈inputs,x.releases=false :=
  State.init_inv.run_owned_iff inputs hrun

/-- A connection of the epoll server receives data and answers in two sends; a client receives
data too, and then its peer shuts down. -/
def exchange : List Input :=
  [.epollAccept 1 5 true true,.clientConnect 2 6,
    .epollRecv 1 (.data 6 (by decide) (by decide)) [.sent 10,.recoverable,.sent 7],
    .clientPoll 2 (.ready (.data 8 (by decide) (by decide)) []),.clientPoll 2 (.ready .shutdown [])]

/-- Up to there nothing leaks, but once the peer of the server shuts down as well. -/
theorem noLeak_iff_exchange :
    (∀ pre s,pre<+:exchange → run State.init pre=some s → Owned s) ∧
    ¬∀ pre s,pre<+:exchange++[Input.epollRecv 1 .shutdown []] → run State.init pre=some s →
      Owned s := by
  constructor
  · apply (noLeak_iff exchange
      ⟨[5],[(5,1)],[⟨1,.epollServer,⟨true,false,false,true,5,6⟩⟩]⟩ (by decide)).mpr
    simp [exchange,Input.releases]
  · apply mt (noLeak_iff (exchange++[Input.epollRecv 1 .shutdown []]) ⟨[5],[(5,1)],[]⟩
      (by decide)).mp
    simp [Input.releases]

/-- The peer of the only connection shuts down: its object is freed, its socket stays open
and registered. -/
theorem shutdown_leaks_socket :
    run State.init [.epollAccept 1 5 true true,.epollRecv 1 .shutdown []]=
      some ⟨[5],[(5,1)],[]⟩ ∧ ¬Owned ⟨[5],[(5,1)],[]⟩ := by
  refine ⟨by decide,?_⟩
  intro hgiven
  obtain ⟨hopen,_⟩ := hgiven
  obtain ⟨l,hl,_⟩ := (hopen 5).mp (by decide)
  cases hl

end IdearNiu.Socket
