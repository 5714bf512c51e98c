import IdearNiu.Http.Response

namespace IdearNiu.Http

/-- The codes of uerr_t that gethttp returns and http_loop tests or returns here. -/
inductive Uerr where
  | hosterr
  | conerror
  | conimpossible
  | consslerr
  | verifcerterr
  | writefailed
  | heof
  | herr
  | authfailed
  | newlocation
  | newlocationKeepPost
  | rangeerr
  | retrunneeded
  | gatewaytimeout
  | unlinkerr
  | fopenerr
  | fwriteerr
  | retrfinished
  | retrok
  | wrongcode
  | trylimexc
deriving DecidableEq

inductive ConnectError where
  | host
  | retryable
  | impossible
  | ssl
  | certificate
deriving DecidableEq

def ConnectError.uerr : ConnectError → Uerr
  | .host => .hosterr
  | .retryable => .conerror
  | .impossible => .conimpossible
  | .ssl => .consslerr
  | .certificate => .verifcerterr

/-- What happens to the local file. -/
inductive Output where
  | ok
  | unlinkError
  | openError
  | writeError
deriving DecidableEq

/-- Why a call of gethttp does not come back: log_error, which ends in a call of abort, or a
read that goes on for ever. -/
inductive Stop where
  | logged
  | stalled
deriving DecidableEq

/-- What one call of gethttp meets. The connect result counts only when a connection is
made. The bytes are all that the server sends after this request and before the next one;
upper is what the upper halves of the Content-Range variables held. -/
structure Attempt where
  connect : Option ConnectError
  sent : Bool
  bytes : List UInt8
  ending : Ending
  output : Output
  seg : Nat → Segment
  upper : Int×Int

/-- An answer that reaches the client in large segments. -/
def plainAttempt (bytes : List UInt8) (ending : Ending) : Attempt :=
  ⟨none,true,bytes,ending,.ok,fun _ => ⟨4096,4096⟩,(0,0)⟩

structure HttpStat where
  len : Int
  contlen : Int
  restval : Int
  res : Int
deriving DecidableEq

/-- The variables of http_loop, the local file, and the persistent connection if one is
active. One host is asked, so an active connection is always available. -/
structure Client where
  count : Nat
  hs : HttpStat
  retrokf : Bool
  file : Option (List UInt8)
  pconn : Option Conn
deriving DecidableEq

def Client.init (file : Option (List UInt8)) : Client := ⟨0,⟨0,0,0,0⟩,false,file,none⟩

/-- A server that has closed or reset the connection sends nothing more. -/
def Conn.answered (c : Conn) (a : Attempt) : Conn :=
  if c.ending=.silent then ⟨c.unread++a.bytes,a.ending,c.sawEof⟩ else c

def Client.sock (s : Client) : Conn := s.pconn.getD Conn.fresh

def closeFinish (keepAlive : Bool) (c : Conn) : Option Conn := if keepAlive then some c else none

def skipThreshold : Int := 4096

/-- The chunks of a body, up to the line that follows the last one. -/
def skipChunks (seg : Nat → Segment) : Nat → Conn → Bool×Conn
  | 0,c => (false,c)
  | fuel+1,c => match fdReadLine seg c with
    | (.noData,c') => (true,c')
    | (.failed,c') => (true,c')
    | (.data line,c') =>
      let size := strtol16 (cString line)
      if size<0 then (false,c')
      else if size=0 then (true,(fdReadLine seg c').2)
      else if c'.unread.length < size then (false,c')
      else match fdReadLine seg { c' with unread := c'.unread.drop size.toNat } with
        | (.data _,c'') => skipChunks seg fuel c''
        | (_,c'') => (false,c'')

/-- A body with no length that is not chunked is not read at all. -/
def skipShortBody (seg : Nat → Segment) (c : Conn) (contlen : Int) (chunked : Bool) :
    Bool×Conn :=
  if contlen>skipThreshold then (false,c)
  else if chunked then skipChunks seg (c.unread.length+1) c
  else if c.unread.length<contlen then (false,c)
  else (true,{ c with unread := c.unread.drop contlen.toNat })

/-- The connection after the body of an answer that is of no interest. -/
def skipOrClose (seg : Nat → Segment) (keepAlive : Bool) (c : Conn) (contlen : Int)
    (chunked : Bool) : Option Conn :=
  if keepAlive && (skipShortBody seg c contlen chunked).1
  then closeFinish keepAlive (skipShortBody seg c contlen chunked).2 else none

def dlbufsize : Nat := 8192

/-- The size of the last read of a body of this size. -/
def lastRead (n : Nat) : Nat := if n=0 then 0 else (n-1)%dlbufsize+1

/-- The result, the data written and the socket; none when it reads on for ever. -/
def fdReadBody (output : Output) (exact : Bool) (toread : Int) (c : Conn) :
    Option (Int×List UInt8×Conn) :=
  let got := if exact then c.unread.take toread.toNat else c.unread
  let c' := { c with unread := c.unread.drop got.length }
  if output=.writeError ∧ got≠[] then some (-2,got.take dlbufsize,c')
  else if exact ∧ toread≤got.length then some (lastRead got.length,got,c')
  else match c.ending with
    | .silent => none
    | .closed => some (0,got,{ c' with sawEof := true })
    | .reset => some (-1,got,c')

def Head.contrange (h : Head) : Int := (h.contentRange.map (·.1)).getD 0

/-- The length after the Content-Range header has been looked at. -/
def Head.bodyLength (h : Head) : Int := (h.contentRange.map fun r => r.2-r.1+1).getD h.contlen

def Head.redirects (h : Head) : Bool :=
  h.statcode∈[301,302,303,307,308] || (h.statcode=300 && h.newloc)

def Head.retrievable (h : Head) : Bool :=
  (200≤h.statcode && h.statcode<300) || (h.statcode=300 && !h.newloc)

/-- What gethttp does with a head, by the tests it makes in turn. -/
inductive Disposition where
  | unauthorized
  | noContent
  | redirected
  | rangeError
  | alreadyRetrieved
  | refused
  | saved
deriving DecidableEq

def Head.disposition (h : Head) (restval : Int) : Disposition :=
  if h.statcode=401 then .unauthorized
  else if h.statcode=204 then .noContent
  else if h.redirects then .redirected
  else if h.statcode=416 ∧ restval<h.bodyLength+h.contrange then .rangeError
  else if h.statcode=416 ∨ (0<restval ∧ h.statcode=200 ∧ h.contrange=0 ∧ 0≤h.bodyLength ∧
      h.bodyLength≤restval) then .alreadyRetrieved
  else if (h.contrange≠0 ∧ h.contrange≠restval) ∨
      (h.statcode=206 ∧ h.contrange=0 ∧ restval≠0) then .rangeError
  else if h.retrievable then .saved
  else .refused

def Head.redirection (h : Head) : Uerr :=
  if h.statcode∈[307,308] then .newlocationKeepPost else .newlocation

def Head.totalLength (h : Head) : Int :=
  if h.bodyLength=-1 then -1 else h.bodyLength+h.contrange

/-- open_output_stream removes the file and opens it empty, with log_error when it cannot;
read_response_body then starts to count at restval. -/
def saveBody (s : Client) (a : Attempt) (h : Head) (c : Conn) : Except Stop (Uerr×Client) :=
  match a.output with
  | .unlinkError | .openError => .error .logged
  | output => match fdReadBody output (h.bodyLength≠-1) h.bodyLength c with
    | none => .error .stalled
    | some (res,written,c') => .ok (if res=-2 then .fwriteerr else .retrfinished,
        { s with
          hs := { s.hs with len := s.hs.restval+written.length, res := res }
          file := some written
          pconn := if 0≤res then closeFinish (!h.close) c' else none })

/-- gethttp from the head on. -/
def handleHead (s : Client) (a : Attempt) (h : Head) (c : Conn) : Except Stop (Uerr×Client) :=
  let skipped := skipOrClose a.seg (!h.close) c h.bodyLength h.chunked
  let s := { s with retrokf := h.retrievable }
  match h.disposition s.hs.restval with
  | .unauthorized =>
    .ok (.authfailed,{ s with pconn := skipOrClose a.seg (!h.close) c h.contlen h.chunked })
  | .noContent =>
    .ok (.retrfinished,{ s with
      hs := { s.hs with len := 0, res := 0, restval := 0 }
      pconn := closeFinish (!h.close) c })
  | .redirected =>
    .ok (h.redirection,{ s with
      hs := { s.hs with len := 0, res := 0, restval := 0 }
      pconn := skipped })
  | .rangeError => .ok (.rangeerr,{ s with pconn := none })
  | .alreadyRetrieved =>
    .ok (.retrunneeded,{ s with
      hs := { s.hs with len := h.bodyLength, res := 0 }
      retrokf := true
      pconn := skipped })
  | .refused =>
    .ok (if h.statcode=504 then .gatewaytimeout else .retrfinished,{ s with
      hs := ⟨0,h.totalLength,0,0⟩
      pconn := skipped })
  | .saved => saveBody { s with hs := { s.hs with contlen := h.totalLength } } a h c

def Client.begin (s : Client) : Client :=
  { s with hs := { s.hs with len := 0, contlen := -1, res := -1 } }

def gethttp (s : Client) (a : Attempt) : Except Stop (Uerr×Client) :=
  match (if s.pconn.isSome then none else a.connect) with
  | some e => .ok (e.uerr,s.begin)
  | none =>
    if !a.sent then .ok (.writefailed,{ s.begin with pconn := none })
    else
      let s := { s.begin with retrokf := false }
      match readReply a.seg a.upper (s.sock.answered a) with
      | (.noData,_) => .ok (.heof,{ s with pconn := none })
      | (.failed,_) => .ok (.herr,{ s with pconn := none })
      | (.malformed,_) => .ok (.herr,{ s with pconn := none })
      | (.head h,c) => handleHead s a h c

/-- One pass of the loop: it is followed by another one if a try is left, it returns, it
calls abort in the length tests, or it stops as a call of gethttp may. -/
inductive Pass where
  | again (s : Client)
  | exit (e : Uerr) (s : Client)
  | abort
  | stop (w : Stop)
deriving DecidableEq

def Uerr.retried : Uerr → Bool
  | .herr | .heof | .conerror | .writefailed | .rangeerr | .gatewaytimeout => true
  | _ => false

/-- The length tests of a finished retrieval, behind the test of the status. -/
def judge (s : Client) : Pass :=
  if !s.retrokf then .stop .logged
  else if s.hs.len=s.hs.contlen then .exit .retrok s
  else if s.hs.res=0 then
    if s.hs.contlen=-1 then .exit .retrok s
    else if s.hs.len < s.hs.contlen then .again s
    else if s.hs.len≠s.hs.restval then .abort
    else .exit .retrok s
  else .again s

/-- The pass counter and the restart value. -/
def Client.restart (s : Client) : Client :=
  { s with
    count := s.count+1
    hs := { s.hs with restval := if 1 < s.count+1 then s.hs.len else 0 } }

/-- What the loop makes of the result of gethttp. Every other code, also one that stands for
a file already retrieved or for a new location, meets log_error before ret is set. -/
def conclude (s : Client) : Uerr → Pass
  | .retrfinished => judge s
  | e => if e.retried then .again s else .stop .logged

def httpPass (s : Client) (a : Attempt) : Pass :=
  match gethttp s.restart a with
  | .error w => .stop w
  | .ok (e,s') => conclude s' e

/-- How http_loop ends; it has aborted only where the length tests do. -/
inductive Outcome where
  | returned (e : Uerr) (s : Client)
  | aborted
  | stopped (w : Stop)
deriving DecidableEq

def ntry : Nat := 20

section Loop

variable (env : Nat → Attempt)

/-- The loop with this many tries left. -/
def httpLoopFrom : Nat → Client → Outcome
  | 0,s => .returned .trylimexc s
  | n+1,s => match httpPass s (env s.count) with
    | .again s' => httpLoopFrom n s'
    | .exit e s' => .returned e s'
    | .abort => .aborted
    | .stop w => .stopped w

/-- The passes that the loop makes, each with the state it starts from. -/
def passesFrom : Nat → Client → List (Client×Attempt)
  | 0,_ => []
  | n+1,s => (s,env s.count)::match httpPass s (env s.count) with
    | .again s' => passesFrom n s'
    | _ => []

def httpLoop (file : Option (List UInt8)) : Outcome := httpLoopFrom env ntry (Client.init file)

def passes (file : Option (List UInt8)) : List (Client×Attempt) :=
  passesFrom env ntry (Client.init file)

end Loop

theorem passesFrom_again (env : Nat → Attempt) (n : Nat) (s s' : Client)
    (h : httpPass s (env s.count)=.again s') :
    passesFrom env (n+1) s=(s,env s.count)::passesFrom env n s' := by
  rw [passesFrom,h]

theorem passesFrom_exit (env : Nat → Attempt) (n : Nat) (s : Client) (e : Uerr) (s' : Client)
    (h : httpPass s (env s.count)=.exit e s') : passesFrom env (n+1) s=[(s,env s.count)] := by
  rw [passesFrom,h]

theorem httpLoopFrom_again (env : Nat → Attempt) (n : Nat) (s s' : Client)
    (h : httpPass s (env s.count)=.again s') :
    httpLoopFrom env (n+1) s=httpLoopFrom env n s' := by
  rw [httpLoopFrom,h]

theorem httpLoopFrom_exit (env : Nat → Attempt) (n : Nat) (s : Client) (e : Uerr) (s' : Client)
    (h : httpPass s (env s.count)=.exit e s') : httpLoopFrom env (n+1) s=.returned e s' := by
  rw [httpLoopFrom,h]

/-- gethttp has failed before it has a head: nothing is left to resume, and the loop goes on
or logs the error. -/
structure Failed (s s' : Client) (e : Uerr) : Prop where
  pconn : s'.pconn=none
  len : s'.hs.len=0
  count : s'.count=s.count
  pass : conclude s' e=.again s' ∨ conclude s' e=.stop .logged

theorem gethttp_cases (s : Client) (a : Attempt) (e : Uerr) (s' : Client)
    (h : gethttp s a=.ok (e,s')) :
    Failed s s' e ∨
    ∃ hd c,a.sent=true ∧ readReply a.seg a.upper (s.sock.answered a)=(.head hd,c) ∧
      handleHead { s.begin with retrokf := false } a hd c=.ok (e,s') := by
  unfold gethttp at h
  split at h
  · next err hconn =>
    cases h
    left
    by_cases hp : s.pconn.isSome=true
    · simp [hp] at hconn
    · refine ⟨by simpa [Client.begin] using hp,rfl,rfl,?_⟩
      cases err <;> simp [ConnectError.uerr,conclude,Uerr.retried]
  · split_ifs at h with hsent
    · cases h
      exact Or.inl ⟨rfl,rfl,rfl,Or.inl rfl⟩
    · have hsent' : a.sent=true := by simpa using hsent
      simp only at h
      split at h
      · cases h
        exact Or.inl ⟨rfl,rfl,rfl,Or.inl rfl⟩
      · cases h
        exact Or.inl ⟨rfl,rfl,rfl,Or.inl rfl⟩
      · cases h
        exact Or.inl ⟨rfl,rfl,rfl,Or.inl rfl⟩
      · next hd c hread => exact Or.inr ⟨hd,c,hsent',hread,h⟩

theorem disposition_saved (h : Head) (restval : Int) (hd : h.disposition restval=.saved) :
    h.retrievable=true ∧ (h.contrange=0 ∨ h.contrange=restval) := by
  unfold Head.disposition at hd
  split_ifs at hd with h1 h2 h3 h4 h5 h6 h7
  exact ⟨h7,by omega⟩

theorem disposition_refused (h : Head) (restval : Int) (hd : h.disposition restval=.refused) :
    h.retrievable=false := by
  unfold Head.disposition at hd
  split_ifs at hd with h1 h2 h3 h4 h5 h6 h7
  simpa using h7

theorem judge_again (s s' : Client) (h : judge s=.again s') :
    s'=s ∧ s.hs.len≠s.hs.contlen ∧
      (s.hs.res=0 → s.hs.contlen≠-1 ∧ s.hs.len < s.hs.contlen) := by
  unfold judge at h
  split_ifs at h with _ hlen hres hknown hless
  · cases h
    exact ⟨rfl,hlen,fun _ => ⟨hknown,hless⟩⟩
  · cases h
    exact ⟨rfl,hlen,fun h0 => absurd h0 hres⟩

/-- The loop goes on after an error that it retries and after a retrieval that is not
complete. -/
theorem conclude_again (s s' : Client) (e : Uerr) (h : conclude s e=.again s') :
    s'=s ∧ (e.retried=true ∨ (e=.retrfinished ∧ judge s=.again s)) := by
  cases e <;> simp only [conclude,Uerr.retried,if_true,if_false,Bool.false_eq_true] at h
  case retrfinished =>
    obtain ⟨rfl,_⟩ := judge_again s s' h
    exact ⟨rfl,Or.inr ⟨rfl,h⟩⟩
  all_goals first
    | cases h; exact ⟨rfl,Or.inl rfl⟩
    | cases h

end IdearNiu.Http
