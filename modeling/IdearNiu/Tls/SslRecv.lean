import IdearNiu.Framework.Memory
import IdearNiu.Framework.SharedCell

namespace IdearNiu.Tls

open Memory SharedCell

abbrev Byte := BitVec 8

section

variable {κ σ : Type}

/-- What the code uses of mbedtls, on the state of one connection and its configuration:
a read gives the return value, the bytes it leaves in the buffer and the next state. -/
structure Mbedtls (σ : Type) where
  confReadTimeout : σ → Nat → σ
  sslRead : σ → Nat → Int × List Byte × σ

def errPeerCloseNotify : Int := -0x7880

def errTimeout : Int := -0x6800

def errConnEof : Int := -0x7280

def errSessionTicketExpired : Int := -0x6D80

def errNonFatal : Int := -0x6680

/-- The errors that end a call with what it has read. -/
def readComplete (ret : Int) : Bool :=
  ret==errTimeout || ret==errConnEof || ret==errSessionTicketExpired || ret==errNonFatal

/-- An int beside an uint32_t in a conditional becomes unsigned before it is returned. -/
def unsigned (x : Int) : Int := x%4294967296

/-- `(readLen > 0) ? readLen : net_status` -/
def lengthOrStatus (readLen : Nat) (netStatus : Int) : Int :=
  if 0<readLen then readLen else unsigned netStatus

/-- How a call leaves the caller, the connection and the static net_status. -/
structure Outcome (σ : Type) where
  ret : Int
  buf : List Byte
  conn : σ
  netStatus : Int

/-- The loop of ssl_recv for the given number of tests at most. readLen is an uint32_t. -/
def sslRecvLoop (tls : Mbedtls σ) (len : Nat) :
    Nat → σ → List Byte → Nat → Int → Option (Outcome σ)
  | 0,_,_,_,_ => none
  | fuel+1,conn,buf,readLen,netStatus =>
    if readLen<len then
      let (ret,bytes,conn') := tls.sslRead conn (len-readLen)
      let buf' := splice buf readLen bytes
      if 0<ret then
        sslRecvLoop tls len fuel conn' buf' ((readLen+ret.toNat)%4294967296) 0
      else if ret=0 then
        some ⟨if netStatus=-2 then unsigned netStatus else readLen,buf',conn',netStatus⟩
      else if ret=errPeerCloseNotify then
        some ⟨lengthOrStatus readLen (-2),buf',conn',-2⟩
      else if readComplete ret then some ⟨readLen,buf',conn',netStatus⟩
      else some ⟨-1,buf',conn',-1⟩
    else some ⟨lengthOrStatus readLen netStatus,buf,conn,netStatus⟩

structure Request where
  buf : List Byte
  len : Nat
  timeout : Nat

def sslRecv (tls : Mbedtls σ) (fuel : Nat) (conn : σ) (req : Request) (netStatus : Int) :
    Option (Outcome σ) :=
  sslRecvLoop tls req.len fuel (tls.confReadTimeout conn req.timeout) req.buf 0 netStatus

/-- Calls on several connections one after the other: what each returned and left in its
buffer; none if a call does not return within the fuel. -/
def recvAll [DecidableEq κ] (tls : Mbedtls σ) (fuel : Nat) :
    (κ → σ) → Int → List (κ × Request) → Option (List (κ × (Int × List Byte)))
  | _,_,[] => some []
  | conns,netStatus,(k,req)::calls =>
    match sslRecv tls fuel (conns k) req netStatus with
    | none => none
    | some o => (recvAll tls fuel (Function.update conns k o.conn) o.netStatus calls).map
        (fun rest => (k,o.ret,o.buf)::rest)

/-- What mbedtls_ssl_read returned during a call, and how the call left the buffer, the
length and the connection. -/
structure Reading (σ : Type) where
  results : List Int
  buf : List Byte
  readLen : Nat
  conn : σ

def readsLoop (tls : Mbedtls σ) (len : Nat) :
    Nat → σ → List Byte → Nat → Option (Reading σ)
  | 0,_,_,_ => none
  | fuel+1,conn,buf,readLen =>
    if readLen<len then
      let (ret,bytes,conn') := tls.sslRead conn (len-readLen)
      let buf' := splice buf readLen bytes
      if 0<ret then
        (readsLoop tls len fuel conn' buf' ((readLen+ret.toNat)%4294967296)).map
          (fun r => { r with results := ret::r.results })
      else some ⟨[ret],buf',readLen,conn'⟩
    else some ⟨[],buf,readLen,conn⟩

def reads (tls : Mbedtls σ) (fuel : Nat) (conn : σ) (req : Request) : Option (Reading σ) :=
  readsLoop tls req.len fuel (tls.confReadTimeout conn req.timeout) req.buf 0

/-- How one result of mbedtls_ssl_read marks the status: data clears it, a closing alert
and a failure set it, an end of file or a pause leaves it. -/
def mark (netStatus ret : Int) : Int :=
  if 0<ret then 0
  else if ret=errPeerCloseNotify then -2
  else if ret=0 ∨ readComplete ret=true then netStatus
  else -1

/-- The mark of the last result that left one; 0 at the start of the program. -/
def lastMark (results : List Int) : Int := results.foldl mark 0

/-- What a call returns, from its results and the status it found. -/
def answer (r : Reading σ) (netStatus : Int) : Int :=
  match r.results.getLast? with
  | none => lengthOrStatus r.readLen netStatus
  | some last =>
    if 0<last ∨ last=errPeerCloseNotify then
      lengthOrStatus r.readLen (r.results.foldl mark netStatus)
    else if last=0 then
      if r.results.foldl mark netStatus=-2 then unsigned (-2) else r.readLen
    else if readComplete last then r.readLen
    else -1

theorem mark_data (s ret : Int) (h : 0<ret) : mark s ret=0 := by
  simp only [mark,h,if_true]

theorem mark_keep (s ret : Int) (h : ret=0 ∨ readComplete ret=true) : mark s ret=s := by
  rcases h with rfl|h
  · rfl
  · simp only [readComplete,Bool.or_eq_true,beq_iff_eq] at h
    rcases h with ((rfl|rfl)|rfl)|rfl <;> rfl

theorem mark_fail (s ret : Int) (hpos : ¬0<ret) (hclose : ret≠errPeerCloseNotify)
    (hzero : ret≠0) (hsoft : readComplete ret=false) : mark s ret=-1 := by
  simp only [mark,hpos,hclose,hzero,hsoft,if_false,Bool.false_eq_true,or_self]

/-- After data the status found on entry no longer matters. -/
theorem answer_data (r : Reading σ) (ret s : Int) (h : 0<ret) :
    answer { r with results := ret::r.results } s=answer r 0 := by
  cases hr : r.results with
  | nil => simp [answer,hr,h,mark_data s ret h]
  | cons x xs =>
    have hlast : (x::xs).getLast?=some ((x::xs).getLast (List.cons_ne_nil x xs)) :=
      List.getLast?_eq_some_getLast (List.cons_ne_nil x xs)
    simp only [answer,hr,List.getLast?_cons_cons,hlast,List.foldl_cons,mark_data s ret h]

theorem answer_end (buf : List Byte) (n : Nat) (conn : σ) (s : Int) :
    answer ⟨[0],buf,n,conn⟩ s=if s=-2 then unsigned s else n := by
  by_cases hs : s=-2
  · subst hs
    rfl
  · have hmark : mark s 0=s := rfl
    simp [answer,hmark,hs,errPeerCloseNotify]

theorem answer_soft (buf : List Byte) (n : Nat) (conn : σ) (ret s : Int)
    (h : readComplete ret=true) : answer ⟨[ret],buf,n,conn⟩ s=n := by
  simp only [readComplete,Bool.or_eq_true,beq_iff_eq] at h
  rcases h with ((rfl|rfl)|rfl)|rfl <;> rfl

theorem answer_fail (buf : List Byte) (n : Nat) (conn : σ) (ret s : Int) (hpos : ¬0<ret)
    (hclose : ret≠errPeerCloseNotify) (hzero : ret≠0) (hsoft : readComplete ret=false) :
    answer ⟨[ret],buf,n,conn⟩ s=-1 := by
  simp only [answer,List.getLast?_singleton,hpos,hclose,hzero,hsoft,or_self,if_false,
    Bool.false_eq_true]

/-- The loop reads whatever the status is, and the status only enters its answer. -/
theorem sslRecvLoop_eq (tls : Mbedtls σ) (len fuel : Nat) (conn : σ) (buf : List Byte)
    (readLen : Nat) (s : Int) :
    sslRecvLoop tls len fuel conn buf readLen s=
      (readsLoop tls len fuel conn buf readLen).map
        (fun r => ⟨answer r s,r.buf,r.conn,r.results.foldl mark s⟩) := by
  induction fuel generalizing conn buf readLen s with
  | zero => rfl
  | succ fuel ih =>
    rw [sslRecvLoop,readsLoop]
    by_cases hlen : readLen<len
    · obtain ⟨ret,bytes,conn',hread⟩ : ∃ ret bytes conn',
          tls.sslRead conn (len-readLen)=(ret,bytes,conn') := ⟨_,_,_,rfl⟩
      simp only [hlen,if_true,hread]
      by_cases hpos : 0<ret
      · simp only [hpos,if_true,ih,Option.map_map]
        congr 1
        funext r
        simp only [Function.comp_apply,answer_data r ret s hpos,List.foldl_cons,
          mark_data s ret hpos]
      · simp only [hpos,if_false,Option.map_some,List.foldl_cons,List.foldl_nil]
        by_cases hzero : ret=0
        · subst hzero
          simp only [if_true,answer_end]
          rfl
        · by_cases hclose : ret=errPeerCloseNotify
          · subst hclose
            rfl
          · cases hsoft : readComplete ret with
            | true =>
              simp only [hzero,hclose,if_false,if_true,answer_soft _ _ _ ret s hsoft,
                mark_keep s ret (Or.inr hsoft)]
            | false =>
              simp only [hzero,hclose,if_false,Bool.false_eq_true,
                answer_fail _ _ _ ret s hpos hclose hzero hsoft,
                mark_fail s ret hpos hclose hzero hsoft]
    · simp only [hlen,if_false,Option.map_some]
      rfl

/-- A call as a step of a member that shares the status with the others. -/
def recvEffect (tls : Mbedtls σ) (fuel : Nat) (conn : σ) (req : Request) :
    Option (Effect σ Int (Int × List Byte)) :=
  (reads tls fuel conn req).map (fun r =>
    ⟨r.conn,fun s => r.results.foldl mark s,fun s => (answer r s,r.buf)⟩)

theorem recvAll_eq_run [DecidableEq κ] (tls : Mbedtls σ) (fuel : Nat) (conns : κ → σ)
    (s : Int) (calls : List (κ × Request)) :
    recvAll tls fuel conns s calls=run (recvEffect tls fuel) conns s calls := by
  induction calls generalizing conns s with
  | nil => rfl
  | cons c calls ih =>
    obtain ⟨k,req⟩ := c
    rw [recvAll,run,sslRecv,recvEffect,sslRecvLoop_eq]
    rw [reads]
    cases readsLoop tls req.len fuel (tls.confReadTimeout (conns k) req.timeout) req.buf 0 with
    | none => rfl
    | some r =>
      simp only [Option.map_some]
      rw [ih]

/-- A pass reads nothing, ends with its result, or goes on after data. -/
theorem readsLoop_pass (tls : Mbedtls σ) (len fuel : Nat) (conn : σ) (buf : List Byte)
    (n : Nat) (r : Reading σ) (h : readsLoop tls len (fuel+1) conn buf n=some r) :
    (¬n<len ∧ r=⟨[],buf,n,conn⟩) ∨
    (n<len ∧ ∃ ret buf' conn',(tls.sslRead conn (len-n)).1=ret ∧
      ((¬0<ret ∧ r=⟨[ret],buf',n,conn'⟩) ∨
        (0<ret ∧ ∃ t,readsLoop tls len fuel conn' buf' ((n+ret.toNat)%4294967296)=some t ∧
          r={ t with results := ret::t.results }))) := by
  rw [readsLoop] at h
  by_cases hlen : n<len
  · obtain ⟨ret,bytes,conn',hread⟩ : ∃ ret bytes conn',
        tls.sslRead conn (len-n)=(ret,bytes,conn') := ⟨_,_,_,rfl⟩
    simp only [hlen,if_true,hread] at h
    refine Or.inr ⟨hlen,ret,splice buf n bytes,conn',by rw [hread],?_⟩
    by_cases hpos : 0<ret
    · simp only [hpos,if_true] at h
      obtain ⟨t,ht,he⟩ := Option.map_eq_some_iff.mp h
      exact Or.inr ⟨hpos,t,ht,he.symm⟩
    · simp only [hpos,if_false,Option.some_inj] at h
      exact Or.inl ⟨hpos,h.symm⟩
  · simp only [hlen,if_false,Option.some_inj] at h
    exact Or.inl ⟨hlen,h.symm⟩

/-- A call reads nothing, ends with its first result, or starts with data. -/
theorem readsLoop_cases (tls : Mbedtls σ) (len fuel : Nat) (conn : σ) (buf : List Byte)
    (readLen : Nat) (r : Reading σ) (h : readsLoop tls len fuel conn buf readLen=some r) :
    (¬readLen<len ∧ r.results=[] ∧ r.readLen=readLen) ∨
    (readLen<len ∧ ∃ ret,¬0<ret ∧ r.results=[ret] ∧ r.readLen=readLen) ∨
    (readLen<len ∧ ∃ ret rest,0<ret ∧ r.results=ret::rest) := by
  cases fuel with
  | zero => simp [readsLoop] at h
  | succ fuel =>
    rcases readsLoop_pass tls len fuel conn buf readLen r h with
      ⟨hlen,rfl⟩|⟨hlen,ret,buf',conn',_,⟨hpos,rfl⟩|⟨hpos,t,_,rfl⟩⟩
    · exact Or.inl ⟨hlen,rfl,rfl⟩
    · exact Or.inr (Or.inl ⟨hlen,ret,hpos,rfl,rfl⟩)
    · exact Or.inr (Or.inr ⟨hlen,ret,t.results,hpos,rfl⟩)

/-- The values net_status takes. -/
def isStatus (s : Int) : Prop := s=0 ∨ s=-1 ∨ s=-2

theorem mark_isStatus (s ret : Int) (h : isStatus s) : isStatus (mark s ret) := by
  rw [mark]
  split
  · exact Or.inl rfl
  · split
    · exact Or.inr (Or.inr rfl)
    · split
      · exact h
      · exact Or.inr (Or.inl rfl)

theorem foldl_mark_isStatus (results : List Int) (s : Int) (h : isStatus s) :
    isStatus (results.foldl mark s) := by
  induction results generalizing s with
  | nil => exact h
  | cons ret results ih => exact ih (mark s ret) (mark_isStatus s ret h)

theorem lastMark_isStatus (results : List Int) : isStatus (lastMark results) :=
  foldl_mark_isStatus results 0 (Or.inl rfl)

theorem unsigned_injective (s t : Int) (hs : isStatus s) (ht : isStatus t) :
    unsigned s=unsigned t ↔ s=t := by
  simp only [unsigned]
  rcases hs with rfl|rfl|rfl <;> rcases ht with rfl|rfl|rfl <;> decide

/-- Two statuses that a call cannot tell apart: it looks at the status if it is asked for
nothing, and, for a closed connection only, if its first read is an end of file. -/
def Alike (len : Nat) (results : List Int) (all own : Int) : Prop :=
  (len=0 → all=own) ∧ (results.head?=some 0 → (all=-2 ↔ own=-2))

theorem answer_eq_iff (tls : Mbedtls σ) (fuel : Nat) (conn : σ) (req : Request)
    (r : Reading σ) (all own : Int) (hall : isStatus all) (hown : isStatus own)
    (h : reads tls fuel conn req=some r) :
    answer r all=answer r own ↔ Alike req.len r.results all own := by
  obtain ⟨results,buf,n,conn'⟩ := r
  rcases readsLoop_cases tls req.len fuel _ _ 0 _ h with ⟨hlen,hr,hn⟩|⟨hlen,ret,hret,hr,hn⟩|
    ⟨hlen,ret,rest,hret,hr⟩
  · obtain rfl : results=[] := hr
    obtain rfl : n=0 := hn
    have hz : req.len=0 := by omega
    have hanswer : ∀ s,answer (⟨[],buf,0,conn'⟩ : Reading σ) s=unsigned s := fun _ => rfl
    simp only [hanswer,unsigned_injective all own hall hown,Alike,hz,forall_const,
      List.head?_nil,reduceCtorEq,false_implies,and_true]
  · obtain rfl : results=[ret] := hr
    obtain rfl : n=0 := hn
    have hz : req.len≠0 := by omega
    simp only [Alike,hz,false_implies,true_and,List.head?_cons,Option.some.injEq]
    by_cases hzero : ret=0
    · subst hzero
      simp only [forall_const,answer_end]
      rcases hall with rfl|rfl|rfl <;> rcases hown with rfl|rfl|rfl <;> decide
    · simp only [hzero,false_implies,iff_true]
      by_cases hclose : ret=errPeerCloseNotify
      · subst hclose
        rfl
      · cases hsoft : readComplete ret with
        | true => rw [answer_soft _ _ _ ret _ hsoft,answer_soft _ _ _ ret _ hsoft]
        | false =>
          rw [answer_fail _ _ _ ret _ hret hclose hzero hsoft,
            answer_fail _ _ _ ret _ hret hclose hzero hsoft]
  · obtain rfl : results=ret::rest := hr
    have hz : req.len≠0 := by omega
    have hne : ret≠0 := by omega
    simp only [Alike,hz,false_implies,true_and,List.head?_cons,Option.some.injEq,hne,iff_true]
    rw [answer_data ⟨rest,buf,n,conn'⟩ ret all hret,answer_data ⟨rest,buf,n,conn'⟩ ret own hret]

variable [DecidableEq κ]

/-- At every call of b the last mark over all the connections is, as far as the call can
tell, the last mark of b's own reads. The log holds every result so far. -/
def OwnEnding (tls : Mbedtls σ) (fuel : Nat) (b : κ) :
    (κ → σ) → List (κ × Int) → List (κ × Request) → Prop
  | _,_,[] => True
  | conns,log,(k,req)::calls =>
    match reads tls fuel (conns k) req with
    | none => True
    | some r =>
      (k=b → Alike req.len r.results (lastMark (log.map Prod.snd))
        (lastMark ((log.filter (fun x => x.1=b)).map Prod.snd))) ∧
      OwnEnding tls fuel b (Function.update conns k r.conn)
        (log++r.results.map (fun ret => (k,ret))) calls

omit [DecidableEq κ] in
theorem lastMark_log (log : List (κ × Int)) (k : κ) (results : List Int) :
    lastMark ((log++results.map (fun ret => (k,ret))).map Prod.snd)=
      results.foldl mark (lastMark (log.map Prod.snd)) := by
  have hsnd : (results.map (fun ret => (k,ret))).map Prod.snd=results := by
    rw [List.map_map]
    exact List.map_id results
  rw [lastMark,List.map_append,List.foldl_append,hsnd]
  rfl

theorem lastMark_own_log (log : List (κ × Int)) (b k : κ) (results : List Int) :
    lastMark (((log++results.map (fun ret => (k,ret))).filter (fun x => x.1=b)).map Prod.snd)=
      if k=b then results.foldl mark (lastMark ((log.filter (fun x => x.1=b)).map Prod.snd))
      else lastMark ((log.filter (fun x => x.1=b)).map Prod.snd) := by
  rw [List.filter_append]
  by_cases hk : k=b
  · have hall : (results.map (fun ret => (k,ret))).filter (fun x => x.1=b)=
        results.map (fun ret => (k,ret)) := by
      apply List.filter_eq_self.mpr
      intro x hx
      obtain ⟨ret,_,rfl⟩ := List.mem_map.mp hx
      simpa using hk
    rw [hall,if_pos hk,lastMark_log]
  · have hnone : (results.map (fun ret => (k,ret))).filter (fun x => x.1=b)=[] := by
      apply List.filter_eq_nil_iff.mpr
      intro x hx
      obtain ⟨ret,_,rfl⟩ := List.mem_map.mp hx
      simpa using hk
    rw [hnone,List.append_nil,if_neg hk]

theorem agree_iff (tls : Mbedtls σ) (fuel : Nat) (b : κ) (conns : κ → σ)
    (log : List (κ × Int)) (calls : List (κ × Request)) :
    Agree (recvEffect tls fuel) b conns (lastMark (log.map Prod.snd))
      (lastMark ((log.filter (fun x => x.1=b)).map Prod.snd)) calls ↔
    OwnEnding tls fuel b conns log calls := by
  induction calls generalizing conns log with
  | nil => exact Iff.rfl
  | cons c calls ih =>
    obtain ⟨k,req⟩ := c
    rw [OwnEnding]
    cases hr : reads tls fuel (conns k) req with
    | none =>
      rw [Agree,recvEffect,hr]
      exact Iff.rfl
    | some r =>
      have he : recvEffect tls fuel (conns k) req=some
          ⟨r.conn,fun s => r.results.foldl mark s,fun s => (answer r s,r.buf)⟩ := by
        rw [recvEffect,hr,Option.map_some]
      rw [agree_of_act he]
      simp only [Prod.mk.injEq,and_true]
      rw [← ih,lastMark_log,lastMark_own_log,answer_eq_iff tls fuel (conns k) req r _ _
        (lastMark_isStatus _) (lastMark_isStatus _) hr]

/-- mbedtls_ssl_read reports no more bytes than it was asked for. -/
def Bounded (tls : Mbedtls σ) : Prop :=
  ∀ conn n,(tls.sslRead conn n).1≤n

omit [DecidableEq κ] in
theorem readsLoop_returns (tls : Mbedtls σ) (hb : Bounded tls) (len fuel : Nat) (conn : σ)
    (buf : List Byte) (readLen : Nat) (hlen : len<4294967296) (hle : readLen≤len)
    (hfuel : len<fuel+readLen) :
    (readsLoop tls len fuel conn buf readLen).isSome=true := by
  induction fuel generalizing conn buf readLen with
  | zero =>
    rw [readsLoop]
    omega
  | succ fuel ih =>
    rw [readsLoop]
    by_cases hlt : readLen<len
    · obtain ⟨ret,bytes,conn',hread⟩ : ∃ ret bytes conn',
          tls.sslRead conn (len-readLen)=(ret,bytes,conn') := ⟨_,_,_,rfl⟩
      have hret := hb conn (len-readLen)
      rw [hread] at hret
      simp only [hlt,if_true,hread]
      by_cases hpos : 0<ret
      · simp only [hpos,if_true,Option.isSome_map]
        have hmod : (readLen+ret.toNat)%4294967296=readLen+ret.toNat :=
          Nat.mod_eq_of_lt (by omega)
        exact ih _ _ _ (by rw [hmod]; omega) (by rw [hmod]; omega)
      · simp only [hpos,if_false,Option.isSome_some]
    · simp only [hlt,if_false,Option.isSome_some]

omit [DecidableEq κ] in
/-- A call for fewer than 2^32 bytes returns: each pass reads at least one of them. -/
theorem sslRecv_returns (tls : Mbedtls σ) (hb : Bounded tls) (conn : σ) (req : Request)
    (s : Int) (hlen : req.len<4294967296) :
    (sslRecv tls (req.len+1) conn req s).isSome=true := by
  rw [sslRecv,sslRecvLoop_eq,Option.isSome_map]
  exact readsLoop_returns tls hb req.len (req.len+1) _ _ 0 hlen (Nat.zero_le _) (by omega)

/-- The calls on b give what they give without the calls on the others exactly when each
of them that looks at the status finds it as b's own reads left it. -/
theorem ssl_recv_independent_iff (tls : Mbedtls σ) (fuel : Nat) (b : κ) (conns : κ → σ)
    (calls : List (κ × Request)) (results : List (κ × (Int × List Byte)))
    (h : recvAll tls fuel conns 0 calls=some results) :
    recvAll tls fuel conns 0 (calls.filter (fun c => c.1=b))=
        some (results.filter (fun r => r.1=b)) ↔
      OwnEnding tls fuel b conns [] calls := by
  rw [recvAll_eq_run] at h ⊢
  rw [← agree_iff]
  exact alone_iff b conns conns 0 0 calls results h rfl

/-- A peer that sends its messages and then an end of file, a closing alert or nothing. -/
inductive Item where
  | data (bytes : List Byte)
  | eof
  | closeNotify

/-- Reads of a scripted connection; a message longer than the request waits. -/
def scripted : Mbedtls (List Item) where
  confReadTimeout := fun conn _ => conn
  sslRead := fun conn n => match conn with
    | [] => (errTimeout,[],[])
    | .data bytes::rest =>
      if bytes.length≤n then (bytes.length,bytes,rest)
      else (n,bytes.take n,Item.data (bytes.drop n)::rest)
    | .eof::rest => (0,[],Item.eof::rest)
    | .closeNotify::rest => (errPeerCloseNotify,[],rest)

def twoPeers : Bool → List Item
  | false => [Item.closeNotify]
  | true => [Item.data [104,105],Item.eof]

theorem ssl_recv_independent_iff_reading :
    recvAll scripted 3 twoPeers 0 [(true,⟨[0,0],2,1000⟩),(false,⟨[0],1,1000⟩)]=
      some [(true,2,[104,105]),(false,4294967294,[0])] ∧
    recvAll scripted 3 twoPeers 0 [(true,⟨[0,0],2,1000⟩)]=some [(true,2,[104,105])] := by
  have h : recvAll scripted 3 twoPeers 0 [(true,⟨[0,0],2,1000⟩),(false,⟨[0],1,1000⟩)]=
      some [(true,2,[104,105]),(false,4294967294,[0])] := by decide
  refine ⟨h,(ssl_recv_independent_iff scripted 3 true twoPeers _ _ h).mpr ?_⟩
  exact ⟨fun _ => ⟨fun hz => absurd hz (by decide),fun hz => absurd hz (by decide)⟩,
    fun hz => absurd hz (by decide),trivial⟩

def closedPeers : Bool → List Item
  | false => [Item.closeNotify]
  | true => [Item.eof]

/-- The end of file of one connection is reported as (unsigned) -2 after a closing alert
on the other, and as 0 without it. -/
theorem ssl_recv_sees_other :
    ∃ results,
      recvAll scripted 2 closedPeers 0 [(false,⟨[0],1,1000⟩),(true,⟨[0],1,1000⟩)]=
        some results ∧
      recvAll scripted 2 closedPeers 0
        ([(false,⟨[0],1,1000⟩),(true,⟨[0],1,1000⟩)].filter (fun c => c.1=true))≠
        some (results.filter (fun r => r.1=true)) := by
  refine ⟨[(false,4294967294,[0]),(true,4294967294,[0])],?_,?_⟩
  · decide
  · decide

end

end IdearNiu.Tls
