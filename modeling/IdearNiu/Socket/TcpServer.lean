import IdearNiu.Framework.Pools
import IdearNiu.Socket.Connection

namespace IdearNiu.Socket.TcpServer

open Pools

/-- What select() on one descriptor, which fits into an fd_set, gives; isSet is FD_ISSET after a
positive count. -/
inductive SelectResult where
  | ready (isSet : Bool)
  | timeout
  | again
  | failed

/-- What each socket call gives if it is the one a thread makes next. -/
structure CallResults where
  select : SelectResult
  recv : RecvResult
  send : SendResult
  closed : Bool

/-- Where a handle_connection thread stands: before sock_set_blocking, at one of its socket
calls, or past clean_connection. -/
inductive Point where
  | start
  | select
  | recv
  | send (len : Nat)
  | clean
  | ended
deriving DecidableEq

structure Handler where
  con : Connection
  point : Point

/-- The checks of sock_write_bytes before its loop; error() aborts the process. -/
def beginWrite (con : Connection) (len : Nat) : Option Handler :=
  if len=0 then none
  else if con.sock<0 then none
  else some ⟨con,.send len⟩

/-- One socket call of a thread and the code up to its next one; none when it calls abort(). -/
def handlerStep (h : Handler) (r : CallResults) : Option Handler :=
  match h.point with
  | .start => if h.con.sock<0 then none else some { h with point := .select }
  | .select => match r.select with
    | .ready isSet => some { h with point := if isSet then .recv else .select }
    | .timeout => some h
    | .again => some h
    | .failed => some { h with point := .clean }
  | .recv => match r.recv with
    | .data nr _ _ =>
      let con := { h.con with readStatistics := h.con.readStatistics+nr }
      beginWrite con (replyLength con.readStatistics)
    | .shutdown => some { h with point := .clean }
    | .again => some { h with point := .select }
    | .failed => some { h with point := .clean }
  | .send len => match r.send with
    | .sent n => some { h with point := if len-n=0 then .select else .send (len-n) }
    | .recoverable => some h
    | .fatal => none
  | .clean =>
    if h.con.host || h.con.hostname || h.con.hostip || h.con.sin then
      some { h with point := .ended }
    else if h.con.sock≥0 then if r.closed then some { h with point := .ended } else none
    else some { h with point := .ended }
  | .ended => some h

/-- A turn of the accepting thread, with or without a new client, or a call of thread i. -/
inductive Input where
  | accept (fd : Nat) (host : Bool)
  | noConnection
  | call (i : Nat) (r : CallResults)

/-- The thread started for an accepted descriptor. -/
def newHandler (fd : Nat) (host : Bool) : Handler := ⟨getConnection fd host,.start⟩

def Input.event : Input → Event Handler CallResults
  | .accept fd host => .enter (newHandler fd host)
  | .noConnection => .idle
  | .call i r => .act i r

/-- The threads of the server after any interleaving of their calls. -/
def serve (inputs : List Input) : Pool Handler :=
  Pools.run handlerStep ⟨false,[]⟩ (inputs.map Input.event)

/-- Not a send() that fails for good. -/
def sendOk (p : Pool Handler) : Event Handler CallResults → Bool
  | .act i r => match p.members[i]? with
    | some ⟨_,.send _⟩ => r.send≠.fatal
    | _ => true
  | _ => true

/-- No send() of the run fails with an error that is not recoverable. -/
def sendsOk (inputs : List Input) : Bool :=
  along handlerStep sendOk ⟨false,[]⟩ (inputs.map Input.event)

/-- The calls of client j, and the turns of the accepting thread. -/
def Input.about (j : Nat) : Input → Bool
  | .call i _ => i=j
  | _ => true

/-- The process has not aborted, every thread is as if no other client had done anything, and the
next client is taken. -/
structure Isolated (inputs : List Input) : Prop where
  up : (serve inputs).down=false
  alone : ∀ j : Nat,(serve inputs).members[j]?=(serve (inputs.filter (Input.about j))).members[j]?
  accepts : ∀ fd host,(serve (inputs++[.accept fd host])).members=
    (serve inputs).members++[newHandler fd host]

/-- get_connection sets sin, and the descriptor is one that accept returned. -/
def Formed (p : Pool Handler) : Prop := ∀ h∈p.members,h.con.sin=true ∧ 0≤h.con.sock

theorem replyLength_pos (n : Nat) : replyLength n≠0 := by
  simp [replyLength]

/-- A step keeps the shape of the connection, and fails only at a send() that fails for good. -/
theorem handlerStep_formed (h : Handler) (r : CallResults) (hsin : h.con.sin=true)
    (hsock : 0≤h.con.sock) :
    (∀ h',handlerStep h r=some h' → h'.con.sin=true ∧ 0≤h'.con.sock) ∧
    ((handlerStep h r).isSome=match h with
      | ⟨_,.send _⟩ => decide (r.send≠.fatal)
      | _ => true) := by
  have hneg : ¬h.con.sock<0 := by omega
  obtain ⟨con,point⟩ := h
  simp only at hsin hsock hneg
  have hsame : ∀ p : Point,∀ h',some (⟨con,p⟩ : Handler)=some h' →
      h'.con.sin=true ∧ 0≤h'.con.sock := by
    intro p h' hh
    rw [← Option.some_inj.mp hh]
    exact ⟨hsin,hsock⟩
  cases point with
  | start =>
    simp only [handlerStep,if_neg hneg]
    exact ⟨hsame _,rfl⟩
  | select =>
    simp only [handlerStep]
    cases r.select with
    | ready isSet => exact ⟨hsame _,rfl⟩
    | timeout => exact ⟨hsame _,rfl⟩
    | again => exact ⟨hsame _,rfl⟩
    | failed => exact ⟨hsame _,rfl⟩
  | recv =>
    simp only [handlerStep]
    cases r.recv with
    | data nr hpos hfits =>
      simp only [beginWrite,if_neg (replyLength_pos _),if_neg hneg]
      refine ⟨?_,rfl⟩
      intro h' hh
      rw [← Option.some_inj.mp hh]
      exact ⟨hsin,hsock⟩
    | shutdown => exact ⟨hsame _,rfl⟩
    | again => exact ⟨hsame _,rfl⟩
    | failed => exact ⟨hsame _,rfl⟩
  | send len =>
    simp only [handlerStep]
    cases r.send with
    | sent n => exact ⟨hsame _,rfl⟩
    | recoverable => exact ⟨hsame _,rfl⟩
    | fatal => exact ⟨fun h' hh => absurd hh (by simp),rfl⟩
  | clean =>
    simp only [handlerStep,hsin,Bool.or_true,if_true]
    exact ⟨hsame _,rfl⟩
  | ended => exact ⟨hsame _,rfl⟩

theorem survives_eq_sendOk (p : Pool Handler) (e : Event Handler CallResults) (h : Formed p) :
    survives handlerStep p e=sendOk p e := by
  cases e with
  | enter m => rfl
  | idle => rfl
  | act i r =>
    cases hm : p.members[i]? with
    | none => simp only [survives,sendOk,hm]
    | some m =>
      obtain ⟨hsin,hsock⟩ := h m (List.mem_of_getElem? hm)
      have hstep := (handlerStep_formed m r hsin hsock).2
      simp only [survives,sendOk,hm,hstep]
      rcases m with ⟨con,point⟩
      cases point <;> rfl

theorem apply_formed (p : Pool Handler) (h : Formed p) (x : Input) :
    Formed (apply handlerStep p x.event) := by
  cases hdown : p.down with
  | true =>
    have hsame : apply handlerStep p x.event=p := by simp only [apply,hdown,if_true]
    rw [hsame]
    exact h
  | false =>
    cases x with
    | accept fd host =>
      rw [Input.event,apply_enter _ _ _ hdown]
      intro m hm
      rcases List.mem_append.mp hm with hm | hm
      · exact h m hm
      · rw [List.mem_singleton.mp hm]
        exact ⟨rfl,Int.natCast_nonneg fd⟩
    | noConnection =>
      rw [Input.event,apply_idle]
      exact h
    | call i r =>
      rw [Input.event]
      cases hm : p.members[i]? with
      | none =>
        rw [apply_absent _ _ _ _ hm]
        exact h
      | some m =>
        obtain ⟨hsin,hsock⟩ := h m (List.mem_of_getElem? hm)
        have hkeep := (handlerStep_formed m r hsin hsock).1
        cases hstep : handlerStep m r with
        | none =>
          rw [apply_fail _ _ _ _ _ hdown hm hstep]
          exact h
        | some m' =>
          rw [apply_act _ _ _ _ _ _ hdown hm hstep]
          intro k hk
          rcases List.mem_or_eq_of_mem_set hk with hk | hk
          · exact h k hk
          · rw [hk]
            exact hkeep m' hstep

/-- Along any run the only way down is a send() that fails for good. -/
theorem sendsOk_iff (inputs : List Input) :
    along handlerStep (survives handlerStep) ⟨false,[]⟩ (inputs.map Input.event)=
      sendsOk inputs := by
  refine along_congr handlerStep Formed _ _ survives_eq_sendOk _ _
    (fun m hm => absurd hm (by simp)) ?_
  intro p hp e he
  obtain ⟨x,-,rfl⟩ := List.mem_map.mp he
  exact apply_formed p hp x

theorem filter_event (j : Nat) (inputs : List Input) :
    (inputs.filter (Input.about j)).map Input.event=
      (inputs.map Input.event).filter (concerns j) := by
  rw [List.filter_map]
  congr 2
  funext x
  cases x <;> rfl

/-- The clients of the server are isolated from each other exactly as long as no send() fails with
an error that is not recoverable. -/
theorem tcp_server_isolates_iff (inputs : List Input) :
    Isolated inputs ↔ sendsOk inputs=true := by
  have hup : (serve inputs).down=false ↔ sendsOk inputs=true := by
    rw [← sendsOk_iff]
    exact run_up handlerStep ⟨false,[]⟩ _ rfl
  refine ⟨fun h => hup.mp h.up,fun h => ⟨hup.mpr h,fun j => ?_,fun fd host => ?_⟩⟩
  · have hagree : Agree j (⟨false,[]⟩ : Pool Handler) ⟨false,[]⟩ := ⟨rfl,rfl,rfl,rfl⟩
    have hrun := hagree.run handlerStep (inputs.map Input.event) ((sendsOk_iff inputs).trans h)
    rw [← filter_event] at hrun
    exact hrun.member
  · have happend : serve (inputs++[.accept fd host])=
        apply handlerStep (serve inputs) (Input.accept fd host).event := by
      simp only [serve,Pools.run,List.map_append,List.foldl_append]
      rfl
    rw [happend,Input.event,apply_enter _ _ _ (hup.mpr h)]

/-- The results of the calls of a client that sends three bytes and then resets. -/
def resetting : CallResults := ⟨.ready true,.data 3 (by decide) (by decide),.fatal,true⟩

/-- Two clients, the first of which resets before its answer is sent. -/
def resetRun : List Input :=
  [.accept 5 true,.accept 6 true,.call 0 resetting,.call 0 resetting,.call 0 resetting,
    .call 0 resetting]

/-- The reset of one client takes the whole server down. -/
theorem tcp_server_aborts_on_reset :
    (serve resetRun).down=true ∧ ¬Isolated resetRun := by
  have hdown : (serve resetRun).down=true := by decide
  exact ⟨hdown,fun h => absurd (h.up.symm.trans hdown) (by decide)⟩

end IdearNiu.Socket.TcpServer
