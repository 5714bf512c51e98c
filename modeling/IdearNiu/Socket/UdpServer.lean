import IdearNiu.Framework.Memory
import IdearNiu.Socket.Sockets

namespace IdearNiu.Socket.UdpServer

open Memory

abbrev Byte := BitVec 8

/-- BUFSIZE. -/
def bufSize : Nat := 1500

/-- The length of the string at the start of a block; none when it runs out of the block. -/
def strlen : List Byte → Option Nat
  | [] => none
  | b::rest => if b=0 then some 0 else (strlen rest).map (·+1)

/-- What one sendto() gives: a datagram is taken whole or not at all. -/
inductive SendtoResult where
  | taken
  | recoverable
  | fatal
deriving DecidableEq

/-- What one call of handle_udp_connection does. -/
inductive Outcome where
  | nothing
  | replied (sender : Nat) (bytes : List Byte)
  | aborted
  | waiting
  | overrun
deriving DecidableEq

def sendtoLoop (sender : Nat) (bytes : List Byte) : List SendtoResult → Outcome
  | [] => .waiting
  | .taken::_ => .replied sender bytes
  | .recoverable::results => sendtoLoop sender bytes results
  | .fatal::_ => .aborted

/-- error() aborts the process when there is nothing to send. -/
def sockSendto (sender : Nat) (bytes : List Byte) (results : List SendtoResult) : Outcome :=
  if bytes.length=0 then .aborted else sendtoLoop sender bytes results

structure Datagram where
  sender : Nat
  bytes : List Byte
  pos : 0<bytes.length
  fits : bytes.length≤bufSize

/-- A call of handle_udp_connection: what its uninitialised buffer holds, the datagram that
recvfrom gives if any, and the results of sendto. -/
structure Call where
  buf : List Byte
  size : buf.length=bufSize
  arrival : Option Datagram
  sends : List SendtoResult

/-- The reply is as long as strlen finds the buffer; what it holds past the datagram counts. -/
def handleUdpConnection (c : Call) : Outcome :=
  match c.arrival with
  | none => .nothing
  | some d =>
    let buf := splice c.buf 0 d.bytes
    match strlen buf with
    | none => .overrun
    | some n => sockSendto d.sender (buf.take n) c.sends

def Outcome.goesOn : Outcome → Bool
  | .nothing => true
  | .replied _ _ => true
  | _ => false

/-- The loop of socket_udp_server_thread. -/
def serve : List Call → List Outcome
  | [] => []
  | c::calls =>
    let o := handleUdpConnection c
    o::if o.goesOn then serve calls else []

/-- Each datagram goes back to its sender as it came. -/
def echo (c : Call) : Outcome :=
  match c.arrival with
  | none => .nothing
  | some d => .replied d.sender d.bytes

/-- sendto takes the reply, perhaps after some tries. -/
def taken : List SendtoResult → Bool
  | [] => false
  | .taken::_ => true
  | .recoverable::results => taken results
  | .fatal::_ => false

/-- The datagram has no zero byte, leaves room in the buffer, and the buffer happens to hold a zero
right behind it. -/
def terminated (buf : List Byte) (d : Datagram) : Bool :=
  0∉d.bytes ∧ d.bytes.length<bufSize ∧ buf.getD d.bytes.length 1=0

/-- Every datagram of the run is terminated and its reply taken. -/
def undisturbed (c : Call) : Bool :=
  match c.arrival with
  | none => true
  | some d => terminated c.buf d && taken c.sends

theorem strlen_append (l m : List Byte) (h : 0∉l) :
    strlen (l++m)=(strlen m).map (·+l.length) := by
  induction l with
  | nil => simp
  | cons b l ih =>
    obtain ⟨hb,hl⟩ := not_or.mp (List.mem_cons.not.mp h)
    rw [List.cons_append,strlen,if_neg (Ne.symm hb),ih hl,Option.map_map]
    congr 1

/-- A string ends at its first zero. -/
theorem strlen_some (l : List Byte) (n : Nat) (h : strlen l=some n) :
    0∉l.take n ∧ l[n]?=some 0 := by
  induction l generalizing n with
  | nil => exact absurd h (by simp [strlen])
  | cons b l ih =>
    rw [strlen] at h
    by_cases hb : b=0
    · rw [if_pos hb,Option.some_inj] at h
      rw [← h,hb]
      simp
    · rw [if_neg hb] at h
      obtain ⟨k,hk,rfl⟩ := Option.map_eq_some_iff.mp h
      obtain ⟨hnone,hzero⟩ := ih k hk
      rw [List.take_succ_cons,List.mem_cons,List.getElem?_cons_succ]
      exact ⟨fun hmem => hmem.elim (fun h0 => hb h0.symm) hnone,hzero⟩

theorem sendtoLoop_replied (sender sender' : Nat) (bytes bytes' : List Byte)
    (results : List SendtoResult) :
    sendtoLoop sender bytes results=.replied sender' bytes' ↔
      taken results=true ∧ sender=sender' ∧ bytes=bytes' := by
  induction results with
  | nil => simp [sendtoLoop,taken]
  | cons r results ih =>
    cases r with
    | taken => simp [sendtoLoop,taken]
    | recoverable => simpa only [sendtoLoop,taken] using ih
    | fatal => simp [sendtoLoop,taken]

/-- The buffer after recvfrom. -/
theorem received_buf (c : Call) (d : Datagram) :
    splice c.buf 0 d.bytes=d.bytes++c.buf.drop d.bytes.length := by
  rw [splice,List.take_zero,List.nil_append,Nat.zero_add]

theorem getD_eq_zero_iff (l : List Byte) (n : Nat) : l.getD n 1=0 ↔ l[n]?=some 0 := by
  rw [List.getD_eq_getElem?_getD]
  cases l[n]? with
  | none => simp
  | some b => simp

/-- One call echoes its datagram exactly when it is terminated and taken. -/
theorem handleUdpConnection_echo_iff (c : Call) :
    handleUdpConnection c=echo c ↔ undisturbed c=true := by
  cases ha : c.arrival with
  | none => simp [handleUdpConnection,echo,undisturbed,ha]
  | some d =>
    simp only [handleUdpConnection,echo,undisturbed,ha,received_buf,Bool.and_eq_true,terminated,
      decide_eq_true_eq,getD_eq_zero_iff]
    constructor
    · intro h
      cases hs : strlen (d.bytes++c.buf.drop d.bytes.length) with
      | none =>
        rw [hs] at h
        exact absurd h (by simp)
      | some n =>
        obtain ⟨hnone,hzero⟩ := strlen_some _ n hs
        have hn : n<(d.bytes++c.buf.drop d.bytes.length).length :=
          (List.getElem?_eq_some_iff.mp hzero).1
        have hsend : sockSendto d.sender ((d.bytes++c.buf.drop d.bytes.length).take n) c.sends=
            .replied d.sender d.bytes := by
          rw [hs] at h
          exact h
        rw [sockSendto] at hsend
        by_cases hempty : ((d.bytes++c.buf.drop d.bytes.length).take n).length=0
        · rw [if_pos hempty] at hsend
          exact absurd hsend (by simp)
        · rw [if_neg hempty,sendtoLoop_replied] at hsend
          obtain ⟨htaken,-,hbytes⟩ := hsend
          have hlen : n=d.bytes.length := by
            rw [← hbytes,List.length_take]
            omega
          rw [hbytes] at hnone
          rw [hlen,List.getElem?_append_right le_rfl,Nat.sub_self,List.getElem?_drop,
            Nat.add_zero] at hzero
          have hroom := (List.getElem?_eq_some_iff.mp hzero).1
          rw [c.size] at hroom
          exact ⟨⟨hnone,hroom,hzero⟩,htaken⟩
    · intro hgiven
      obtain ⟨⟨hnone,hroom,hzero⟩,htaken⟩ := hgiven
      have hdrop : c.buf.drop d.bytes.length=0::c.buf.drop (d.bytes.length+1) := by
        have hlt : d.bytes.length<c.buf.length := by rw [c.size]; exact hroom
        rw [List.drop_eq_getElem_cons hlt]
        rw [List.getElem?_eq_getElem hlt,Option.some_inj] at hzero
        rw [hzero]
      have hs : strlen (d.bytes++c.buf.drop d.bytes.length)=some d.bytes.length := by
        rw [strlen_append _ _ hnone,hdrop,strlen,if_pos rfl]
        simp
      have hpos := d.pos
      simp only [hs,List.take_left']
      rw [sockSendto,if_neg (by omega)]
      exact (sendtoLoop_replied _ _ _ _ _).mpr ⟨htaken,rfl,rfl⟩

theorem echo_goesOn (c : Call) : (echo c).goesOn=true := by
  rw [echo]
  cases c.arrival <;> rfl

/-- The server answers every datagram with itself and goes on, exactly when all of them are
terminated in the buffer and their replies taken. -/
theorem udp_echo_iff (calls : List Call) :
    serve calls=calls.map echo ↔ ∀ c∈calls,undisturbed c=true := by
  induction calls with
  | nil => simp [serve]
  | cons c calls ih =>
    rw [serve,List.map_cons,List.forall_mem_cons]
    constructor
    · intro h
      obtain ⟨hc,hrest⟩ := List.cons_eq_cons.mp h
      rw [hc,echo_goesOn,if_pos rfl] at hrest
      exact ⟨(handleUdpConnection_echo_iff c).mp hc,ih.mp hrest⟩
    · intro hgiven
      obtain ⟨hc,hrest⟩ := hgiven
      rw [(handleUdpConnection_echo_iff c).mpr hc,echo_goesOn,if_pos rfl,ih.mpr hrest]

/-- A single zero byte from one sender, then a letter from another. -/
def zeroFirst : List Call :=
  [⟨List.replicate 1500 0,by decide +kernel,some ⟨1,[0],by decide,by decide⟩,[.taken]⟩,
    ⟨List.replicate 1500 0,by decide +kernel,some ⟨2,[65],by decide,by decide⟩,[.taken]⟩]

/-- The zero byte ends the server before the letter is served. -/
theorem udp_zero_byte_aborts :
    serve zeroFirst=[.aborted] ∧ serve zeroFirst≠zeroFirst.map echo := by
  decide

end IdearNiu.Socket.UdpServer
