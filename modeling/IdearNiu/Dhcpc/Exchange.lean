import IdearNiu.Dhcpc.Client
import IdearNiu.Dhcpc.Options
import IdearNiu.Dhcpc.PacketCodec

namespace IdearNiu.Dhcpc

/-- A request of a transaction, whatever was offered. -/
def IsRequest (hwaddr : Vector Byte 6) (xid : Word) : Output → Prop
  | .request msg size => ∃ ipaddr serveraddr,
      (msg,size)=initDhcpRequestMsg hwaddr xid ipaddr serveraddr
  | _ => False

/-- What a client puts out from a request on: at most n requests of its transaction, and then
nothing or one configuration. -/
def Requests (hwaddr : Vector Byte 6) (xid : Word) (n : Nat) (os : List Output) : Prop :=
  ∃ requests last,os=requests++last ∧ requests.length ≤ n ∧
    (∀ o∈requests,IsRequest hwaddr xid o) ∧ (last=[] ∨ ∃ info,last=[.configure info])

/-- What a client puts out from a discover message on: at most n copies of it, and then what
follows an offer. -/
def Discovers (hwaddr : Vector Byte 6) (xid : Word) (n : Nat) (os : List Output) : Prop :=
  ∃ a rest,os=List.replicate a (.discover (initDhcpDiscoverMsg hwaddr xid).1
      (initDhcpDiscoverMsg hwaddr xid).2)++rest ∧
    a ≤ n ∧ Requests hwaddr (xid+1) 4 rest

/-- The timeout has been doubled k times. -/
structure Client.Waited (hwaddr : Vector Byte 6) (k : Nat) (c : Client) : Prop where
  hwaddr_eq : c.hwaddr=hwaddr
  timeout : c.timeout=timeoutInitial*2^k
  bound : k ≤ 3

section

variable {hwaddr : Vector Byte 6} {xid : Word} {n k : Nat} {os : List Output} {c : Client}

theorem Requests.nil : Requests hwaddr xid n [] :=
  ⟨[],[],rfl,Nat.zero_le n,by simp,Or.inl rfl⟩

theorem Requests.last (info : DhcpInfo) : Requests hwaddr xid n [.configure info] :=
  ⟨[],[.configure info],rfl,Nat.zero_le n,by simp,Or.inr ⟨info,rfl⟩⟩

theorem Requests.cons {o : Output} (ho : IsRequest hwaddr xid o)
    (h : Requests hwaddr xid n os) : Requests hwaddr xid (n+1) (o::os) := by
  obtain ⟨requests,last,rfl,hlen,hall,hlast⟩ := h
  refine ⟨o::requests,last,rfl,?_,?_,hlast⟩
  · simpa using hlen
  · intro p hp
    rcases List.mem_cons.mp hp with rfl|hm
    · exact ho
    · exact hall p hm

theorem Discovers.of_requests (h : Requests hwaddr (xid+1) 4 os) : Discovers hwaddr xid n os :=
  ⟨0,os,rfl,Nat.zero_le n,h⟩

theorem Discovers.cons (h : Discovers hwaddr xid n os) :
    Discovers hwaddr xid (n+1) (.discover (initDhcpDiscoverMsg hwaddr xid).1
      (initDhcpDiscoverMsg hwaddr xid).2::os) := by
  obtain ⟨a,rest,rfl,ha,hr⟩ := h
  exact ⟨a+1,rest,by rw [List.replicate_succ,List.cons_append],by omega,hr⟩

/-- After the third doubling the next timeout ends the loop, before it does not. -/
theorem Client.Waited.expires_iff (h : c.Waited hwaddr k) : c.timeout≥timeoutMax ↔ k=3 := by
  have hk := h.bound
  rw [h.timeout]
  constructor
  · intro hge
    by_contra hne
    have hpow : 2^k ≤ 2^2 := Nat.pow_le_pow_right (by decide) (by omega)
    simp only [timeoutInitial,timeoutMax] at hge
    omega
  · rintro rfl
    decide

theorem Client.Waited.doubled (h : c.Waited hwaddr k) (hk : k≠3) :
    Client.Waited hwaddr (k+1) { c with timeout := c.timeout*2 } := by
  have hb := h.bound
  exact ⟨h.hwaddr_eq,by simp only [h.timeout]; ring,by omega⟩

theorem Client.Waited.with_info (h : c.Waited hwaddr k) (info : DhcpInfo) :
    Client.Waited hwaddr k { c with info := info } :=
  ⟨h.hwaddr_eq,h.timeout,h.bound⟩

/-- Every way a turn of the loop can go. -/
theorem step_cases (c : Client) (i : Input) :
    (∃ last,step c i=(none,last) ∧ (last=[] ∨ ∃ info,last=[.configure info])) ∨
    (∃ info,step c i=(some { c with info := info },[])) ∨
    (¬c.timeout≥timeoutMax ∧
      step c i=(some (transmit { c with timeout := c.timeout*2 }).1,
        (transmit { c with timeout := c.timeout*2 }).2)) ∨
    (c.state=.selecting ∧ ∃ info,
      step c i=(some (transmit { c with
          info := info
          state := .requesting
          timeout := timeoutInitial
          xid := c.xid+1 }).1,
        (transmit { c with
          info := info
          state := .requesting
          timeout := timeoutInitial
          xid := c.xid+1 }).2)) := by
  cases i with
  | pollTimeout =>
    by_cases ht : c.timeout≥timeoutMax
    · left
      by_cases hy : c.info.type=dhcpOffer
      · exact ⟨[.configure c.info],by simp only [step,ht,hy,if_true],Or.inr ⟨c.info,rfl⟩⟩
      · exact ⟨[],by simp only [step,ht,hy,if_true,if_false],Or.inl rfl⟩
    · exact Or.inr (Or.inr (Or.inl ⟨ht,by simp only [step,ht,if_false]⟩))
  | pollFailed recoverable =>
    cases recoverable with
    | false => exact Or.inl ⟨[],rfl,Or.inl rfl⟩
    | true => exact Or.inr (Or.inl ⟨c.info,rfl⟩)
  | receiveFailed interfaceDown =>
    cases interfaceDown with
    | false => exact Or.inr (Or.inl ⟨c.info,rfl⟩)
    | true => exact Or.inl ⟨[],rfl,Or.inl rfl⟩
  | received reply r =>
    by_cases hv : isValidReply (outstanding c) reply r=true
    · by_cases hoffer : c.state=.selecting ∧ (decodeDhcpMsg reply r).2.type=dhcpOffer
      · exact Or.inr (Or.inr (Or.inr ⟨hoffer.1,(decodeDhcpMsg reply r).2,
          step_accept_offer c reply r hv hoffer.1 hoffer.2⟩))
      · by_cases hack : c.state=.requesting ∧ (decodeDhcpMsg reply r).2.type=dhcpAck
        · exact Or.inl ⟨_,step_accept_ack c reply r hv hack.1 hack.2,Or.inr ⟨_,rfl⟩⟩
        · by_cases hnak : c.state=.requesting ∧ (decodeDhcpMsg reply r).2.type=dhcpNak
          · exact Or.inl ⟨_,step_accept_nak c reply r hv hnak.1 hnak.2,Or.inl rfl⟩
          · exact Or.inr (Or.inl ⟨_,step_accept_other c reply r hv hoffer hack hnak⟩)
    · exact Or.inr (Or.inl ⟨_,step_reject c reply r (by simpa using hv)⟩)

theorem outputs_none (is : List Input) : outputs none is=[] := by
  cases is <;> rfl

/-- A request is repeated once for each doubling that is left. -/
theorem requesting_outputs (is : List Input) (k : Nat) (c : Client) (h : c.Waited hwaddr k)
    (hs : c.state=.requesting) : Requests hwaddr c.xid (3-k) (outputs (some c) is) := by
  induction is generalizing c k with
  | nil => exact Requests.nil
  | cons i is ih =>
    rw [outputs]
    rcases step_cases c i with ⟨last,hstep,hlast⟩|⟨info,hstep⟩|⟨ht,hstep⟩|⟨hsel,_⟩
    · rw [hstep,outputs_none,List.append_nil]
      rcases hlast with rfl|⟨info,rfl⟩
      · exact Requests.nil
      · exact Requests.last info
    · rw [hstep]
      exact ih k { c with info := info } (h.with_info info) hs
    · have hk : k≠3 := fun hk => ht (h.expires_iff.mpr hk)
      have hb := h.bound
      rw [hstep,show 3-k=(3-(k+1))+1 by omega]
      simp only [transmit,hs,List.singleton_append]
      refine Requests.cons ⟨c.info.ipaddr,c.info.serveraddr,by rw [h.hwaddr_eq]⟩ ?_
      exact ih (k+1) _ ⟨h.hwaddr_eq,(h.doubled hk).timeout,(h.doubled hk).bound⟩ rfl
    · rw [hs] at hsel
      cases hsel

/-- A discover message is repeated once for each doubling that is left, until an offer. -/
theorem selecting_outputs (is : List Input) (k : Nat) (c : Client) (h : c.Waited hwaddr k)
    (hs : c.state=.selecting) : Discovers hwaddr c.xid (3-k) (outputs (some c) is) := by
  induction is generalizing c k with
  | nil => exact Discovers.of_requests Requests.nil
  | cons i is ih =>
    rw [outputs]
    rcases step_cases c i with ⟨last,hstep,hlast⟩|⟨info,hstep⟩|⟨ht,hstep⟩|⟨_,info,hstep⟩
    · rw [hstep,outputs_none,List.append_nil]
      apply Discovers.of_requests
      rcases hlast with rfl|⟨info,rfl⟩
      · exact Requests.nil
      · exact Requests.last info
    · rw [hstep]
      exact ih k { c with info := info } (h.with_info info) hs
    · have hk : k≠3 := fun hk => ht (h.expires_iff.mpr hk)
      have hb := h.bound
      rw [hstep,show 3-k=(3-(k+1))+1 by omega]
      simp only [transmit,hs,h.hwaddr_eq,List.singleton_append]
      apply Discovers.cons
      exact ih (k+1) _ ⟨rfl,(h.doubled hk).timeout,(h.doubled hk).bound⟩ rfl
    · rw [hstep]
      apply Discovers.of_requests
      simp only [transmit,List.singleton_append]
      refine Requests.cons ⟨info.ipaddr,info.serveraddr,by rw [h.hwaddr_eq]⟩ ?_
      exact requesting_outputs is 0 _ ⟨h.hwaddr_eq,rfl,by decide⟩ rfl

end

/-- The first discover message goes out before anything arrives. -/
theorem dhcpInitIfc_discovers (hwaddr : Vector Byte 6) (xid : Word) (stack : Stack)
    (is : List Input) :
    ∃ a rest,dhcpInitIfc hwaddr xid stack is=
        List.replicate (a+1) (.discover (initDhcpDiscoverMsg hwaddr xid).1
          (initDhcpDiscoverMsg hwaddr xid).2)++rest ∧
      a ≤ 3 ∧ Requests hwaddr (xid+1) 4 rest := by
  obtain ⟨a,rest,hout,ha,hr⟩ :=
    selecting_outputs is 0 (initial hwaddr xid stack).1 ⟨rfl,rfl,by decide⟩ rfl
  refine ⟨a,rest,?_,ha,hr⟩
  rw [dhcpInitIfc,hout,List.replicate_succ,List.cons_append]
  rfl

/-- The course of every run of dhcp_init_ifc, whatever arrives: the same discover message one
to four times, then at most four requests, all of the transaction after it, then nothing or
one configuration. -/
theorem dhcp_run_course (hwaddr : Vector Byte 6) (xid : Word) (stack : Stack)
    (is : List Input) :
    ∃ discovers requests last,
      dhcpInitIfc hwaddr xid stack is=
        List.replicate discovers (.discover (initDhcpDiscoverMsg hwaddr xid).1
          (initDhcpDiscoverMsg hwaddr xid).2)++requests++last ∧
      1 ≤ discovers ∧ discovers ≤ 4 ∧ requests.length ≤ 4 ∧
      (∀ o∈requests,IsRequest hwaddr (xid+1) o) ∧
      (last=[] ∨ ∃ info,last=[.configure info]) := by
  obtain ⟨a,rest,hout,ha,requests,last,rfl,hlen,hall,hlast⟩ :=
    dhcpInitIfc_discovers hwaddr xid stack is
  refine ⟨a+1,requests,last,?_,by omega,by omega,hlen,hall,hlast⟩
  rw [hout,List.append_assoc]

/-- What a receiver reads in the first size bytes of a message of the client. -/
structure Carries (hwaddr : Vector Byte 6) (xid : Word) (options : List (Byte × List Byte))
    (msg : DhcpMsg) (size : Nat) : Prop where
  fits : size ≤ dhcpMsgSize
  op : msg.op=opBootRequest
  htype : msg.htype=htypeEther
  hlen : msg.hlen.toNat=6
  xid_eq : msg.xid=xid
  chaddr : msg.chaddr.take 6=hwaddr.toList
  cookie : ((msg.bytes.take size).drop fixedSize).take 4=optCookie
  options_eq : (optionsOf msg size).map (fun o => (o.code,o.body))=options

/-- The message type and the options behind it, as init_dhcp_msg starts them. -/
def typeOption (type : Byte) : Byte × List Byte := (optMessageType,[type])

def listOption : Byte × List Byte :=
  (optParameterList,[optSubnetMask,optGateway,optDns,optBroadcastAddr])

theorem initDhcpMsg_drop_chaddr (type : Byte) (hwaddr : Vector Byte 6) (xid : Word) :
    (initDhcpMsg type hwaddr xid).drop 28=hwaddr.toList++(List.replicate 10 0++
      (List.replicate 64 0++(List.replicate 128 0++(optCookie++[optMessageType,1,type])))) := by
  simp only [initDhcpMsg,List.append_assoc]
  rfl

theorem initDhcpMsg_drop_options (type : Byte) (hwaddr : Vector Byte 6) (xid : Word) :
    (initDhcpMsg type hwaddr xid).drop fixedSize=optCookie++[optMessageType,1,type] := by
  rw [show fixedSize=28+208 from rfl,← List.drop_drop,initDhcpMsg_drop_chaddr]
  rw [← List.append_assoc,← List.append_assoc,← List.append_assoc]
  apply List.drop_left'
  simp only [List.length_append,List.length_replicate,Vector.length_toList]

/-- Any message that init_dhcp_msg starts, with more options behind the type. -/
theorem carries_init (type : Byte) (hwaddr : Vector Byte 6) (xid : Word) (more : List Byte)
    (options : List (Byte × List Byte)) (hlen : more.length ≤ dhcpMsgSize-243)
    (hparse : (parseOptions (more.length+3) ([optMessageType,1,type]++more)).map
      (fun o => (o.code,o.body))=options) :
    Carries hwaddr xid options
      (DhcpMsg.zeroFilled (initDhcpMsg type hwaddr xid++more))
      (initDhcpMsg type hwaddr xid++more).length := by
  have hinit := initDhcpMsg_length type hwaddr xid
  have hsize : (initDhcpMsg type hwaddr xid++more).length=243+more.length := by
    rw [List.length_append,hinit]
  have hfits : (initDhcpMsg type hwaddr xid++more).length ≤ dhcpMsgSize := by
    simp only [hsize,dhcpMsgSize] at hlen ⊢
    omega
  have hat (i : Nat) (hi : i<243) :
      (DhcpMsg.zeroFilled (initDhcpMsg type hwaddr xid++more)).byteAt i=
        (initDhcpMsg type hwaddr xid).getD i 0 := by
    rw [DhcpMsg.byteAt_zeroFilled _ _ hfits,List.getD,List.getD,
      List.getElem?_append_left (by rw [hinit]; exact hi)]
  have hbytes : (DhcpMsg.zeroFilled (initDhcpMsg type hwaddr xid++more)).bytes.take
      (initDhcpMsg type hwaddr xid++more).length=initDhcpMsg type hwaddr xid++more := by
    have := zeroFilled_take (initDhcpMsg type hwaddr xid++more) [] hfits
    rwa [List.append_nil] at this
  have hhead (n : Nat) (hn : n ≤ 243) : ((DhcpMsg.zeroFilled
      (initDhcpMsg type hwaddr xid++more)).bytes.take
      (initDhcpMsg type hwaddr xid++more).length).drop n=
        (initDhcpMsg type hwaddr xid).drop n++more := by
    rw [hbytes,List.drop_append_of_le_length (by rw [hinit]; exact hn)]
  refine ⟨hfits,hat 0 (by decide),hat 1 (by decide),?_,?_,?_,?_,?_⟩
  · rw [DhcpMsg.hlen,hat 2 (by decide)]
    rfl
  · rw [DhcpMsg.xid,DhcpMsg.wordAt,hat 4 (by decide),hat (4+1) (by decide),
      hat (4+2) (by decide),hat (4+3) (by decide)]
    exact le32_le32Bytes xid
  · have hchaddr := congrArg (List.take 6) (hhead 28 (by decide))
    rw [List.drop_take,List.take_take,Nat.min_eq_left (by omega)] at hchaddr
    rw [DhcpMsg.chaddr,hchaddr,initDhcpMsg_drop_chaddr,List.append_assoc]
    exact List.take_left' hwaddr.length_toList
  · rw [hhead fixedSize (by decide),initDhcpMsg_drop_options]
    rfl
  · rw [optionsOf,hhead (fixedSize+4) (by decide),← List.drop_drop,initDhcpMsg_drop_options,
      hsize,← hparse]
    rw [show 243+more.length-(fixedSize+4)=more.length+3 by simp only [fixedSize]; omega]
    rfl

theorem discover_carries (hwaddr : Vector Byte 6) (xid : Word) :
    Carries hwaddr xid [typeOption dhcpDiscover,listOption]
      (initDhcpDiscoverMsg hwaddr xid).1 (initDhcpDiscoverMsg hwaddr xid).2 := by
  simp only [initDhcpDiscoverMsg,List.append_assoc]
  exact carries_init dhcpDiscover hwaddr xid _ _ (by decide) (by decide)

theorem request_carries (hwaddr : Vector Byte 6) (xid ipaddr serveraddr : Word) :
    Carries hwaddr xid [typeOption dhcpRequest,listOption,(optRequestedIp,le32Bytes ipaddr),
        (optServerId,le32Bytes serveraddr)]
      (initDhcpRequestMsg hwaddr xid ipaddr serveraddr).1
      (initDhcpRequestMsg hwaddr xid ipaddr serveraddr).2 := by
  simp only [initDhcpRequestMsg,List.append_assoc]
  apply carries_init
  · simp [parameterList,le32Bytes,dhcpMsgSize]
  · simp only [le32Bytes]
    generalize ipaddr.extractLsb' 0 8=a0
    generalize ipaddr.extractLsb' 8 8=a1
    generalize ipaddr.extractLsb' 16 8=a2
    generalize ipaddr.extractLsb' 24 8=a3
    generalize serveraddr.extractLsb' 0 8=b0
    generalize serveraddr.extractLsb' 8 8=b1
    generalize serveraddr.extractLsb' 16 8=b2
    generalize serveraddr.extractLsb' 24 8=b3
    rfl

/-- No client takes such a message for a reply. -/
theorem Carries.not_valid_reply {hwaddr : Vector Byte 6} {xid : Word}
    {options : List (Byte × List Byte)} {reply : DhcpMsg} {size : Nat}
    (h : Carries hwaddr xid options reply size) (msg : DhcpMsg) (r : Nat) :
    isValidReply msg reply r=false := by
  have hop : reply.op≠opBootReply := by
    rw [h.op]
    decide
  simp [isValidReply,hop]

/-- A discover message says in its options that it is one, a request says the address and the
server it asks for, and no client takes either for a reply. -/
def ReadsBack (hwaddr : Vector Byte 6) (xid : Word) : Output → Prop
  | .discover msg size =>
      Carries hwaddr xid [typeOption dhcpDiscover,listOption] msg size ∧
        ∀ sent r,isValidReply sent msg r=false
  | .request msg size => ∃ ipaddr serveraddr,
      Carries hwaddr (xid+1) [typeOption dhcpRequest,listOption,
          (optRequestedIp,le32Bytes ipaddr),(optServerId,le32Bytes serveraddr)] msg size ∧
        ∀ sent r,isValidReply sent msg r=false
  | .configure _ => True

/-- Every message of every run reads back as what it is for. -/
theorem dhcp_messages_read_back (hwaddr : Vector Byte 6) (xid : Word) (stack : Stack)
    (is : List Input) : ∀ o∈dhcpInitIfc hwaddr xid stack is,ReadsBack hwaddr xid o := by
  obtain ⟨a,rest,hout,_,requests,last,rfl,_,hall,hlast⟩ :=
    dhcpInitIfc_discovers hwaddr xid stack is
  intro o ho
  rw [hout,List.mem_append,List.mem_append] at ho
  rcases ho with hd|hr|hl
  · rw [List.eq_of_mem_replicate hd]
    have h := discover_carries hwaddr xid
    exact ⟨h,h.not_valid_reply⟩
  · have hreq := hall o hr
    cases o with
    | discover msg size => cases hreq
    | request msg size =>
      obtain ⟨ipaddr,serveraddr,heq⟩ := hreq
      have hmsg : msg=(initDhcpRequestMsg hwaddr (xid+1) ipaddr serveraddr).1 :=
        congrArg Prod.fst heq
      have hsize : size=(initDhcpRequestMsg hwaddr (xid+1) ipaddr serveraddr).2 :=
        congrArg Prod.snd heq
      have h := request_carries hwaddr (xid+1) ipaddr serveraddr
      rw [← hmsg,← hsize] at h
      exact ⟨ipaddr,serveraddr,h,h.not_valid_reply⟩
    | configure info => cases hreq
  · rcases hlast with rfl|⟨info,rfl⟩
    · simp at hl
    · rw [List.mem_singleton.mp hl]
      trivial

/-- What is sent first, with nothing heard but one timeout. -/
theorem dhcp_first_message_reads_back :
    ReadsBack ourHwaddr 9 (.discover (initDhcpDiscoverMsg ourHwaddr 9).1
      (initDhcpDiscoverMsg ourHwaddr 9).2) :=
  dhcp_messages_read_back ourHwaddr 9 blankStack [.pollTimeout] _
    (List.mem_append_left _ (List.mem_singleton_self _))

end IdearNiu.Dhcpc
