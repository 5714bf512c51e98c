import IdearNiu.Dhcpc.Message

namespace IdearNiu.Dhcpc

inductive Phase where
  | selecting
  | requesting
  deriving DecidableEq, Repr

def timeoutInitial : Nat := 4000

def timeoutMax : Nat := 32000

/-- The local variables of dhcp_init_ifc that live across turns of its loop. -/
structure Client where
  hwaddr : Vector Byte 6
  xid : Word
  state : Phase
  timeout : Nat
  discoverMsg : DhcpMsg
  requestMsg : DhcpMsg
  info : DhcpInfo

/-- What one turn of the loop meets: a poll that times out or fails, a packet that
receive_packet turns down, or a message with the length it returned. -/
inductive Input where
  | pollTimeout
  | pollFailed (recoverable : Bool)
  | receiveFailed (interfaceDown : Bool)
  | received (reply : DhcpMsg) (r : Nat)

inductive Output where
  | discover (msg : DhcpMsg) (size : Nat)
  | request (msg : DhcpMsg) (size : Nat)
  | configure (info : DhcpInfo)

/-- The code from the label transmit up to the next turn. -/
def transmit (c : Client) : Client × List Output :=
  match c.state with
  | .selecting =>
      let m := initDhcpDiscoverMsg c.hwaddr c.xid
      ({ c with discoverMsg := m.1 },[.discover m.1 m.2])
  | .requesting =>
      let m := initDhcpRequestMsg c.hwaddr c.xid c.info.ipaddr c.info.serveraddr
      ({ c with requestMsg := m.1 },[.request m.1 m.2])

/-- The message a reply is checked against. -/
def outstanding (c : Client) : DhcpMsg :=
  match c.state with
  | .selecting => c.discoverMsg
  | .requesting => c.requestMsg

/-- One turn of the loop: the client of the next turn, none when the function has
returned, and what was sent or configured. -/
def step (c : Client) : Input → Option Client × List Output
  | .pollTimeout =>
      if c.timeout≥timeoutMax then
        if c.info.type=dhcpOffer then (none,[.configure c.info]) else (none,[])
      else
        let r := transmit { c with timeout := c.timeout*2 }
        (some r.1,r.2)
  | .pollFailed recoverable => if recoverable then (some c,[]) else (none,[])
  | .receiveFailed interfaceDown => if interfaceDown then (none,[]) else (some c,[])
  | .received reply r =>
      -- decoding into info comes before the reply is looked at
      let c := { c with info := (decodeDhcpMsg reply r).2 }
      if isValidReply (outstanding c) reply r then
        match c.state with
        | .selecting =>
            if c.info.type=dhcpOffer then
              let t := transmit { c with
                state := .requesting
                timeout := timeoutInitial
                xid := c.xid+1 }
              (some t.1,t.2)
            else (some c,[])
        | .requesting =>
            if c.info.type=dhcpAck then (none,[.configure c.info])
            else if c.info.type=dhcpNak then (none,[])
            else (some c,[])
      else (some c,[])

/-- The run of the loop on a list of inputs: its outputs in order. -/
def outputs : Option Client → List Input → List Output
  | none,_ => []
  | some _,[] => []
  | some c,i::is => (step c i).2++outputs (step c i).1 is

/-- The locals before the first goto transmit; all but info.type are whatever the
stack holds. -/
structure Stack where
  discoverMsg : DhcpMsg
  requestMsg : DhcpMsg
  info : DhcpInfo

def initial (hwaddr : Vector Byte 6) (xid : Word) (stack : Stack) : Client × List Output :=
  transmit {
    hwaddr := hwaddr
    xid := xid
    state := .selecting
    timeout := timeoutInitial
    discoverMsg := stack.discoverMsg
    requestMsg := stack.requestMsg
    info := { stack.info with type := 0 } }

/-- What dhcp_init_ifc sends and configures on a list of inputs. -/
def dhcpInitIfc (hwaddr : Vector Byte 6) (xid : Word) (stack : Stack) (is : List Input) :
    List Output :=
  (initial hwaddr xid stack).2++outputs (some (initial hwaddr xid stack).1) is

/-- A message received by c that is_valid_reply turns down. -/
def rejects (c : Client) : Input → Bool
  | .received reply r => !isValidReply (outstanding c) reply r
  | _ => false

/-- The parameters decoded from a reply that c accepts; none from a reply too short to
decode or without the cookie. -/
def acceptedInfo (c : Client) : Input → List DhcpInfo
  | .received reply r =>
      if isValidReply (outstanding c) reply r ∧ (decodeDhcpMsg reply r).1=0 then
        [(decodeDhcpMsg reply r).2]
      else []
  | _ => []

/-- The parameters decoded from the replies accepted during a run, in order. -/
def acceptedInfos : Option Client → List Input → List DhcpInfo
  | none,_ => []
  | some _,[] => []
  | some c,i::is => acceptedInfo c i++acceptedInfos (step c i).1 is

/-- The inputs of a run without the messages it rejects. -/
def withoutRejected : Option Client → List Input → List Input
  | none,is => is
  | some _,[] => []
  | some c,i::is =>
      if rejects c i then withoutRejected (step c i).1 is
      else i::withoutRejected (step c i).1 is

/-- A request carries, and a configuration uses, one of the given parameters. -/
def Justified (hwaddr : Vector Byte 6) (infos : List DhcpInfo) : Output → Prop
  | .discover _ _ => True
  | .request msg size => ∃ info∈infos,∃ xid,
      (msg,size)=initDhcpRequestMsg hwaddr xid info.ipaddr info.serveraddr
  | .configure info => info∈infos

/-- The safety property of one run: at every point of it each request and each
configuration comes from a reply accepted by then, and leaving out the rejected
replies changes nothing that is requested or configured. -/
def RepliesOnly (hwaddr : Vector Byte 6) (xid : Word) (stack : Stack) (is : List Input) :
    Prop :=
  (∀ pre,pre<+:is → ∀ o∈dhcpInitIfc hwaddr xid stack pre,
    Justified hwaddr (acceptedInfos (some (initial hwaddr xid stack).1) pre) o) ∧
  dhcpInitIfc hwaddr xid stack is=dhcpInitIfc hwaddr xid stack
    (withoutRejected (some (initial hwaddr xid stack).1) is)

/-- A message that is accepted and decoded, or else leaves the parameters in use alone:
it arrives while selecting and is no offer, or it decodes to what info already holds. -/
def harmless (c : Client) : Input → Prop
  | .received reply r =>
      (isValidReply (outstanding c) reply r=true ∧ (decodeDhcpMsg reply r).1=0) ∨
      (c.state=.selecting ∧ (decodeDhcpMsg reply r).2.type≠dhcpOffer) ∨
      (decodeDhcpMsg reply r).2=c.info
  | _ => True

def HarmlessRun : Option Client → List Input → Prop
  | none,_ => True
  | some _,[] => True
  | some c,i::is => harmless c i ∧ HarmlessRun (step c i).1 is

theorem HarmlessRun.of_prefix {pre is : List Input} {c : Option Client} (hp : pre<+:is)
    (h : HarmlessRun c is) : HarmlessRun c pre := by
  induction pre generalizing c is with
  | nil => cases c <;> trivial
  | cons i pre ih =>
    obtain ⟨rest,rfl⟩ := hp
    cases c with
    | none => trivial
    | some c =>
      rw [List.cons_append] at h
      exact ⟨h.1,ih ⟨rest,rfl⟩ h.2⟩

theorem Justified.mono {hwaddr : Vector Byte 6} {as bs : List DhcpInfo} {o : Output}
    (h : Justified hwaddr as o) (hs : as⊆bs) : Justified hwaddr bs o := by
  cases o with
  | discover => trivial
  | request msg size =>
    obtain ⟨info,hi,xid,he⟩ := h
    exact ⟨info,hs hi,xid,he⟩
  | configure info => exact hs h

/-- The parameters in use come from an accepted reply once a request is out, and
before that they are no offer. -/
structure Client.Backed (hwaddr : Vector Byte 6) (infos : List DhcpInfo) (c : Client) :
    Prop where
  hwaddr_eq : c.hwaddr=hwaddr
  selecting : c.state=.selecting → c.info.type≠dhcpOffer
  requesting : c.state=.requesting → c.info∈infos

section

variable {hwaddr : Vector Byte 6} {infos : List DhcpInfo} {c : Client}

theorem Client.Backed.mono {bs : List DhcpInfo} (h : c.Backed hwaddr infos) (hs : infos⊆bs) :
    c.Backed hwaddr bs :=
  ⟨h.hwaddr_eq,h.selecting,fun hr => hs (h.requesting hr)⟩

theorem transmit_backed (infos : List DhcpInfo) (c : Client) (h : c.Backed hwaddr infos) :
    (transmit c).1.Backed hwaddr infos ∧ ∀ o∈(transmit c).2,Justified hwaddr infos o := by
  rw [transmit]
  cases hs : c.state with
  | selecting =>
    refine ⟨⟨h.hwaddr_eq,fun _ => h.selecting hs,fun hr => ?_⟩,?_⟩
    · simp at hr
    · intro o ho
      rw [List.mem_singleton.mp ho]
      trivial
  | requesting =>
    refine ⟨⟨h.hwaddr_eq,fun hr => ?_,fun _ => h.requesting hs⟩,?_⟩
    · simp at hr
    · intro o ho
      rw [List.mem_singleton.mp ho]
      exact ⟨c.info,h.requesting hs,c.xid,by rw [h.hwaddr_eq]⟩

theorem step_reject (c : Client) (reply : DhcpMsg) (r : Nat)
    (hv : isValidReply (outstanding c) reply r=false) :
    step c (.received reply r)=(some { c with info := (decodeDhcpMsg reply r).2 },[]) := by
  have ho : outstanding { c with info := (decodeDhcpMsg reply r).2 }=outstanding c := rfl
  simp [step,ho,hv]

theorem step_accept (c : Client) (reply : DhcpMsg) (r : Nat)
    (hv : isValidReply (outstanding c) reply r=true) :
    step c (.received reply r)=
      match c.state with
      | .selecting =>
          if (decodeDhcpMsg reply r).2.type=dhcpOffer then
            let t := transmit { c with
              info := (decodeDhcpMsg reply r).2
              state := .requesting
              timeout := timeoutInitial
              xid := c.xid+1 }
            (some t.1,t.2)
          else (some { c with info := (decodeDhcpMsg reply r).2 },[])
      | .requesting =>
          if (decodeDhcpMsg reply r).2.type=dhcpAck then
            (none,[.configure (decodeDhcpMsg reply r).2])
          else if (decodeDhcpMsg reply r).2.type=dhcpNak then (none,[])
          else (some { c with info := (decodeDhcpMsg reply r).2 },[]) := by
  have ho : outstanding { c with info := (decodeDhcpMsg reply r).2 }=outstanding c := rfl
  simp only [step,ho,hv,if_true]

theorem step_accept_offer (c : Client) (reply : DhcpMsg) (r : Nat)
    (hv : isValidReply (outstanding c) reply r=true) (hs : c.state=.selecting)
    (hy : (decodeDhcpMsg reply r).2.type=dhcpOffer) :
    step c (.received reply r)=
      let t := transmit { c with
        info := (decodeDhcpMsg reply r).2
        state := .requesting
        timeout := timeoutInitial
        xid := c.xid+1 }
      (some t.1,t.2) := by
  simp only [step_accept c reply r hv,hs,hy,if_true]

theorem step_accept_ack (c : Client) (reply : DhcpMsg) (r : Nat)
    (hv : isValidReply (outstanding c) reply r=true) (hs : c.state=.requesting)
    (hy : (decodeDhcpMsg reply r).2.type=dhcpAck) :
    step c (.received reply r)=(none,[.configure (decodeDhcpMsg reply r).2]) := by
  simp only [step_accept c reply r hv,hs,hy,if_true]

theorem step_accept_nak (c : Client) (reply : DhcpMsg) (r : Nat)
    (hv : isValidReply (outstanding c) reply r=true) (hs : c.state=.requesting)
    (hy : (decodeDhcpMsg reply r).2.type=dhcpNak) :
    step c (.received reply r)=(none,[]) := by
  simp [step_accept c reply r hv,hs,hy,dhcpNak,dhcpAck]

/-- Any other accepted reply is taken over and otherwise ignored. -/
theorem step_accept_other (c : Client) (reply : DhcpMsg) (r : Nat)
    (hv : isValidReply (outstanding c) reply r=true)
    (hoffer : ¬(c.state=.selecting ∧ (decodeDhcpMsg reply r).2.type=dhcpOffer))
    (hack : ¬(c.state=.requesting ∧ (decodeDhcpMsg reply r).2.type=dhcpAck))
    (hnak : ¬(c.state=.requesting ∧ (decodeDhcpMsg reply r).2.type=dhcpNak)) :
    step c (.received reply r)=(some { c with info := (decodeDhcpMsg reply r).2 },[]) := by
  rw [step_accept c reply r hv]
  cases hs : c.state with
  | selecting =>
    have hy : (decodeDhcpMsg reply r).2.type≠dhcpOffer := fun hy => hoffer ⟨hs,hy⟩
    simp [hy]
  | requesting =>
    have hy : (decodeDhcpMsg reply r).2.type≠dhcpAck := fun hy => hack ⟨hs,hy⟩
    have hn : (decodeDhcpMsg reply r).2.type≠dhcpNak := fun hn => hnak ⟨hs,hn⟩
    simp [hy,hn]

/-- A reply that is rejected or cannot be decoded is ignored, but info is overwritten. -/
theorem step_unusable (c : Client) (reply : DhcpMsg) (r : Nat)
    (hu : ¬(isValidReply (outstanding c) reply r=true ∧ (decodeDhcpMsg reply r).1=0)) :
    step c (.received reply r)=(some { c with info := (decodeDhcpMsg reply r).2 },[]) := by
  by_cases hv : isValidReply (outstanding c) reply r=true
  · have hz := decodeDhcpMsg_failed reply r (fun hd => hu ⟨hv,hd⟩)
    apply step_accept_other c reply r hv <;>
      simp [hz,DhcpInfo.zero,dhcpOffer,dhcpAck,dhcpNak]
  · exact step_reject c reply r (by simpa using hv)

/-- When the final timeout passes, the offer in hand was accepted. -/
theorem step_backed_timeout (h : c.Backed hwaddr infos) :
    (∀ o∈(step c .pollTimeout).2,Justified hwaddr infos o) ∧
    ∀ c',(step c .pollTimeout).1=some c' → c'.Backed hwaddr infos := by
  by_cases ht : c.timeout≥timeoutMax
  · by_cases hy : c.info.type=dhcpOffer
    · have hr : c.state=.requesting := by
        cases hs : c.state with
        | selecting => exact absurd hy (h.selecting hs)
        | requesting => rfl
      simp only [step,ht,hy,if_true]
      refine ⟨fun o ho => ?_,by simp⟩
      rw [List.mem_singleton.mp ho]
      exact h.requesting hr
    · simp [step,ht,hy]
  · have hb := transmit_backed infos { c with timeout := c.timeout*2 }
      ⟨h.hwaddr_eq,h.selecting,h.requesting⟩
    simp only [step,ht,if_false]
    refine ⟨hb.2,?_⟩
    intro c' hc
    rw [← Option.some.inj hc]
    exact hb.1

/-- An accepted reply is decoded into what is requested or configured from then on. -/
theorem step_backed_accepted (h : c.Backed hwaddr infos) (reply : DhcpMsg) (r : Nat)
    (hv : isValidReply (outstanding c) reply r=true)
    (hmem : (decodeDhcpMsg reply r).2∈infos) :
    (∀ o∈(step c (.received reply r)).2,Justified hwaddr infos o) ∧
    ∀ c',(step c (.received reply r)).1=some c' → c'.Backed hwaddr infos := by
  cases hs : c.state with
  | selecting =>
    by_cases hy : (decodeDhcpMsg reply r).2.type=dhcpOffer
    · have hb := transmit_backed infos { c with
        info := (decodeDhcpMsg reply r).2
        state := .requesting
        timeout := timeoutInitial
        xid := c.xid+1 } ⟨h.hwaddr_eq,by simp,fun _ => hmem⟩
      rw [step_accept_offer c reply r hv hs hy]
      refine ⟨hb.2,?_⟩
      intro c' hc
      rw [← Option.some.inj hc]
      exact hb.1
    · rw [step_accept_other c reply r hv (by simp [hs,hy]) (by simp [hs]) (by simp [hs])]
      refine ⟨by simp,?_⟩
      intro c' hc
      rw [← Option.some.inj hc]
      exact ⟨h.hwaddr_eq,fun _ => hy,fun _ => hmem⟩
  | requesting =>
    by_cases hy : (decodeDhcpMsg reply r).2.type=dhcpAck
    · rw [step_accept_ack c reply r hv hs hy]
      refine ⟨fun o ho => ?_,by simp⟩
      rw [List.mem_singleton.mp ho]
      exact hmem
    · by_cases hn : (decodeDhcpMsg reply r).2.type=dhcpNak
      · rw [step_accept_nak c reply r hv hs hn]
        simp
      · rw [step_accept_other c reply r hv (by simp [hs]) (by simp [hy]) (by simp [hn])]
        refine ⟨by simp,?_⟩
        intro c' hc
        rw [← Option.some.inj hc]
        exact ⟨h.hwaddr_eq,fun hsel => by simp [hs] at hsel,fun _ => hmem⟩

/-- One turn with a harmless input sends and configures accepted parameters only, and
the next turn starts from accepted parameters again. -/
theorem step_backed (h : c.Backed hwaddr infos) (i : Input) (hi : harmless c i) :
    (∀ o∈(step c i).2,Justified hwaddr (infos++acceptedInfo c i) o) ∧
    ∀ c',(step c i).1=some c' → c'.Backed hwaddr (infos++acceptedInfo c i) := by
  cases i with
  | pollTimeout =>
    simp only [acceptedInfo,List.append_nil]
    exact step_backed_timeout h
  | pollFailed recoverable =>
    cases recoverable with
    | true =>
      refine ⟨by simp [step],?_⟩
      intro c' hc
      simp only [step,if_true,Option.some.injEq] at hc
      rw [← hc]
      simpa [acceptedInfo] using h
    | false => simp [step]
  | receiveFailed interfaceDown =>
    cases interfaceDown with
    | true => simp [step]
    | false =>
      refine ⟨by simp [step],?_⟩
      intro c' hc
      simp only [step,Bool.false_eq_true,if_false,Option.some.injEq] at hc
      rw [← hc]
      simpa [acceptedInfo] using h
  | received reply r =>
    by_cases hu : isValidReply (outstanding c) reply r=true ∧ (decodeDhcpMsg reply r).1=0
    · rw [acceptedInfo,if_pos hu]
      exact step_backed_accepted (h.mono (by simp)) reply r hu.1 (by simp)
    · have hacc : acceptedInfo c (.received reply r)=[] := by rw [acceptedInfo,if_neg hu]
      rw [hacc,List.append_nil,step_unusable c reply r hu]
      refine ⟨by simp,?_⟩
      intro c' hc
      rw [← Option.some.inj hc]
      rcases hi with hi|⟨hs,hy⟩|hi
      · exact absurd hi hu
      · exact ⟨h.hwaddr_eq,fun _ => hy,fun hr => by simp [hs] at hr⟩
      · rw [hi]
        exact ⟨h.hwaddr_eq,h.selecting,h.requesting⟩

/-- A whole run of harmless inputs. -/
theorem outputs_justified (h : c.Backed hwaddr infos) (is : List Input)
    (hi : HarmlessRun (some c) is) :
    ∀ o∈outputs (some c) is,Justified hwaddr (infos++acceptedInfos (some c) is) o := by
  induction is generalizing c infos with
  | nil => simp [outputs]
  | cons i is ih =>
    obtain ⟨hnow,hrest⟩ := hi
    obtain ⟨hout,hnext⟩ := step_backed h i hnow
    intro o ho
    simp only [outputs,List.mem_append] at ho
    simp only [acceptedInfos]
    rcases ho with ho|ho
    · apply (hout o ho).mono
      intro a ha
      simp only [List.mem_append] at ha ⊢
      tauto
    · cases hc : (step c i).1 with
      | none => simp [hc,outputs] at ho
      | some c' =>
        rw [hc] at ho hrest
        have := ih (hnext c' hc) hrest o ho
        rwa [List.append_assoc] at this

end

theorem initial_backed (hwaddr : Vector Byte 6) (xid : Word) (stack : Stack) :
    (initial hwaddr xid stack).1.Backed hwaddr [] ∧
    ∀ o∈(initial hwaddr xid stack).2,Justified hwaddr [] o := by
  apply transmit_backed
  exact ⟨rfl,fun _ => by simp [dhcpOffer],by simp⟩

/-- Two clients that differ at most in parameters nothing will use: both are still
selecting and neither holds an offer. -/
def Alike (c d : Client) : Prop :=
  c=d ∨ (c.state=.selecting ∧ c.info.type≠dhcpOffer ∧ d.info.type≠dhcpOffer ∧
    d={ c with info := d.info })

/-- Clients that are alike do the same on an input that is not rejected. -/
theorem Alike.onInput {c d : Client} (h : Alike c d) (i : Input) (hi : rejects c i=false) :
    (step c i).2=(step d i).2 ∧
    (((step c i).1=none ∧ (step d i).1=none) ∨
      ∃ c' d',(step c i).1=some c' ∧ (step d i).1=some d' ∧ Alike c' d') := by
  rcases h with rfl|⟨hs,hc,hd,he⟩
  · refine ⟨rfl,?_⟩
    cases hx : (step c i).1 with
    | none => exact Or.inl ⟨rfl,rfl⟩
    | some c' => exact Or.inr ⟨c',c',rfl,rfl,Or.inl rfl⟩
  · generalize hinfo : d.info=info at he hd
    subst he
    cases i with
    | pollTimeout =>
      by_cases ht : c.timeout≥timeoutMax
      · have h1 : (step c .pollTimeout)=(none,[]) := by simp [step,ht,hc]
        have h2 : (step { c with info := info } .pollTimeout)=(none,[]) := by
          simp [step,ht,hd]
        rw [h1,h2]
        exact ⟨rfl,Or.inl ⟨rfl,rfl⟩⟩
      · simp only [step,ht,if_false,transmit,hs]
        exact ⟨trivial,Or.inr ⟨_,_,rfl,rfl,Or.inr ⟨rfl,hc,hd,rfl⟩⟩⟩
    | pollFailed recoverable =>
      cases recoverable with
      | true => exact ⟨rfl,Or.inr ⟨c,_,rfl,rfl,Or.inr ⟨hs,hc,hd,rfl⟩⟩⟩
      | false => exact ⟨rfl,Or.inl ⟨rfl,rfl⟩⟩
    | receiveFailed interfaceDown =>
      cases interfaceDown with
      | true => exact ⟨rfl,Or.inl ⟨rfl,rfl⟩⟩
      | false => exact ⟨rfl,Or.inr ⟨c,_,rfl,rfl,Or.inr ⟨hs,hc,hd,rfl⟩⟩⟩
    | received reply r =>
      have hv : isValidReply (outstanding c) reply r=true := by simpa [rejects] using hi
      have hv' : isValidReply (outstanding { c with info := info }) reply r=true := hv
      have heq : step c (.received reply r)=
          step { c with info := info } (.received reply r) := by
        rw [step_accept c reply r hv,step_accept _ reply r hv']
      rw [← heq]
      refine ⟨rfl,?_⟩
      cases hx : (step c (.received reply r)).1 with
      | none => exact Or.inl ⟨rfl,rfl⟩
      | some c' => exact Or.inr ⟨c',c',rfl,rfl,Or.inl rfl⟩

/-- A harmless rejected input leaves a client that is alike. -/
theorem Alike.onReject {hwaddr : Vector Byte 6} {infos : List DhcpInfo} {c d : Client}
    (h : Alike c d) (hb : c.Backed hwaddr infos) (i : Input) (hi : rejects c i=true)
    (hh : harmless c i) :
    ∃ c',step c i=(some c',[]) ∧ Alike c' d := by
  cases i with
  | received reply r =>
    have hv : isValidReply (outstanding c) reply r=false := by simpa [rejects] using hi
    refine ⟨_,step_reject c reply r hv,?_⟩
    rcases hh with ⟨hh,_⟩|⟨hs,hy⟩|hh
    · simp [hv] at hh
    · refine Or.inr ⟨hs,hy,?_⟩
      rcases h with rfl|⟨_,_,hd,he⟩
      · exact ⟨hb.selecting hs,rfl⟩
      · refine ⟨hd,?_⟩
        rw [he]
    · rw [hh]
      exact h
  | _ => simp [rejects] at hi

/-- Leaving out rejected messages that are harmless changes no output. -/
theorem outputs_withoutRejected {hwaddr : Vector Byte 6} {infos : List DhcpInfo}
    {c d : Client} (h : Alike c d) (hb : c.Backed hwaddr infos) (is : List Input)
    (hi : HarmlessRun (some c) is) :
    outputs (some c) is=outputs (some d) (withoutRejected (some c) is) := by
  induction is generalizing c d infos with
  | nil => rfl
  | cons i is ih =>
    obtain ⟨hnow,hrest⟩ := hi
    obtain ⟨_,hback⟩ := step_backed hb i hnow
    by_cases hr : rejects c i=true
    · obtain ⟨c',hstep,halike⟩ := h.onReject hb i hr hnow
      simp only [outputs,withoutRejected,hr,if_true,hstep,List.nil_append]
      rw [hstep] at hrest
      exact ih halike (hback c' (by rw [hstep])) hrest
    · have hr' : rejects c i=false := by simpa using hr
      obtain ⟨hout,hnext⟩ := h.onInput i hr'
      simp only [withoutRejected,hr',Bool.false_eq_true,if_false,outputs,hout]
      congr 1
      rcases hnext with ⟨hc,hd⟩|⟨c',d',hc,hd,halike⟩
      · rw [hc,hd]
        simp [outputs]
      · rw [hc] at hrest
        rw [hc,hd]
        exact ih halike (hback c' hc) hrest

/-- In every run of harmless messages, everything requested and configured comes from
accepted replies and the rejected ones change nothing. -/
theorem harmlessRun_repliesOnly (hwaddr : Vector Byte 6) (xid : Word) (stack : Stack)
    (is : List Input) (h : HarmlessRun (some (initial hwaddr xid stack).1) is) :
    RepliesOnly hwaddr xid stack is := by
  obtain ⟨hb,hfirst⟩ := initial_backed hwaddr xid stack
  refine ⟨?_,?_⟩
  · intro pre hpre o ho
    rcases List.mem_append.mp ho with ho|ho
    · exact (hfirst o ho).mono (by simp)
    · have := outputs_justified hb pre (h.of_prefix hpre) o ho
      simpa using this
  · simp only [dhcpInitIfc]
    rw [outputs_withoutRejected (Or.inl rfl) hb is h]

/-- A server's answer: the header, the client's hardware address and the options. -/
def replyMsg (xid yiaddr : Word) (hwaddr : Vector Byte 6) (options : List Byte) : DhcpMsg :=
  DhcpMsg.zeroFilled ([opBootReply,htypeEther,6,0]++le32Bytes xid++List.replicate 8 0++
    le32Bytes yiaddr++List.replicate 8 0++hwaddr.toList++List.replicate 202 0++
    optCookie++options)

def ourHwaddr : Vector Byte 6 := #v[2,0,0,0,0,1]

/-- Option 53 with an offer, option 54 with the server 10.0.0.1. -/
def offerOptions : List Byte := [optMessageType,1,2,optServerId,4,10,0,0,1,optEnd]

def blankStack : Stack := ⟨DhcpMsg.zeroFilled [],DhcpMsg.zeroFilled [],DhcpInfo.zero⟩

/-- An offer of 10.0.0.5 to us, then an offer of 10.0.0.99 with another client's
transaction id, then a timeout. -/
def strayOffer : List Input := [
  .received (replyMsg 7 (le32 10 0 0 5) ourHwaddr offerOptions) 250,
  .received (replyMsg 99 (le32 10 0 0 99) #v[2,0,0,0,0,9] offerOptions) 250,
  .pollTimeout]

def requestedAddr : Output → Word
  | .request msg _ => msg.wordAt 251
  | _ => 0

/-- The retransmitted request asks for the address offered to the other client. -/
theorem stray_offer_is_requested :
    ¬RepliesOnly ourHwaddr 7 blankStack strayOffer := by
  intro h
  have hout : (dhcpInitIfc ourHwaddr 7 blankStack strayOffer).map requestedAddr=
      [0,le32 10 0 0 5,le32 10 0 0 99] := by decide
  have hacc : ∀ info∈acceptedInfos (some (initial ourHwaddr 7 blankStack).1) strayOffer,
      info.ipaddr=le32 10 0 0 5 := by decide
  have hmem : le32 10 0 0 99∈(dhcpInitIfc ourHwaddr 7 blankStack strayOffer).map
      requestedAddr := by rw [hout]; simp
  obtain ⟨o,ho,haddr⟩ := List.mem_map.mp hmem
  have hj := h.1 strayOffer (List.prefix_refl _) o ho
  cases o with
  | discover msg size => simp [requestedAddr,le32] at haddr
  | configure info => simp [requestedAddr,le32] at haddr
  | request msg size =>
    obtain ⟨info,hi,xid,he⟩ := hj
    have hmsg : msg=(initDhcpRequestMsg ourHwaddr xid info.ipaddr info.serveraddr).1 :=
      congrArg Prod.fst he
    have hreq : msg.wordAt 251=le32 10 0 0 99 := haddr
    rw [hmsg,(initDhcpRequestMsg_carries _ _ _ _).1,hacc info hi] at hreq
    revert hreq
    decide

/-- A stray message while selecting, the offer, its acknowledgement. -/
def cleanRun : List Input := [
  .received (replyMsg 99 (le32 10 0 0 99) #v[2,0,0,0,0,9] [optMessageType,1,5,optEnd]) 250,
  .received (replyMsg 7 (le32 10 0 0 5) ourHwaddr offerOptions) 250,
  .pollTimeout,
  .received (replyMsg 8 (le32 10 0 0 5) ourHwaddr [optMessageType,1,5,optEnd]) 250]

theorem harmlessRun_repliesOnly_clean : RepliesOnly ourHwaddr 7 blankStack cleanRun := by
  apply harmlessRun_repliesOnly
  refine ⟨Or.inr (Or.inl ⟨rfl,by decide⟩),?_⟩
  refine ⟨Or.inl ⟨by decide,by decide⟩,?_⟩
  refine ⟨trivial,?_⟩
  exact ⟨Or.inl ⟨by decide,by decide⟩,trivial⟩

end IdearNiu.Dhcpc
