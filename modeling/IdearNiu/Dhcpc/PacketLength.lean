import IdearNiu.Dhcpc.Packet

namespace IdearNiu.Dhcpc

open Memory

/-- The two checksum tests of receive_packet, the second over as many bytes as the total
length says. -/
def sumsMatch (packet : DhcpPacket) : Bool :=
  let sum := finishSum (checksum
    ((borrowed packet).bytes.take (ntohs packet.ip.totLen).toNat) 0)
  finishSum (checksum packet.ip.bytes 0)=0 &&
    packet.udp.check.setWidth 32=(if sum=0 then finishSum sum else sum)

/-- A packet that gets as far as the copy. -/
def reachesCopy (packet : DhcpPacket) (nread : Int) : Bool :=
  isValidPacket packet nread && sumsMatch packet

/-- A length that is returned is the one of the udp header, lies inside what was read and
inside struct dhcp_msg, and counts the bytes that msg got; otherwise msg is as before. -/
def LengthSafe (packet : DhcpPacket) (nread : Int) (msg : DhcpMsg) : Prop :=
  ∃ n out,receivePacket packet nread msg=some (n,out) ∧
    (0≤n → n=(ntohs packet.udp.len).toNat-udpHdrSize ∧ n ≤ nread-(ipHdrSize+udpHdrSize) ∧
      n≤dhcpMsgSize ∧ out=packet.dhcp.bytes.take n.toNat++msg.bytes.drop n.toNat) ∧
    (n<0 → out=msg.bytes)

theorem receivePacket_dropped (packet : DhcpPacket) (nread : Int) (msg : DhcpMsg)
    (h : reachesCopy packet nread=false) :
    receivePacket packet nread msg=some (-1,msg.bytes) := by
  simp only [receivePacket]
  by_cases hneg : nread<0
  · rw [if_pos hneg]
  · rw [if_neg hneg]
    cases hvalid : isValidPacket packet nread with
    | false => rfl
    | true =>
      simp only [reachesCopy,hvalid,sumsMatch,Bool.true_and,Bool.and_eq_false_iff,
        decide_eq_false_iff_not] at h
      simp only [Bool.not_true,Bool.false_eq_true,if_false]
      by_cases hip : finishSum (checksum packet.ip.bytes 0)=0
      · rw [if_neg (not_not.mpr hip),if_pos (h.resolve_left (not_not.mpr hip))]
      · rw [if_pos hip]

theorem receivePacket_copied (packet : DhcpPacket) (nread : Int) (msg : DhcpMsg)
    (hnread : 0≤nread) (h : reachesCopy packet nread=true) :
    receivePacket packet nread msg=
      if (ntohs packet.udp.len).toNat<udpHdrSize then none
      else (copyTo msg.bytes 0 packet.dhcp.bytes ((ntohs packet.udp.len).toNat-udpHdrSize)).map
        (((ntohs packet.udp.len).toNat-udpHdrSize : Int),·) := by
  simp only [reachesCopy,sumsMatch,Bool.and_eq_true,decide_eq_true_eq] at h
  obtain ⟨hvalid,hip,hudp⟩ := h
  simp only [receivePacket]
  rw [if_neg (by omega),hvalid,if_neg (by decide),if_neg (not_not.mpr hip),
    if_neg (not_not.mpr hudp)]
  by_cases hshort : (ntohs packet.udp.len).toNat<udpHdrSize
  · rw [if_pos (by omega),if_pos hshort]
  · have hsize : (((ntohs packet.udp.len).toNat : Int)-udpHdrSize).toNat=
        (ntohs packet.udp.len).toNat-udpHdrSize := by omega
    rw [if_neg (by omega),if_neg hshort,hsize]

/-- The copy as a whole: it needs the room of a struct dhcp_msg and starts at its front. -/
theorem copyTo_front (msg data : DhcpMsg) (n : Nat) :
    copyTo msg.bytes 0 data.bytes n=
      if n≤dhcpMsgSize then some (data.bytes.take n++msg.bytes.drop n) else none := by
  rw [copyTo,msg.size,data.size,Nat.zero_add]
  by_cases hn : n≤dhcpMsgSize
  · have hlen : (data.bytes.take n).length=n := by
      rw [List.length_take,data.size]
      omega
    rw [if_pos ⟨hn,hn⟩,if_pos hn,splice,hlen,List.take_zero,List.nil_append,Nat.zero_add]
  · rw [if_neg (fun h => hn h.1),if_neg hn]

/-- Whatever was read, the length is safe exactly when a packet that reaches the copy has
a udp length that covers its header and stays inside what was read. -/
theorem receive_packet_length_safe_iff (packet : DhcpPacket) (nread : Int) (msg : DhcpMsg)
    (hlow : 0≤nread) (hhigh : nread≤packetSize) :
    LengthSafe packet nread msg ↔
      (reachesCopy packet nread=true → udpHdrSize≤(ntohs packet.udp.len).toNat ∧
        ipHdrSize+(ntohs packet.udp.len).toNat≤nread) := by
  have hip : ipHdrSize=20 := rfl
  have hudp : udpHdrSize=8 := rfl
  have hpacket : packetSize=28+dhcpMsgSize := rfl
  rw [LengthSafe]
  cases hcopy : reachesCopy packet nread with
  | false =>
    simp only [Bool.false_eq_true,false_implies,iff_true]
    exact ⟨-1,msg.bytes,receivePacket_dropped packet nread msg hcopy,
      fun h => absurd h (by decide),fun _ => rfl⟩
  | true =>
    rw [receivePacket_copied packet nread msg hlow hcopy,copyTo_front]
    generalize (ntohs packet.udp.len).toNat=len
    simp only [forall_const]
    constructor
    · intro hgiven
      obtain ⟨n,out,hret,hpos,-⟩ := hgiven
      by_cases hshort : len<udpHdrSize
      · rw [if_pos hshort] at hret
        simp at hret
      · rw [if_neg hshort] at hret
        obtain ⟨_,_,heq⟩ := Option.map_eq_some_iff.mp hret
        obtain ⟨rfl,_⟩ := Prod.mk.inj heq
        have hsafe := (hpos (by omega)).2.1
        omega
    · intro hgiven
      obtain ⟨hlong,hin⟩ := hgiven
      have hsize : len-udpHdrSize≤dhcpMsgSize := by omega
      have hnat : ((len : Int)-udpHdrSize).toNat=len-udpHdrSize := by omega
      refine ⟨(len : Int)-udpHdrSize,packet.dhcp.bytes.take (len-udpHdrSize)++
        msg.bytes.drop (len-udpHdrSize),?_,?_,?_⟩
      · rw [if_neg (by omega),if_pos hsize,Option.map_some]
      · intro _
        exact ⟨rfl,by omega,by omega,by rw [hnat]⟩
      · intro hneg
        omega

/-- A header without payload; 12 as its udp length says that there is one. -/
def shortPacket (len check : Half) : DhcpPacket :=
  ⟨⟨4,5,0,htons 28,0,0,64,17,53882,0,0⟩,⟨htons 67,htons 68,htons len,check⟩,
    DhcpMsg.zeroFilled []⟩

/-- A packet of 32 bytes with a payload of four, its checksums right. -/
def dataPacket : DhcpPacket :=
  ⟨⟨4,5,0,htons 32,0,0,64,17,52858,0,0⟩,⟨htons 67,htons 68,htons 12,18939⟩,
    DhcpMsg.zeroFilled [1,2,3,4]⟩

theorem receive_packet_length_safe_iff_data :
    reachesCopy dataPacket 32=true ∧ LengthSafe dataPacket 32 (DhcpMsg.zeroFilled []) := by
  constructor
  · decide
  · apply (receive_packet_length_safe_iff dataPacket 32 (DhcpMsg.zeroFilled [])
      (by decide) (by decide)).mpr
    intro _
    decide

/-- A packet of 28 bytes whose udp header claims four bytes of payload: its checksums are
right for the 28 bytes, and four bytes that were never read are handed over. -/
theorem receive_packet_overlong :
    ∃ out,receivePacket (shortPacket 12 20479) 28 (DhcpMsg.zeroFilled [])=some (4,out) ∧
      ¬LengthSafe (shortPacket 12 20479) 28 (DhcpMsg.zeroFilled []) := by
  have hret : receivePacket (shortPacket 12 20479) 28 (DhcpMsg.zeroFilled [])=
      some (4,(DhcpMsg.zeroFilled []).bytes) := by decide +kernel
  refine ⟨_,hret,?_⟩
  intro hgiven
  obtain ⟨n,out,hsome,hpos,-⟩ := hgiven
  rw [hret] at hsome
  obtain ⟨rfl,_⟩ := Prod.mk.inj (Option.some.inj hsome)
  exact absurd (hpos (by decide)).2.1 (by decide)

end IdearNiu.Dhcpc
