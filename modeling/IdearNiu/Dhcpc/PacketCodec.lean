import IdearNiu.Math.OnesComplement
import IdearNiu.Dhcpc.Packet

namespace IdearNiu.Dhcpc

open OnesComplement Memory

/-- The sum of the 16-bit words of a buffer as a number. -/
def wordSum : List Byte → Nat
  | a::b::rest => (le16 a b).toNat+wordSum rest
  | [a] => a.toNat
  | [] => 0

theorem wordSum_le (l : List Byte) : wordSum l≤65535*l.length := by
  induction l using wordSum.induct with
  | case1 a b rest ih =>
    have := (le16 a b).isLt
    simp only [wordSum,List.length_cons]
    omega
  | case2 a =>
    have := a.isLt
    simp only [wordSum,List.length_cons,List.length_nil]
    omega
  | case3 => simp [wordSum]

/-- Words of two pieces do not straddle their border when the first has whole words. -/
theorem wordSum_append (l m : List Byte) (h : l.length%2=0) :
    wordSum (l++m)=wordSum l+wordSum m := by
  induction l using wordSum.induct with
  | case1 a b rest ih =>
    simp only [List.cons_append,wordSum,ih (by simp only [List.length_cons] at h; omega)]
    omega
  | case2 a => simp at h
  | case3 => simp [wordSum]

theorem le16_wide_toNat (a b : Byte) : ((le16 a b).setWidth 32).toNat=(le16 a b).toNat := by
  rw [BitVec.toNat_setWidth]
  have := (le16 a b).isLt
  omega

theorem byte_wide_toNat (a : Byte) : (a.setWidth 32).toNat=a.toNat := by
  rw [BitVec.toNat_setWidth]
  have := a.isLt
  omega

theorem sumLoop_toNat (l : List Byte) (sum : Word) (h : sum.toNat+wordSum l<2^32) :
    (sumLoop l sum).toNat=sum.toNat+wordSum l := by
  induction l using wordSum.induct generalizing sum with
  | case1 a b rest ih =>
    simp only [wordSum] at h ⊢
    have hadd : (sum+(le16 a b).setWidth 32).toNat=sum.toNat+(le16 a b).toNat := by
      rw [BitVec.toNat_add,le16_wide_toNat,Nat.mod_eq_of_lt (by omega)]
    rw [sumLoop,ih _ (by omega),hadd]
    omega
  | case2 a =>
    simp only [wordSum] at h ⊢
    rw [sumLoop,BitVec.toNat_add,byte_wide_toNat,Nat.mod_eq_of_lt h]
  | case3 => rfl

theorem low_toNat (sum : Word) : (sum&&&(0xffff : Word)).toNat=sum.toNat%65536 := by
  rw [BitVec.toNat_and]
  exact Nat.and_two_pow_sub_one_eq_mod sum.toNat 16

theorem high_toNat (sum : Word) : (sum>>>16).toNat=sum.toNat/65536 := by
  rw [BitVec.toNat_ushiftRight,Nat.shiftRight_eq_div_pow]

theorem turn_toNat (sum : Word) :
    ((sum&&&(0xffff : Word))+(sum>>>16)).toNat=carry 65536 sum.toNat := by
  have := sum.isLt
  rw [BitVec.toNat_add,low_toNat,high_toNat,carry,Nat.mod_eq_of_lt (by omega)]

/-- The test of the loop fails exactly on a sum without carries. -/
theorem high_eq_zero_iff (sum : Word) : sum>>>16=0 ↔ sum.toNat<65536 := by
  have hzero : (0 : Word).toNat=0 := rfl
  rw [← BitVec.toNat_inj,high_toNat,hzero]
  omega

/-- Putting carries back keeps what the sum stands for. -/
theorem foldLoop_toNat (fuel : Nat) (sum : Word) :
    residue 65536 (foldLoop fuel sum).toNat=residue 65536 sum.toNat := by
  induction fuel generalizing sum with
  | zero => rfl
  | succ fuel ih =>
    rw [foldLoop]
    split
    · rw [ih,turn_toNat,residue_carry (by omega)]
    · rfl

theorem foldLoop_two_lt (sum : Word) : (foldLoop 2 sum).toNat<65536 := by
  have hsmall : ∀ s : Word,¬s>>>16≠0 → s.toNat<65536 := by
    intro s hs
    exact (high_eq_zero_iff s).mp (not_not.mp hs)
  rw [foldLoop]
  by_cases h : sum>>>16≠0
  · rw [if_pos h,foldLoop]
    by_cases h' : ((sum&&&(0xffff : Word))+(sum>>>16))>>>16≠0
    · rw [if_pos h',foldLoop,turn_toNat,turn_toNat]
      have := sum.isLt
      simp only [carry]
      omega
    · rw [if_neg h']
      exact hsmall _ h'
  · rw [if_neg h]
    exact hsmall _ h

/-- checksum is one's-complement addition. -/
theorem checksum_toNat (buffer : List Byte) (sum : Word) (h : sum.toNat+wordSum buffer<2^32) :
    (checksum buffer sum).toNat=residue 65536 (sum.toNat+wordSum buffer) := by
  rw [← sumLoop_toNat buffer sum h,← foldLoop_toNat 2,residue_of_lt _ (foldLoop_two_lt _),
    checksum]

theorem checksum_zero_toNat (buffer : List Byte) (h : wordSum buffer<2^32) :
    (checksum buffer 0).toNat=residue 65536 (wordSum buffer) := by
  have hzero : (0 : Word).toNat=0 := rfl
  rw [checksum_toNat buffer 0 (by omega),hzero,Nat.zero_add]

theorem finishSum_toNat (sum : Word) (h : sum.toNat<65536) :
    (finishSum sum).toNat=65535-sum.toNat := by
  rw [finishSum,BitVec.toNat_and]
  have hmask := Nat.and_two_pow_sub_one_eq_mod (~~~sum).toNat 16
  rw [show (0xffff : Word).toNat=2^16-1 from rfl,hmask,BitVec.toNat_not]
  omega

theorem le16_le16Bytes (h : Half) : le16 (h.extractLsb' 0 8) (h.extractLsb' 8 8)=h := by
  apply BitVec.eq_of_getLsbD_eq
  intro i hi
  simp only [le16,BitVec.getLsbD_append,BitVec.getLsbD_extractLsb']
  by_cases h1 : i<8
  · simp [h1]
  · simp [h1,show i-8<8 by omega,show 8+(i-8)=i by omega]

theorem ntohs_htons (h : Half) : ntohs (htons h)=h := by
  have hlow : (htons h).extractLsb' 0 8=h.extractLsb' 8 8 := by
    rw [htons,le16,BitVec.extractLsb'_append_eq_of_add_le (by omega)]
    simp
  have hhigh : (htons h).extractLsb' 8 8=h.extractLsb' 0 8 := by
    rw [htons,le16,BitVec.extractLsb'_append_eq_of_le (by omega)]
    simp
  rw [ntohs,htons,hlow,hhigh]
  exact le16_le16Bytes h

theorem wordSum_le16Bytes (h : Half) : wordSum (le16Bytes h)=h.toNat := by
  rw [le16Bytes,wordSum,le16_le16Bytes]
  rfl

theorem IpHdr.bytes_length (h : IpHdr) : h.bytes.length=ipHdrSize := rfl

theorem UdpHdr.bytes_length (h : UdpHdr) : h.bytes.length=udpHdrSize := rfl

theorem IpHdr.wordSum_bytes (h : IpHdr) :
    wordSum h.bytes=(le16 (h.version++h.ihl) h.tos).toNat+h.totLen.toNat+h.id.toNat+
      h.fragOff.toNat+(le16 h.ttl h.protocol).toNat+h.check.toNat+
      wordSum (le32Bytes h.saddr)+wordSum (le32Bytes h.daddr) := by
  simp only [IpHdr.bytes,le16Bytes,le32Bytes,List.cons_append,List.nil_append,wordSum,
    le16_le16Bytes]
  omega

theorem UdpHdr.wordSum_bytes (h : UdpHdr) :
    wordSum h.bytes=h.source.toNat+h.dest.toNat+h.len.toNat+h.check.toNat := by
  simp only [UdpHdr.bytes,le16Bytes,List.cons_append,List.nil_append,wordSum,le16_le16Bytes]
  omega

theorem IpHdr.ofBytes_bytes (h : IpHdr) (rest : List Byte) : IpHdr.ofBytes (h.bytes++rest)=h := by
  apply IpHdr.ext
  · exact BitVec.extractLsb'_append_eq_left
  · exact BitVec.extractLsb'_append_eq_right
  · rfl
  · exact le16_le16Bytes h.totLen
  · exact le16_le16Bytes h.id
  · exact le16_le16Bytes h.fragOff
  · rfl
  · rfl
  · exact le16_le16Bytes h.check
  · exact le32_le32Bytes h.saddr
  · exact le32_le32Bytes h.daddr

theorem UdpHdr.ofBytes_bytes (h : UdpHdr) (rest : List Byte) :
    UdpHdr.ofBytes (h.bytes++rest)=h := by
  apply UdpHdr.ext
  · exact le16_le16Bytes h.source
  · exact le16_le16Bytes h.dest
  · exact le16_le16Bytes h.len
  · exact le16_le16Bytes h.check

theorem DhcpPacket.ofBytes_append (ip : IpHdr) (udp : UdpHdr) (body : List Byte) :
    DhcpPacket.ofBytes (ip.bytes++udp.bytes++body)=⟨ip,udp,DhcpMsg.zeroFilled body⟩ := by
  have hip : IpHdr.ofBytes (ip.bytes++udp.bytes++body)=ip := by
    rw [List.append_assoc]
    exact ip.ofBytes_bytes _
  have hudp : UdpHdr.ofBytes ((ip.bytes++udp.bytes++body).drop ipHdrSize)=udp := by
    rw [List.append_assoc,List.drop_left' ip.bytes_length]
    exact udp.ofBytes_bytes _
  have hbody : (ip.bytes++udp.bytes++body).drop (ipHdrSize+udpHdrSize)=body :=
    List.drop_left' rfl
  rw [DhcpPacket.ofBytes,hip,hudp,hbody]

theorem zeroFilled_take (data rest : List Byte) (h : data.length≤dhcpMsgSize) :
    (DhcpMsg.zeroFilled (data++rest)).bytes.take data.length=data := by
  simp only [DhcpMsg.zeroFilled]
  rw [List.take_take,Nat.min_eq_left h,List.append_assoc,List.take_left' rfl]

/-- Everything the UDP checksum covers: pseudo header, udp header and data. -/
def udpCovered (msg : DhcpMsg) (size : Nat) (saddr daddr sport dport : Word) : List Byte :=
  le32Bytes saddr++le32Bytes daddr++le16Bytes (htons (ipProtoUdp.setWidth 16))++
    le16Bytes (sendUdp size sport dport).len++(sendUdp size sport dport).bytes++
    msg.bytes.take size

/-- One more piece added to a sum that stands for n. -/
theorem checksum_step (l : List Byte) (sum : Word) (n : Nat) (hsum : sum.toNat=residue 65536 n)
    (h : n+wordSum l<2^32) : (checksum l sum).toNat=residue 65536 (n+wordSum l) := by
  have hle : residue 65536 n≤n := residue_le n
  rw [checksum_toNat l sum (by omega),hsum,residue_add_left (by omega)]

theorem wordSum_udpCovered (msg : DhcpMsg) (size : Nat) (saddr daddr sport dport : Word) :
    wordSum (udpCovered msg size saddr daddr sport dport)=
      wordSum (le32Bytes saddr)+wordSum (le32Bytes daddr)+
      wordSum (le16Bytes (htons (ipProtoUdp.setWidth 16)))+
      wordSum (le16Bytes (sendUdp size sport dport).len)+
      wordSum (sendUdp size sport dport).bytes+wordSum (msg.bytes.take size) := by
  simp only [udpCovered,UdpHdr.bytes,le16Bytes,le32Bytes,List.cons_append,List.nil_append,
    wordSum]
  omega

/-- A packet is too short for a sum to overflow. -/
theorem wordSum_udpCovered_lt (msg : DhcpMsg) (size : Nat) (saddr daddr sport dport : Word) :
    wordSum (udpCovered msg size saddr daddr sport dport)<2^32 := by
  have hbound := wordSum_le (udpCovered msg size saddr daddr sport dport)
  have hlen : (udpCovered msg size saddr daddr sport dport).length≤20+dhcpMsgSize := by
    have := msg.size
    simp only [udpCovered,List.length_append,List.length_take,UdpHdr.bytes_length,le16Bytes,
      le32Bytes,List.length_cons,List.length_nil,udpHdrSize]
    omega
  rw [show dhcpMsgSize=1260 from rfl] at hlen
  omega

/-- The sender's piecewise sum is the sum over all that is covered. -/
theorem sendUdpSum_toNat (msg : DhcpMsg) (size : Nat) (saddr daddr sport dport : Word) :
    (sendUdpSum (sendUdp size sport dport) (msg.bytes.take size) saddr daddr).toNat=
      residue 65536 (wordSum (udpCovered msg size saddr daddr sport dport)) := by
  have hbound := wordSum_udpCovered_lt msg size saddr daddr sport dport
  rw [wordSum_udpCovered] at hbound ⊢
  have h1 := checksum_zero_toNat (le32Bytes saddr) (by omega)
  have h2 := checksum_step (le32Bytes daddr) _ _ h1 (by omega)
  have h3 := checksum_step (le16Bytes (htons (ipProtoUdp.setWidth 16))) _ _ h2 (by omega)
  have h4 := checksum_step (le16Bytes (sendUdp size sport dport).len) _ _ h3 (by omega)
  have h5 := checksum_step (sendUdp size sport dport).bytes _ _ h4 (by omega)
  exact checksum_step (msg.bytes.take size) _ _ h5 (by omega)

/-- The header with its checksum filled in passes the receiver's test. -/
theorem sendIp_accepted (size : Nat) (saddr daddr : Word) (ip : IpHdr)
    (hip : ip=sendIp size saddr daddr) :
    finishSum (checksum { ip with
      check := (finishSum (checksum ip.bytes 0)).setWidth 16 }.bytes 0)=0 := by
  have hzero : ip.check.toNat=0 := by rw [hip]; rfl
  have hpos : wordSum ip.bytes≠0 := by
    have hfirst : (le16 (ip.version++ip.ihl) ip.tos).toNat=69 := by
      rw [hip]
      exact (by decide : (le16 (ipVersion++BitVec.ofNat 4 (ipHdrSize/4)) 0).toNat=69)
    rw [ip.wordSum_bytes]
    omega
  have hbound := wordSum_le ip.bytes
  rw [ip.bytes_length,show ipHdrSize=20 from rfl] at hbound
  have hsum := checksum_zero_toNat ip.bytes (by omega)
  have hlt : residue 65536 (wordSum ip.bytes)<65536 := residue_lt (by omega) _
  have hcheck : ((finishSum (checksum ip.bytes 0)).setWidth 16).toNat=
      65535-residue 65536 (wordSum ip.bytes) := by
    rw [BitVec.toNat_setWidth,finishSum_toNat _ (by omega),hsum,Nat.mod_eq_of_lt (by omega)]
  generalize ((finishSum (checksum ip.bytes 0)).setWidth 16 : Half)=c at hcheck
  have hfull : wordSum { ip with check := c }.bytes=wordSum ip.bytes+c.toNat := by
    simp only [IpHdr.wordSum_bytes]
    omega
  have hc := c.isLt
  have htotal := checksum_zero_toNat { ip with check := c }.bytes (by omega)
  rw [hfull,hcheck,show 65535=65536-1 from rfl,residue_complement (by omega) _ hpos] at htotal
  apply BitVec.eq_of_toNat_eq
  rw [finishSum_toNat _ (by omega),htotal]
  rfl

/-- What the receiver sums over is what the sender summed over. -/
theorem borrowed_wordSum (ip : IpHdr) (dhcp msg : DhcpMsg) (size : Nat)
    (saddr daddr sport dport : Word) (check : Half) (hs : ip.saddr=saddr)
    (hd : ip.daddr=daddr) (hdata : dhcp.bytes.take size=msg.bytes.take size) :
    wordSum ((borrowed ⟨ip,{ sendUdp size sport dport with check := check },dhcp⟩).bytes.take
      (ipHdrSize+udpHdrSize+size))=wordSum (udpCovered msg size saddr daddr sport dport) := by
  subst hs hd
  have htake : ∀ (i : IpHdr) (u : UdpHdr),(i.bytes++u.bytes++dhcp.bytes).take
      (ipHdrSize+udpHdrSize+size)=i.bytes++u.bytes++msg.bytes.take size := by
    intro i u
    have hl : (i.bytes++u.bytes).length=ipHdrSize+udpHdrSize := by
      rw [List.length_append,i.bytes_length,u.bytes_length]
    rw [← hdata,← hl]
    exact List.take_length_add_append size
  have hsum : ∀ (i : IpHdr) (u : UdpHdr),wordSum (i.bytes++u.bytes++msg.bytes.take size)=
      wordSum i.bytes+wordSum u.bytes+wordSum (msg.bytes.take size) := by
    intro i u
    rw [List.append_assoc,wordSum_append _ _ (by rw [i.bytes_length]; rfl),
      wordSum_append _ _ (by rw [u.bytes_length]; rfl)]
    omega
  have hproto : (le16 0 ipProtoUdp).toNat=(htons (ipProtoUdp.setWidth 16)).toNat := by decide
  have hzero : (le16 ((0 : BitVec 4)++(0 : BitVec 4)) 0).toNat=0 := by decide
  have hcheck : (sendUdp size sport dport).check.toNat=0 := rfl
  have hnone : (0 : Half).toNat=0 := rfl
  rw [borrowed,DhcpPacket.bytes,htake,hsum,wordSum_udpCovered]
  simp only [IpHdr.wordSum_bytes,UdpHdr.wordSum_bytes,wordSum_le16Bytes,hproto,hzero,hcheck,hnone]
  omega

/-- The ip header of send_packet as it leaves. -/
def sentIp (size : Nat) (saddr daddr : Word) : IpHdr :=
  { sendIp size saddr daddr with
    check := (finishSum (checksum (sendIp size saddr daddr).bytes 0)).setWidth 16 }

def sentUdp (msg : DhcpMsg) (size : Nat) (saddr daddr sport dport : Word) : UdpHdr :=
  { sendUdp size sport dport with
    check := (finishSum (sendUdpSum (sendUdp size sport dport) (msg.bytes.take size)
      saddr daddr)).setWidth 16 }

theorem sendPacket_eq (msg : DhcpMsg) (size : Nat) (saddr daddr sport dport : Word) :
    sendPacket msg size saddr daddr sport dport=(sentIp size saddr daddr).bytes++
      (sentUdp msg size saddr daddr sport dport).bytes++msg.bytes.take size := rfl

theorem data_length (msg : DhcpMsg) (size : Nat) (hsize : size≤dhcpMsgSize) :
    (msg.bytes.take size).length=size := by
  rw [List.length_take,msg.size]
  omega

/-- The receiver's struct after reading a sent packet. -/
theorem readInto_sent (packet : DhcpPacket) (msg : DhcpMsg) (size : Nat)
    (hsize : size≤dhcpMsgSize) (saddr daddr sport dport : Word) :
    ∃ dhcp : DhcpMsg,dhcp.bytes.take size=msg.bytes.take size ∧
      readInto packet (sendPacket msg size saddr daddr sport dport)=
        (⟨sentIp size saddr daddr,sentUdp msg size saddr daddr sport dport,dhcp⟩,
          ((ipHdrSize+udpHdrSize+size : Nat) : Int)) := by
  have hlen : (sendPacket msg size saddr daddr sport dport).length=
      ipHdrSize+udpHdrSize+size := by
    rw [sendPacket_eq,List.length_append,List.length_append,IpHdr.bytes_length,
      UdpHdr.bytes_length,data_length msg size hsize]
  have hall : (sendPacket msg size saddr daddr sport dport).take packetSize=
      sendPacket msg size saddr daddr sport dport :=
    List.take_of_length_le (by rw [hlen,packetSize]; omega)
  have hdata := zeroFilled_take (msg.bytes.take size)
    (packet.bytes.drop (sendPacket msg size saddr daddr sport dport).length)
    (by rw [data_length msg size hsize]; exact hsize)
  rw [data_length msg size hsize] at hdata
  refine ⟨_,hdata,?_⟩
  rw [readInto,hall,hlen,sendPacket_eq,List.append_assoc _ (msg.bytes.take size),
    DhcpPacket.ofBytes_append]

theorem sent_totLen (size : Nat) (hsize : size≤dhcpMsgSize) (saddr daddr : Word) :
    (ntohs (sentIp size saddr daddr).totLen).toNat=ipHdrSize+udpHdrSize+size := by
  rw [show (sentIp size saddr daddr).totLen=
    htons (BitVec.ofNat 16 (ipHdrSize+udpHdrSize+size)) from rfl,ntohs_htons,BitVec.toNat_ofNat]
  simp only [dhcpMsgSize,ipHdrSize,udpHdrSize] at hsize ⊢
  omega

theorem sent_len (msg : DhcpMsg) (size : Nat) (hsize : size≤dhcpMsgSize)
    (saddr daddr sport dport : Word) :
    (ntohs (sentUdp msg size saddr daddr sport dport).len).toNat=udpHdrSize+size := by
  rw [show (sentUdp msg size saddr daddr sport dport).len=
    htons (BitVec.ofNat 16 (udpHdrSize+size)) from rfl,ntohs_htons,BitVec.toNat_ofNat]
  simp only [dhcpMsgSize,udpHdrSize] at hsize ⊢
  omega

theorem sent_isValid (msg dhcp : DhcpMsg) (size : Nat) (hsize : size≤dhcpMsgSize)
    (saddr daddr sport : Word) :
    isValidPacket ⟨sentIp size saddr daddr,
      sentUdp msg size saddr daddr sport portBootpClient,dhcp⟩
      ((ipHdrSize+udpHdrSize+size : Nat) : Int)=true := by
  have hdest : (sentUdp msg size saddr daddr sport portBootpClient).dest=
      htons (portBootpClient.setWidth 16) := rfl
  have hversion : (sentIp size saddr daddr).version=ipVersion := rfl
  have hihl : (sentIp size saddr daddr).ihl=BitVec.ofNat 4 (ipHdrSize/4) := rfl
  have hproto : (sentIp size saddr daddr).protocol=ipProtoUdp := rfl
  simp only [isValidPacket,hdest,hversion,hihl,hproto,sent_totLen size hsize]
  simp

/-- The sum both sides arrive at, and the check field that carries its complement. -/
theorem sent_sums (msg dhcp : DhcpMsg) (size : Nat) (saddr daddr sport dport : Word)
    (hdata : dhcp.bytes.take size=msg.bytes.take size) :
    ((sentUdp msg size saddr daddr sport dport).check.setWidth 32).toNat=
      65535-residue 65536 (wordSum (udpCovered msg size saddr daddr sport dport)) ∧
    (finishSum (checksum ((borrowed ⟨sentIp size saddr daddr,
      sentUdp msg size saddr daddr sport dport,dhcp⟩).bytes.take
        (ipHdrSize+udpHdrSize+size)) 0)).toNat=
      65535-residue 65536 (wordSum (udpCovered msg size saddr daddr sport dport)) := by
  have hlt : residue 65536 (wordSum (udpCovered msg size saddr daddr sport dport))<65536 :=
    residue_lt (by omega) _
  have hsend := sendUdpSum_toNat msg size saddr daddr sport dport
  have hborrowed := borrowed_wordSum (sentIp size saddr daddr) dhcp msg size saddr daddr sport
    dport (sentUdp msg size saddr daddr sport dport).check rfl rfl hdata
  have hbound := wordSum_udpCovered_lt msg size saddr daddr sport dport
  have hreceive := checksum_zero_toNat ((borrowed ⟨sentIp size saddr daddr,
      sentUdp msg size saddr daddr sport dport,dhcp⟩).bytes.take (ipHdrSize+udpHdrSize+size))
    (hborrowed ▸ hbound)
  have hreceive' := hreceive.trans (congrArg (residue 65536) hborrowed)
  constructor
  · have hfin := finishSum_toNat _ (hsend ▸ hlt)
    rw [hsend] at hfin
    rw [show (sentUdp msg size saddr daddr sport dport).check=(finishSum (sendUdpSum
      (sendUdp size sport dport) (msg.bytes.take size) saddr daddr)).setWidth 16 from rfl,
      BitVec.toNat_setWidth,BitVec.toNat_setWidth,hfin]
    omega
  · rw [finishSum_toNat _ (hreceive' ▸ hlt),hreceive']

theorem wordSum_udpCovered_pos (msg : DhcpMsg) (size : Nat) (saddr daddr sport dport : Word) :
    wordSum (udpCovered msg size saddr daddr sport dport)≠0 := by
  have hproto : (htons (ipProtoUdp.setWidth 16)).toNat=4352 := by decide
  rw [wordSum_udpCovered,wordSum_le16Bytes,hproto]
  omega

/-- The last test of receive_packet turns down the sum that became zero, and no other. -/
theorem sum_test (check sum : Word) (r : Nat) (hr : r<65536) (hc : check.toNat=65535-r)
    (hs : sum.toNat=65535-r) :
    check≠(if sum=0 then finishSum sum else sum) ↔ r=65535 := by
  have hsum : sum=check := BitVec.eq_of_toNat_eq (hs.trans hc.symm)
  by_cases h0 : sum=0
  · rw [if_pos h0,h0]
    have hr' : r=65535 := by
      rw [h0,show (0 : Word).toNat=0 from rfl] at hs
      omega
    rw [← hsum,h0]
    exact ⟨fun _ => hr',fun _ => by decide⟩
  · rw [if_neg h0]
    refine ⟨fun hne => absurd hsum.symm hne,fun h => ?_⟩
    rw [h] at hs
    exact absurd (BitVec.eq_of_toNat_eq hs) h0

theorem receiveFrom_sent (packet : DhcpPacket) (target msg : DhcpMsg) (size : Nat)
    (hsize : size≤dhcpMsgSize) (saddr daddr sport : Word) :
    ∃ dhcp : DhcpMsg,dhcp.bytes.take size=msg.bytes.take size ∧
      receiveFrom packet (sendPacket msg size saddr daddr sport portBootpClient) target=
        if wordSum (udpCovered msg size saddr daddr sport portBootpClient)%65535=0 then
          some (-1,target.bytes)
        else (copyTo target.bytes 0 dhcp.bytes size).map ((size : Int),·) := by
  obtain ⟨dhcp,hdata,hread⟩ :=
    readInto_sent packet msg size hsize saddr daddr sport portBootpClient
  obtain ⟨hcheck,hsum⟩ := sent_sums msg dhcp size saddr daddr sport portBootpClient hdata
  have htest := sum_test _ _ _ (residue_lt (by omega) _) hcheck hsum
  have htop := residue_eq_top (show 2≤65536 by omega)
    (wordSum (udpCovered msg size saddr daddr sport portBootpClient))
  have hip : finishSum (checksum (sentIp size saddr daddr).bytes 0)=0 :=
    sendIp_accepted size saddr daddr _ rfl
  refine ⟨dhcp,hdata,?_⟩
  rw [receiveFrom,hread,receivePacket,if_neg (by omega),sent_isValid msg dhcp size hsize]
  simp only [Bool.not_true,Bool.false_eq_true,if_false,hip,ne_eq,not_true_eq_false,
    sent_totLen size hsize,sent_len msg size hsize]
  by_cases hzero : wordSum (udpCovered msg size saddr daddr sport portBootpClient)%65535=0
  · rw [if_pos (htest.mpr (htop.mpr ⟨wordSum_udpCovered_pos _ _ _ _ _ _,hzero⟩)),if_pos hzero]
  · rw [if_neg (fun h => hzero (htop.mp (htest.mp h)).2),if_neg hzero,if_neg (by omega)]
    rw [show ((udpHdrSize+size : Nat) : Int)-(udpHdrSize : Int)=(size : Int) by omega,
      Int.toNat_natCast]

/-- A sent packet arrives exactly when the sum its UDP checksum is made of is no multiple of
65535; otherwise the sender writes a zero checksum where the receiver wants all ones. -/
theorem packet_codec_agrees_iff (packet : DhcpPacket) (target msg : DhcpMsg) (size : Nat)
    (hsize : size≤dhcpMsgSize) (saddr daddr sport : Word) :
    (∃ out,receiveFrom packet (sendPacket msg size saddr daddr sport portBootpClient) target=
        some ((size : Int),out) ∧ out.take size=msg.bytes.take size) ↔
      wordSum (udpCovered msg size saddr daddr sport portBootpClient)%65535≠0 := by
  obtain ⟨dhcp,hdata,hreceive⟩ :=
    receiveFrom_sent packet target msg size hsize saddr daddr sport
  rw [hreceive]
  constructor
  · intro hgiven hzero
    obtain ⟨out,hout,-⟩ := hgiven
    rw [if_pos hzero,Option.some_inj,Prod.mk.injEq] at hout
    omega
  · intro hne
    have hlen : (dhcp.bytes.take size).length=size := data_length dhcp size hsize
    have hcopy : copyTo target.bytes 0 dhcp.bytes size=
        some (splice target.bytes 0 (dhcp.bytes.take size)) :=
      if_pos ⟨by rw [target.size]; omega,by rw [dhcp.size]; exact hsize⟩
    have htake := splice_take target.bytes (dhcp.bytes.take size) 0 (Nat.zero_le _)
    rw [hlen,Nat.zero_add,List.take_zero,List.nil_append,hdata] at htake
    rw [if_neg hne,hcopy]
    exact ⟨_,rfl,hdata ▸ htake⟩

/-- Three bytes from a server to the broadcast address arrive. -/
theorem packet_codec_agrees_three :
    ∃ out,receiveFrom (DhcpPacket.ofBytes [])
        (sendPacket (DhcpMsg.zeroFilled [1,2,3]) 3 0 0xffffffff 67 portBootpClient)
        (DhcpMsg.zeroFilled [])=some (3,out) ∧ out.take 3=[1,2,3] :=
  (packet_codec_agrees_iff (DhcpPacket.ofBytes []) (DhcpMsg.zeroFilled [])
    (DhcpMsg.zeroFilled [1,2,3]) 3 (by decide) 0 0xffffffff 67).mpr (by decide)

/-- Two bytes that make the sum all ones are turned down. -/
theorem packet_codec_rejects_zero_sum :
    receiveFrom (DhcpPacket.ofBytes [])
      (sendPacket (DhcpMsg.zeroFilled [0xff,0x53]) 2 0 0xffffffff 67 portBootpClient)
      (DhcpMsg.zeroFilled [])=some (-1,(DhcpMsg.zeroFilled []).bytes) := by
  decide +kernel

end IdearNiu.Dhcpc
