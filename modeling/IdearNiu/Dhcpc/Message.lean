import Mathlib.Tactic

namespace IdearNiu.Dhcpc

abbrev Byte := BitVec 8

abbrev Word := BitVec 32

/-- sizeof (struct dhcp_msg). -/
def dhcpMsgSize : Nat := 1260

/-- DHCP_MSG_FIXED_SIZE, the offset of the options. -/
def fixedSize : Nat := 236

/-- A struct dhcp_msg as the bytes it occupies; the fields follow one another without
padding, multi-byte fields in the order of a little-endian host. -/
structure DhcpMsg where
  bytes : List Byte
  size : bytes.length=dhcpMsgSize

def le32 (a b c d : Byte) : Word := d++c++b++a

def le32Bytes (w : Word) : List Byte :=
  [w.extractLsb' 0 8,w.extractLsb' 8 8,w.extractLsb' 16 8,w.extractLsb' 24 8]

/-- Byte order reversal of a 32-bit word. -/
def ntohl (w : Word) : Word :=
  le32 (w.extractLsb' 24 8) (w.extractLsb' 16 8) (w.extractLsb' 8 8) (w.extractLsb' 0 8)

namespace DhcpMsg

def byteAt (m : DhcpMsg) (i : Nat) : Byte := m.bytes.getD i 0

def wordAt (m : DhcpMsg) (i : Nat) : Word :=
  le32 (m.byteAt i) (m.byteAt (i+1)) (m.byteAt (i+2)) (m.byteAt (i+3))

def op (m : DhcpMsg) : Byte := m.byteAt 0

def htype (m : DhcpMsg) : Byte := m.byteAt 1

def hlen (m : DhcpMsg) : Byte := m.byteAt 2

def xid (m : DhcpMsg) : Word := m.wordAt 4

def yiaddr (m : DhcpMsg) : Word := m.wordAt 16

/-- The bytes from chaddr on; memcmp may run past its sixteen bytes. -/
def chaddr (m : DhcpMsg) : List Byte := m.bytes.drop 28

def options (m : DhcpMsg) : List Byte := m.bytes.drop fixedSize

/-- Memory cleared by memset and then written from its start. -/
def zeroFilled (l : List Byte) : DhcpMsg where
  bytes := (l++List.replicate dhcpMsgSize 0).take dhcpMsgSize
  size := by simp

end DhcpMsg

/-- DHCP message types, as option 53 carries them. -/
def dhcpDiscover : Byte := 1
def dhcpOffer : Word := 2
def dhcpRequest : Byte := 3
def dhcpAck : Word := 5
def dhcpNak : Word := 6

def opBootRequest : Byte := 1
def opBootReply : Byte := 2
def htypeEther : Byte := 1

def optPad : Byte := 0
def optSubnetMask : Byte := 1
def optGateway : Byte := 3
def optDns : Byte := 6
def optBroadcastAddr : Byte := 28
def optRequestedIp : Byte := 50
def optLeaseTime : Byte := 51
def optMessageType : Byte := 53
def optServerId : Byte := 54
def optParameterList : Byte := 55
def optEnd : Byte := 255

/-- The four bytes that mark the options as DHCP options. -/
def optCookie : List Byte := [0x63,0x82,0x53,0x63]

/-- The message up to and including its type option, in memory order. -/
def initDhcpMsg (type : Byte) (hwaddr : Vector Byte 6) (xid : Word) : List Byte :=
  [opBootRequest,htypeEther,6,0]++le32Bytes xid++[0,0]++[0x80,0]++
    List.replicate 16 0++hwaddr.toList++List.replicate 10 0++
    List.replicate 64 0++List.replicate 128 0++
    optCookie++[optMessageType,1,type]

def parameterList : List Byte :=
  [optParameterList,4,optSubnetMask,optGateway,optDns,optBroadcastAddr]

/-- The message and its size. -/
def initDhcpDiscoverMsg (hwaddr : Vector Byte 6) (xid : Word) : DhcpMsg × Nat :=
  let l := initDhcpMsg dhcpDiscover hwaddr xid++parameterList++[optEnd]
  (DhcpMsg.zeroFilled l,l.length)

def initDhcpRequestMsg (hwaddr : Vector Byte 6) (xid ipaddr serveraddr : Word) :
    DhcpMsg × Nat :=
  let l := initDhcpMsg dhcpRequest hwaddr xid++parameterList++
    [optRequestedIp,4]++le32Bytes ipaddr++
    [optServerId,4]++le32Bytes serveraddr++[optEnd]
  (DhcpMsg.zeroFilled l,l.length)

structure DhcpInfo where
  type : Word
  ipaddr : Word
  gateway : Word
  prefixLength : Word
  dns1 : Word
  dns2 : Word
  serveraddr : Word
  lease : Word
  deriving DecidableEq, Repr

def DhcpInfo.zero : DhcpInfo := ⟨0,0,0,0,0,0,0,0⟩

/-- The shifting loop of ipv4NetmaskToPrefixLength, at most once for each bit. -/
def prefixLoop : Nat → Word → Word → Word
  | 0,_,len => len
  | fuel+1,m,len =>
      if m&&&0x80000000≠0 then prefixLoop fuel (m<<<1) (len+1) else len

def ipv4NetmaskToPrefixLength (mask : Word) : Word := prefixLoop 32 (ntohl mask) 0

/-- memcpy of four bytes into a uint32_t. -/
def readWord (x : List Byte) : Word := le32 (x.getD 0 0) (x.getD 1 0) (x.getD 2 0) (x.getD 3 0)

/-- The switch over an option whose body starts at x. -/
def decodeOption (opt : Byte) (optlen : Nat) (x : List Byte) (info : DhcpInfo) : DhcpInfo :=
  if opt=optSubnetMask then
    if optlen≥4 then { info with prefixLength := ipv4NetmaskToPrefixLength (readWord x) }
    else info
  else if opt=optGateway then
    if optlen≥4 then { info with gateway := readWord x } else info
  else if opt=optDns then
    let info := if optlen≥4 then { info with dns1 := readWord x } else info
    if optlen≥8 then { info with dns2 := readWord (x.drop 4) } else info
  else if opt=optLeaseTime then
    if optlen≥4 then { info with lease := ntohl (readWord x) } else info
  else if opt=optServerId then
    if optlen≥4 then { info with serveraddr := readWord x } else info
  else if opt=optMessageType then { info with type := (x.getD 0 0).setWidth 32 }
  else info

/-- The option walk; every turn takes at least one byte off len. -/
def decodeOptions : Nat → List Byte → Nat → DhcpInfo → DhcpInfo
  | 0,_,_,info => info
  | fuel+1,x,len,info =>
      if len>2 then
        let opt := x.getD 0 0
        if opt=optPad then decodeOptions fuel (x.drop 1) (len-1) info
        else if opt=optEnd then info
        else
          let optlen := (x.getD 1 0).toNat
          if optlen>len-2 then info
          else decodeOptions fuel (x.drop (2+optlen)) (len-2-optlen)
            (decodeOption opt optlen (x.drop 2) info)
      else info

/-- The return value and the dhcp_info left behind, cleared when decoding fails. -/
def decodeDhcpMsg (msg : DhcpMsg) (len : Nat) : Int × DhcpInfo :=
  if len<fixedSize+4 then (-1,DhcpInfo.zero)
  else if msg.options.take 4≠optCookie then (-1,DhcpInfo.zero)
  else
    let info := decodeOptions (len-(fixedSize+4)) (msg.options.drop 4)
      (len-(fixedSize+4)) DhcpInfo.zero
    (0,{ info with ipaddr := msg.yiaddr })

def isValidReply (msg reply : DhcpMsg) (sz : Nat) : Bool :=
  if sz<fixedSize then false
  else if reply.op≠opBootReply then false
  else if reply.xid≠msg.xid then false
  else if reply.htype≠msg.htype then false
  else if reply.hlen≠msg.hlen then false
  else if msg.chaddr.take msg.hlen.toNat≠reply.chaddr.take msg.hlen.toNat then false
  else true

/-- A message that cannot be decoded leaves everything zero. -/
theorem decodeDhcpMsg_failed (msg : DhcpMsg) (len : Nat) (h : (decodeDhcpMsg msg len).1≠0) :
    (decodeDhcpMsg msg len).2=DhcpInfo.zero := by
  rw [decodeDhcpMsg] at h ⊢
  split_ifs at h ⊢
  · rfl
  · rfl
  · exact absurd rfl h

theorem DhcpMsg.byteAt_zeroFilled (l : List Byte) (i : Nat) (hl : l.length≤dhcpMsgSize) :
    (DhcpMsg.zeroFilled l).byteAt i=l.getD i 0 := by
  rw [DhcpMsg.byteAt,DhcpMsg.zeroFilled]
  simp only [List.getD,List.getElem?_take]
  by_cases hi : i<l.length
  · rw [if_pos (by omega),List.getElem?_append_left hi]
  · have hn : l[i]?=none := List.getElem?_eq_none (by omega)
    rw [List.getElem?_append_right (by omega),hn]
    split_ifs
    · simp only [List.getElem?_replicate]
      split_ifs <;> rfl
    · rfl

theorem initDhcpMsg_length (type : Byte) (hwaddr : Vector Byte 6) (xid : Word) :
    (initDhcpMsg type hwaddr xid).length=243 := by
  simp only [initDhcpMsg,le32Bytes,optCookie,List.length_append,List.length_replicate,
    List.length_cons,List.length_nil,Vector.length_toList]

theorem le32_le32Bytes (w : Word) :
    le32 (w.extractLsb' 0 8) (w.extractLsb' 8 8) (w.extractLsb' 16 8)
      (w.extractLsb' 24 8)=w := by
  apply BitVec.eq_of_getLsbD_eq
  intro i hi
  simp only [le32,BitVec.getLsbD_append,BitVec.getLsbD_extractLsb']
  by_cases h1 : i<8
  · simp [h1]
  by_cases h2 : i<16
  · simp [h1,show i-8<8 by omega,show 8+(i-8)=i by omega]
  by_cases h3 : i<24
  · simp [h1,show ¬i-8<8 by omega,show i-8-8<8 by omega,show 16+(i-8-8)=i by omega]
  · simp [h1,show ¬i-8<8 by omega,show ¬i-8-8<8 by omega,show i-8-8-8<8 by omega,
      show 24+(i-8-8-8)=i by omega]

/-- The address and the server a request carries, at the offsets of its options. -/
theorem initDhcpRequestMsg_carries (hwaddr : Vector Byte 6) (xid ipaddr serveraddr : Word) :
    (initDhcpRequestMsg hwaddr xid ipaddr serveraddr).1.wordAt 251=ipaddr ∧
    (initDhcpRequestMsg hwaddr xid ipaddr serveraddr).1.wordAt 257=serveraddr := by
  have hlen := initDhcpMsg_length dhcpRequest hwaddr xid
  have hat (i : Nat) (hi : 243 ≤ i) :
      (initDhcpRequestMsg hwaddr xid ipaddr serveraddr).1.byteAt i=
        (parameterList++[optRequestedIp,4]++le32Bytes ipaddr++
          [optServerId,4]++le32Bytes serveraddr++[optEnd]).getD (i-243) 0 := by
    rw [initDhcpRequestMsg]
    rw [DhcpMsg.byteAt_zeroFilled _ _ (by simp [hlen,parameterList,le32Bytes,dhcpMsgSize])]
    simp only [List.append_assoc,List.getD]
    rw [List.getElem?_append_right (by omega),hlen]
  constructor
  · rw [DhcpMsg.wordAt]
    rw [hat 251 (by omega),hat (251+1) (by omega),hat (251+2) (by omega),hat (251+3) (by omega)]
    exact le32_le32Bytes ipaddr
  · rw [DhcpMsg.wordAt]
    rw [hat 257 (by omega),hat (257+1) (by omega),hat (257+2) (by omega),hat (257+3) (by omega)]
    exact le32_le32Bytes serveraddr

end IdearNiu.Dhcpc
