import IdearNiu.Framework.Memory
import IdearNiu.Dhcpc.Message

namespace IdearNiu.Dhcpc

open Memory

abbrev Half := BitVec 16

/-- A uint16_t from the bytes a little-endian host keeps it in. -/
def le16 (a b : Byte) : Half := b++a

def le16Bytes (h : Half) : List Byte := [h.extractLsb' 0 8,h.extractLsb' 8 8]

/-- Byte order reversal of a 16-bit word. -/
def htons (h : Half) : Half := le16 (h.extractLsb' 8 8) (h.extractLsb' 0 8)

def ntohs (h : Half) : Half := htons h

/-- The words of a buffer, an odd last byte alone. -/
def sumLoop : List Byte → Word → Word
  | a::b::rest,sum => sumLoop rest (sum+(le16 a b).setWidth 32)
  | [a],sum => sum+a.setWidth 32
  | [],sum => sum

/-- The carries go back in; after two turns none is left. -/
def foldLoop : Nat → Word → Word
  | 0,sum => sum
  | fuel+1,sum =>
    if sum>>>16≠0 then foldLoop fuel ((sum&&&(0xffff : Word))+(sum>>>16)) else sum

/-- The sum over a whole buffer; a call on fewer bytes passes those bytes. -/
def checksum (buffer : List Byte) (startsum : Word) : Word := foldLoop 2 (sumLoop buffer startsum)

def finishSum (sum : Word) : Word := ~~~sum&&&0xffff

/-- struct iphdr without options. -/
@[ext] structure IpHdr where
  version : BitVec 4
  ihl : BitVec 4
  tos : Byte
  totLen : Half
  id : Half
  fragOff : Half
  ttl : Byte
  protocol : Byte
  check : Half
  saddr : Word
  daddr : Word

@[ext] structure UdpHdr where
  source : Half
  dest : Half
  len : Half
  check : Half

def IpHdr.bytes (h : IpHdr) : List Byte :=
  [h.version++h.ihl,h.tos]++le16Bytes h.totLen++le16Bytes h.id++le16Bytes h.fragOff++
    [h.ttl,h.protocol]++le16Bytes h.check++le32Bytes h.saddr++le32Bytes h.daddr

def UdpHdr.bytes (h : UdpHdr) : List Byte :=
  le16Bytes h.source++le16Bytes h.dest++le16Bytes h.len++le16Bytes h.check

def halfAt (l : List Byte) (i : Nat) : Half := le16 (l.getD i 0) (l.getD (i+1) 0)

def IpHdr.ofBytes (l : List Byte) : IpHdr where
  version := (l.getD 0 0).extractLsb' 4 4
  ihl := (l.getD 0 0).extractLsb' 0 4
  tos := l.getD 1 0
  totLen := halfAt l 2
  id := halfAt l 4
  fragOff := halfAt l 6
  ttl := l.getD 8 0
  protocol := l.getD 9 0
  check := halfAt l 10
  saddr := readWord (l.drop 12)
  daddr := readWord (l.drop 16)

def UdpHdr.ofBytes (l : List Byte) : UdpHdr where
  source := halfAt l 0
  dest := halfAt l 2
  len := halfAt l 4
  check := halfAt l 6

def ipHdrSize : Nat := 20

def udpHdrSize : Nat := 8

def ipVersion : BitVec 4 := 4

def ipDefTtl : Byte := 64

def ipProtoUdp : Byte := 17

def portBootpClient : Word := 68

/-- The header of send_packet before its checksum is filled in. -/
def sendIp (size : Nat) (saddr daddr : Word) : IpHdr where
  version := ipVersion
  ihl := BitVec.ofNat 4 (ipHdrSize/4)
  tos := 0
  totLen := htons (BitVec.ofNat 16 (ipHdrSize+udpHdrSize+size))
  id := 0
  fragOff := 0
  ttl := ipDefTtl
  protocol := ipProtoUdp
  check := 0
  saddr := saddr
  daddr := daddr

def sendUdp (size : Nat) (sport dport : Word) : UdpHdr where
  source := htons (sport.setWidth 16)
  dest := htons (dport.setWidth 16)
  len := htons (BitVec.ofNat 16 (udpHdrSize+size))
  check := 0

/-- The sum over the pseudo header, the udp header and the data, piece by piece. -/
def sendUdpSum (udp : UdpHdr) (data : List Byte) (saddr daddr : Word) : Word :=
  let udpsum := checksum (le32Bytes saddr) 0
  let udpsum := checksum (le32Bytes daddr) udpsum
  let udpsum := checksum (le16Bytes (htons (ipProtoUdp.setWidth 16))) udpsum
  let udpsum := checksum (le16Bytes udp.len) udpsum
  let udpsum := checksum udp.bytes udpsum
  checksum data udpsum

/-- The bytes of the three iovecs that send_packet hands to sendmsg. -/
def sendPacket (msg : DhcpMsg) (size : Nat) (saddr daddr sport dport : Word) : List Byte :=
  let ip := sendIp size saddr daddr
  let ip := { ip with check := (finishSum (checksum ip.bytes 0)).setWidth 16 }
  let udp := sendUdp size sport dport
  let udpsum := sendUdpSum udp (msg.bytes.take size) saddr daddr
  let udp := { udp with check := (finishSum udpsum).setWidth 16 }
  ip.bytes++udp.bytes++msg.bytes.take size

/-- The struct dhcp_packet on the stack of receive_packet. -/
structure DhcpPacket where
  ip : IpHdr
  udp : UdpHdr
  dhcp : DhcpMsg

def DhcpPacket.bytes (p : DhcpPacket) : List Byte := p.ip.bytes++p.udp.bytes++p.dhcp.bytes

/-- The struct over a block of its size. -/
def DhcpPacket.ofBytes (l : List Byte) : DhcpPacket where
  ip := IpHdr.ofBytes l
  udp := UdpHdr.ofBytes (l.drop ipHdrSize)
  dhcp := DhcpMsg.zeroFilled (l.drop (ipHdrSize+udpHdrSize))

/-- sizeof (struct dhcp_packet). -/
def packetSize : Nat := ipHdrSize+udpHdrSize+dhcpMsgSize

/-- read: the packet holds what came, as far as it fits, and past that what it held before. -/
def readInto (packet : DhcpPacket) (data : List Byte) : DhcpPacket × Int :=
  let got := data.take packetSize
  (DhcpPacket.ofBytes (got++packet.bytes.drop got.length),got.length)

def isValidPacket (packet : DhcpPacket) (nread : Int) : Bool :=
  !(nread < ipHdrSize+udpHdrSize) &&
  !(packet.ip.version≠ipVersion || packet.ip.ihl≠BitVec.ofNat 4 (ipHdrSize/4)) &&
  !(nread<(ntohs packet.ip.totLen).toNat) &&
  !(packet.ip.protocol≠ipProtoUdp) &&
  !(packet.udp.dest≠htons (portBootpClient.setWidth 16))

/-- The packet with the ip header turned into the pseudo header. -/
def borrowed (packet : DhcpPacket) : DhcpPacket where
  ip := ⟨0,0,0,packet.udp.len,0,0,0,ipProtoUdp,0,packet.ip.saddr,packet.ip.daddr⟩
  udp := { packet.udp with check := 0 }
  dhcp := packet.dhcp

/-- What receive_packet returns and the content of msg after it; none when its memcpy leaves a
struct. -/
def receivePacket (packet : DhcpPacket) (nread : Int) (msg : DhcpMsg) :
    Option (Int × List Byte) :=
  if nread<0 then some (-1,msg.bytes)
  else if !isValidPacket packet nread then some (-1,msg.bytes)
  else if finishSum (checksum packet.ip.bytes 0)≠0 then some (-1,msg.bytes)
  else
    let dhcpSize : Int := (ntohs packet.udp.len).toNat-udpHdrSize
    let nread := (ntohs packet.ip.totLen).toNat
    let sum := finishSum (checksum ((borrowed packet).bytes.take nread) 0)
    let sum := if sum=0 then finishSum sum else sum
    if packet.udp.check.setWidth 32≠sum then some (-1,msg.bytes)
    -- a negative size becomes a huge one in memcpy
    else if dhcpSize<0 then none
    else (copyTo msg.bytes 0 packet.dhcp.bytes dhcpSize.toNat).map (dhcpSize,·)

/-- receive_packet on what the socket delivers next. -/
def receiveFrom (packet : DhcpPacket) (data : List Byte) (msg : DhcpMsg) :
    Option (Int × List Byte) :=
  receivePacket (readInto packet data).1 (readInto packet data).2 msg

end IdearNiu.Dhcpc
