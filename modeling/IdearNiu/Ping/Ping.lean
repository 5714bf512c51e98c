import IdearNiu.Dhcpc.Packet
import IdearNiu.Framework.BitTable

namespace IdearNiu.Ping

open BitTable
open Dhcpc (Byte Half Word le16 le16Bytes le32Bytes htons ntohs halfAt readWord)

def maxDupChk : Nat := 8*128

def icmpMinlen : Word := 8

def icmpEchoReply : Byte := 0

def icmpEcho : Byte := 8

/-- The fields of struct ping_struct that the functions below use. -/
structure Globals where
  datalen : Word
  ntransmitted : BitVec 64
  nreceived : BitVec 64
  nrepeats : BitVec 64
  myid : Half
  pattern : Byte
  tmin : Word
  tmax : Word
  tsum : BitVec 64
  hostname : String
  dotted : String
  rcvdTbl : Table

/-- The zeroed globals after ping_init. -/
def pingInit (pid : Nat) : Globals where
  datalen := 56
  ntransmitted := 0
  nreceived := 0
  nrepeats := 0
  myid := BitVec.ofNat 16 pid
  pattern := 0
  tmin := 0xffffffff
  tmax := 0
  tsum := 0
  hostname := "test-api-cnca.midea.com"
  dotted := "47.96.39.195"
  rcvdTbl := fun _ => 0

/-- `u.c[sizeof(long) - 1] == 1` of a long 1, with the bytes as this host keeps them. -/
def littleEndian : Bool :=
  ((List.range 8).map (fun i => (1 : BitVec 64).extractLsb' (8*i) 8)).getD 7 0==1

def cksumLoop : List Byte → Word → Word
  | a::b::rest,sum => cksumLoop rest (sum+(le16 a b).setWidth 32)
  | [a],sum => if littleEndian then sum+a.setWidth 32 else sum+(a.setWidth 32<<<8)
  | [],sum => sum

def inetCksum (addr : List Byte) : Half :=
  let sum := cksumLoop addr 0
  let sum := (sum>>>16)+(sum&&&0xffff)
  let sum := sum+(sum>>>16)
  (~~~sum).setWidth 16

/-- The echo request with the given checksum, and the four bytes behind it. -/
def echoPacket (g : Globals) (cksum : Half) (now : BitVec 64) : List Byte :=
  [icmpEcho,g.pattern]++le16Bytes cksum++le16Bytes g.myid++
    le16Bytes (htons (g.ntransmitted.setWidth 16))++le32Bytes (now.setWidth 32)++
    List.replicate g.datalen.toNat g.pattern

/-- The globals after the request and the bytes sent; now is the time in microseconds. -/
def sendping4 (g : Globals) (now : BitVec 64) : Globals × List Byte :=
  let size := (g.datalen+icmpMinlen).toNat
  let cksum := inetCksum ((echoPacket g 0 now).take size)
  let slot := (g.ntransmitted.setWidth 16).toNat%maxDupChk
  ({g with rcvdTbl := clearBit g.rcvdTbl slot, ntransmitted := g.ntransmitted+1},
    (echoPacket g cksum now).take size)

/-- The line printed for a reply. -/
structure Line where
  sz : Word
  fromStr : String
  recvSeq : Half
  ttl : Byte
  triptime : Option Word
  dup : Bool

/-- tp is the time stamp in the reply when it is long enough to hold one. -/
def unpackTail (g : Globals) (sz : Word) (tp : Option Word) (fromStr : String)
    (recvSeq : Half) (ttl : Byte) (now : BitVec 64) : Globals × Line :=
  let triptime := tp.map (fun stamp => now.setWidth 32-stamp)
  let g := match triptime with
    | none => g
    | some t => {g with
        tsum := g.tsum+t.setWidth 64
        tmin := if t<g.tmin then t else g.tmin
        tmax := if g.tmax<t then t else g.tmax}
  let slot := recvSeq.toNat%maxDupChk
  let dup := testBit g.rcvdTbl slot
  let g := if dup then {g with nrepeats := g.nrepeats+1}
    else {g with rcvdTbl := setBit g.rcvdTbl slot, nreceived := g.nreceived+1}
  (g,⟨sz,fromStr,recvSeq,ttl,triptime,dup⟩)

/-- What becomes of a received packet. -/
inductive Received where
  | discarded
  | reply (line : Line)
  | warned (type : Byte)

/-- sz is the int that recvfrom returned, compared as unsigned; buf is the receive buffer. -/
def unpack4 (g : Globals) (buf : List Byte) (sz : Word) (now : BitVec 64) :
    Globals × Received :=
  if sz<g.datalen+icmpMinlen then (g,.discarded)
  else
    let hlen := ((buf.getD 0 0)&&&0x0f).toNat<<<2
    let sz := sz-BitVec.ofNat 32 hlen
    let icmp := buf.drop hlen
    if halfAt icmp 4≠g.myid then (g,.discarded)
    else if icmp.getD 0 0=icmpEchoReply then
      let recvSeq := ntohs (halfAt icmp 6)
      let tp := if (12 : BitVec 64) ≤ sz.signExtend 64 then some (readWord (icmp.drop 8)) else none
      let (g,line) := unpackTail g sz tp g.dotted recvSeq (buf.getD 8 0) now
      (g,.reply line)
    else if icmp.getD 0 0≠icmpEcho then (g,.warned (icmp.getD 0 0))
    else (g,.discarded)

/-- What print_stats_and_exit prints, and the exit status. -/
structure Printed where
  hostname : String
  transmitted : BitVec 64
  received : BitVec 64
  duplicates : Option (BitVec 64)
  loss : BitVec 64
  times : Option (Word × Word × Word)
  exit : Nat

/-- none is the trap of a division by zero. -/
def printStatsAndExit (g : Globals) : Option Printed :=
  let nrecv := g.nreceived
  let ul := g.ntransmitted
  let loss := if ul≠0 then (ul-nrecv)*100/ul else ul
  let printed := fun times => Printed.mk g.hostname g.ntransmitted nrecv
    (if g.nrepeats≠0 then some g.nrepeats else none) loss times (if nrecv=0 then 1 else 0)
  if g.tmin≠0xffffffff then
    if nrecv+g.nrepeats=0 then none
    else some (printed (some (g.tmin,(g.tsum/(nrecv+g.nrepeats)).setWidth 32,g.tmax)))
  else some (printed none)

inductive Step where
  | send (now : BitVec 64)
  | receive (buf : List Byte) (sz : Word) (now : BitVec 64)

def step (g : Globals) : Step → Globals
  | .send now => (sendping4 g now).1
  | .receive buf sz now => (unpack4 g buf sz now).1

def run (g : Globals) (steps : List Step) : Globals := steps.foldl step g

end IdearNiu.Ping
