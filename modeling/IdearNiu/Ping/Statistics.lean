import IdearNiu.Ping.Ping

namespace IdearNiu.Ping

open BitTable
open Dhcpc (Byte Half Word halfAt ntohs)

/-- The sequence number of a packet that counts as a reply. -/
def replySeq (g : Globals) (buf : List Byte) (sz : Word) : Option Half :=
  let icmp := buf.drop (((buf.getD 0 0)&&&0x0f).toNat<<<2)
  if ¬sz<g.datalen+icmpMinlen ∧ halfAt icmp 4=g.myid ∧ icmp.getD 0 0=icmpEchoReply then
    some (ntohs (halfAt icmp 6))
  else none

/-- A reply is counted as new or as a repeat by the bit of its sequence number. -/
def count (g : Globals) (recvSeq : Half) : Globals :=
  if testBit g.rcvdTbl (recvSeq.toNat%maxDupChk) then {g with nrepeats := g.nrepeats+1}
  else {g with
    rcvdTbl := setBit g.rcvdTbl (recvSeq.toNat%maxDupChk)
    nreceived := g.nreceived+1}

theorem step_send (g : Globals) (now : BitVec 64) :
    step g (.send now)={g with
      rcvdTbl := clearBit g.rcvdTbl (g.ntransmitted.toNat%maxDupChk)
      ntransmitted := g.ntransmitted+1} := by
  have hslot : (g.ntransmitted.setWidth 16).toNat%maxDupChk=g.ntransmitted.toNat%maxDupChk := by
    rw [BitVec.toNat_setWidth,maxDupChk]
    omega
  rw [step,sendping4,hslot]

theorem unpackTail_count (g : Globals) (sz : Word) (tp : Option Word) (fromStr : String)
    (recvSeq : Half) (ttl : Byte) (now : BitVec 64) :
    ∃ tmin tmax tsum, (unpackTail g sz tp fromStr recvSeq ttl now).1=
      count {g with tmin := tmin, tmax := tmax, tsum := tsum} recvSeq := by
  cases tp with
  | none => exact ⟨g.tmin,g.tmax,g.tsum,rfl⟩
  | some stamp => exact ⟨_,_,_,rfl⟩

/-- A packet that is no reply changes nothing; a reply changes the times and is counted. -/
theorem step_receive (g : Globals) (buf : List Byte) (sz : Word) (now : BitVec 64) :
    (replySeq g buf sz=none ∧ step g (.receive buf sz now)=g) ∨
    ∃ recvSeq tmin tmax tsum, replySeq g buf sz=some recvSeq ∧
      step g (.receive buf sz now)=
        count {g with tmin := tmin, tmax := tmax, tsum := tsum} recvSeq := by
  rw [step,unpack4,replySeq]
  by_cases hsz : sz<g.datalen+icmpMinlen
  · left
    simp [hsz]
  by_cases hid : halfAt (buf.drop (((buf.getD 0 0)&&&0x0f).toNat<<<2)) 4=g.myid
  · by_cases ht : (buf.drop (((buf.getD 0 0)&&&0x0f).toNat<<<2)).getD 0 0=icmpEchoReply
    · right
      simp only [hsz,hid,ht,not_false_eq_true,and_true,if_false,ne_eq,if_true,
        not_true_eq_false]
      obtain ⟨tmin,tmax,tsum,he⟩ := unpackTail_count g _ _ _ _ _ _
      exact ⟨_,tmin,tmax,tsum,rfl,he⟩
    · left
      simp only [hsz,hid,ht,not_false_eq_true,true_and,and_false,if_false,ne_eq,
        not_true_eq_false]
      split_ifs <;> rfl
  · left
    simp only [hsz,hid,not_false_eq_true,true_and,false_and,if_false,ne_eq,if_true]

/-- The slots that have been sent to and whose last request has no reply yet. -/
def openSlots (g : Globals) : Finset Nat :=
  (Finset.range maxDupChk).filter
    (fun j => testBit g.rcvdTbl j=false ∧ j<g.ntransmitted.toNat)

/-- What a run keeps: every counted reply and every open slot is paid for by a request, the
counters have not wrapped, and a time stands for at least one reply. -/
structure Inv (g : Globals) : Prop where
  sent : g.ntransmitted.toNat≤(2^64-1)/100
  credit : g.nreceived.toNat+(openSlots g).card≤g.ntransmitted.toNat
  replies : g.nreceived.toNat+g.nrepeats.toNat<2^64
  timed : g.tmin≠0xffffffff → 0<g.nreceived.toNat+g.nrepeats.toNat

/-- A request is sent before the counter nears its end; a reply comes in a slot that a
request has been sent to. -/
def Solicited (g : Globals) : Step → Prop
  | .send _ => g.ntransmitted.toNat<(2^64-1)/100
  | .receive buf sz _ => ∀ recvSeq, replySeq g buf sz=some recvSeq →
      recvSeq.toNat%maxDupChk<g.ntransmitted.toNat ∧
      g.nreceived.toNat+g.nrepeats.toNat+1<2^64

theorem toNat_succ (x : BitVec 64) (h : x.toNat+1<2^64) : (x+1).toNat=x.toNat+1 := by
  have hone : (1 : BitVec 64).toNat=1 := rfl
  rw [BitVec.toNat_add,hone]
  omega

theorem inv_pingInit (pid : Nat) : Inv (pingInit pid) := by
  have hzero : (0 : BitVec 64).toNat+(0 : BitVec 64).toNat<2^64 := by decide
  refine ⟨Nat.zero_le _,?_,hzero,fun h => absurd rfl h⟩
  have hempty : openSlots (pingInit pid)=∅ := by
    apply Finset.filter_eq_empty_iff.mpr
    intro j _ h
    exact absurd h.2 (Nat.not_lt_zero j)
  rw [hempty]
  exact le_refl 0

/-- A request opens at most the slot it is sent in. -/
theorem openSlots_send (g : Globals) (now : BitVec 64) (h : g.ntransmitted.toNat+1<2^64) :
    (openSlots (step g (.send now))).card≤(openSlots g).card+1 := by
  have hsub : openSlots (step g (.send now))⊆
      insert (g.ntransmitted.toNat%maxDupChk) (openSlots g) := by
    intro j hj
    simp only [openSlots,step_send,Finset.mem_filter,Finset.mem_range,testBit_clearBit,
      toNat_succ _ h] at hj
    obtain ⟨hr,hb,hlt⟩ := hj
    rw [Finset.mem_insert]
    by_cases he : j=g.ntransmitted.toNat%maxDupChk
    · exact Or.inl he
    · right
      have hne : g.ntransmitted.toNat%maxDupChk≠j := fun h => he h.symm
      simp only [hne,decide_true,Bool.true_and,ne_eq,not_false_eq_true] at hb
      rw [openSlots,Finset.mem_filter,Finset.mem_range]
      refine ⟨hr,hb,?_⟩
      rw [maxDupChk] at he hr
      omega
  calc (openSlots (step g (.send now))).card
      ≤ (insert (g.ntransmitted.toNat%maxDupChk) (openSlots g)).card := Finset.card_le_card hsub
    _ ≤ (openSlots g).card+1 := Finset.card_insert_le _ _

theorem inv_send (g : Globals) (now : BitVec 64) (hi : Inv g)
    (h : Solicited g (.send now)) : Inv (step g (.send now)) := by
  have hs : g.ntransmitted.toNat<(2^64-1)/100 := h
  have hlt : g.ntransmitted.toNat+1<2^64 := by omega
  have ho := openSlots_send g now hlt
  have hc := hi.credit
  have hn : (step g (.send now)).ntransmitted.toNat=g.ntransmitted.toNat+1 := by
    rw [step_send]
    exact toNat_succ _ hlt
  have hr : (step g (.send now)).nreceived=g.nreceived := by rw [step_send]
  refine ⟨by omega,?_,?_,?_⟩
  · rw [hr,hn]
    omega
  · rw [step_send]
    exact hi.replies
  · rw [step_send]
    exact hi.timed

/-- A reply that is counted as new closes its slot. -/
theorem openSlots_count (g : Globals) (j : Nat) (h : testBit g.rcvdTbl j=false)
    (hj : j < maxDupChk) (hs : j<g.ntransmitted.toNat) :
    (openSlots {g with rcvdTbl := setBit g.rcvdTbl j, nreceived := g.nreceived+1}).card+1=
      (openSlots g).card := by
  have hmem : j∈openSlots g := by
    rw [openSlots,Finset.mem_filter,Finset.mem_range]
    exact ⟨hj,h,hs⟩
  have he : openSlots {g with rcvdTbl := setBit g.rcvdTbl j, nreceived := g.nreceived+1}=
      (openSlots g).erase j := by
    ext k
    simp only [openSlots,Finset.mem_filter,Finset.mem_range,Finset.mem_erase,testBit_setBit,
      Bool.or_eq_false_iff,decide_eq_false_iff_not]
    constructor
    · intro ⟨hk,⟨hne,hb⟩,hlt⟩
      exact ⟨fun he => hne he.symm,hk,hb,hlt⟩
    · intro ⟨hne,hk,hb,hlt⟩
      exact ⟨hk,⟨fun he => hne he.symm,hb⟩,hlt⟩
  rw [he]
  exact Finset.card_erase_add_one hmem

/-- A counted reply keeps the counts whatever becomes of the times. -/
theorem inv_count (g : Globals) (tmin tmax : Word) (tsum : BitVec 64) (recvSeq : Half)
    (hi : Inv g) (hs : recvSeq.toNat%maxDupChk<g.ntransmitted.toNat)
    (hr : g.nreceived.toNat+g.nrepeats.toNat+1<2^64) :
    Inv (count {g with tmin := tmin, tmax := tmax, tsum := tsum} recvSeq) := by
  rw [count]
  by_cases hb : testBit g.rcvdTbl (recvSeq.toNat%maxDupChk)=true
  · rw [if_pos hb]
    have hn : (g.nrepeats+1).toNat=g.nrepeats.toNat+1 := toNat_succ _ (by omega)
    refine ⟨hi.sent,hi.credit,?_,?_⟩
    · simp only [hn]
      omega
    · intro _
      simp only [hn]
      omega
  · rw [if_neg hb,Bool.not_eq_true] at *
    have hn : (g.nreceived+1).toNat=g.nreceived.toNat+1 := toNat_succ _ (by omega)
    have ho := openSlots_count {g with tmin := tmin, tmax := tmax, tsum := tsum} _ hb
      (Nat.mod_lt _ (by norm_num [maxDupChk])) hs
    have hc := hi.credit
    have hsame : openSlots {g with tmin := tmin, tmax := tmax, tsum := tsum}=openSlots g := rfl
    rw [hsame] at ho
    refine ⟨hi.sent,?_,?_,?_⟩
    · have hle : (g.nreceived+1).toNat+((openSlots g).card-1)≤g.ntransmitted.toNat := by omega
      rw [← ho,Nat.add_sub_cancel] at hle
      exact hle
    · simp only [hn]
      omega
    · intro _
      simp only [hn]
      omega

theorem inv_step (g : Globals) (s : Step) (hi : Inv g) (h : Solicited g s) :
    Inv (step g s) := by
  cases s with
  | send now => exact inv_send g now hi h
  | receive buf sz now =>
    rcases step_receive g buf sz now with ⟨_,he⟩|⟨recvSeq,tmin,tmax,tsum,hq,he⟩
    · rw [he]
      exact hi
    · obtain ⟨hs,hr⟩ := h recvSeq hq
      rw [he]
      exact inv_count g tmin tmax tsum recvSeq hi hs hr

def AllSolicited : Globals → List Step → Prop
  | _,[] => True
  | g,s::steps => Solicited g s ∧ AllSolicited (step g s) steps

theorem inv_run (g : Globals) (steps : List Step) (hi : Inv g) (h : AllSolicited g steps) :
    Inv (run g steps) := by
  induction steps generalizing g with
  | nil => exact hi
  | cons s steps ih =>
    obtain ⟨hs,hrest⟩ := h
    exact ih (step g s) (inv_step g s hi hs) hrest

/-- No more replies than requests, a percentage that is the one of the counters and at most
100, and an average without a division by zero. -/
def StatsSound (g : Globals) : Prop :=
  g.nreceived≤g.ntransmitted ∧ ∃ p, printStatsAndExit g=some p ∧
    p.loss.toNat=(g.ntransmitted.toNat-g.nreceived.toNat)*100/g.ntransmitted.toNat ∧
    p.loss.toNat≤100

theorem loss_toNat (nt nr : BitVec 64) (hle : nr.toNat≤nt.toNat)
    (hs : nt.toNat≤(2^64-1)/100) :
    (if nt≠0 then (nt-nr)*100/nt else nt).toNat=
      (nt.toNat-nr.toNat)*100/nt.toNat := by
  have hh : (100 : BitVec 64).toNat=100 := rfl
  by_cases h0 : nt=0
  · rw [if_neg (not_not.mpr h0),h0]
    exact (Nat.div_zero _).symm
  · rw [if_pos h0,BitVec.toNat_udiv,BitVec.toNat_mul,BitVec.toNat_sub_of_le hle,hh,
      Nat.mod_eq_of_lt (by omega)]

theorem inv_statsSound (g : Globals) (hi : Inv g) : StatsSound g := by
  have hle : g.nreceived.toNat≤g.ntransmitted.toNat := by
    have := hi.credit
    omega
  have hl := loss_toNat g.ntransmitted g.nreceived hle hi.sent
  have h100 : (g.ntransmitted.toNat-g.nreceived.toNat)*100/g.ntransmitted.toNat≤100 := by
    apply Nat.div_le_of_le_mul
    rw [Nat.mul_comm g.ntransmitted.toNat]
    omega
  refine ⟨hle,?_⟩
  rw [printStatsAndExit]
  by_cases ht : g.tmin≠0xffffffff
  · have hn : g.nreceived+g.nrepeats≠0 := by
      intro h
      have hz := congrArg BitVec.toNat h
      rw [BitVec.toNat_add,Nat.mod_eq_of_lt hi.replies] at hz
      exact absurd hz (Nat.pos_iff_ne_zero.mp (hi.timed ht))
    simp only [if_pos ht,if_neg hn]
    exact ⟨_,rfl,hl,hl ▸ h100⟩
  · simp only [if_neg ht]
    exact ⟨_,rfl,hl,hl ▸ h100⟩

/-- In every run whose replies come in slots that requests have been sent to, and whose
counters stay clear of their end, the statistics are sound in the state reached. -/
theorem ping_statistics_sound (pid : Nat) (steps : List Step)
    (h : AllSolicited (pingInit pid) steps) : StatsSound (run (pingInit pid) steps) :=
  inv_statsSound _ (inv_run (pingInit pid) steps (inv_pingInit pid) h)

/-- An echo reply of 84 bytes with its IP header, for a process id and a sequence number
below 256. -/
def replyPacket (id seq : Byte) : List Byte :=
  [0x45]++List.replicate 7 0++[64,1]++List.replicate 10 0++
    [icmpEchoReply,0,0,0,id,0,0,seq]++List.replicate 56 0

theorem solicited_receive {g : Globals} {buf : List Byte} {sz : Word} (recvSeq : Half)
    (now : BitVec 64) (hseq : replySeq g buf sz=some recvSeq)
    (hslot : recvSeq.toNat%maxDupChk<g.ntransmitted.toNat)
    (hroom : g.nreceived.toNat+g.nrepeats.toNat+1<2^64) :
    Solicited g (.receive buf sz now) := by
  intro seq hq
  rw [hseq,Option.some_inj] at hq
  rw [← hq]
  exact ⟨hslot,hroom⟩

/-- The second of two requests is answered first, and twice; the reply to the first one is
late. -/
def lateSteps : List Step :=
  [.send 0,.send 1,.receive (replyPacket 7 1) 84 5,.receive (replyPacket 7 1) 84 6,
    .receive (replyPacket 7 0) 84 9]

theorem ping_statistics_sound_late :
    (run (pingInit 7) lateSteps).nreceived=2 ∧ (run (pingInit 7) lateSteps).nrepeats=1 ∧
      StatsSound (run (pingInit 7) lateSteps) := by
  refine ⟨by decide,by decide,?_⟩
  apply ping_statistics_sound
  have hzero : (0 : BitVec 64).toNat<(2^64-1)/100 := by decide
  have hone : (1 : BitVec 64).toNat<(2^64-1)/100 := by decide
  refine ⟨hzero,hone,?_,?_,?_,trivial⟩
  · exact solicited_receive 1 5 (by decide) (by decide) (by decide)
  · exact solicited_receive 1 6 (by decide) (by decide) (by decide)
  · exact solicited_receive 0 9 (by decide) (by decide) (by decide)

/-- Two replies nobody asked for after one request: two received of one transmitted. -/
theorem ping_statistics_unsolicited :
    ¬∀ (pid : Nat) (steps : List Step), StatsSound (run (pingInit pid) steps) := by
  intro h
  have hs := (h 7 [.send 0,.receive (replyPacket 7 1) 84 5,.receive (replyPacket 7 2) 84 6]).1
  exact absurd hs (by decide)

end IdearNiu.Ping
