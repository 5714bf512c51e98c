import IdearNiu.Dhcpc.PacketCodec

namespace IdearNiu.Dhcpc

open OnesComplement

/-- An addition of the accumulator; none when it overflows. -/
def addChecked (x y : Word) : Option Word := if x.toNat+y.toNat<2^32 then some (x+y) else none

/-- The first two loops of checksum with every addition checked. -/
def sumChecked : List Byte → Word → Option Word
  | a::b::rest,sum => (addChecked sum ((le16 a b).setWidth 32)).bind (sumChecked rest)
  | [a],sum => addChecked sum (a.setWidth 32)
  | [],sum => some sum

/-- The folding loop; none when an addition overflows or the loop is not over after the given
number of tests. -/
def foldChecked : Nat → Word → Option Word
  | 0,_ => none
  | tests+1,sum =>
    if sum>>>16≠0 then
      (addChecked (sum&&&(0xffff : Word)) (sum>>>16)).bind (foldChecked tests)
    else some sum

def checksumChecked (tests : Nat) (buffer : List Byte) (startsum : Word) : Option Word :=
  (sumChecked buffer startsum).bind (foldChecked tests)

theorem addChecked_eq (x y : Word) (h : x.toNat+y.toNat<2^32) : addChecked x y=some (x+y) :=
  if_pos h

theorem sumChecked_eq (l : List Byte) (sum : Word) (h : sum.toNat+wordSum l<2^32) :
    sumChecked l sum=some (sumLoop l sum) := by
  induction l using wordSum.induct generalizing sum with
  | case1 a b rest ih =>
    simp only [wordSum] at h
    have hword := le16_wide_toNat a b
    have hadd : (sum+(le16 a b).setWidth 32).toNat=sum.toNat+(le16 a b).toNat := by
      rw [BitVec.toNat_add,hword,Nat.mod_eq_of_lt (by omega)]
    rw [sumChecked,addChecked_eq _ _ (by omega),Option.bind_some,ih _ (by omega),sumLoop]
  | case2 a =>
    simp only [wordSum] at h
    rw [sumChecked,addChecked_eq _ _ (by rw [byte_wide_toNat]; exact h),sumLoop]
  | case3 => rfl

theorem turn_checked (sum : Word) : addChecked (sum&&&(0xffff : Word)) (sum>>>16)=
    some ((sum&&&(0xffff : Word))+(sum>>>16)) := by
  apply addChecked_eq
  have := sum.isLt
  rw [low_toNat,high_toNat]
  omega

/-- No turn overflows, and when the turns have brought the sum to 16 bits the loop is over. -/
theorem foldChecked_eq (turns : Nat) (sum : Word) (h : (foldLoop turns sum).toNat<65536) :
    foldChecked (turns+1) sum=some (foldLoop turns sum) := by
  induction turns generalizing sum with
  | zero =>
    have hnone : sum>>>16=0 := (high_eq_zero_iff sum).mpr h
    rw [foldChecked,if_neg (not_not.mpr hnone),foldLoop]
  | succ turns ih =>
    rw [foldLoop] at h ⊢
    rw [foldChecked]
    by_cases hcarry : sum>>>16≠0
    · rw [if_pos hcarry] at h
      rw [if_pos hcarry,if_pos hcarry,turn_checked,Option.bind_some]
      exact ih _ h
    · rw [if_neg hcarry,if_neg hcarry]

/-- A buffer of at most 65535 bytes does not overflow the accumulator from a folded sum. -/
theorem startsum_lt (l : List Byte) (s : Word) (hl : l.length≤65535) (hs : s.toNat≤0xffff) :
    s.toNat+wordSum l<2^32 := by
  have := wordSum_le l
  omega

theorem checksumChecked_eq (l : List Byte) (s : Word) (hl : l.length≤65535)
    (hs : s.toNat≤0xffff) : checksumChecked 3 l s=some (checksum l s) := by
  rw [checksumChecked,sumChecked_eq l s (startsum_lt l s hl hs),Option.bind_some,
    foldChecked_eq 2 _ (foldLoop_two_lt _),checksum]

theorem checksum_le (l : List Byte) (s : Word) : (checksum l s).toNat≤0xffff :=
  Nat.le_of_lt_succ (foldLoop_two_lt _)

/-- The sum over a first piece of whole words is where the sum over the rest starts. -/
theorem checksum_append (a b : List Byte) (s : Word) (ha : a.length%2=0)
    (hl : a.length+b.length≤65535) (hs : s.toNat≤0xffff) :
    checksum b (checksum a s)=checksum (a++b) s := by
  have hbound := startsum_lt (a++b) s (by rw [List.length_append]; exact hl) hs
  have hsplit := wordSum_append a b ha
  have hfirst := checksum_toNat a s (by omega)
  apply BitVec.eq_of_toNat_eq
  rw [checksum_step b _ _ hfirst (by omega),checksum_toNat (a++b) s hbound,hsplit,Nat.add_assoc]

/-- The pseudo header, the udp header and the data, as send_packet sums over them. -/
def udpPieces (udp : UdpHdr) (data : List Byte) (saddr daddr : Word) : List Byte :=
  le32Bytes saddr++(le32Bytes daddr++(le16Bytes (htons (ipProtoUdp.setWidth 16))++
    (le16Bytes udp.len++(udp.bytes++data))))

theorem le32Bytes_length (w : Word) : (le32Bytes w).length=4 := rfl

theorem le16Bytes_length (h : Half) : (le16Bytes h).length=2 := rfl

/-- The sum of send_packet, which starts each checksum at the result of the one before, is
the checksum of the concatenation. -/
theorem sendUdpSum_eq (udp : UdpHdr) (data : List Byte) (saddr daddr : Word)
    (h : data.length+20≤65535) :
    sendUdpSum udp data saddr daddr=checksum (udpPieces udp data saddr daddr) 0 := by
  have hudp : udp.bytes.length=8 := udp.bytes_length
  have h1 := le32Bytes_length saddr
  have h2 := le32Bytes_length daddr
  have h3 := le16Bytes_length (htons (ipProtoUdp.setWidth 16))
  have h4 := le16Bytes_length udp.len
  rw [udpPieces,sendUdpSum]
  rw [← checksum_append (le32Bytes saddr),← checksum_append (le32Bytes daddr),
    ← checksum_append (le16Bytes (htons (ipProtoUdp.setWidth 16))),
    ← checksum_append (le16Bytes udp.len),← checksum_append udp.bytes]
  -- each piece but the last has whole words, and none is too long
  all_goals first
    | exact checksum_le _ _
    | omega
    | simp only [List.length_append]; omega
    | decide

/-- Neither loop of checksum overflows, the folding loop ends with 16 bits, a buffer may be
summed in pieces of whole words, and so send_packet sums over its pieces as one buffer. -/
theorem checksum_chains (a b : List Byte) (s : Word) (ha : a.length%2=0)
    (hla : a.length≤65535) (hlb : b.length≤65535) (hs : s.toNat≤0xffff) :
    (∀ l∈[a,b],checksumChecked 3 l s=some (checksum l s) ∧ (checksum l s).toNat≤0xffff) ∧
    (a.length+b.length≤65535 → checksumChecked 3 (a++b) s=some (checksum (a++b) s) ∧
      checksum b (checksum a s)=checksum (a++b) s) ∧
    ∀ (udp : UdpHdr) (data : List Byte) (saddr daddr : Word),data.length+20≤65535 →
      sendUdpSum udp data saddr daddr=checksum (udpPieces udp data saddr daddr) 0 := by
  refine ⟨?_,?_,sendUdpSum_eq⟩
  · intro l hl
    have hlen : l.length≤65535 := by
      rcases List.mem_pair.mp hl with he|he
      · rw [he]
        exact hla
      · rw [he]
        exact hlb
    exact ⟨checksumChecked_eq l s hlen hs,checksum_le l s⟩
  · intro hlen
    refine ⟨checksumChecked_eq (a++b) s ?_ hs,checksum_append a b s ha hlen hs⟩
    rw [List.length_append]
    exact hlen

theorem checksum_chains_words :
    checksum [3] (checksum [0xff,0xff,1,0] 0xffff)=checksum [0xff,0xff,1,0,3] 0xffff :=
  ((checksum_chains [0xff,0xff,1,0] [3] 0xffff (by decide) (by decide) (by decide)
    (by decide)).2.1 (by decide)).2

end IdearNiu.Dhcpc
