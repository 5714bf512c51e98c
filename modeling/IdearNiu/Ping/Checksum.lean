import IdearNiu.Dhcpc.PacketCodec
import IdearNiu.Ping.Ping

namespace IdearNiu.Ping

open OnesComplement
open Dhcpc (Byte Half Word le16 wordSum sumLoop checksum finishSum)

/-- The loop of ping_cksum. An odd last byte is stored through a byte pointer into the first
byte of answer, which is zero before. -/
def pingSumLoop : List Byte → Word → Word
  | a::b::rest,sum => pingSumLoop rest (sum+(le16 a b).setWidth 32)
  | [a],sum => sum+(le16 a 0).setWidth 32
  | [],sum => sum

/-- ping_cksum of sockets_ping.c. -/
def pingCksum (addr : List Byte) : Half :=
  let sum := pingSumLoop addr 0
  let sum := (sum>>>16)+(sum&&&0xffff)
  let sum := sum+(sum>>>16)
  (~~~sum).setWidth 16

/-- The last byte of a buffer of odd length, and 0 for a buffer of whole words. -/
def oddByte : List Byte → Nat
  | _::_::rest => oddByte rest
  | [a] => a.toNat
  | [] => 0

theorem oddByte_lt (l : List Byte) : oddByte l<256 := by
  induction l using oddByte.induct with
  | case1 a b rest ih =>
    rw [oddByte]
    exact ih
  | case2 a => exact a.isLt
  | case3 => exact Nat.succ_pos 255

theorem oddByte_eq_zero_iff (l : List Byte) :
    oddByte l=0 ↔ l.length%2=0 ∨ l.getLast?=some 0 := by
  induction l using oddByte.induct with
  | case1 a b rest ih =>
    rw [oddByte,ih,List.length_cons,List.length_cons,Nat.add_assoc,Nat.add_mod_right]
    cases rest with
    | nil => simp
    | cons c rest => rw [List.getLast?_cons_cons,List.getLast?_cons_cons]
  | case2 a =>
    have hzero : (0 : Byte).toNat=0 := rfl
    rw [oddByte,List.length_singleton,List.getLast?_singleton,Option.some_inj,
      ← BitVec.toNat_inj,hzero]
    omega
  | case3 => simp [oddByte]

theorem littleEndian_eq : littleEndian=false := by decide

theorem cksumLoop_toNat (l : List Byte) (sum : Word)
    (h : sum.toNat+wordSum l+255*oddByte l<2^32) :
    (cksumLoop l sum).toNat=sum.toNat+wordSum l+255*oddByte l := by
  induction l using Dhcpc.wordSum.induct generalizing sum with
  | case1 a b rest ih =>
    simp only [wordSum,oddByte] at h ⊢
    have hadd : (sum+(le16 a b).setWidth 32).toNat=sum.toNat+(le16 a b).toNat := by
      rw [BitVec.toNat_add,Dhcpc.le16_wide_toNat,Nat.mod_eq_of_lt (by omega)]
    rw [cksumLoop,ih _ (by omega),hadd]
    omega
  | case2 a =>
    simp only [wordSum,oddByte] at h ⊢
    have hshift : (a.setWidth 32<<<8).toNat=256*a.toNat := by
      have := a.isLt
      rw [BitVec.toNat_shiftLeft,Dhcpc.byte_wide_toNat,Nat.shiftLeft_eq]
      omega
    rw [cksumLoop,littleEndian_eq,if_neg Bool.false_ne_true,BitVec.toNat_add,hshift,
      Nat.mod_eq_of_lt (by omega)]
    omega
  | case3 => rfl

theorem pingSumLoop_eq (l : List Byte) (sum : Word) : pingSumLoop l sum=sumLoop l sum := by
  induction l using Dhcpc.wordSum.induct generalizing sum with
  | case1 a b rest ih => rw [pingSumLoop,sumLoop,ih]
  | case2 a =>
    have hbyte : (le16 a 0).setWidth 32=a.setWidth 32 := by
      apply BitVec.eq_of_toNat_eq
      rw [Dhcpc.le16_wide_toNat,Dhcpc.byte_wide_toNat,le16,BitVec.toNat_append]
      simp
    rw [pingSumLoop,sumLoop,hbyte]
  | case3 => rfl

/-- The two fixed steps bring a sum to what the folding loop brings it to. -/
theorem twoSteps_toNat (sum : Word) :
    ((~~~((sum>>>16)+(sum&&&0xffff)+(((sum>>>16)+(sum&&&0xffff))>>>16))).setWidth 16 : Half).toNat=
      65535-residue 65536 sum.toNat := by
  have hfirst : ((sum>>>16)+(sum&&&0xffff)).toNat=carry 65536 sum.toNat := by
    rw [BitVec.add_comm]
    exact Dhcpc.turn_toNat sum
  generalize (sum>>>16)+(sum&&&0xffff)=t at hfirst ⊢
  have hsum := sum.isLt
  have ht : t.toNat≤131070 := by
    rw [hfirst,carry]
    omega
  have hsecond : carry 65536 t.toNat=residue 65536 sum.toNat := by
    rw [← residue_carry (by omega) sum.toNat,← hfirst,← residue_carry (by omega) t.toNat,
      residue_of_lt]
    rw [carry]
    omega
  rw [carry] at hsecond
  rw [BitVec.toNat_setWidth,BitVec.toNat_not,BitVec.toNat_add,Dhcpc.high_toNat]
  omega

theorem pingCksum_toNat (buf : List Byte) (h : wordSum buf<2^32) :
    (pingCksum buf).toNat=65535-residue 65536 (wordSum buf) := by
  have hzero : (0 : Word).toNat=0 := rfl
  have hsum : (pingSumLoop buf 0).toNat=wordSum buf := by
    rw [pingSumLoop_eq,Dhcpc.sumLoop_toNat buf 0 (by omega),hzero,Nat.zero_add]
  rw [pingCksum,← hsum]
  exact twoSteps_toNat _

/-- The shift of the odd byte makes a different sum of it. -/
theorem inetCksum_toNat (buf : List Byte) (h : wordSum buf+255*oddByte buf<2^32) :
    (inetCksum buf).toNat=65535-residue 65536 (wordSum buf+255*oddByte buf) := by
  have hzero : (0 : Word).toNat=0 := rfl
  have hsum : (cksumLoop buf 0).toNat=wordSum buf+255*oddByte buf := by
    rw [cksumLoop_toNat buf 0 (by omega),hzero,Nat.zero_add]
  rw [inetCksum,← hsum]
  exact twoSteps_toNat _

/-- An odd byte that is not zero changes the sum modulo 65535. -/
theorem residue_oddByte (n k : Nat) (hk : k<256) :
    residue 65536 (n+255*k)=residue 65536 n ↔ k=0 := by
  constructor
  · intro h
    have hleft : residue 65536 (n+255*k) ≡ n+255*k [MOD 65535] := residue_modEq _
    have hright : residue 65536 n ≡ n [MOD 65535] := residue_modEq n
    rw [h] at hleft
    have hmod : (n+255*k)%65535=n%65535 := hleft.symm.trans hright
    omega
  · intro h
    rw [h,Nat.mul_zero,Nat.add_zero]

/-- The three checksums of a buffer are one 16-bit value. -/
def Agree (buf : List Byte) : Prop :=
  inetCksum buf=pingCksum buf ∧ (pingCksum buf).setWidth 32=finishSum (checksum buf 0)

theorem wordSum_oddByte_lt (buf : List Byte) (h : buf.length≤65535) :
    wordSum buf+255*oddByte buf<2^32 := by
  have hsum := Dhcpc.wordSum_le buf
  have hodd := oddByte_lt buf
  omega

/-- ping_cksum and the checksum of the packets agree on every buffer. -/
theorem pingCksum_eq (buf : List Byte) (h : buf.length≤65535) :
    (pingCksum buf).setWidth 32=finishSum (checksum buf 0) := by
  have hbound := wordSum_oddByte_lt buf h
  have hres : residue 65536 (wordSum buf)<65536 := residue_lt (by omega) _
  have hsum := Dhcpc.checksum_zero_toNat buf (by omega)
  apply BitVec.eq_of_toNat_eq
  rw [BitVec.toNat_setWidth,pingCksum_toNat buf (by omega),
    Dhcpc.finishSum_toNat _ (by omega),hsum,Nat.mod_eq_of_lt (by omega)]

/-- The checksums agree exactly on the buffers that have no odd byte or a zero one:
little_endian says no on a little-endian host. -/
theorem checksums_agree_iff (buf : List Byte) (h : buf.length≤65535) :
    Agree buf ↔ buf.length%2=0 ∨ buf.getLast?=some 0 := by
  have hbound := wordSum_oddByte_lt buf h
  rw [Agree,and_iff_left (pingCksum_eq buf h),← oddByte_eq_zero_iff,
    ← residue_oddByte (wordSum buf) _ (oddByte_lt buf),← BitVec.toNat_inj,
    inetCksum_toNat buf hbound,pingCksum_toNat buf (by omega)]
  have hinet : residue 65536 (wordSum buf+255*oddByte buf)<65536 := residue_lt (by omega) _
  have hping : residue 65536 (wordSum buf)<65536 := residue_lt (by omega) _
  omega

theorem checksums_agree_word : Agree [0x45,0xff] :=
  (checksums_agree_iff [0x45,0xff] (by decide)).mpr (Or.inl rfl)

/-- The checksums of the single byte 1 differ. -/
theorem checksums_disagree_odd : ¬∀ buf : List Byte,buf.length≤65535 → Agree buf := by
  intro h
  have hinet := (h [1] (by decide)).1
  exact absurd hinet (by decide)

end IdearNiu.Ping
