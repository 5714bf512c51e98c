import IdearNiu.Crypto.Aes
import IdearNiu.Math.Gf256
import Mathlib.Data.List.GetD

namespace IdearNiu.Crypto

open Gf256

theorem getByte_eq_byte : getByte=byte := rfl

/-- The S-box, as the low bytes of Te[4] hold it. -/
def sbox (x : Byte) : Byte := (entry te4 x).setWidth 8

/-- The inverse S-box, as the low bytes of Td[4] hold it. -/
def invSbox (x : Byte) : Byte := (entry td4 x).setWidth 8

/-- A table computed entry by entry from another one. -/
theorem entry_of_map (table source : List Nat) (f : Byte → Word)
    (h : table=source.map fun n => (f (BitVec.ofNat 8 n)).toNat) (hl : source.length=256)
    (x : Byte) : entry table x=f ((entry source x).setWidth 8) := by
  have hx : x.toNat < source.length := by
    rw [hl]
    exact x.isLt
  have hlow : ((entry source x).setWidth 8 : Byte)=BitVec.ofNat 8 source[x.toNat] := by
    rw [entry]
    rw [List.getD_eq_getElem _ _ hx,BitVec.setWidth_ofNat_of_le (by omega)]
  rw [hlow,h]
  rw [entry]
  rw [List.getD_eq_getElem _ _ (by rw [List.length_map]; exact hx),List.getElem_map,
    BitVec.ofNat_toNat,BitVec.setWidth_eq]

theorem te4_repeated (x : Byte) : Te 4 x=join (sbox x) (sbox x) (sbox x) (sbox x) :=
  entry_of_map te4 te4 (fun y => join y y y y) (by decide +kernel) (by decide +kernel) x

theorem td4_repeated (x : Byte) : Td 4 x=join (invSbox x) (invSbox x) (invSbox x) (invSbox x) :=
  entry_of_map td4 td4 (fun y => join y y y y) (by decide +kernel) (by decide +kernel) x

/-- Te[k] is a column of MixColumns after the S-box. -/
theorem te_mixColumn (x : Byte) :
    Te 0 x=mixColumn 0 (sbox x) ∧ Te 1 x=mixColumn 1 (sbox x) ∧
    Te 2 x=mixColumn 2 (sbox x) ∧ Te 3 x=mixColumn 3 (sbox x) :=
  ⟨entry_of_map te0 te4 (mixColumn 0) (by decide +kernel) (by decide +kernel) x,
   entry_of_map te1 te4 (mixColumn 1) (by decide +kernel) (by decide +kernel) x,
   entry_of_map te2 te4 (mixColumn 2) (by decide +kernel) (by decide +kernel) x,
   entry_of_map te3 te4 (mixColumn 3) (by decide +kernel) (by decide +kernel) x⟩

/-- Td[k] is a column of InvMixColumns after the inverse S-box. -/
theorem td_invMixColumn (x : Byte) :
    Td 0 x=invMixColumn 0 (invSbox x) ∧ Td 1 x=invMixColumn 1 (invSbox x) ∧
    Td 2 x=invMixColumn 2 (invSbox x) ∧ Td 3 x=invMixColumn 3 (invSbox x) :=
  ⟨entry_of_map td0 td4 (invMixColumn 0) (by decide +kernel) (by decide +kernel) x,
   entry_of_map td1 td4 (invMixColumn 1) (by decide +kernel) (by decide +kernel) x,
   entry_of_map td2 td4 (invMixColumn 2) (by decide +kernel) (by decide +kernel) x,
   entry_of_map td3 td4 (invMixColumn 3) (by decide +kernel) (by decide +kernel) x⟩

theorem invSbox_sbox (x : Byte) : invSbox (sbox x)=x := by
  -- the tables are compared as lists of numbers: bit vectors take the kernel far longer
  have htables : te4.map (fun n => td4.getD (n%256) 0%256)=List.range 256 := by decide +kernel
  have hx : x.toNat<te4.length := by
    rw [← List.length_map (fun n => td4.getD (n%256) 0%256),htables,List.length_range]
    exact x.isLt
  have h := congrArg (fun l => l[x.toNat]?) htables
  simp only [List.getElem?_map,List.getElem?_eq_getElem hx,Option.map_some,
    List.getElem?_range x.isLt,Option.some_inj] at h
  apply BitVec.eq_of_toNat_eq
  rw [invSbox,sbox]
  simp only [entry,BitVec.toNat_setWidth,BitVec.toNat_ofNat,List.getD_eq_getElem _ _ hx]
  rw [Nat.mod_mod_of_dvd _ (by norm_num),Nat.mod_mod_of_dvd _ (by norm_num)]
  exact h

theorem byteReverseWord32_join (w : Word) :
    byteReverseWord32 w=join (byte w 0) (byte w 1) (byte w 2) (byte w 3) := by
  apply BitVec.eq_of_getLsbD_eq
  intro i hi
  rw [join_getLsbD]
  interval_cases i <;> simp [byteReverseWord32,rotlFixed,byte]

theorem loadWord_join (m : List Byte) (off : Nat) :
    loadWord m off=join (m.getD (off+3) 0) (m.getD (off+2) 0) (m.getD (off+1) 0)
      (m.getD off 0) := by
  apply BitVec.eq_of_getLsbD_eq
  intro i hi
  rw [join_getLsbD]
  rw [loadWord]
  interval_cases i <;> simp

theorem storeWord_reverse (w : Word) :
    storeWord (byteReverseWord32 w)=[byte w 3,byte w 2,byte w 1,byte w 0] := by
  obtain ⟨h0,h1,h2,h3⟩ := byte_join (byte w 0) (byte w 1) (byte w 2) (byte w 3)
  rw [byteReverseWord32_join,storeWord,getByte_eq_byte,h0,h1,h2,h3]

theorem reverse_loadWord (m : List Byte) (off : Nat) :
    byteReverseWord32 (loadWord m off)=join (m.getD off 0) (m.getD (off+1) 0)
      (m.getD (off+2) 0) (m.getD (off+3) 0) := by
  obtain ⟨h0,h1,h2,h3⟩ := byte_join (m.getD (off+3) 0) (m.getD (off+2) 0) (m.getD (off+1) 0)
    (m.getD off 0)
  rw [byteReverseWord32_join,loadWord_join,h0,h1,h2,h3]

theorem storeState_length (s : State) : (storeState s).length=16 := rfl

theorem loadState_storeState (s : State) : loadState (storeState s)=s := by
  rw [loadState]
  rw [reverse_loadWord,reverse_loadWord,reverse_loadWord,reverse_loadWord]
  simp only [storeState,storeWord_reverse,List.cons_append,List.nil_append]
  simp only [List.getD_cons_zero,List.getD_cons_succ,Nat.reduceAdd,join_byte]

theorem storeState_loadState (m : List Byte) (hm : m.length=16) :
    storeState (loadState m)=m := by
  apply List.ext_getElem?
  intro i
  rw [loadState,storeState]
  rw [reverse_loadWord,reverse_loadWord,reverse_loadWord,reverse_loadWord]
  simp only [storeWord_reverse,(byte_join _ _ _ _).1,(byte_join _ _ _ _).2.1,
    (byte_join _ _ _ _).2.2.1,(byte_join _ _ _ _).2.2.2]
  by_cases hi : i<16
  · interval_cases i <;> simp [List.getD_eq_getElem?_getD,hm]
  · rw [List.getElem?_eq_none (by simp; omega),List.getElem?_eq_none (by omega)]

/-- SubBytes and ShiftRows: the last round without its key. -/
def subShift (s : State) : State :=
  ⟨lastEncryptColumn s.s0 s.s1 s.s2 s.s3,lastEncryptColumn s.s1 s.s2 s.s3 s.s0,
   lastEncryptColumn s.s2 s.s3 s.s0 s.s1,lastEncryptColumn s.s3 s.s0 s.s1 s.s2⟩

/-- InvMixColumns of the whole state, as the key schedule computes it. -/
def mixState (s : State) : State :=
  ⟨inverseMixColumn s.s0,inverseMixColumn s.s1,inverseMixColumn s.s2,inverseMixColumn s.s3⟩

theorem State.xor_self_right (s k : State) : (s.xor k).xor k=s := by
  simp only [State.xor]
  simp only [BitVec.xor_assoc,BitVec.xor_self,BitVec.xor_zero]

theorem lastEncryptColumn_join (a b c d : Word) :
    lastEncryptColumn a b c d=
      join (sbox (byte a 3)) (sbox (byte b 2)) (sbox (byte c 1)) (sbox (byte d 0)) := by
  rw [lastEncryptColumn]
  rw [getByte_eq_byte,te4_repeated,te4_repeated,te4_repeated,te4_repeated,
    (join_masked _).1,(join_masked _).2.1,(join_masked _).2.2.1,(join_masked _).2.2.2,
    join_eq_places (sbox _)]

theorem inverseMixColumn_invMix (w : Word) : inverseMixColumn w=invMix w := by
  have hs (x : Byte) : (Te 4 x&&&0xff).setWidth 8=sbox x := by
    rw [te4_repeated,(join_masked _).2.2.2]
    exact (byte_join 0 0 0 (sbox x)).1
  rw [inverseMixColumn,invMix]
  rw [hs,hs,hs,hs,(td_invMixColumn _).1,(td_invMixColumn _).2.1,(td_invMixColumn _).2.2.1,
    (td_invMixColumn _).2.2.2,invSbox_sbox,invSbox_sbox,invSbox_sbox,invSbox_sbox,
    getByte_eq_byte]

/-- Decrypting a substituted column yields InvMixColumns of the column before. -/
theorem decryptColumn_sub (w a b c d : Word) (ha : byte a 3=sbox (byte w 3))
    (hb : byte b 2=sbox (byte w 2)) (hc : byte c 1=sbox (byte w 1))
    (hd : byte d 0=sbox (byte w 0)) : decryptColumn a b c d=invMix w := by
  rw [decryptColumn,invMix]
  rw [getByte_eq_byte,ha,hb,hc,hd,(td_invMixColumn _).1,(td_invMixColumn _).2.1,
    (td_invMixColumn _).2.2.1,(td_invMixColumn _).2.2.2,invSbox_sbox,invSbox_sbox,
    invSbox_sbox,invSbox_sbox]

theorem lastDecryptColumn_sub (w a b c d : Word) (ha : byte a 3=sbox (byte w 3))
    (hb : byte b 2=sbox (byte w 2)) (hc : byte c 1=sbox (byte w 1))
    (hd : byte d 0=sbox (byte w 0)) : lastDecryptColumn a b c d=w := by
  rw [lastDecryptColumn]
  rw [getByte_eq_byte,ha,hb,hc,hd,td4_repeated,td4_repeated,td4_repeated,td4_repeated,
    (join_masked _).1,(join_masked _).2.1,(join_masked _).2.2.1,(join_masked _).2.2.2,
    invSbox_sbox,invSbox_sbox,invSbox_sbox,invSbox_sbox,← join_eq_places,join_byte]

theorem invMix_encryptColumn (a b c d : Word) :
    invMix (encryptColumn a b c d)=lastEncryptColumn a b c d := by
  rw [encryptColumn]
  rw [getByte_eq_byte,lastEncryptColumn_join,join_eq_places,(te_mixColumn _).1,
    (te_mixColumn _).2.1,(te_mixColumn _).2.2.1,(te_mixColumn _).2.2.2,
    invMix_xor,invMix_xor,invMix_xor,
    invMix_mixColumn,invMix_mixColumn,invMix_mixColumn,invMix_mixColumn]

theorem decryptRound_subShift (s k : State) :
    decryptRound (subShift s) k=(mixState s).xor k := by
  rw [decryptRound,subShift,mixState,State.xor]
  simp only [lastEncryptColumn_join,inverseMixColumn_invMix]
  rw [decryptColumn_sub s.s0,decryptColumn_sub s.s1,decryptColumn_sub s.s2,
    decryptColumn_sub s.s3]
  all_goals simp only [(byte_join _ _ _ _).1,(byte_join _ _ _ _).2.1,
    (byte_join _ _ _ _).2.2.1,(byte_join _ _ _ _).2.2.2]

theorem mixState_encryptRound (s k : State) :
    mixState (encryptRound s k)=(subShift s).xor (mixState k) := by
  simp only [mixState,encryptRound,subShift,State.xor]
  simp only [inverseMixColumn_invMix,invMix_xor,invMix_encryptColumn]

/-- A round of decryption under the transformed key undoes a round of encryption. -/
theorem decryptRound_encryptRound (s k : State) :
    decryptRound (subShift (encryptRound s k)) (mixState k)=subShift s := by
  rw [decryptRound_subShift,mixState_encryptRound,State.xor_self_right]

theorem lastDecryptRound_subShift (s k : State) :
    lastDecryptRound (subShift s) k=s.xor k := by
  rw [lastDecryptRound,subShift,State.xor]
  simp only [lastEncryptColumn_join]
  rw [lastDecryptColumn_sub s.s0,lastDecryptColumn_sub s.s1,lastDecryptColumn_sub s.s2,
    lastDecryptColumn_sub s.s3]
  all_goals simp only [(byte_join _ _ _ _).1,(byte_join _ _ _ _).2.1,
    (byte_join _ _ _ _).2.2.1,(byte_join _ _ _ _).2.2.2]

theorem lastEncryptRound_subShift (s k : State) :
    lastEncryptRound s k=(subShift s).xor k := rfl

end IdearNiu.Crypto
