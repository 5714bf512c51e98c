import IdearNiu.Crypto.AesKeys
import IdearNiu.Framework.Chaining

namespace IdearNiu.Crypto

open Memory Chaining Gf256

theorem storeWord_xor (v w : Word) :
    storeWord (v^^^w)=[byte v 0^^^byte w 0,byte v 1^^^byte w 1,byte v 2^^^byte w 2,
      byte v 3^^^byte w 3] := by
  simp only [storeWord,getByte_eq_byte,byte_xor]

/-- Xoring word by word is xoring byte by byte. -/
theorem xorbuf_aligned (aligned : Bool) (buf mask : List Byte) :
    xorbuf aligned buf mask=(List.range 16).map fun i => buf.getD i 0^^^mask.getD i 0 := by
  cases aligned
  · rfl
  · simp only [xorbuf,xorWords,if_true]
    simp only [storeWord_xor,loadWord_join,(byte_join _ _ _ _).1,(byte_join _ _ _ _).2.1,
      (byte_join _ _ _ _).2.2.1,(byte_join _ _ _ _).2.2.2]
    rfl

theorem xorbuf_length (aligned : Bool) (buf mask : List Byte) :
    (xorbuf aligned buf mask).length=16 := by
  rw [xorbuf_aligned,List.length_map,List.length_range]

/-- Xoring with the register a second time gives the block back. -/
theorem xorbuf_cancel (aligned aligned' : Bool) (reg block : List Byte)
    (hb : block.length=16) :
    xorbuf aligned' (xorbuf aligned reg block) reg=block := by
  rw [xorbuf_aligned,xorbuf_aligned]
  apply List.ext_getElem?
  intro i
  by_cases hi : i<16
  · have hget : block[i]?=some (block.getD i 0) := by
      rw [List.getD_eq_getElem _ _ (by omega),List.getElem?_eq_getElem]
    have hcancel (x y : Byte) : x^^^y^^^x=y := by
      rw [BitVec.xor_comm x y,BitVec.xor_assoc,BitVec.xor_self,BitVec.xor_zero]
    rw [hget]
    simp [hi,hcancel]
  · rw [List.getElem?_eq_none (by simp; omega),List.getElem?_eq_none (by omega)]

/-- The block function of a context. -/
def Aes.encipher (aes : Aes) (b : List Byte) : List Byte := aes.encrypt b b

def Aes.decipher (aes : Aes) (b : List Byte) : List Byte := aes.decrypt b []

/-- In place, the loop replaces its n blocks by their chain. -/
theorem cbcEncryptLoop_chain (enc : Aes) (aligned : Bool) (hlen : ∀ b,(enc.encipher b).length=16)
    (n off : Nat) (reg buf : List Byte) (h : off+16*n≤buf.length) :
    ∃ aes,cbcEncryptLoop aligned n off { enc with reg := reg } buf=
      some (aes,buf.take off++
        (chain (xorbuf aligned) enc.encipher reg (chunks 16 n (buf.drop off))).flatten++
        buf.drop (off+16*n)) := by
  induction n generalizing off reg buf with
  | zero => exact ⟨{ enc with reg := reg },by simp [cbcEncryptLoop,chunks,chain]⟩
  | succ n ih =>
    have hc := hlen (xorbuf aligned reg ((buf.drop off).take 16))
    generalize hcdef : enc.encipher (xorbuf aligned reg ((buf.drop off).take 16))=c at hc
    have hfrom := copyFrom_some buf off 16 (by omega)
    have hto := copyTo_some buf c off (by omega)
    have htake := splice_take buf c off (by omega)
    have hdrop := splice_drop buf c off (16*n) (by omega)
    have hdrop0 := splice_drop buf c off 0 (by omega)
    obtain ⟨aes,hrun⟩ := ih (off+16) c (splice buf off c)
      (by rw [splice_length _ _ _ (by omega)]; omega)
    rw [hc] at htake hdrop hdrop0 hto
    rw [Nat.add_zero] at hdrop0
    rw [htake,hdrop,hdrop0] at hrun
    refine ⟨aes,?_⟩
    rw [cbcEncryptLoop]
    simp only [hfrom,Option.bind_eq_bind,Option.bind_some]
    rw [show Aes.encrypt { enc with reg := reg }
      (xorbuf aligned reg ((buf.drop off).take 16))
      (xorbuf aligned reg ((buf.drop off).take 16))=c from hcdef,hto,Option.bind_some,hrun]
    simp only [chunks,chain,hcdef,List.flatten_cons,List.append_assoc,List.drop_drop]
    rw [show off+16+16*n=off+16*(n+1) by omega]

/-- The loop writes the unchained blocks. -/
theorem cbcDecryptLoop_unchain (dec : Aes) (aligned : Bool) (input : List Byte)
    (hdec : ∀ b old,dec.decrypt b old=dec.decipher b)
    (n off : Nat) (tmp reg out : List Byte) (h : off+16*n≤out.length)
    (hin : off+16*n ≤ input.length) :
    ∃ aes,cbcDecryptLoop aligned input n off { dec with reg := reg, tmp := tmp } out=
      some (aes,out.take off++
        (unchain (xorbuf aligned) dec.decipher reg (chunks 16 n (input.drop off))).flatten++
        out.drop (off+16*n)) := by
  induction n generalizing off tmp reg out with
  | zero => exact ⟨{ dec with reg := reg, tmp := tmp },by simp [cbcDecryptLoop,chunks,unchain]⟩
  | succ n ih =>
    have hc := xorbuf_length aligned (dec.decipher ((input.drop off).take 16)) reg
    generalize hcdef : xorbuf aligned (dec.decipher ((input.drop off).take 16)) reg=c at hc
    have hfrom := copyFrom_some input off 16 (by omega)
    have hold := copyFrom_some out off 16 (by omega)
    have hto := copyTo_some out c off (by omega)
    have htake := splice_take out c off (by omega)
    have hdrop := splice_drop out c off (16*n) (by omega)
    obtain ⟨aes,hrun⟩ := ih (off+16) ((input.drop off).take 16) ((input.drop off).take 16)
      (splice out off c) (by rw [splice_length _ _ _ (by omega)]; omega) (by omega)
    rw [hc] at htake hdrop hto
    rw [htake,hdrop] at hrun
    refine ⟨aes,?_⟩
    rw [cbcDecryptLoop]
    simp only [hfrom,hold,Option.bind_eq_bind,Option.bind_some]
    rw [show Aes.decrypt { dec with reg := reg, tmp := tmp } ((input.drop off).take 16)
      ((out.drop off).take 16)=dec.decipher ((input.drop off).take 16) from hdec _ _,
      hcdef,hto,Option.bind_some,hrun]
    simp only [chunks,unchain,hcdef,List.flatten_cons,List.append_assoc,List.drop_drop]
    rw [show off+16+16*n=off+16*(n+1) by omega]

section

variable {enc dec : Aes}

/-- The chained blocks of one context are unchained by its pair. -/
theorem Paired.unchain_chain (h : Paired enc dec) (aligned aligned' : Bool)
    (blocks : List (List Byte)) (hreg : enc.reg.length=16) (hb : ∀ b∈blocks,b.length=16) :
    unchain (xorbuf aligned') dec.decipher enc.reg
      (chain (xorbuf aligned) enc.encipher enc.reg blocks)=blocks :=
  Chaining.unchain_chain (xorbuf aligned) (xorbuf aligned') enc.encipher dec.decipher
    (fun b => b.length=16) (fun b => h.encrypt_length b b) (xorbuf_length aligned)
    (fun b hlen => h.block b b [] hlen)
    (fun reg block _ hlen => xorbuf_cancel aligned aligned' reg block hlen)
    enc.reg hreg blocks hb

/-- Decrypting what was encrypted in place gives the buffer's first blocks back. -/
theorem Paired.cbc (h : Paired enc dec) (aligned aligned' : Bool) (n : Nat)
    (buf out : List Byte) (hreg : enc.reg.length=16) (hbuf : 16*n≤buf.length)
    (hout : 16*n≤out.length) :
    ∃ aes cipher,enc.cbcEncrypt aligned buf (16*n)=some (aes,cipher) ∧
      cipher.length=buf.length ∧
      ∃ aes' plain,dec.cbcDecrypt aligned' out (cipher.take (16*n)) (16*n)=
        some (aes',plain) ∧ plain.take (16*n)=buf.take (16*n) ∧ plain.length=out.length := by
  have hdiv : 16*n/16=n := Nat.mul_div_cancel_left n (by decide)
  obtain ⟨aes,hrun⟩ := cbcEncryptLoop_chain enc aligned
    (fun b => h.encrypt_length b b) n 0 enc.reg buf (by omega)
  generalize hchain : chain (xorbuf aligned) enc.encipher enc.reg (chunks 16 n (buf.drop 0))=
    blocks at hrun
  have hsizes : ∀ b∈blocks,b.length=16 := by
    rw [← hchain]
    exact chain_good _ _ _ (fun b => h.encrypt_length b b) _ _
  have hcount : blocks.length=n := by rw [← hchain,chain_length,chunks_length]
  have hflat : blocks.flatten.length=16*n := by
    rw [List.length_flatten,List.map_congr_left hsizes,List.map_const',hcount,
      List.sum_replicate,smul_eq_mul,Nat.mul_comm]
  rw [List.take_zero,List.nil_append,Nat.zero_add] at hrun
  refine ⟨aes,blocks.flatten++buf.drop (16*n),?_,?_,?_⟩
  · rw [Aes.cbcEncrypt]
    rw [hdiv]
    exact hrun
  · rw [List.length_append,List.length_drop]
    omega
  · rw [List.take_left' hflat]
    obtain ⟨aes',hdec⟩ := cbcDecryptLoop_unchain dec aligned' blocks.flatten
      (fun b old => (h.decrypt_eq b old).trans (h.decrypt_eq b []).symm)
      n 0 dec.tmp dec.reg out (by omega) (by omega)
    have hchunks := chunks_of_flatten 16 blocks hsizes []
    rw [hcount,List.append_nil] at hchunks
    have hback := h.unchain_chain aligned aligned' (chunks 16 n (buf.drop 0)) hreg
      (chunks_sizes 16 n _ (by rw [List.drop_zero]; exact hbuf))
    rw [hchain,← h.reg] at hback
    rw [List.drop_zero,hchunks,hback,chunks_flatten,List.take_zero,List.nil_append,
      List.drop_zero,Nat.zero_add] at hdec
    have hlen : (buf.take (16*n)).length=16*n := by
      rw [List.length_take]
      omega
    refine ⟨aes',buf.take (16*n)++out.drop (16*n),?_,List.take_left' hlen,?_⟩
    · rw [Aes.cbcDecrypt]
      rw [hdiv]
      exact hdec
    · rw [List.length_append,List.length_drop]
      omega

end

/-- The number of padding bytes. -/
def padCount (n : Nat) : Nat := 16-n%16

theorem int_some (x : Int) (h : -2147483648≤x ∧ x≤2147483647) : int x=some x := if_pos h

theorem storePadding_some (out : List Byte) (start n v : Nat) (h : start+n≤out.length) :
    storePadding out start (start+n : Nat) v=
      some (splice out start (List.replicate n (BitVec.ofNat 8 v))) := by
  have hn : (((start+n : Nat) : Int)-(start : Int)).toNat=n := by omega
  have hrep : (List.replicate n (BitVec.ofNat 8 v)).length=n := List.length_replicate
  have hto := copyTo_some out (List.replicate n (BitVec.ofNat 8 v)) start (by omega)
  rw [storePadding]
  rw [hn,Int.toNat_natCast,BitVec.ofInt_natCast]
  rw [hrep] at hto
  exact hto

/-- The length after rounding up, before a full block is appended. -/
theorem roundedLength_some (n : Nat) (h : n+32≤2147483647) :
    roundedLength n=some (if n%16=0 then (n : Int) else ((n+padCount n : Nat) : Int)) := by
  have hdiv : (n : Int).tdiv 16=((n/16 : Nat) : Int) := (Int.ofNat_tdiv n 16).symm
  have hsplit := Nat.div_add_mod n 16
  rw [roundedLength]
  rw [hdiv]
  by_cases hn : n%16=0
  · rw [if_neg (by omega),if_pos hn]
  · have hval : ((n/16 : Nat)+1 : Int)*16=((n+padCount n : Nat) : Int) := by
      rw [padCount]
      omega
    rw [if_pos (by omega),if_neg hn,hval,int_some]
    rw [padCount]
    omega

/-- Every plain text is followed by its padding up to the next full block. -/
theorem pad_spec (p out : List Byte) (h : p.length+32≤2147483647) (hout : p.length+32≤out.length) :
    ∃ out',pad (splice out 0 p) p.length
        (if p.length%16=0 then (p.length : Int) else ((p.length+padCount p.length : Nat) : Int))=
        some (((p.length+padCount p.length : Nat) : Int),out') ∧
      out'.length=out.length ∧
      out'.take (p.length+padCount p.length)=
        p++List.replicate (padCount p.length) (BitVec.ofNat 8 (padCount p.length)) := by
  have hlen : (splice out 0 p).length=out.length := splice_length out p 0 (by omega)
  have htake0 : (splice out 0 p).take p.length=p := by
    have := splice_take out p 0 (by omega)
    rwa [Nat.zero_add,List.take_zero,List.nil_append] at this
  have hlt := Nat.mod_lt p.length (by decide : 0<16)
  by_cases hn : p.length%16=0
  · have hpc : padCount p.length=16 := by
      rw [padCount]
      omega
    have hdat : (p.length : Int)+0x10=((p.length+16 : Nat) : Int) := by omega
    have hstop : ((p.length+16 : Nat) : Int)+16=((p.length+32 : Nat) : Int) := by omega
    have hstore := storePadding_some (splice out 0 p) p.length 32 16 (by omega)
    have htake := splice_take (splice out 0 p) (List.replicate 32 (BitVec.ofNat 8 16))
      p.length (by omega)
    refine ⟨splice (splice out 0 p) p.length (List.replicate 32 (BitVec.ofNat 8 16)),?_,?_,?_⟩
    · rw [pad]
      have h1 : int (p.length+0x10)=some ((p.length+16 : Nat) : Int) := by
        rw [hdat]
        exact int_some _ (by omega)
      have h2 : int (((p.length+16 : Nat) : Int)+16)=some ((p.length+32 : Nat) : Int) := by
        rw [hstop]
        exact int_some _ (by omega)
      rw [if_pos hn,if_neg (by omega),h1,Option.bind_eq_bind,Option.bind_some,h2,
        Option.bind_eq_bind,Option.bind_some]
      rw [Nat.cast_ofNat] at hstore
      rw [hstore,hpc,Option.bind_some,Option.pure_def]
    · rw [splice_length _ _ _ (by rw [List.length_replicate]; omega),hlen]
    · rw [List.length_replicate,htake0] at htake
      have hcut := congrArg (List.take (p.length+16)) htake
      rw [List.take_take,min_eq_left (by omega),List.take_length_add_append,
        List.take_replicate] at hcut
      rw [hpc]
      exact hcut
  · have hpc : padCount p.length+p.length%16=16 := by
      rw [padCount]
      omega
    have hstore := storePadding_some (splice out 0 p) p.length (padCount p.length)
      (padCount p.length) (by omega)
    have htake := splice_take (splice out 0 p)
      (List.replicate (padCount p.length) (BitVec.ofNat 8 (padCount p.length)))
      p.length (by omega)
    refine ⟨splice (splice out 0 p) p.length
      (List.replicate (padCount p.length) (BitVec.ofNat 8 (padCount p.length))),?_,?_,?_⟩
    · rw [pad]
      rw [if_neg hn,if_pos (by omega)]
      rw [show ((p.length+padCount p.length : Nat) : Int)-p.length=
        ((padCount p.length : Nat) : Int) by omega,hstore]
      rfl
    · rw [splice_length _ _ _ (by rw [List.length_replicate]; omega),hlen]
    · rw [List.length_replicate,htake0] at htake
      exact htake

/-- CBC round trip: for every key, iv and plain text the padded length is returned, and
decryption returns the plain text and its length. -/
theorem aesCbc_roundtrip (stackE stackD : Aes) (alignedE alignedD : Bool)
    (key iv p encOut plainOut : List Byte)
    (hkey : key.length=16 ∨ key.length=24 ∨ key.length=32) (hiv : iv.length=16)
    (hint : p.length+32≤2147483647) (henc : p.length+32≤encOut.length)
    (hplain : p.length+32≤plainOut.length) :
    ∃ cipher,aesEncrypt stackE alignedE key key.length (some iv) p p.length encOut
        (p.length+32)=some (((16*(p.length/16+1) : Nat) : Int),cipher) ∧
      ∃ out,aesDecrypt stackD alignedD key key.length (some iv)
        (cipher.take (16*(p.length/16+1))) (16*(p.length/16+1) : Nat) plainOut
        (p.length+32)=some ((p.length : Int),out) ∧ out.take p.length=p := by
  have hD : p.length+padCount p.length=16*(p.length/16+1) := by
    have := Nat.div_add_mod p.length 16
    have := Nat.mod_lt p.length (by decide : 0<16)
    rw [padCount]
    omega
  have hpc : padCount p.length≤16 ∧ 0<padCount p.length := by
    have := Nat.mod_lt p.length (by decide : 0<16)
    rw [padCount]
    omega
  have hkl : ((key.length : Int)%2^32).toNat=key.length := by omega
  obtain ⟨hpair,hreg⟩ := setKey_paired stackE stackD key key.length hkey iv hiv
  obtain ⟨padded,hpad,hplen,hptake⟩ := pad_spec p encOut hint henc
  obtain ⟨aes,cipher,hrunE,hclen,aes',out,hrunD,hout,holen⟩ :=
    hpair.cbc alignedE alignedD (p.length/16+1) padded plainOut (by rw [hreg]; exact hiv)
      (by omega) (by omega)
  have hcopy := copyTo_some encOut p 0 (by omega)
  rw [hD] at hptake hpad
  rw [hptake] at hout
  refine ⟨cipher,?_,out,?_,?_⟩
  · have hdat := roundedLength_some p.length hint
    rw [hD] at hdat
    rw [aesEncrypt]
    rw [hdat,hkl]
    simp only [Option.bind_eq_bind,Option.bind_some]
    rw [if_neg (by split_ifs <;> omega),if_neg (by omega),Int.toNat_natCast,hcopy,
      Option.bind_some,hpad,Option.bind_some,Int.toNat_natCast,hrunE]
    rfl
  · have hsz : (((16*(p.length/16+1) : Nat) : Int)%2^32).toNat=16*(p.length/16+1) := by omega
    have hidx : (((16*(p.length/16+1) : Nat) : Int)-1).toNat=
        p.length+(padCount p.length-1) := by omega
    have hlast : out[p.length+(padCount p.length-1)]?=
        some (BitVec.ofNat 8 (padCount p.length)) := by
      rw [← List.getElem?_take_of_lt (show p.length+(padCount p.length-1)<
        16*(p.length/16+1) by omega),hout,List.getElem?_append_right (by omega),
        Nat.add_sub_cancel_left,List.getElem?_replicate_of_lt (by omega)]
    rw [aesDecrypt]
    rw [if_neg (by omega),hkl,hsz]
    simp only [hrunD,Option.bind_eq_bind,Option.bind_some]
    rw [if_neg (by omega),hidx,hlast,Option.bind_some,BitVec.toNat_ofNat,
      Nat.mod_eq_of_lt (by omega),Option.pure_def]
    congr 2
    omega
  · have := congrArg (List.take p.length) hout
    rw [List.take_take,min_eq_left (by omega),List.take_left' rfl] at this
    exact this

/-- Three bytes under an all-zero key of 24 bytes. -/
theorem aesCbc_roundtrip_three :
    ∃ cipher,aesEncrypt ⟨[],0,[],[]⟩ true (List.replicate 24 0) 24
        (some (List.replicate 16 0)) [1,2,3] 3 (List.replicate 35 0) 35=some (16,cipher) ∧
      ∃ out,aesDecrypt ⟨[],0,[],[]⟩ false (List.replicate 24 0) 24
        (some (List.replicate 16 0)) (cipher.take 16) 16 (List.replicate 35 0) 35=
        some (3,out) ∧ out.take 3=[1,2,3] :=
  aesCbc_roundtrip ⟨[],0,[],[]⟩ ⟨[],0,[],[]⟩ true false (List.replicate 24 0)
    (List.replicate 16 0) [1,2,3] (List.replicate 35 0) (List.replicate 35 0)
    (by decide) (by decide) (by decide) (by decide) (by decide)

end IdearNiu.Crypto
