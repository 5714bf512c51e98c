import IdearNiu.Crypto.AesContract

namespace IdearNiu.Crypto

open Memory Chaining Gf256

/-- PKCS#7: the text ends in v bytes that all hold v. -/
def Padded (text : List Byte) (v : Nat) : Prop :=
  1≤v ∧ v≤16 ∧ v≤text.length ∧ text.drop (text.length-v)=List.replicate v (BitVec.ofNat 8 v)

/-- The contract of aes_decrypt for buffers that end at encLength and at maxOutLen, and
whatever its uninitialised context holds: no access leaves them, and a length is returned
only for a usable key and whole blocks that end in a padding, and is then the length
without it. -/
def DecryptContract (aligned : Bool) (key : List Byte) (keyLength : Int) (iv : List Byte)
    (encIn : List Byte) (encLength : Int) (plainOut : List Byte) (maxOutLen : Int) : Prop :=
  ∀ stack : Aes,∃ n out,
    aesDecrypt stack aligned key keyLength (some iv) encIn encLength plainOut maxOutLen=
      some (n,out) ∧
    (0≤n → ValidKeyLength keyLength.toNat ∧ 0<encLength ∧ encLength%16=0 ∧
      ∃ v : Nat,Padded (out.take encLength.toNat) v ∧ n=encLength-v)

/-- The context that a key sets up in cleared memory. -/
def decryptContext (key : List Byte) (keyLength : Nat) (iv : List Byte) : Aes :=
  ((⟨[],0,[],[]⟩ : Aes).setKey key keyLength (some iv) .decryption).2

/-- CBC decryption of a cipher text under a key. -/
def cbcPlain (key : List Byte) (keyLength : Nat) (iv cipher : List Byte) : List Byte :=
  (unchain (xorbuf true) (decryptContext key keyLength iv).decipher iv
    (blocks 16 cipher)).flatten

/-- The inputs that aes_decrypt handles as it should: it refuses them for their length, or
they are whole blocks under a usable key whose text ends in a padding or in a byte that
makes the result negative, or they are no whole blocks and the byte that the output buffer
held at their end makes the result negative. -/
def decryptHandles (key : List Byte) (keyLength : Int) (iv encIn : List Byte)
    (encLength : Int) (plainOut : List Byte) (maxOutLen : Int) : Prop :=
  maxOutLen<encLength ∨ 0<encLength ∧
    if encLength%16=0 then ValidKeyLength keyLength.toNat ∧
      ((∃ v,Padded (cbcPlain key keyLength.toNat iv encIn) v) ∨
        encLength<((cbcPlain key keyLength.toNat iv encIn).getLastD 0).toNat)
    else encLength<(plainOut.getD (encLength.toNat-1) 0).toNat

/-- Whatever the context holds, the loop stays in its buffers and leaves what lies behind
its blocks. -/
theorem cbcDecryptLoop_total (aligned : Bool) (input : List Byte) (n off : Nat) (aes : Aes)
    (out : List Byte) (h : off+16*n≤out.length) (hin : off+16*n ≤ input.length) :
    ∃ aes' out',cbcDecryptLoop aligned input n off aes out=some (aes',out') ∧
      ∀ j,off+16*n ≤ j → out'[j]?=out[j]? := by
  induction n generalizing off aes out with
  | zero => exact ⟨aes,out,rfl,fun _ _ => rfl⟩
  | succ n ih =>
    have hc := xorbuf_length aligned
      (aes.decrypt ((input.drop off).take 16) ((out.drop off).take 16)) aes.reg
    generalize hcdef : xorbuf aligned
      (aes.decrypt ((input.drop off).take 16) ((out.drop off).take 16)) aes.reg=c at hc
    have hfrom := copyFrom_some input off 16 (by omega)
    have hold := copyFrom_some out off 16 (by omega)
    have hto := copyTo_some out c off (by omega)
    rw [hc] at hto
    obtain ⟨aes',out',hrun,hkept⟩ := ih (off+16)
      { aes with tmp := (input.drop off).take 16, reg := (input.drop off).take 16 }
      (splice out off c) (by rw [splice_length _ _ _ (by omega)]; omega) (by omega)
    refine ⟨aes',out',?_,?_⟩
    · rw [cbcDecryptLoop]
      simp only [hfrom,hold,hcdef,hto,Option.bind_eq_bind,Option.bind_some]
      exact hrun
    · intro j hj
      rw [hkept j (by omega)]
      exact splice_get_after _ _ _ _ (by omega) (by omega)

section

variable {enc dec dec' : Aes}

theorem InverseKeys.roundKey_eq {ek dk dk' : List Word} {N : Nat} (h : InverseKeys ek dk N)
    (h' : InverseKeys ek dk' N) (a : Nat) (ha : a≤N) :
    roundKey dk (4*a)=roundKey dk' (4*a) := by
  rcases Nat.eq_zero_or_pos a with rfl|hpos
  · exact h.first.trans h'.first.symm
  · rcases Nat.lt_or_ge a N with hlt|hge
    · rw [h.middle a hpos hlt,h'.middle a hpos hlt]
    · obtain rfl : a=N := by omega
      exact h.last.trans h'.last.symm

theorem InverseKeys.decryptRounds_eq {ek dk dk' : List Word} {N : Nat}
    (h : InverseKeys ek dk N) (h' : InverseKeys ek dk' N) (s : State) (n : Nat) (hn : n≤N) :
    decryptRounds dk s n=decryptRounds dk' s n := by
  induction n with
  | zero => rfl
  | succ n ih =>
    rw [decryptRounds,decryptRounds,ih (by omega),h.roundKey_eq h' (n+1) hn]

/-- The block function does not depend on what the memory held before the key. -/
theorem Paired.decipher_eq (h : Paired enc dec) (h' : Paired enc dec') (b : List Byte) :
    dec.decipher b=dec'.decipher b := by
  obtain ⟨r,hr,hn⟩ := h.even
  have hkeys := h.keys
  have hkeys' := h'.keys
  have hhalf : 2*(r+1)/2=r+1 := by omega
  rw [hn] at hkeys hkeys'
  rw [Aes.decipher,Aes.decipher,h.decrypt_eq,h'.decrypt_eq,hn,hhalf]
  have hfirst := hkeys.roundKey_eq hkeys' 0 (by omega)
  rw [Nat.mul_zero] at hfirst
  rw [hfirst]
  generalize (loadState b).xor (roundKey dec'.key 0)=s
  have hrun := decryptLoop_rounds dec.key s r 0
  have hrun' := decryptLoop_rounds dec'.key s r 0
  have hzero : ∀ rk,decryptRounds rk s 0=s := fun _ => rfl
  simp only [Nat.mul_zero,Nat.zero_add,hzero] at hrun hrun'
  rw [hrun,hrun',hkeys.decryptRounds_eq hkeys' s (2*r+1) (by omega),
    hkeys.roundKey_eq hkeys' (2*r+2) (by omega)]

end

theorem xorbuf_any (aligned aligned' : Bool) : xorbuf aligned=xorbuf aligned' := by
  funext buf mask
  rw [xorbuf_aligned,xorbuf_aligned]

theorem getLastD_append_block (a b : List Byte) (hb : b.length=16) :
    (a++b).getLastD 0=b.getD 15 0 := by
  have hne : b≠[] := List.ne_nil_of_length_pos (by omega)
  rw [List.getLastD_eq_getLast?,List.getLast?_append_of_ne_nil _ hne,
    List.getLast?_eq_getElem?,hb]
  rfl

theorem getElem?_last (l : List Byte) (h : 0<l.length) :
    l[l.length-1]?=some (l.getLastD 0) := by
  rw [← List.getLast?_eq_getElem?,List.getLastD_eq_getLast?,
    List.getLast?_eq_some_getLast (List.ne_nil_of_length_pos h)]
  rfl

theorem Padded.last {text : List Byte} {v : Nat} (h : Padded text v) :
    (text.getLastD 0).toNat=v := by
  obtain ⟨hlow,hhigh,hlen,htail⟩ := h
  have hget := congrArg (fun l => l[v-1]?) htail
  simp only [List.getElem?_drop] at hget
  rw [List.getElem?_replicate_of_lt (by omega),show text.length-v+(v-1)=text.length-1 by omega,
    getElem?_last text (by omega)] at hget
  rw [Option.some.inj hget,BitVec.toNat_ofNat]
  omega

section

variable (stack : Aes) (aligned : Bool) (key : List Byte) (keyLength : Int) (iv : List Byte)
  (encIn : List Byte) (encLength : Int) (plainOut : List Byte) (maxOutLen : Int)

theorem aesDecrypt_refused (h : maxOutLen<encLength) :
    aesDecrypt stack aligned key keyLength (some iv) encIn encLength plainOut maxOutLen=
      some (-1,plainOut) := by
  rw [aesDecrypt,if_pos h]

theorem aesDecrypt_eq (h : ¬maxOutLen<encLength) :
    aesDecrypt stack aligned key keyLength (some iv) encIn encLength plainOut maxOutLen=
      ((stack.setKey key (keyLength%2^32).toNat (some iv) .decryption).2.cbcDecrypt aligned
        plainOut encIn (encLength%2^32).toNat).bind (fun r =>
          if encLength<1 then none
          else r.2[(encLength-1).toNat]?.map (fun last => (encLength-last.toNat,r.2))) := by
  rw [aesDecrypt,if_neg h]
  simp only [Option.bind_eq_bind]
  congr 1
  funext r
  split
  · rfl
  · cases r.2[(encLength-1).toNat]? <;> rfl

/-- Nothing to decrypt: the byte before the buffer is read. -/
theorem aesDecrypt_empty (hroom : ¬maxOutLen<encLength) (hlen : encLength≤0) :
    aesDecrypt stack aligned key keyLength (some iv) encIn encLength plainOut maxOutLen=
      none := by
  have hneg : encLength<1 := by omega
  rw [aesDecrypt_eq _ _ _ _ _ _ _ _ _ hroom]
  simp only [hneg,if_true,Option.bind_fun_none]

/-- A text that ends inside a block: the byte read as padding is an old one. -/
theorem aesDecrypt_part (hroom : encLength ≤ maxOutLen) (hpos : 0<encLength)
    (hint : isInt encLength) (hpart : encLength%16≠0) (hin : encIn.length=encLength.toNat)
    (hout : plainOut.length=maxOutLen.toNat) :
    ∃ out,aesDecrypt stack aligned key keyLength (some iv) encIn encLength plainOut maxOutLen=
      some (encLength-(plainOut.getD (encLength.toNat-1) 0).toNat,out) := by
  rw [isInt] at hint
  have hsz : (encLength%2^32).toNat=encLength.toNat := by omega
  have hidx : (encLength-1).toNat=encLength.toNat-1 := by omega
  obtain ⟨aes,out,hrun,hkept⟩ := cbcDecryptLoop_total aligned encIn (encLength.toNat/16) 0
    (stack.setKey key (keyLength%2^32).toNat (some iv) .decryption).2 plainOut
    (by omega) (by omega)
  have hlast : out[encLength.toNat-1]?=some (plainOut.getD (encLength.toNat-1) 0) := by
    rw [hkept _ (by omega),List.getD,List.getElem?_eq_getElem (by omega),Option.getD_some]
  refine ⟨out,?_⟩
  have hcbc : (stack.setKey key (keyLength%2^32).toNat (some iv) .decryption).2.cbcDecrypt
      aligned plainOut encIn encLength.toNat=some (aes,out) := hrun
  rw [aesDecrypt_eq _ _ _ _ _ _ _ _ _ (by omega),hsz,hcbc,Option.bind_some,
    if_neg (by omega),hidx,hlast,Option.map_some]

/-- Whole blocks under a context whose block function ignores the output buffer. -/
theorem aesDecrypt_blocks (dec : Aes)
    (hset : (stack.setKey key (keyLength%2^32).toNat (some iv) .decryption).2=dec)
    (hdec : ∀ b old,dec.decrypt b old=dec.decipher b)
    (hroom : encLength ≤ maxOutLen) (hpos : 0<encLength)
    (hint : isInt encLength) (hfull : encLength%16=0) (hin : encIn.length=encLength.toNat)
    (hout : plainOut.length=maxOutLen.toNat) (plain : List Byte)
    (hplain : (unchain (xorbuf aligned) dec.decipher dec.reg (blocks 16 encIn)).flatten=plain) :
    ∃ out,aesDecrypt stack aligned key keyLength (some iv) encIn encLength plainOut maxOutLen=
      some (encLength-(plain.getLastD 0).toNat,out) ∧ out.take encLength.toNat=plain := by
  rw [isInt] at hint
  have hsz : (encLength%2^32).toNat=encLength.toNat := by omega
  have hlen : plain.length=encLength.toNat := by
    have hsizes := unchain_good (xorbuf aligned) dec.decipher (fun b => b.length=16)
      (fun x y => xorbuf_length aligned x y) dec.reg (blocks 16 encIn)
    rw [← hplain,List.length_flatten,List.map_congr_left hsizes,List.map_const',
      unchain_length,List.sum_replicate,smul_eq_mul,blocks,chunks_length]
    omega
  have hidx : (encLength-1).toNat=plain.length-1 := by omega
  obtain ⟨aes,hrun⟩ := cbcDecryptLoop_unchain dec aligned encIn hdec (encLength.toNat/16) 0
    dec.tmp dec.reg plainOut (by omega) (by omega)
  have hblocks : chunks 16 (encLength.toNat/16) (encIn.drop 0)=blocks 16 encIn := by
    rw [List.drop_zero,blocks,hin]
  rw [List.take_zero,List.nil_append,hblocks,hplain] at hrun
  refine ⟨plain++plainOut.drop (0+16*(encLength.toNat/16)),?_,List.take_left' hlen⟩
  have hcbc : dec.cbcDecrypt aligned plainOut encIn encLength.toNat=
      some (aes,plain++plainOut.drop (0+16*(encLength.toNat/16))) := hrun
  rw [aesDecrypt_eq _ _ _ _ _ _ _ _ _ (by omega),hset,hsz,hcbc,Option.bind_some,
    if_neg (by omega),hidx,List.getElem?_append_left (by omega),
    getElem?_last plain (by omega),Option.map_some]

theorem aesDecrypt_valid (hkey : ValidKeyLength keyLength.toNat) (hiv : iv.length=16)
    (hroom : encLength ≤ maxOutLen) (hpos : 0<encLength) (hint : isInt encLength)
    (hfull : encLength%16=0) (hin : encIn.length=encLength.toNat)
    (hout : plainOut.length=maxOutLen.toNat) :
    ∃ out,aesDecrypt stack aligned key keyLength (some iv) encIn encLength plainOut maxOutLen=
        some (encLength-((cbcPlain key keyLength.toNat iv encIn).getLastD 0).toNat,out) ∧
      out.take encLength.toNat=cbcPlain key keyLength.toNat iv encIn := by
  have hkl : (keyLength%2^32).toNat=keyLength.toNat := by
    rcases hkey with h|h|h <;> omega
  obtain ⟨hpair,hreg⟩ := setKey_paired ⟨[],0,[],[]⟩ stack key keyLength.toNat hkey iv hiv
  obtain ⟨hpair',_⟩ := setKey_paired ⟨[],0,[],[]⟩ ⟨[],0,[],[]⟩ key keyLength.toNat hkey iv hiv
  apply aesDecrypt_blocks stack aligned key keyLength iv encIn encLength plainOut maxOutLen
    (stack.setKey key keyLength.toNat (some iv) .decryption).2 (by rw [hkl])
    (fun b old => (hpair.decrypt_eq b old).trans (hpair.decrypt_eq b []).symm)
    hroom hpos hint hfull hin hout
  have hcipher : (stack.setKey key keyLength.toNat (some iv) .decryption).2.decipher=
      (decryptContext key keyLength.toNat iv).decipher :=
    funext (fun b => hpair.decipher_eq hpair' b)
  rw [hcipher,hpair.reg,hreg,xorbuf_any aligned true]
  rfl

/-- What a context that no key was set in may hold: two rounds whose last key is free. -/
def looseContext (w : Word) : Aes := ⟨List.replicate 11 0++[w],2,iv,[]⟩

theorem looseContext_last (w : Word) (b old : List Byte) :
    (looseContext iv w).decrypt b old=(looseContext iv w).decipher b ∧
    ((looseContext iv w).decipher b).getD 15 0=
      ((looseContext iv 0).decipher b).getD 15 0^^^byte w 0 := by
  have hrun : ∀ (w : Word) (old : List Byte),(looseContext iv w).decrypt b old=storeState
      (lastDecryptRound (decryptRound ((loadState b).xor ⟨0,0,0,0⟩) ⟨0,0,0,0⟩)
        ⟨0,0,0,w⟩) := by
    intro w old
    have hrounds : (looseContext iv w).rounds>>>1=1 := by
      simp only [looseContext]
      decide
    rw [Aes.decrypt]
    simp only [hrounds]
    rw [if_neg (by decide)]
    rfl
  have hlast : ∀ s : State,(storeState s).getD 15 0=byte s.s3 0 := by
    intro s
    simp only [storeState,storeWord_reverse]
    rfl
  refine ⟨by rw [Aes.decipher,hrun,hrun],?_⟩
  rw [Aes.decipher,Aes.decipher,hrun,hrun,hlast,hlast]
  simp only [lastDecryptRound,byte_xor]
  rw [show byte (0 : Word) 0=0#8 from rfl,BitVec.xor_zero]

/-- Without a usable key some content of the context gives a length. -/
theorem aesDecrypt_loose (hkey : ¬ValidKeyLength keyLength.toNat) (hki : isInt keyLength)
    (hroom : encLength ≤ maxOutLen) (hpos : 0<encLength) (hint : isInt encLength)
    (hfull : encLength%16=0) (hin : encIn.length=encLength.toNat)
    (hout : plainOut.length=maxOutLen.toNat) :
    ∃ (stack : Aes) (out : List Byte),
      aesDecrypt stack aligned key keyLength (some iv) encIn encLength plainOut maxOutLen=
        some (encLength,out) := by
  have hblocks : blocks 16 encIn≠[] := by
    intro hnil
    have hlen := congrArg List.length hnil
    rw [blocks,chunks_length,List.length_nil] at hlen
    omega
  obtain ⟨cs,c,hcs⟩ := (List.eq_nil_or_concat (blocks 16 encIn)).resolve_left hblocks
  generalize hmask : ((looseContext iv 0).decipher c).getD 15 0^^^(cs.getLastD iv).getD 15 0=m
  have hset : ((looseContext iv (m.setWidth 32)).setKey key (keyLength%2^32).toNat (some iv)
      .decryption).2=looseContext iv (m.setWidth 32) := by
    have hbad := mt (validKeyLength_unsigned keyLength hki).mp hkey
    rw [ValidKeyLength] at hbad
    rw [Aes.setKey,if_pos hbad]
  obtain ⟨out,hrun,_⟩ := aesDecrypt_blocks (looseContext iv (m.setWidth 32)) aligned key
    keyLength iv encIn encLength plainOut maxOutLen _ hset
    (fun b old => (looseContext_last iv (m.setWidth 32) b old).1) hroom hpos hint hfull hin
    hout _ rfl
  refine ⟨looseContext iv (m.setWidth 32),out,?_⟩
  rw [hrun]
  have hbyte : byte (m.setWidth 32) 0=m := by
    apply BitVec.eq_of_getLsbD_eq
    intro i hi
    rw [byte_getLsbD _ _ _ hi,BitVec.getLsbD_setWidth]
    simp
    omega
  have hzero : (unchain (xorbuf aligned) (looseContext iv (m.setWidth 32)).decipher
      (looseContext iv (m.setWidth 32)).reg (blocks 16 encIn)).flatten.getLastD 0=0 := by
    rw [hcs,List.concat_eq_append,unchain_concat,List.flatten_append,List.flatten_singleton,
      getLastD_append_block _ _ (xorbuf_length _ _ _),xorbuf_aligned]
    have hx := (looseContext_last iv (m.setWidth 32) c []).2
    rw [hbyte] at hx
    have hreg : (looseContext iv (m.setWidth 32)).reg=iv := rfl
    rw [show ∀ f : Nat → Byte,((List.range 16).map f).getD 15 0=f 15 from fun _ => rfl,hx,
      hreg,BitVec.xor_assoc,BitVec.xor_comm m,← BitVec.xor_assoc,hmask,BitVec.xor_self]
    rfl
  rw [hzero]
  simp

end

/-- aes_decrypt keeps its contract exactly on the inputs it handles. -/
theorem aes_decrypt_contract_iff (aligned : Bool) (key : List Byte) (keyLength : Int)
    (iv encIn : List Byte) (encLength : Int) (plainOut : List Byte) (maxOutLen : Int)
    (hkey : isInt keyLength) (hiv : iv.length=16) (henc : isInt encLength)
    (hin : encIn.length=encLength.toNat) (hout : plainOut.length=maxOutLen.toNat) :
    DecryptContract aligned key keyLength iv encIn encLength plainOut maxOutLen ↔
      decryptHandles key keyLength iv encIn encLength plainOut maxOutLen := by
  rw [DecryptContract,decryptHandles]
  by_cases hsmall : maxOutLen<encLength
  · refine iff_of_true (fun stack => ⟨-1,plainOut,?_,fun h => absurd h (by decide)⟩)
      (Or.inl hsmall)
    exact aesDecrypt_refused stack aligned key keyLength iv encIn encLength plainOut maxOutLen
      hsmall
  · simp only [hsmall,false_or]
    by_cases hpos : 0<encLength
    · simp only [hpos,true_and]
      by_cases hfull : encLength%16=0
      · rw [if_pos hfull]
        by_cases hvalid : ValidKeyLength keyLength.toNat
        · simp only [hvalid,hfull,true_and]
          have hrun := fun stack => aesDecrypt_valid stack aligned key keyLength iv encIn
            encLength plainOut maxOutLen hvalid hiv (by omega) hpos henc hfull hin hout
          constructor
          · intro h
            obtain ⟨out,hret,htake⟩ := hrun ⟨[],0,[],[]⟩
            obtain ⟨n,out',hret',hlen⟩ := h ⟨[],0,[],[]⟩
            rw [hret] at hret'
            obtain ⟨rfl,rfl⟩ := Prod.mk.inj (Option.some.inj hret')
            by_cases hbig : encLength<
                ((cbcPlain key keyLength.toNat iv encIn).getLastD 0).toNat
            · exact Or.inr hbig
            · obtain ⟨v,hpadded,_⟩ := hlen (by omega)
              rw [htake] at hpadded
              exact Or.inl ⟨v,hpadded⟩
          · intro h stack
            obtain ⟨out,hret,htake⟩ := hrun stack
            refine ⟨_,out,hret,?_⟩
            rw [htake]
            intro hn
            rcases h with ⟨v,hpadded⟩|hbig
            · exact ⟨v,hpadded,by rw [hpadded.last]⟩
            · omega
        · simp only [hvalid,false_and,iff_false]
          intro h
          obtain ⟨stack,out,hret⟩ := aesDecrypt_loose aligned key keyLength iv encIn encLength
            plainOut maxOutLen hvalid hkey (by omega) hpos henc hfull hin hout
          obtain ⟨n,out',hret',hlen⟩ := h stack
          rw [hret] at hret'
          obtain ⟨rfl,rfl⟩ := Prod.mk.inj (Option.some.inj hret')
          exact hlen (by omega)
      · rw [if_neg hfull]
        have hrun := fun stack => aesDecrypt_part stack aligned key keyLength iv encIn
          encLength plainOut maxOutLen (by omega) hpos henc hfull hin hout
        simp only [hfull,false_and,and_false,imp_false,not_le]
        constructor
        · intro h
          obtain ⟨out,hret⟩ := hrun ⟨[],0,[],[]⟩
          obtain ⟨n,out',hret',hlen⟩ := h ⟨[],0,[],[]⟩
          rw [hret] at hret'
          obtain ⟨rfl,rfl⟩ := Prod.mk.inj (Option.some.inj hret')
          omega
        · intro h stack
          obtain ⟨out,hret⟩ := hrun stack
          exact ⟨_,out,hret,by omega⟩
    · simp only [hpos,false_and,iff_false]
      intro h
      obtain ⟨n,out,hret,_⟩ := h ⟨[],0,[],[]⟩
      rw [aesDecrypt_empty _ _ _ _ _ _ _ _ _ hsmall (by omega)] at hret
      simp at hret

/-- Three bytes and their padding, encrypted under a key of zeros. -/
def threeBytes : List Byte := [193,179,146,124,103,81,44,50,226,217,71,231,140,211,210,41]

theorem aes_decrypt_contract_iff_three :
    DecryptContract true (List.replicate 16 0) 16 (List.replicate 16 0) threeBytes 16
      (List.replicate 16 0) 16 := by
  have hplain : cbcPlain (List.replicate 16 0) 16 (List.replicate 16 0) threeBytes=
      [1,2,3]++List.replicate 13 13 := by decide +kernel
  refine (aes_decrypt_contract_iff true (List.replicate 16 0) 16 (List.replicate 16 0)
    threeBytes 16 (List.replicate 16 0) 16 ⟨by decide,by decide⟩ (by decide)
    ⟨by decide,by decide⟩ (by decide) (by decide)).mpr ?_
  refine Or.inr ⟨by decide,?_⟩
  rw [if_pos (by decide)]
  refine ⟨Or.inl rfl,Or.inl ⟨13,?_⟩⟩
  rw [show (16 : Int).toNat=16 from rfl,hplain]
  exact ⟨by decide,by decide,by decide,by decide⟩

/-- One byte is no block, but the length is returned less the byte that was in the output
buffer. -/
theorem aes_decrypt_returns_rest :
    ¬DecryptContract true (List.replicate 16 0) 16 (List.replicate 16 0) [7] 1 [0] 1 := by
  intro h
  have hret : aesDecrypt ⟨[],0,[],[]⟩ true (List.replicate 16 0) 16
      (some (List.replicate 16 0)) [7] 1 [0] 1=some (1,[0]) := by decide
  obtain ⟨n,out,hsome,hlen⟩ := h ⟨[],0,[],[]⟩
  rw [hret] at hsome
  obtain ⟨rfl,_⟩ := Prod.mk.inj (Option.some.inj hsome)
  exact absurd (hlen (by decide)).2.2.1 (by decide)

end IdearNiu.Crypto
