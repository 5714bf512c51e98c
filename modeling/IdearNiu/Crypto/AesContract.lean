import IdearNiu.Crypto.AesCbc

namespace IdearNiu.Crypto

open Memory Chaining

/-- A C int. -/
def isInt (x : Int) : Prop := -2147483648≤x ∧ x≤2147483647

/-- The length of the padded text. -/
def paddedLength (plainLength : Int) : Int := 16*(plainLength/16+1)

/-- The contract of aes_encrypt, for an output buffer that ends at maxOutLen: nothing is
written behind it, a length is returned only for a usable key and a text that fits, and
otherwise the buffer is as before. -/
def EncryptContract (stack : Aes) (aligned : Bool) (key : List Byte) (keyLength : Int)
    (iv : Option (List Byte)) (plainIn : List Byte) (plainLength : Int) (encOut : List Byte)
    (maxOutLen : Int) : Prop :=
  ∃ n out,aesEncrypt stack aligned key keyLength iv plainIn plainLength encOut maxOutLen=
      some (n,out) ∧
    (0≤n → ValidKeyLength keyLength.toNat ∧ n=paddedLength plainLength ∧ n ≤ maxOutLen) ∧
    (n<0 → out=encOut)

/-- The capacities and keys that aes_encrypt handles as it should. A text of full blocks
needs 32 bytes of room, because the padding loop runs one block too far; any other text
must not overflow when it is rounded up. -/
def encryptHandles (keyLength plainLength maxOutLen : Int) : Prop :=
  if plainLength%16=0 then
    maxOutLen<plainLength ∨ (ValidKeyLength keyLength.toNat ∧ plainLength+32 ≤ maxOutLen)
  else paddedLength plainLength≤2147483647 ∧
    (maxOutLen<paddedLength plainLength ∨ ValidKeyLength keyLength.toNat)

/-- Whatever the context holds, the loop stays in its buffer. -/
theorem cbcEncryptLoop_total (aligned : Bool) (n off : Nat) (aes : Aes) (buf : List Byte)
    (h : off+16*n≤buf.length) : ∃ aes' out,cbcEncryptLoop aligned n off aes buf=some (aes',out) := by
  induction n generalizing off aes buf with
  | zero => exact ⟨aes,buf,rfl⟩
  | succ n ih =>
    have hreg : (aes.encrypt (xorbuf aligned aes.reg ((buf.drop off).take 16))
        (xorbuf aligned aes.reg ((buf.drop off).take 16))).length=16 := by
      simp only [Aes.encrypt]
      split
      · exact xorbuf_length _ _ _
      · exact storeState_length _
    have hfrom := copyFrom_some buf off 16 (by omega)
    have hto := copyTo_some buf _ off (by rw [hreg]; omega :
      off+(aes.encrypt (xorbuf aligned aes.reg ((buf.drop off).take 16))
        (xorbuf aligned aes.reg ((buf.drop off).take 16))).length≤buf.length)
    rw [hreg] at hto
    rw [cbcEncryptLoop]
    simp only [hfrom,Option.bind_eq_bind,Option.bind_some,hto]
    apply ih
    rw [splice_length _ _ _ (by rw [hreg]; omega)]
    omega

theorem validKeyLength_unsigned (keyLength : Int) (h : isInt keyLength) :
    ValidKeyLength (keyLength%2^32).toNat ↔ ValidKeyLength keyLength.toNat := by
  simp only [ValidKeyLength,isInt] at h ⊢
  omega

theorem roundedLength_full (plainLength : Int) (h : 0≤plainLength) (hfull : plainLength%16=0) :
    roundedLength plainLength=some plainLength := by
  rw [roundedLength,Int.tdiv_eq_ediv_of_nonneg h,if_neg (by omega)]

theorem roundedLength_part (plainLength : Int) (h : 0≤plainLength) (hpart : plainLength%16≠0) :
    roundedLength plainLength=
      if paddedLength plainLength≤2147483647 then some (paddedLength plainLength) else none := by
  have hpad : (plainLength/16+1)*16=paddedLength plainLength := by
    rw [paddedLength]
    omega
  rw [roundedLength,Int.tdiv_eq_ediv_of_nonneg h,if_pos (by omega),hpad,int]
  have hlow : -2147483648≤paddedLength plainLength := by
    rw [paddedLength]
    omega
  simp only [hlow,true_and]

/-- storePadding as a whole: it needs the room up to its stop. -/
theorem storePadding_eq (out : List Byte) (start stop value : Int) (h : 0 ≤ start)
    (hs : start ≤ stop) :
    storePadding out start stop value=
      if stop≤out.length then
        some (splice out start.toNat (List.replicate (stop-start).toNat (BitVec.ofInt 8 value)))
      else none := by
  rw [storePadding,copyTo]
  have hroom : start.toNat+(stop-start).toNat≤out.length ↔ stop≤out.length := by omega
  simp only [hroom,List.length_replicate,Nat.le_refl,and_true]
  rw [List.take_of_length_le (by rw [List.length_replicate])]

section

variable (stack : Aes) (aligned : Bool) (key : List Byte) (keyLength : Int)
  (iv : Option (List Byte)) (plainIn : List Byte) (plainLength : Int) (encOut : List Byte)
  (maxOutLen : Int)

theorem aesEncrypt_refused (datLen : Int) (hround : roundedLength plainLength=some datLen)
    (hsmall : maxOutLen<datLen) :
    aesEncrypt stack aligned key keyLength iv plainIn plainLength encOut maxOutLen=
      some (-1,encOut) := by
  simp only [aesEncrypt,hround,Option.bind_eq_bind,Option.bind_some,hsmall,if_true]

/-- Past the capacity test the call comes down to the padding. -/
theorem aesEncrypt_padded (datLen : Int) (hround : roundedLength plainLength=some datLen)
    (hroom : datLen ≤ maxOutLen) (hplain : 0≤plainLength) (hdat : plainLength≤datLen)
    (hin : plainLength≤plainIn.length) (hout : encOut.length=maxOutLen.toNat) :
    ∃ copied,copied.length=encOut.length ∧
      (pad copied plainLength datLen=none →
        aesEncrypt stack aligned key keyLength iv plainIn plainLength encOut maxOutLen=none) ∧
      ∀ n out,pad copied plainLength datLen=some (n,out) → 0≤n → n≤out.length →
        ∃ cipher,aesEncrypt stack aligned key keyLength iv plainIn plainLength encOut maxOutLen=
          some (n,cipher) := by
  have hcopy : copyTo encOut 0 plainIn plainLength.toNat=
      some (splice encOut 0 (plainIn.take plainLength.toNat)) := by
    rw [copyTo,if_pos ⟨by omega,by omega⟩]
  have hlen : (plainIn.take plainLength.toNat).length=plainLength.toNat := by
    rw [List.length_take]
    omega
  refine ⟨splice encOut 0 (plainIn.take plainLength.toNat),
    splice_length _ _ _ (by omega),?_,?_⟩
  · intro hpad
    simp only [aesEncrypt,hround,Option.bind_eq_bind,Option.bind_some]
    rw [if_neg (by omega),if_neg (by omega),hcopy,Option.bind_some,hpad,Option.bind_none]
  · intro n out hpad hn hle
    obtain ⟨aes,cipher,hrun⟩ := cbcEncryptLoop_total aligned (n.toNat/16) 0
      (stack.setKey key (keyLength%2^32).toNat iv .encryption).2 out (by omega)
    refine ⟨cipher,?_⟩
    simp only [aesEncrypt,hround,Option.bind_eq_bind,Option.bind_some]
    rw [if_neg (by omega),if_neg (by omega),hcopy,Option.bind_some,hpad,Option.bind_some,
      Aes.cbcEncrypt,hrun]
    rfl

theorem aesEncrypt_part (hplain : 0≤plainLength) (hpart : plainLength%16≠0)
    (hfit : paddedLength plainLength≤2147483647) (hroom : paddedLength plainLength ≤ maxOutLen)
    (hin : plainLength≤plainIn.length) (hout : encOut.length=maxOutLen.toNat) :
    ∃ cipher,aesEncrypt stack aligned key keyLength iv plainIn plainLength encOut maxOutLen=
      some (paddedLength plainLength,cipher) := by
  have hround := roundedLength_part plainLength hplain hpart
  rw [if_pos hfit] at hround
  have hgt : plainLength<paddedLength plainLength := by
    rw [paddedLength]
    omega
  obtain ⟨copied,hlen,_,hrun⟩ := aesEncrypt_padded stack aligned key keyLength iv plainIn
    plainLength encOut maxOutLen _ hround hroom hplain (by omega) hin hout
  refine hrun _ (splice copied plainLength.toNat (List.replicate
    (paddedLength plainLength-plainLength).toNat
    (BitVec.ofInt 8 (paddedLength plainLength-plainLength)))) ?_ (by omega) ?_
  · rw [pad,if_pos (by omega),storePadding_eq _ _ _ _ hplain (by omega),if_pos (by omega)]
    rfl
  · rw [splice_length _ _ _ (by rw [List.length_replicate]; omega)]
    omega

theorem aesEncrypt_full (hplain : 0≤plainLength) (hfull : plainLength%16=0)
    (hroom : plainLength+32 ≤ maxOutLen) (hmax : isInt maxOutLen)
    (hin : plainLength≤plainIn.length) (hout : encOut.length=maxOutLen.toNat) :
    ∃ cipher,aesEncrypt stack aligned key keyLength iv plainIn plainLength encOut maxOutLen=
      some (paddedLength plainLength,cipher) := by
  have hround := roundedLength_full plainLength hplain hfull
  have hpadded : paddedLength plainLength=plainLength+16 := by
    rw [paddedLength]
    omega
  rw [isInt] at hmax
  obtain ⟨copied,hlen,_,hrun⟩ := aesEncrypt_padded stack aligned key keyLength iv plainIn
    plainLength encOut maxOutLen _ hround (by omega) hplain (by omega) hin hout
  refine hrun _ (splice copied plainLength.toNat (List.replicate
    (plainLength+16+16-plainLength).toNat (BitVec.ofInt 8 16))) ?_ (by omega) ?_
  · rw [pad,if_neg (by omega),int_some _ (by omega),Option.bind_eq_bind,Option.bind_some,
      int_some _ (by omega),Option.bind_eq_bind,Option.bind_some,
      storePadding_eq _ _ _ _ hplain (by omega),if_pos (by omega),hpadded]
    rfl
  · rw [splice_length _ _ _ (by rw [List.length_replicate]; omega)]
    omega

/-- A text of full blocks whose padding would fit but not the block behind it. -/
theorem aesEncrypt_overrun (hplain : 0≤plainLength) (hfull : plainLength%16=0)
    (hroom : plainLength ≤ maxOutLen) (htight : maxOutLen<plainLength+32)
    (hin : plainLength≤plainIn.length) (hout : encOut.length=maxOutLen.toNat) :
    aesEncrypt stack aligned key keyLength iv plainIn plainLength encOut maxOutLen=none := by
  have hround := roundedLength_full plainLength hplain hfull
  obtain ⟨copied,hlen,hnone,_⟩ := aesEncrypt_padded stack aligned key keyLength iv plainIn
    plainLength encOut maxOutLen _ hround hroom hplain (by omega) hin hout
  apply hnone
  rw [pad,if_neg (by omega)]
  simp only [int,Option.bind_eq_bind]
  split
  · rw [Option.bind_some]
    split
    · rw [Option.bind_some,storePadding_eq _ _ _ _ hplain (by omega),if_neg (by omega)]
      rfl
    · rfl
  · rfl

/-- aes_encrypt keeps its contract exactly for the capacities and keys it handles. -/
theorem aes_encrypt_contract_iff (hplain : 0≤plainLength) (hmax : isInt maxOutLen)
    (hin : plainLength≤plainIn.length) (hout : encOut.length=maxOutLen.toNat) :
    EncryptContract stack aligned key keyLength iv plainIn plainLength encOut maxOutLen ↔
      encryptHandles keyLength plainLength maxOutLen := by
  have hpos : 0≤paddedLength plainLength := by
    rw [paddedLength]
    omega
  rw [EncryptContract,encryptHandles]
  by_cases hfull : plainLength%16=0
  · have hpadded : paddedLength plainLength=plainLength+16 := by
      rw [paddedLength]
      omega
    rw [if_pos hfull]
    by_cases hsmall : maxOutLen<plainLength
    · have hrun := aesEncrypt_refused stack aligned key keyLength iv plainIn plainLength encOut
        maxOutLen plainLength (roundedLength_full plainLength hplain hfull) hsmall
      exact iff_of_true ⟨-1,encOut,hrun,fun h => absurd h (by decide),fun _ => rfl⟩
        (Or.inl hsmall)
    · by_cases hroom : plainLength+32 ≤ maxOutLen
      · obtain ⟨cipher,hrun⟩ := aesEncrypt_full stack aligned key keyLength iv plainIn
          plainLength encOut maxOutLen hplain hfull hroom hmax hin hout
        rw [hrun]
        constructor
        · intro hgiven
          obtain ⟨n,out,hret,hlen,-⟩ := hgiven
          obtain ⟨rfl,_⟩ := Prod.mk.inj (Option.some.inj hret)
          exact Or.inr ⟨(hlen hpos).1,hroom⟩
        · intro hcase
          rcases hcase with h|⟨hvalid,_⟩
          · exact absurd h hsmall
          · exact ⟨_,cipher,rfl,fun _ => ⟨hvalid,rfl,by omega⟩,fun h => by omega⟩
      · have hrun := aesEncrypt_overrun stack aligned key keyLength iv plainIn plainLength
          encOut maxOutLen hplain hfull (by omega) (by omega) hin hout
        rw [hrun]
        constructor
        · intro hgiven
          obtain ⟨n,out,hret,-⟩ := hgiven
          simp at hret
        · intro hcase
          rcases hcase with h|⟨_,h⟩
          · exact absurd h hsmall
          · exact absurd h hroom
  · rw [if_neg hfull]
    by_cases hfit : paddedLength plainLength≤2147483647
    · have hround := roundedLength_part plainLength hplain hfull
      rw [if_pos hfit] at hround
      by_cases hsmall : maxOutLen<paddedLength plainLength
      · have hrun := aesEncrypt_refused stack aligned key keyLength iv plainIn plainLength
          encOut maxOutLen _ hround hsmall
        exact iff_of_true ⟨-1,encOut,hrun,fun h => absurd h (by decide),fun _ => rfl⟩
          ⟨hfit,Or.inl hsmall⟩
      · obtain ⟨cipher,hrun⟩ := aesEncrypt_part stack aligned key keyLength iv plainIn
          plainLength encOut maxOutLen hplain hfull hfit (by omega) hin hout
        rw [hrun]
        constructor
        · intro hgiven
          obtain ⟨n,out,hret,hlen,-⟩ := hgiven
          obtain ⟨rfl,_⟩ := Prod.mk.inj (Option.some.inj hret)
          exact ⟨hfit,Or.inr (hlen hpos).1⟩
        · intro hgiven
          obtain ⟨_,h|hvalid⟩ := hgiven
          · exact absurd h hsmall
          · exact ⟨_,cipher,rfl,fun _ => ⟨hvalid,rfl,by omega⟩,fun h => by omega⟩
    · have hround := roundedLength_part plainLength hplain hfull
      rw [if_neg hfit] at hround
      simp only [aesEncrypt,hround,Option.bind_eq_bind,Option.bind_none]
      constructor
      · intro hgiven
        obtain ⟨n,out,hret,-⟩ := hgiven
        simp at hret
      · intro hgiven
        obtain ⟨h,_⟩ := hgiven
        exact absurd h hfit

end

theorem aes_encrypt_contract_iff_three :
    EncryptContract ⟨[],0,[],[]⟩ true (List.replicate 24 0) 24 (some (List.replicate 16 0))
      [1,2,3] 3 (List.replicate 16 0) 16 :=
  (aes_encrypt_contract_iff ⟨[],0,[],[]⟩ true (List.replicate 24 0) 24
    (some (List.replicate 16 0)) [1,2,3] 3 (List.replicate 16 0) 16 (by decide)
    ⟨by decide,by decide⟩ (by decide) (by decide)).mpr
    ⟨by decide,Or.inr (Or.inr (Or.inl rfl))⟩

/-- One full block into a buffer that is just long enough for its padded length. -/
theorem aes_encrypt_writes_behind :
    ¬EncryptContract ⟨[],0,[],[]⟩ true (List.replicate 16 0) 16 (some (List.replicate 16 0))
      (List.replicate 16 0) 16 (List.replicate 32 0) 32 := by
  intro hgiven
  obtain ⟨n,out,hret,-⟩ := hgiven
  rw [aesEncrypt_overrun _ _ _ _ _ _ _ _ _ (by decide) (by decide) (by decide) (by decide)
    (by decide) (by decide)] at hret
  simp at hret

end IdearNiu.Crypto
