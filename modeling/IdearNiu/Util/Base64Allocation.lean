import IdearNiu.Util.Base64RoundTrip

namespace IdearNiu.Base64

open Allocation

/-- The block that the encoder fills is the one asked for. -/
theorem base64Encode_block (malloc : Nat → Bool) (src : List Byte) (e : Encoded)
    (h : base64Encode malloc src=.block e) :
    e.room=request (encodeSize (BitVec.ofNat 64 src.length)) ∧
      e.written=encodeText src++[0] := by
  simp only [base64Encode,xmalloc] at h
  split_ifs at h
  cases h
  exact ⟨rfl,rfl⟩

/-- The size computed for n bytes, without any wrap. -/
def blockSize (n : Nat) : Nat := n*4/3+4+(n*4/3+4)/72+1

/-- The test against len refuses every length whose product wraps. -/
theorem accepted_size (len : Size) (h : ¬encodeSize len<len) :
    len.toNat<2^62 ∧ (encodeSize len).toNat=blockSize len.toNat := by
  have hlt := len.isLt
  rw [BitVec.lt_def,encodeSize_wrapped] at h
  have hsmall : len.toNat<2^62 := by
    by_contra hbig
    have hm : len.toNat*4%2^64/3≤2^64/3 := by omega
    have hcase : len.toNat<2^63 ∨ 2^63≤len.toNat := by omega
    rcases hcase with hc|hc
    · have hmod : len.toNat*4%2^64=len.toNat*4-2^64 := by omega
      rw [hmod] at h
      generalize hk : (len.toNat*4-2^64)/3+4=k at h
      omega
    · generalize hk : len.toNat*4%2^64/3+4=k at h
      omega
  refine ⟨hsmall,?_⟩
  rw [encodeSize_wrapped,Nat.mod_eq_of_lt (show len.toNat*4<2^64 by omega),blockSize]

/-- The text and the nul are at most six bytes shorter than the size. -/
theorem written_near (src : List Byte) :
    (encodeText src++[0]).length≤blockSize src.length ∧
      blockSize src.length≤(encodeText src++[0]).length+6 := by
  rw [List.length_append,encodeText_length,List.length_singleton,blockSize]
  refine ⟨text_fits src.length,?_⟩
  have h : src.length*4/3≤4*((src.length+2)/3) := by omega
  generalize 4*((src.length+2)/3)=a at *
  generalize src.length*4/3=b at *
  omega

/-- The block asked for holds what is written exactly when the size loses nothing as an int,
or becomes a negative one. -/
theorem base64_encode_allocation_iff (src : List Byte) (len : Size)
    (hlen : src.length=len.toNat) (haccept : ¬encodeSize len<len) :
    (encodeText src++[0]).length≤request (encodeSize len) ↔
      blockSize len.toNat<2^32 ∨ 2^31≤blockSize len.toNat%2^32 := by
  obtain ⟨hsmall,hsize⟩ := accepted_size len haccept
  obtain ⟨hfits,hnear⟩ := written_near src
  rw [hlen] at hfits hnear
  have hbound : 5≤blockSize len.toNat ∧ blockSize len.toNat<2^63 := by
    rw [blockSize]
    generalize hm : len.toNat*4/3+4=m
    omega
  rw [request_eq,hsize]
  generalize blockSize len.toNat=n at *
  generalize (encodeText src++[0]).length=w at *
  split_ifs with h0 hpos
  · omega
  · omega
  · omega

/-- A text of two lines. -/
theorem base64_encode_allocation_iff_lines :
    (encodeText (List.replicate 60 0x41)).length=82 ∧
      (encodeText (List.replicate 60 0x41)++[0]).length≤request (encodeSize 60) := by
  constructor
  · rw [encodeText_length,List.length_replicate]
  · apply (base64_encode_allocation_iff (List.replicate 60 0x41) 60 rfl (by decide)).mpr
    left
    decide

/-- For 3177099093 bytes the size is 2^32+1, so that one byte is asked for. -/
theorem base64_encode_overruns :
    ¬∀ (src : List Byte) (len : Size),src.length=len.toNat → ¬encodeSize len<len →
      (encodeText src++[0]).length≤request (encodeSize len) := by
  intro h
  have hlen : (List.replicate 3177099093 (0:Byte)).length=(3177099093:Size).toNat := by
    rw [List.length_replicate]
    rfl
  have hfits := h _ 3177099093 hlen (by decide)
  have hnear := (written_near (List.replicate 3177099093 0)).2
  rw [hlen] at hnear
  have hrequest : request (encodeSize 3177099093)=1 := by decide
  have hsize : blockSize (3177099093:Size).toNat=2^32+1 := by decide
  omega

end IdearNiu.Base64
