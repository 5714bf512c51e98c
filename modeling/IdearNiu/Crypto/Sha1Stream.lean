import IdearNiu.Crypto.Sha1
import IdearNiu.Framework.Chaining

namespace IdearNiu.Sha1

open Memory Chaining

/-- The length of a message in bits as 64 bits, the most significant byte first. -/
def lengthBytes (n : Nat) : List Byte :=
  (List.range 8).map (fun i => BitVec.ofNat 8 (8*n/2^(8*(7-i))))

def padding (n : Nat) : List Byte :=
  [0x80]++List.replicate ((119-n%64)%64) 0++lengthBytes n

/-- The standard's padding: a one bit, zeros, and the length of the message. -/
def pad (m : List Byte) : List Byte := m++padding m.length

def compress (m : List Byte) : Words := (blocks 64 m).foldl sha1Transform initialState

/-- The standard's digest, with the transform of the source as its compression function. -/
def standardDigest (m : List Byte) : List Byte := digestBytes (compress (pad m))

/-- A context that has taken in a message. -/
structure Absorbed (context : Sha1Ctx) (m : List Byte) : Prop where
  state : context.state=compress m
  size : context.buffer.length=64
  tail : context.buffer.take (m.length%64)=m.drop (64*(m.length/64))
  low : context.count0.toNat=8*m.length%2^32
  high : context.count1.toNat=8*m.length/2^32%2^32

theorem sha1Init_absorbed (buffer : List Byte) (h : buffer.length=64) :
    Absorbed (sha1Init buffer) [] :=
  ⟨rfl,h,rfl,rfl,rfl⟩

/-- The position in the buffer that the bit count stands for. -/
theorem position_toNat (c : Word) (n : Nat) (h : c.toNat=8*n%2^32) :
    ((c>>>3)&&&63).toNat=n%64 := by
  rw [BitVec.toNat_and,BitVec.toNat_ushiftRight,h,Nat.shiftRight_eq_div_pow]
  rw [show (63:Word).toNat=2^6-1 from rfl,Nat.and_two_pow_sub_one_eq_mod]
  omega

theorem bitLength_toNat (len : Word) : (len<<<3).toNat=8*len.toNat%2^32 := by
  rw [BitVec.toNat_shiftLeft,Nat.shiftLeft_eq]
  omega

theorem low_update (c len : Word) (n : Nat) (h : c.toNat=8*n%2^32) :
    (c+(len<<<3)).toNat=8*(n+len.toNat)%2^32 := by
  rw [BitVec.toNat_add,bitLength_toNat len]
  omega

/-- The high word takes the carry of the low one. -/
theorem high_update (c0 c1 len : Word) (n : Nat) (hlen : len.toNat<2^29)
    (h0 : c0.toNat=8*n%2^32) (h1 : c1.toNat=8*n/2^32%2^32) :
    (if c0+(len<<<3)<c0 then c1+((len>>>29)+1) else c1).toNat=
      8*(n+len.toNat)/2^32%2^32 := by
  have hlow := low_update c0 len n h0
  have hshift : (len>>>29)+1=(1:Word) := by
    apply BitVec.eq_of_toNat_eq
    rw [BitVec.toNat_add,BitVec.toNat_ushiftRight,Nat.shiftRight_eq_div_pow,
      Nat.div_eq_of_lt hlen]
    rfl
  split
  · next h =>
    rw [BitVec.lt_def,hlow,h0] at h
    rw [hshift,BitVec.toNat_add,h1,show (1:Word).toNat=1 from rfl]
    omega
  · next h =>
    rw [BitVec.lt_def,hlow,h0] at h
    rw [h1]
    omega

/-- The loop over the blocks of data that follow the first one. -/
theorem transformBlocks_eq (data : List Byte) (len : Word) (n : Nat) (state : Words) (i : Word)
    (hlen : len.toNat<2^29) (hd : len.toNat≤data.length) (hi : i.toNat≤len.toNat)
    (hn : len.toNat-i.toNat≤n) :
    transformBlocks data len n state i=
      ((blocks 64 ((data.take len.toNat).drop i.toNat)).foldl sha1Transform state,
        BitVec.ofNat 32 (i.toNat+64*((len.toNat-i.toNat)/64))) := by
  have hstop : ∀ (state : Words) (i : Word),len.toNat-i.toNat<64 →
      (state,i)=((blocks 64 ((data.take len.toNat).drop i.toNat)).foldl sha1Transform state,
        BitVec.ofNat 32 (i.toNat+64*((len.toNat-i.toNat)/64))) := by
    intro state i h
    rw [blocks_short 64 _ (by rw [List.length_drop,List.length_take]; omega),
      Nat.div_eq_of_lt h,Nat.mul_zero,Nat.add_zero,BitVec.ofNat_toNat,BitVec.setWidth_eq]
    rfl
  induction n generalizing state i with
  | zero => exact hstop state i (by omega)
  | succ n ih =>
    have h63 : (i+63).toNat=i.toNat+63 := by
      rw [BitVec.toNat_add,show (63:Word).toNat=63 from rfl]
      omega
    have h64 : (i+64).toNat=i.toNat+64 := by
      rw [BitVec.toNat_add,show (64:Word).toNat=64 from rfl]
      omega
    rw [transformBlocks]
    by_cases h : i+63<len
    · rw [if_pos h]
      rw [BitVec.lt_def,h63] at h
      have hblock : ((data.take len.toNat).drop i.toNat).take 64=
          (data.drop i.toNat).take 64 := by
        rw [List.drop_take,List.take_take,Nat.min_eq_left (by omega)]
      have hcount : i.toNat+64*((len.toNat-i.toNat)/64)=
          i.toNat+64+64*((len.toNat-(i.toNat+64))/64) := by omega
      rw [ih _ (i+64) (by omega) (by omega),h64,hcount,
        blocks_cons 64 (by decide) ((data.take len.toNat).drop i.toNat)
          (by rw [List.length_drop,List.length_take]; omega),List.foldl_cons,hblock,
        List.drop_drop]
    · rw [if_neg h]
      rw [BitVec.lt_def,h63] at h
      exact hstop state i (by omega)

/-- The whole blocks of a message and the bytes it leaves over. -/
theorem compress_append (m data : List Byte) (hm : m.length%64=0) :
    compress (m++data)=(blocks 64 data).foldl sha1Transform (compress m) := by
  rw [compress,blocks_append 64 (by decide) m data hm,List.foldl_append]
  rfl

theorem compress_whole (m : List Byte) : compress m=compress (m.take (64*(m.length/64))) := by
  have hlen : (m.take (64*(m.length/64))).length=64*(m.length/64) := by
    rw [List.length_take]
    omega
  conv_lhs => rw [← List.take_append_drop (64*(m.length/64)) m]
  rw [compress_append _ _ (by omega),blocks_short 64 _ (by rw [List.length_drop]; omega)]
  rfl

/-- The state after a message and the data that fills its last block up. -/
theorem compress_fill (m data : List Byte) (hfill : 64-m.length%64≤data.length) :
    compress (m++data)=(blocks 64 (data.drop (64-m.length%64))).foldl sha1Transform
      (sha1Transform (compress m)
        (m.drop (64*(m.length/64))++data.take (64-m.length%64))) := by
  have hfull : (m.take (64*(m.length/64))).length=64*(m.length/64) := by
    rw [List.length_take]
    omega
  have hblock : (m.drop (64*(m.length/64))++data.take (64-m.length%64)).length=64 := by
    rw [List.length_append,List.length_drop,List.length_take]
    omega
  have hsplit : m++data=m.take (64*(m.length/64))++
      ((m.drop (64*(m.length/64))++data.take (64-m.length%64))++
        data.drop (64-m.length%64)) := by
    rw [List.append_assoc,List.take_append_drop,← List.append_assoc,List.take_append_drop]
  rw [hsplit,compress_append _ _ (by omega),← compress_whole,
    blocks_append 64 (by decide) _ _ (by rw [hblock]),blocks_single 64 (by decide) _ hblock]
  rfl

theorem rest_length (m : List Byte) : (m.drop (64*(m.length/64))).length=m.length%64 := by
  rw [List.length_drop]
  omega

/-- Data that does not fill the last block is kept behind what it holds. -/
theorem Absorbed.keep {context : Sha1Ctx} {m : List Byte} (h : Absorbed context m)
    (d : List Byte) (hshort : m.length%64+d.length<64) :
    context.state=compress (m++d) ∧
    (splice context.buffer (m.length%64) d).length=64 ∧
    (splice context.buffer (m.length%64) d).take ((m++d).length%64)=
      (m++d).drop (64*((m++d).length/64)) := by
  have hsize := h.size
  have hdiv : (m++d).length/64=m.length/64 := by
    rw [List.length_append]
    omega
  have hmod : (m++d).length%64=m.length%64+d.length := by
    rw [List.length_append]
    omega
  refine ⟨?_,?_,?_⟩
  · rw [h.state,compress_whole m,compress_whole (m++d),hdiv,
      List.take_append_of_le_length (by omega)]
  · rw [splice_length _ _ _ (by rw [hsize]; omega),hsize]
  · rw [hmod,splice_take context.buffer d (m.length%64) (by rw [hsize]; omega),h.tail,hdiv,
      List.drop_append_of_le_length (by omega)]

/-- Data that fills the last block completes the bytes it holds. -/
theorem Absorbed.fill {context : Sha1Ctx} {m : List Byte} (h : Absorbed context m)
    (d : List Byte) (hfill : 64-m.length%64≤d.length) :
    splice context.buffer (m.length%64) (d.take (64-m.length%64))=
      m.drop (64*(m.length/64))++d.take (64-m.length%64) ∧
    (m.drop (64*(m.length/64))++d.take (64-m.length%64)).length=64 := by
  have hsize := h.size
  have hlen : (d.take (64-m.length%64)).length=64-m.length%64 := by
    rw [List.length_take]
    omega
  refine ⟨?_,?_⟩
  · have ht := splice_take context.buffer (d.take (64-m.length%64)) (m.length%64)
      (by rw [hsize]; omega)
    rw [List.take_of_length_le
      (by rw [splice_length _ _ _ (by rw [hlen,hsize]; omega),hlen,hsize]; omega)] at ht
    rw [ht,h.tail]
  · rw [List.length_append,rest_length,hlen]
    omega

/-- What is left of the data after its whole blocks starts the next block. -/
theorem leftover (block m d : List Byte) (hblock : block.length=64) (stop : Nat)
    (hstop : stop=64-m.length%64+64*((d.length-(64-m.length%64))/64))
    (hfill : 64-m.length%64≤d.length) :
    (splice block 0 (d.drop stop)).length=64 ∧
    (splice block 0 (d.drop stop)).take ((m++d).length%64)=
      (m++d).drop (64*((m++d).length/64)) := by
  have hlast : (d.drop stop).length=d.length-stop := List.length_drop
  have hmod : (m++d).length%64=d.length-stop := by
    rw [List.length_append]
    omega
  have hdiv : 64*((m++d).length/64)=m.length+stop := by
    rw [List.length_append]
    omega
  refine ⟨by rw [splice_length _ _ _ (by rw [hlast,hblock]; omega),hblock],?_⟩
  have ht := splice_take block (d.drop stop) 0 (Nat.zero_le _)
  rw [hlast,Nat.zero_add,List.take_zero,List.nil_append] at ht
  rw [hmod,ht,hdiv,List.drop_length_add_append]

/-- One update takes the bytes it is given into the message. -/
theorem sha1Update_absorbed (context : Sha1Ctx) (m data : List Byte) (len : Word)
    (h : Absorbed context m) (hlen : len.toNat<2^29) (hd : len.toNat≤data.length) :
    Absorbed (sha1Update context data len) (m++data.take len.toNat) := by
  have hlow := low_update context.count0 len m.length h.low
  have hhigh := high_update context.count0 context.count1 len m.length hlen h.low h.high
  have hpos := position_toNat context.count0 m.length h.low
  have hdata : (data.take len.toNat).length=len.toNat := by
    rw [List.length_take,Nat.min_eq_left hd]
  have hsum : (((context.count0>>>3)&&&63)+len).toNat=m.length%64+len.toNat := by
    rw [BitVec.toNat_add,hpos]
    omega
  rw [← hdata,← List.length_append] at hlow hhigh
  simp only [sha1Update]
  by_cases hc : ((context.count0>>>3)&&&63)+len>63
  · rw [if_pos hc]
    rw [gt_iff_lt,BitVec.lt_def,hsum,show (63:Word).toNat=63 from rfl] at hc
    have hfill : 64-m.length%64≤(data.take len.toNat).length := by omega
    have hi : ((64:Word)-((context.count0>>>3)&&&63)).toNat=64-m.length%64 := by
      rw [BitVec.toNat_sub,hpos,show (64:Word).toNat=64 from rfl]
      omega
    have htake : data.take (64-m.length%64)=(data.take len.toNat).take (64-m.length%64) := by
      rw [List.take_take,Nat.min_eq_left (by omega)]
    obtain ⟨hbuffer,hblock⟩ := h.fill (data.take len.toNat) hfill
    have hloop := transformBlocks_eq data len len.toNat
      (sha1Transform context.state (m.drop (64*(m.length/64))++
        (data.take len.toNat).take (64-m.length%64)))
      ((64:Word)-((context.count0>>>3)&&&63)) hlen hd (by omega) (by omega)
    rw [hi] at hloop
    set stop := 64-m.length%64+64*((len.toNat-(64-m.length%64))/64) with hstop
    have hstopNat : (BitVec.ofNat 32 stop).toNat=stop := by
      rw [BitVec.toNat_ofNat]
      omega
    have hleft : (len-BitVec.ofNat 32 stop).toNat=len.toNat-stop := by
      rw [BitVec.toNat_sub,hstopNat]
      omega
    obtain ⟨hsize,htail⟩ := leftover _ m (data.take len.toNat) hblock stop
      (by rw [hdata,hstop]) hfill
    simp only [hpos,hi,htake,hbuffer,hloop,hstopNat,hleft,← List.drop_take]
    exact ⟨by rw [compress_fill m _ hfill,h.state],hsize,htail,hlow,hhigh⟩
  · rw [if_neg hc]
    rw [gt_iff_lt,BitVec.lt_def,hsum,show (63:Word).toNat=63 from rfl] at hc
    obtain ⟨hstate,hsize,htail⟩ := h.keep (data.take len.toNat) (by omega)
    rw [hpos]
    exact ⟨hstate,hsize,htail,hlow,hhigh⟩

theorem sha1Update_all (context : Sha1Ctx) (m data : List Byte) (h : Absorbed context m)
    (hlen : data.length<2^29) :
    Absorbed (sha1Update context data (BitVec.ofNat 32 data.length)) (m++data) := by
  have hn : (BitVec.ofNat 32 data.length).toNat=data.length := by
    rw [BitVec.toNat_ofNat]
    omega
  have hu := sha1Update_absorbed context m data (BitVec.ofNat 32 data.length) h (by omega)
    (by omega)
  rw [hn,List.take_length] at hu
  exact hu

theorem sha1Chunks_absorbed (context : Sha1Ctx) (m : List Byte) (chunks : List (List Byte))
    (h : Absorbed context m) (hlen : ∀ chunk∈chunks,chunk.length<2^29) :
    Absorbed (chunks.foldl
      (fun context chunk => sha1Update context chunk (BitVec.ofNat 32 chunk.length)) context)
      (m++chunks.flatten) := by
  induction chunks generalizing context m with
  | nil =>
    rw [List.flatten_nil,List.append_nil]
    exact h
  | cons chunk chunks ih =>
    rw [List.foldl_cons,List.flatten_cons,← List.append_assoc]
    apply ih
    · exact sha1Update_all context m chunk h (hlen chunk List.mem_cons_self)
    · exact fun x hx => hlen x (List.mem_cons_of_mem chunk hx)

theorem byteAt_toNat (x : Word) (i : Nat) : (byteAt x i).toNat=x.toNat/2^((3-i%4)*8)%256 := by
  rw [byteAt,BitVec.toNat_setWidth,BitVec.toNat_and,BitVec.toNat_ushiftRight,
    Nat.shiftRight_eq_div_pow,show (255:Word).toNat=2^8-1 from rfl,
    Nat.and_two_pow_sub_one_eq_mod,Nat.mod_mod]

/-- The count of a context is the length of its message. -/
theorem finalcount_eq (context : Sha1Ctx) (m : List Byte) (h : Absorbed context m) :
    finalcount context=lengthBytes m.length := by
  rw [finalcount,lengthBytes]
  apply List.map_congr_left
  intro i hi
  have hi8 : i<8 := List.mem_range.mp hi
  apply BitVec.eq_of_toNat_eq
  rw [byteAt_toNat,BitVec.toNat_ofNat]
  have hlow := h.low
  have hhigh := h.high
  by_cases h4 : 4 ≤ i
  · rw [if_pos h4,hlow]
    interval_cases i <;> norm_num <;> omega
  · rw [if_neg h4,hhigh]
    interval_cases i <;> norm_num <;> omega

/-- The bits of the count that the padding loop looks at. -/
theorem and_504 (c : Word) : c&&&(504:Word)=((c>>>3)&&&63)<<<3 := by
  apply BitVec.eq_of_getLsbD_eq
  intro i hi
  interval_cases i <;> simp

theorem pad_test (context : Sha1Ctx) (m : List Byte) (h : Absorbed context m) :
    context.count0&&&504=448 ↔ m.length%64=56 := by
  have hpos := position_toNat context.count0 m.length h.low
  have hnat : (context.count0&&&504).toNat=8*(m.length%64) := by
    rw [and_504,BitVec.toNat_shiftLeft,hpos,Nat.shiftLeft_eq]
    omega
  rw [← BitVec.toNat_inj,hnat,show (448:Word).toNat=448 from rfl]
  omega

/-- The padding loop ends, with as many zeros as bring the message to 56 bytes past a block. -/
theorem padZeros_absorbed (n : Nat) (context : Sha1Ctx) (m : List Byte) (h : Absorbed context m)
    (hn : (120-m.length%64)%64≤n) :
    (padZeros n context).2=true ∧
      Absorbed (padZeros n context).1 (m++List.replicate ((120-m.length%64)%64) 0) := by
  induction n generalizing context m with
  | zero =>
    have h56 : m.length%64=56 := by omega
    rw [padZeros,h56]
    simp only [Nat.reduceSub,Nat.reduceMod,List.replicate_zero,List.append_nil]
    exact ⟨decide_eq_true ((pad_test context m h).mpr h56),h⟩
  | succ n ih =>
    rw [padZeros]
    by_cases h56 : m.length%64=56
    · rw [if_neg (fun hne => hne ((pad_test context m h).mpr h56)),h56]
      simp only [Nat.reduceSub,Nat.reduceMod,List.replicate_zero,List.append_nil]
      exact ⟨trivial,h⟩
    · rw [if_pos (fun he => h56 ((pad_test context m h).mp he))]
      have hu := sha1Update_all context m [0] h (by decide)
      have hlen : (m++[(0:Byte)]).length=m.length+1 := by
        rw [List.length_append]
        rfl
      obtain ⟨h1,h2⟩ := ih (sha1Update context [0] 1) (m++[0]) hu (by rw [hlen]; omega)
      have hz : (120-m.length%64)%64=(120-(m.length+1)%64)%64+1 := by omega
      rw [hlen,List.append_assoc] at h2
      rw [hz,List.replicate_succ]
      exact ⟨h1,h2⟩

theorem sha1Final_eq (context : Sha1Ctx) (m : List Byte) (h : Absorbed context m) :
    sha1Final context=some (standardDigest m) := by
  have h1 : Absorbed (sha1Update context [0x80] 1) (m++[0x80]) :=
    sha1Update_all context m [0x80] h (by decide)
  have hlen : (m++[(0x80:Byte)]).length=m.length+1 := by
    rw [List.length_append]
    rfl
  obtain ⟨hend,h2⟩ := padZeros_absorbed 64 _ _ h1 (by omega)
  have h3 : Absorbed (sha1Update (padZeros 64 (sha1Update context [0x80] 1)).1
      (finalcount context) 8) _ :=
    sha1Update_all _ _ (finalcount context) h2 (by rw [finalcount,List.length_map]; decide)
  have hz : (120-(m++[(0x80:Byte)]).length%64)%64=(119-m.length%64)%64 := by
    rw [hlen]
    omega
  have hpad : m++[(0x80:Byte)]++List.replicate ((119-m.length%64)%64) 0++finalcount context=
      pad m := by
    rw [finalcount_eq context m h,pad,padding]
    simp only [List.append_assoc]
  rw [hz,hpad] at h3
  simp only [sha1Final]
  rw [if_pos hend,standardDigest,← h3.state]

/-- The digest does not depend on how the message is cut into chunks. -/
theorem sha1Chunks_eq (ctx : List Byte) (chunks : List (List Byte)) (hctx : ctx.length=64)
    (hlen : ∀ chunk∈chunks,chunk.length<2^29) :
    sha1Chunks ctx chunks=some (standardDigest chunks.flatten) := by
  have h := sha1Chunks_absorbed (sha1Init ctx) [] chunks (sha1Init_absorbed ctx hctx) hlen
  exact sha1Final_eq _ _ h

theorem sha1Digest_eq (ctx buf : List Byte) (len : Word) (hctx : ctx.length=64)
    (hlen : len.toNat<2^29) (hbuf : len.toNat≤buf.length) :
    sha1Digest ctx buf len=some (standardDigest (buf.take len.toNat)) := by
  have h := sha1Update_absorbed (sha1Init ctx) [] buf len (sha1Init_absorbed ctx hctx) hlen hbuf
  exact sha1Final_eq _ _ h

/-- Any two cuts of a message give the standard's digest; the one call of SHA1_digest gives
it too where its argument is a chunk the update counts rightly. -/
theorem sha1_independent_of_chunking (ctx ctx' : List Byte) (chunks : List (List Byte))
    (hctx : ctx.length=64) (hctx' : ctx'.length=64)
    (hlen : ∀ chunk∈chunks,chunk.length<2^29) :
    sha1Chunks ctx chunks=some (standardDigest chunks.flatten) ∧
      (chunks.flatten.length<2^29 → sha1Chunks ctx chunks=
        sha1Digest ctx' chunks.flatten (BitVec.ofNat 32 chunks.flatten.length)) := by
  have hchunks := sha1Chunks_eq ctx chunks hctx hlen
  refine ⟨hchunks,?_⟩
  intro hsmall
  have hn : (BitVec.ofNat 32 chunks.flatten.length).toNat=chunks.flatten.length := by
    rw [BitVec.toNat_ofNat]
    omega
  rw [hchunks,sha1Digest_eq ctx' chunks.flatten _ hctx' (by omega) (by omega),hn,
    List.take_length]

theorem sha1_independent_of_chunking_two :
    sha1Chunks (List.replicate 64 7) [[0x61],[0x62,0x63]]=
        some (standardDigest [[0x61],[0x62,0x63]].flatten) ∧
      ([[0x61],[0x62,0x63]].flatten.length<2^29 →
        sha1Chunks (List.replicate 64 7) [[0x61],[0x62,0x63]]=
          sha1Digest (List.replicate 64 9) [[0x61],[0x62,0x63]].flatten
            (BitVec.ofNat 32 [[0x61],[0x62,(0x63:Byte)]].flatten.length)) :=
  sha1_independent_of_chunking (List.replicate 64 7) (List.replicate 64 9)
    [[0x61],[0x62,0x63]] rfl rfl (by decide)

theorem padding_length (n : Nat) : (padding n).length=(119-n%64)%64+9 := by
  rw [padding,List.length_append,List.length_append,List.length_replicate,lengthBytes,
    List.length_map,List.length_range,List.length_singleton]
  omega

theorem word_of_bytes (x y : Word) (h : ∀ i,i<4 → byteAt x i=byteAt y i) : x=y := by
  apply BitVec.eq_of_toNat_eq
  have hbyte : ∀ i,i<4 → x.toNat/2^((3-i%4)*8)%256=y.toNat/2^((3-i%4)*8)%256 := by
    intro i hi
    rw [← byteAt_toNat,← byteAt_toNat,h i hi]
  have h0 := hbyte 0 (by decide)
  have h1 := hbyte 1 (by decide)
  have h2 := hbyte 2 (by decide)
  have h3 := hbyte 3 (by decide)
  have hx := x.isLt
  have hy := y.isLt
  norm_num at h0 h1 h2 h3
  omega

theorem byteAt_mod (x : Word) (i : Nat) : byteAt x (i%4)=byteAt x i := by
  rw [byteAt,byteAt,Nat.mod_mod]

/-- The digest holds the whole state. -/
theorem digestBytes_injective (s t : Words) (h : digestBytes s=digestBytes t) : s=t := by
  have hbyte := List.map_inj_left.mp h
  have hget : ∀ k,k<5 → s.get k=t.get k := by
    intro k hk
    apply word_of_bytes
    intro i hi
    have hb := hbyte (4*k+i) (List.mem_range.mpr (by omega))
    rw [show (4*k+i)/4=k by omega,← byteAt_mod,← byteAt_mod (t.get k),
      show (4*k+i)%4=i by omega] at hb
    exact hb
  have hv := hget 0 (by decide)
  have hw := hget 1 (by decide)
  have hx := hget 2 (by decide)
  have hy := hget 3 (by decide)
  have hz := hget 4 (by decide)
  cases s
  cases t
  simp only [Words.get] at hv hw hx hy hz
  rw [hv,hw,hx,hy,hz]

/-- The digest of a message is the state from which its padded form is extended. -/
theorem standardDigest_pad (m : List Byte) (hm : m.length%64=0) :
    standardDigest (pad m)=
      digestBytes (sha1Transform (compress (pad m)) (padding (m.length+64))) := by
  have hlen : (pad m).length=m.length+64 := by
    rw [pad,List.length_append,padding_length]
    omega
  rw [standardDigest,pad,compress_append _ _ (by omega),hlen,
    blocks_single 64 (by decide) _ (by rw [padding_length]; omega)]
  rfl

theorem extension_differs : digestBytes (sha1Transform (compress (pad [])) (padding (2^32+64)))≠
    standardDigest (List.replicate 64 0) := by
  decide +kernel

/-- From 2^32 bytes on SHA1_digest takes the length modulo 2^32: of the message of 2^32 zero
bytes and its padded form, one at least gets another digest than in chunks. -/
theorem sha1Digest_truncates : ¬∀ (ctx ctx' : List Byte) (chunks : List (List Byte)),
    ctx.length=64 → ctx'.length=64 → (∀ chunk∈chunks,chunk.length<2^29) →
    chunks.flatten.length<2^61 →
    sha1Chunks ctx chunks=
      sha1Digest ctx' chunks.flatten (BitVec.ofNat 32 chunks.flatten.length) := by
  intro hall
  have hstep : ∀ (chunks : List (List Byte)) (r : Nat),r<2^29 →
      (∀ chunk∈chunks,chunk.length<2^29) → chunks.flatten.length=2^32+r →
      standardDigest chunks.flatten=standardDigest (chunks.flatten.take r) := by
    intro chunks r hr hchunks hlen
    have h := hall (List.replicate 64 0) (List.replicate 64 0) chunks (by simp) (by simp) hchunks
      (by omega)
    have hn : (BitVec.ofNat 32 chunks.flatten.length).toNat=r := by
      rw [BitVec.toNat_ofNat]
      omega
    rw [sha1Chunks_eq _ chunks (by simp) hchunks,
      sha1Digest_eq _ chunks.flatten _ (by simp) (by omega) (by omega),hn] at h
    exact Option.some.inj h
  have hzeros : (List.replicate 16 (List.replicate (2^28) (0:Byte))).flatten=
      List.replicate (2^32) 0 := List.flatten_replicate_replicate
  have hsmall : ∀ chunk∈List.replicate 16 (List.replicate (2^28) (0:Byte)),
      chunk.length<2^29 := by
    intro chunk hchunk
    rw [List.eq_of_mem_replicate hchunk,List.length_replicate]
    omega
  have h1 := hstep (List.replicate 16 (List.replicate (2^28) (0:Byte))) 0 (by omega) hsmall
    (by rw [hzeros,List.length_replicate]; rfl)
  have h2 := hstep (List.replicate 16 (List.replicate (2^28) (0:Byte))++[padding (2^32)]) 64
    (by omega) (by
      intro chunk hchunk
      rcases List.mem_append.mp hchunk with hc|hc
      · exact hsmall chunk hc
      · rw [List.mem_singleton.mp hc,padding_length]
        omega)
    (by rw [List.flatten_append,List.flatten_singleton,List.length_append,hzeros,
      List.length_replicate,padding_length]; rfl)
  have hpad : (List.replicate 16 (List.replicate (2^28) (0:Byte))++[padding (2^32)]).flatten=
      pad (List.replicate (2^32) 0) := by
    rw [List.flatten_append,List.flatten_singleton,hzeros,pad,List.length_replicate]
  have htake : (pad (List.replicate (2^32) 0)).take 64=List.replicate 64 0 := by
    rw [pad,List.take_append_of_le_length (by rw [List.length_replicate]; omega),
      List.take_replicate]
    rfl
  rw [hzeros,List.take_zero] at h1
  rw [hpad,htake,standardDigest_pad _ (by rw [List.length_replicate]; rfl),
    digestBytes_injective _ _ h1,List.length_replicate] at h2
  exact extension_differs h2

end IdearNiu.Sha1
