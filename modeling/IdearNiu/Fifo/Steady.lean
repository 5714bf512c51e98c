import IdearNiu.Framework.Windows
import IdearNiu.Fifo.Interleaving

namespace IdearNiu.Fifo

open Windows

/-- The bytes of the put under way that are stored and not yet published. -/
def Writer.pending : Writer → List Byte
  | .copy source _ _ _ j => source.data.take j
  | .publish source len _ => source.data.take len.toNat
  | _ => []

/-- The bytes the get under way has copied out. -/
def Reader.taken : Reader → List Byte
  | .copy _ _ _ bytes => bytes
  | .publish _ bytes _ => bytes
  | _ => []

def Shared.stored (s : Shared) : List Byte := s.accepted++s.writer.pending

def Shared.got (s : Shared) : List Byte := s.delivered++s.reader.taken

/-- No load of this put has happened yet. -/
def Writer.outside : Writer → Bool
  | .idle | .loadIn _ => true
  | _ => false

/-- There is room for len bytes of the source behind the accepted ones. -/
def Room (k accepted delivered : Nat) (source : Source) (len : Uint) : Prop :=
  len.toNat ≤ source.len.toNat ∧ accepted+len.toNat≤delivered+2^k

/-- What the writer knows at each point of a put: the room it saw only grows. -/
def Writer.Ok (k c accepted delivered : Nat) (inIdx : Uint) : Writer → Prop
  | .idle => True
  | .loadIn _ => True
  | .loadOut _ i => i=inIdx
  | .loadTail source len => Room k accepted delivered source len
  | .loadOffset source len l => Room k accepted delivered source len ∧
    l.toNat=min len.toNat (2^k-(accepted+c)%2^k)
  | .copy source len l offset j => Room k accepted delivered source len ∧
    l.toNat=min len.toNat (2^k-(accepted+c)%2^k) ∧ offset.toNat=(accepted+c)%2^k ∧
    j≤len.toNat
  | .publish source len i => Room k accepted delivered source len ∧ i=inIdx

/-- What the reader knows at each point of a get: the bytes it saw published stay so. -/
def Reader.Ok (k c accepted delivered : Nat) (outIdx : Uint) : Reader → Prop
  | .loadOut _ i => ∃ a,i=BitVec.ofNat 32 (a+c) ∧ delivered≤a ∧ a≤accepted
  | .loadTail len => delivered+len.toNat≤accepted
  | .loadOffset len l => delivered+len.toNat≤accepted ∧
    l.toNat=min len.toNat (2^k-(delivered+c)%2^k)
  | .copy len l offset bytes => delivered+len.toNat≤accepted ∧
    l.toNat=min len.toNat (2^k-(delivered+c)%2^k) ∧ offset.toNat=(delivered+c)%2^k ∧
    bytes.length≤len.toNat
  | .publish len bytes o => bytes.length=len.toNat ∧ o=outIdx
  | .resetOut i => i=outIdx
  | .resetIn i => i=0
  | _ => True

/-- Both indices count bytes from the same point c, and the ring holds what is stored and not
yet delivered. -/
structure Steady (s : Shared) (k c : Nat) : Prop where
  exponent : k≤31
  size : s.fifo.size.toNat=2^k
  ring : s.fifo.buffer.length=2^k
  slots : s.tags.length=2^k
  inIdx : s.fifo.inIdx=BitVec.ofNat 32 (s.accepted.length+c)
  outIdx : s.fifo.outIdx=BitVec.ofNat 32 (s.delivered.length+c)
  ordered : s.got<+:s.accepted
  cells : Window s.fifo.buffer c s.delivered.length s.stored
  marks : Marked s.tags c s.delivered.length s.stored.length
  writer : s.writer.Ok k c s.accepted.length s.delivered.length s.fifo.inIdx
  reader : s.reader.Ok k c s.accepted.length s.delivered.length s.fifo.outIdx

theorem ofNat_sub_ofNat (a d c k : Nat) (hk : k≤31) (hda : d≤a) (had : a≤d+2^k) :
    (BitVec.ofNat 32 (a+c)-BitVec.ofNat 32 (d+c) : Uint).toNat=a-d := by
  have hlt := pow_lt_uint k hk
  obtain ⟨e,rfl⟩ := Nat.exists_eq_add_of_le hda
  have hsum : BitVec.ofNat 32 (d+e+c)=BitVec.ofNat 32 (d+c)+BitVec.ofNat 32 e := by
    rw [← BitVec.ofNat_add]
    congr 1
    omega
  have hsub : BitVec.ofNat 32 (d+e+c)-BitVec.ofNat 32 (d+c)=BitVec.ofNat 32 e := by
    rw [hsum]
    bv_omega
  rw [hsub,BitVec.toNat_ofNat,Nat.mod_eq_of_lt (by omega)]
  omega

theorem ofNat_eq_iff (a d c k : Nat) (hk : k≤31) (hda : d≤a) (had : a≤d+2^k) :
    BitVec.ofNat 32 (a+c)=BitVec.ofNat 32 (d+c) ↔ a=d := by
  refine ⟨fun h => ?_,fun h => by rw [h]⟩
  have hsub := ofNat_sub_ofNat a d c k hk hda had
  rw [h,BitVec.sub_self,show (0#32).toNat=0 from rfl] at hsub
  omega

theorem free_toNat (size : Uint) (a d c k : Nat) (hk : k≤31) (hs : size.toNat=2^k)
    (hda : d≤a) (had : a≤d+2^k) :
    (size-BitVec.ofNat 32 (a+c)+BitVec.ofNat 32 (d+c)).toNat=2^k-(a-d) := by
  have hlt := pow_lt_uint k hk
  have hsub := ofNat_sub_ofNat a d c k hk hda had
  have hre : size-BitVec.ofNat 32 (a+c)+BitVec.ofNat 32 (d+c)=
      size-(BitVec.ofNat 32 (a+c)-BitVec.ofNat 32 (d+c)) := by bv_omega
  rw [hre,BitVec.toNat_sub,hsub,hs]
  omega

/-- A masked index is the slot of the byte it counts. -/
theorem masked_ofNat (size : Uint) (k n : Nat) (hk : k≤31) (hs : size.toNat=2^k) :
    (BitVec.ofNat 32 n&&&(size-1)).toNat=n%2^k := by
  rw [masked_toNat _ size k hk hs,BitVec.toNat_ofNat,Nat.mod_mod_of_dvd _ (pow_dvd_uint k hk)]

theorem tail_toNat (size : Uint) (k n : Nat) (hk : k≤31) (hs : size.toNat=2^k) :
    (size-(BitVec.ofNat 32 n&&&(size-1))).toNat=2^k-n%2^k := by
  have hlt := pow_lt_uint k hk
  have hmod := Nat.mod_lt n (Nat.two_pow_pos k)
  rw [BitVec.toNat_sub,masked_ofNat size k n hk hs,hs]
  omega

/-- Both pieces of a copy together run through consecutive slots. -/
theorem slotOf_eq (l offset : Uint) (len n b j : Nat) (hn : 0<n) (hl : l.toNat=min len (n-b%n))
    (ho : offset.toNat=b%n) (hj : j<len) (hlen : len≤n) : slotOf l offset j=(j+b)%n := by
  have hmod := Nat.mod_lt b hn
  rw [slotOf,ho,Nat.add_mod,Nat.mod_eq_of_lt (show j<n by omega)]
  generalize b%n=r at *
  by_cases hjl : j<l.toNat
  · rw [if_pos hjl,Nat.add_comm,Nat.mod_eq_of_lt (by omega)]
  · rw [if_neg hjl,show j+r=(j-l.toNat)+n by omega,Nat.add_mod_right,
      Nat.mod_eq_of_lt (by omega)]

theorem Writer.Ok.mono {k c a d : Nat} {i : Uint} {w : Writer} (h : w.Ok k c a d i) (d' : Nat)
    (hd : d≤d') : w.Ok k c a d' i := by
  have room : ∀ source len,Room k a d source len → Room k a d' source len :=
    fun _ _ hr => ⟨hr.1,by have := hr.2; omega⟩
  cases w with
  | idle => trivial
  | loadIn => trivial
  | loadOut => exact h
  | loadTail => exact room _ _ h
  | loadOffset => exact ⟨room _ _ h.1,h.2⟩
  | copy => exact ⟨room _ _ h.1,h.2⟩
  | publish => exact ⟨room _ _ h.1,h.2⟩

theorem Reader.Ok.mono {k c a d : Nat} {o : Uint} {r : Reader} (h : r.Ok k c a d o) (a' : Nat)
    (ha : a≤a') : r.Ok k c a' d o := by
  cases r with
  | loadOut =>
    obtain ⟨b,hb,hle,hge⟩ := h
    exact ⟨b,hb,hle,hge.trans ha⟩
  | loadTail => exact le_trans h ha
  | loadOffset => exact ⟨h.1.trans ha,h.2⟩
  | copy => exact ⟨h.1.trans ha,h.2⟩
  | _ => exact h

section

variable {s : Shared} {k c : Nat}

theorem Steady.delivered_le (h : Steady s k c) : s.delivered.length ≤ s.accepted.length := by
  have hle := h.ordered.length_le
  rw [Shared.got,List.length_append] at hle
  omega

theorem Steady.accepted_le (h : Steady s k c) :
    s.accepted.length ≤ s.delivered.length+2^k := by
  have hle := h.cells.within
  rw [Shared.stored,List.length_append,h.ring] at hle
  omega

/-- The writer moves on and stores nothing. -/
theorem Steady.setWriter (h : Steady s k c) (w : Writer) (hp : w.pending=s.writer.pending)
    (hw : w.Ok k c s.accepted.length s.delivered.length s.fifo.inIdx) :
    Steady { s with writer := w } k c := by
  have hstored : ({ s with writer := w } : Shared).stored=s.stored := by
    simp only [Shared.stored,hp]
  exact ⟨h.exponent,h.size,h.ring,h.slots,h.inIdx,h.outIdx,h.ordered,by
    rw [hstored]; exact h.cells,by rw [hstored]; exact h.marks,hw,h.reader⟩

/-- The reader moves on, at most with more bytes copied out. -/
theorem Steady.setReader (h : Steady s k c) (r : Reader)
    (ht : s.delivered++r.taken<+:s.accepted)
    (hr : r.Ok k c s.accepted.length s.delivered.length s.fifo.outIdx) :
    Steady { s with reader := r } k c :=
  ⟨h.exponent,h.size,h.ring,h.slots,h.inIdx,h.outIdx,ht,h.cells,h.marks,h.writer,hr⟩

theorem Steady.delivered_prefix (h : Steady s k c) : s.delivered<+:s.accepted :=
  (List.prefix_append _ _).trans h.ordered

/-- A reader that holds no bytes keeps the bytes got in order. -/
theorem Steady.setReader_empty (h : Steady s k c) (r : Reader) (ht : r.taken=[])
    (hr : r.Ok k c s.accepted.length s.delivered.length s.fifo.outIdx) :
    Steady { s with reader := r } k c := by
  refine h.setReader r ?_ hr
  rw [ht,List.append_nil]
  exact h.delivered_prefix

theorem Steady.stored_copy (h : Steady s k c) (source : Source) (len l offset : Uint) (j : Nat)
    (hw : s.writer=.copy source len l offset j) :
    s.stored.length=s.accepted.length+j ∧ j ≤ source.data.length := by
  have ok := h.writer
  rw [hw] at ok
  obtain ⟨⟨hfit,-⟩,-,-,hj⟩ := ok
  have := source.fits
  rw [Shared.stored,hw,Writer.pending,List.length_append,List.length_take]
  omega

/-- The slot a byte of a put goes to. -/
theorem Steady.writer_slot (h : Steady s k c) (source : Source) (len l offset : Uint) (j : Nat)
    (hw : s.writer=.copy source len l offset j) (hj : j<len.toNat) :
    slotOf l offset j=(s.stored.length+c)%2^k ∧ s.stored.length < s.delivered.length+2^k := by
  have ok := h.writer
  rw [hw] at ok
  obtain ⟨⟨-,hroom⟩,hl,ho,-⟩ := ok
  have hle := h.delivered_le
  rw [(h.stored_copy source len l offset j hw).1]
  refine ⟨?_,by omega⟩
  rw [slotOf_eq l offset len.toNat (2^k) _ j (Nat.two_pow_pos k) hl ho hj (by omega)]
  congr 1
  omega

theorem take_succ_getD (data : List Byte) (j : Nat) (hj : j<data.length) :
    data.take (j+1)=data.take j++[data.getD j 0] := by
  rw [List.take_add_one,List.getD_eq_getElem?_getD,List.getElem?_eq_getElem hj]
  rfl

/-- One byte of a put is stored. -/
theorem Steady.store (h : Steady s k c) (source : Source) (len l offset : Uint) (j : Nat)
    (hw : s.writer=.copy source len l offset j) (hj : j<len.toNat) :
    Steady (writerStep s) k c := by
  obtain ⟨hslot,hroom⟩ := h.writer_slot source len l offset j hw hj
  have hlen := (h.stored_copy source len l offset j hw).1
  have hle := h.delivered_le
  have ok := h.writer
  rw [hw] at ok
  obtain ⟨⟨hfit,hfree⟩,hl,ho,-⟩ := ok
  have hstored : (writerStep s).stored=s.stored++[source.data.getD j 0] := by
    have hdata : j < source.data.length := by have := source.fits; omega
    simp only [writerStep,hw,if_pos hj,Shared.stored,Writer.pending]
    rw [take_succ_getD _ j hdata,List.append_assoc]
  have hcells := h.cells.push (by rw [h.ring]; exact hroom) (by omega) (source.data.getD j 0)
  have hmarks := h.marks.push (by rw [h.slots]; exact hroom) (by omega)
  rw [h.ring,← hslot] at hcells
  rw [h.slots,← hslot,hlen] at hmarks
  have hstep : writerStep s={ s with
      fifo := { s.fifo with
        buffer := s.fifo.buffer.set (slotOf l offset j) (source.data.getD j 0) }
      tags := s.tags.set (slotOf l offset j) (some (s.accepted.length+j))
      writer := .copy source len l offset (j+1) } := by
    simp only [writerStep,hw,if_pos hj]
  have hcount : (writerStep s).stored.length=s.accepted.length+j+1 := by
    rw [hstored,List.length_append,hlen]
    rfl
  rw [hstep] at hstored hcount ⊢
  refine ⟨h.exponent,h.size,?_,?_,h.inIdx,h.outIdx,h.ordered,?_,?_,?_,h.reader⟩
  · exact (List.length_set).trans h.ring
  · exact (List.length_set).trans h.slots
  · rw [hstored]
    exact hcells
  · rw [hcount]
    exact hmarks
  · exact ⟨⟨hfit,hfree⟩,hl,ho,hj⟩

/-- The store of in makes the bytes of the put accepted ones. -/
theorem Steady.publish (h : Steady s k c) (source : Source) (len inIdx : Uint)
    (hw : s.writer=.publish source len inIdx) : Steady (writerStep s) k c := by
  have ok := h.writer
  rw [hw] at ok
  obtain ⟨⟨hfit,hfree⟩,rfl⟩ := ok
  have hstored : s.stored=s.accepted++source.data.take len.toNat := by
    rw [Shared.stored,hw,Writer.pending]
  have htake : (source.data.take len.toNat).length=len.toNat := by
    have := source.fits
    rw [List.length_take]
    omega
  have hlen : (s.accepted++source.data.take len.toNat).length=s.accepted.length+len.toNat := by
    rw [List.length_append,htake]
  simp only [writerStep,hw]
  refine ⟨h.exponent,h.size,h.ring,h.slots,?_,h.outIdx,?_,?_,?_,trivial,?_⟩
  · rw [hlen,h.inIdx,show s.accepted.length+len.toNat+c=s.accepted.length+c+len.toNat by omega,
      BitVec.ofNat_add (s.accepted.length+c),BitVec.ofNat_toNat,BitVec.setWidth_eq]
  · exact h.ordered.trans (List.prefix_append _ _)
  · simp only [Shared.stored,Writer.pending,List.append_nil]
    rw [← hstored]
    exact h.cells
  · simp only [Shared.stored,Writer.pending,List.append_nil]
    rw [← hstored]
    exact h.marks
  · exact h.reader.mono _ (by rw [hlen]; omega)

theorem writerStep_steady (h : Steady s k c) : Steady (writerStep s) k c := by
  have hda := h.delivered_le
  have had := h.accepted_le
  have ok := h.writer
  cases hw : s.writer with
  | idle =>
    simp only [writerStep,hw]
    exact h
  | loadIn source =>
    simp only [writerStep,hw]
    exact h.setWriter _ (by rw [hw]; rfl) rfl
  | loadOut source i =>
    rw [hw] at ok
    have hfree := free_toNat s.fifo.size _ _ c k h.exponent h.size hda had
    rw [← h.inIdx,← h.outIdx] at hfree
    have hlen := uintMin_toNat source.len (s.fifo.size-i+s.fifo.outIdx)
    rw [show i=s.fifo.inIdx from ok,hfree] at hlen
    simp only [writerStep,hw]
    refine h.setWriter _ (by rw [hw]; rfl) ?_
    rw [show i=s.fifo.inIdx from ok]
    exact ⟨by omega,by omega⟩
  | loadTail source len =>
    rw [hw] at ok
    simp only [writerStep,hw]
    refine h.setWriter _ (by rw [hw]; rfl) ⟨ok,?_⟩
    rw [uintMin_toNat,h.inIdx,tail_toNat _ k _ h.exponent h.size]
  | loadOffset source len l =>
    rw [hw] at ok
    simp only [writerStep,hw]
    refine h.setWriter _ (by rw [hw]; rfl) ⟨ok.1,ok.2,?_,Nat.zero_le _⟩
    rw [h.inIdx,masked_ofNat _ k _ h.exponent h.size]
  | copy source len l offset j =>
    by_cases hj : j<len.toNat
    · exact h.store source len l offset j hw hj
    · rw [hw] at ok
      have hend : j=len.toNat := by have := ok.2.2.2; omega
      simp only [writerStep,hw,if_neg hj]
      exact h.setWriter _ (by rw [hw,hend]; rfl) ⟨ok.1,rfl⟩
  | publish source len i => exact h.publish source len i hw

/-- The slot a byte of a get comes from holds the next byte in order. -/
theorem Steady.reader_slot (h : Steady s k c) (len l offset : Uint) (bytes : List Byte)
    (hr : s.reader=.copy len l offset bytes) (hj : bytes.length<len.toNat) :
    slotOf l offset bytes.length=(s.got.length+c)%2^k ∧ s.got.length < s.accepted.length := by
  have ok := h.reader
  rw [hr] at ok
  obtain ⟨hlen,hl,ho,-⟩ := ok
  have had := h.accepted_le
  rw [Shared.got,hr,Reader.taken,List.length_append]
  refine ⟨?_,by omega⟩
  rw [slotOf_eq l offset len.toNat (2^k) _ _ (Nat.two_pow_pos k) hl ho hj (by omega)]
  congr 1
  omega

theorem prefix_concat_getElem (xs ys : List Byte) (h : xs<+:ys) (hlt : xs.length<ys.length) :
    xs++[ys[xs.length]]<+:ys := by
  obtain ⟨zs,rfl⟩ := h
  cases zs with
  | nil => simp at hlt
  | cons z zs => exact ⟨zs,by simp⟩

/-- One byte of a get is copied out. -/
theorem Steady.load (h : Steady s k c) (wrapped : Bool) (len l offset : Uint)
    (bytes : List Byte) (hr : s.reader=.copy len l offset bytes)
    (hj : bytes.length<len.toNat) : Steady (readerStep wrapped s) k c := by
  obtain ⟨hslot,hlt⟩ := h.reader_slot len l offset bytes hr hj
  have hgot : s.got=s.delivered++bytes := by rw [Shared.got,hr,Reader.taken]
  have hcell := h.cells.cell s.got.length (by rw [hgot,List.length_append]; omega)
    (by rw [Shared.stored,List.length_append]; omega)
  rw [h.ring,← hslot,Shared.stored,List.getElem?_append_left hlt,
    List.getElem?_eq_getElem hlt] at hcell
  have hbyte : s.fifo.buffer.getD (slotOf l offset bytes.length) 0=s.accepted[s.got.length] := by
    rw [List.getD_eq_getElem?_getD,hcell]
    rfl
  have ok := h.reader
  rw [hr] at ok
  simp only [readerStep,hr,if_pos hj,hbyte]
  refine h.setReader _ ?_ ⟨ok.1,ok.2.1,ok.2.2.1,?_⟩
  · rw [Reader.taken,← List.append_assoc,← hgot]
    exact prefix_concat_getElem _ _ h.ordered hlt
  · rw [List.length_append]
    exact hj

/-- The store of out makes the bytes of the get delivered ones. -/
theorem Steady.deliver (h : Steady s k c) (wrapped : Bool) (len outIdx : Uint)
    (bytes : List Byte) (hr : s.reader=.publish len bytes outIdx) :
    Steady (readerStep wrapped s) k c := by
  have ok := h.reader
  rw [hr] at ok
  obtain ⟨hlen,rfl⟩ := ok
  have hgot : s.got=s.delivered++bytes := by rw [Shared.got,hr,Reader.taken]
  have hordered := h.ordered
  rw [hgot] at hordered
  have hcount : (s.delivered++bytes).length=s.delivered.length+len.toNat := by
    rw [List.length_append,hlen]
  have hnext : (if wrapped then Reader.testIn else .idle).taken=[] := by cases wrapped <;> rfl
  simp only [readerStep,hr]
  refine ⟨h.exponent,h.size,h.ring,h.slots,h.inIdx,?_,?_,?_,?_,?_,?_⟩
  · rw [hcount,h.outIdx,
      show s.delivered.length+len.toNat+c=s.delivered.length+c+len.toNat by omega,
      BitVec.ofNat_add (s.delivered.length+c),BitVec.ofNat_toNat,BitVec.setWidth_eq]
  · simp only [Shared.got]
    rw [hnext,List.append_nil]
    exact hordered
  · exact h.cells.advance _ (by rw [hcount]; omega)
  · exact h.marks.advance _ (by rw [hcount]; omega)
  · exact h.writer.mono _ (by rw [hcount]; omega)
  · cases wrapped <;> trivial

/-- A step of a get up to its test of the two indices. -/
theorem readerStep_steady (h : Steady s k c) (wrapped : Bool)
    (hout : ∀ i,s.reader≠.resetOut i) (hin : ∀ i,s.reader≠.resetIn i) :
    Steady (readerStep wrapped s) k c := by
  have hda := h.delivered_le
  have had := h.accepted_le
  have ok := h.reader
  cases hr : s.reader with
  | idle =>
    simp only [readerStep,hr]
    exact h
  | loadIn len =>
    simp only [readerStep,hr]
    exact h.setReader_empty _ rfl ⟨_,h.inIdx,hda,le_rfl⟩
  | loadOut len i =>
    rw [hr] at ok
    obtain ⟨a,rfl,hle,hge⟩ := ok
    have hlen := uintMin_toNat len (BitVec.ofNat 32 (a+c)-s.fifo.outIdx)
    rw [h.outIdx,ofNat_sub_ofNat a _ c k h.exponent hle (by omega),← h.outIdx] at hlen
    simp only [readerStep,hr]
    refine h.setReader_empty _ rfl ?_
    rw [Reader.Ok,hlen]
    omega
  | loadTail len =>
    rw [hr] at ok
    simp only [readerStep,hr]
    refine h.setReader_empty _ rfl ⟨ok,?_⟩
    rw [uintMin_toNat,h.outIdx,tail_toNat _ k _ h.exponent h.size]
  | loadOffset len l =>
    rw [hr] at ok
    simp only [readerStep,hr]
    refine h.setReader_empty _ rfl ⟨ok.1,ok.2,?_,Nat.zero_le _⟩
    rw [h.outIdx,masked_ofNat _ k _ h.exponent h.size]
  | copy len l offset bytes =>
    by_cases hj : bytes.length<len.toNat
    · exact h.load wrapped len l offset bytes hr hj
    · have hordered := h.ordered
      rw [Shared.got,hr] at hordered
      rw [hr] at ok
      simp only [readerStep,hr,if_neg hj]
      exact h.setReader _ hordered ⟨by have := ok.2.2.2; omega,rfl⟩
  | publish len bytes o => exact h.deliver wrapped len o bytes hr
  | testIn =>
    simp only [readerStep,hr]
    exact h.setReader_empty _ rfl trivial
  | testOut i =>
    simp only [readerStep,hr]
    by_cases he : i=s.fifo.outIdx
    · rw [if_pos he]
      exact h.setReader_empty _ rfl he
    · rw [if_neg he]
      exact h.setReader_empty _ rfl trivial
  | resetOut i => exact absurd hr (hout i)
  | resetIn i => exact absurd hr (hin i)

end

end IdearNiu.Fifo
