import IdearNiu.Fifo.Steady

namespace IdearNiu.Fifo

open Windows

theorem isPowerOf2_exponent (size : Uint) (h : isPowerOf2 size=true) :
    ∃ k≤31,size.toNat=2^k := by
  obtain ⟨hne,hand⟩ := of_decide_eq_true h
  have hpos : size.toNat≠0 := fun h0 => hne (BitVec.eq_of_toNat_eq h0)
  have hsub : (size-1).toNat=size.toNat-1 := by bv_omega
  have hnat : size.toNat&&&(size.toNat-1)=0 := by
    rw [← hsub,← BitVec.toNat_and,hand]
    rfl
  obtain ⟨k,hk⟩ := (Nat.and_sub_one_eq_zero_iff_isPowerOfTwo hpos).mp hnat
  refine ⟨k,?_,hk⟩
  by_contra hgt
  have := Nat.pow_le_pow_right (show 0<2 by omega) (show 32≤k by omega)
  have := size.isLt
  omega

theorem steady_start (buffer : List Byte) (size : Uint) (fifo : Kfifo)
    (hinit : kfifoInit buffer size=some fifo) (hbuf : buffer.length=size.toNat) :
    ∃ k,Steady (startOf fifo) k 0 := by
  rw [kfifoInit] at hinit
  by_cases hpow : isPowerOf2 size=true
  · rw [if_pos hpow,Option.some_inj] at hinit
    subst hinit
    obtain ⟨k,hk,hs⟩ := isPowerOf2_exponent size hpow
    refine ⟨k,hk,hs,hbuf.trans hs,?_,rfl,rfl,List.nil_prefix,?_,?_,trivial,trivial⟩
    · exact (List.length_replicate).trans (hbuf.trans hs)
    · exact ⟨Nat.zero_le _,fun p _ hp => absurd hp (Nat.not_lt_zero p)⟩
    · refine ⟨fun p _ hp => absurd hp (Nat.not_lt_zero p),fun x p hm => ?_⟩
      have := List.mem_of_getElem? hm
      simp [startOf] at this
  · rw [if_neg hpow] at hinit
    exact absurd hinit (by simp)

/-- The reset of an emptied fifo finds it as it was tested, with no put past its first load
unless the indices are zero anyway, and no put moves between its two stores. -/
def undisturbed (s : Shared) : Act → Bool
  | .reader => match s.reader with
    | .resetOut i => s.fifo.inIdx=i ∧ (i=0 ∨ s.writer.outside=true)
    | .resetIn i => s.fifo.inIdx=i ∧ (i=0 ∨ s.writer.outside=true)
    | _ => true
  | .writer => match s.reader with
    | .resetIn i => i=0 ∨ s.writer.resting=true
    | _ => true
  | _ => true

/-- Between the two stores of a reset: out is zero already and in is not. -/
structure Resetting (s : Shared) (k c : Nat) (i : Uint) : Prop where
  reader : s.reader=.resetIn i
  nonzero : i≠0
  outIdx : s.fifo.outIdx=0
  inIdx : s.fifo.inIdx=i
  outside : s.writer.outside=true
  before : Steady { s with fifo := { s.fifo with outIdx := i }, reader := .resetOut i } k c

def Inv (s : Shared) : Prop := ∃ k c,Steady s k c ∨ ∃ i,Resetting s k c i

section

variable {s : Shared} {k c : Nat}

theorem outside_pending (w : Writer) (h : w.outside=true) : w.pending=[] := by
  cases w with
  | copy => exact absurd h (by simp [Writer.outside])
  | publish => exact absurd h (by simp [Writer.outside])
  | _ => rfl

theorem resting_step (s : Shared) (h : s.writer.resting=true) : writerStep s=s := by
  cases hw : s.writer with
  | idle => simp only [writerStep,hw]
  | _ =>
    rw [hw] at h
    exact absurd h (by simp [Writer.resting])

theorem outside_ok (w : Writer) (h : w.outside=true) (k c a d : Nat) (i : Uint) :
    w.Ok k c a d i := by
  cases w with
  | idle => trivial
  | loadIn => trivial
  | _ => exact absurd h (by simp [Writer.outside])

/-- The store of in that ends a reset: both indices count from a new point. -/
theorem Resetting.finish {i : Uint} (h : Resetting s k c i) (wrapped : Bool) :
    ∃ c',Steady (readerStep wrapped s) k c' := by
  have b := h.before
  have hempty : s.accepted.length=s.delivered.length := by
    rw [← ofNat_eq_iff _ _ c k b.exponent b.delivered_le b.accepted_le]
    exact b.inIdx.symm.trans (h.inIdx.trans b.outIdx)
  have hstored : s.stored.length=s.delivered.length := by
    rw [Shared.stored,outside_pending _ h.outside,List.append_nil,hempty]
  have hzero : BitVec.ofNat 32 (s.delivered.length+s.delivered.length*(2^32-1))=0 := by
    rw [show s.delivered.length+s.delivered.length*(2^32-1)=s.delivered.length*2^32 by omega]
    apply BitVec.eq_of_toNat_eq
    rw [BitVec.toNat_ofNat,Nat.mul_mod_left]
    rfl
  refine ⟨s.delivered.length*(2^32-1),?_⟩
  simp only [readerStep,h.reader]
  refine ⟨b.exponent,b.size,b.ring,b.slots,?_,?_,?_,b.cells.shift hstored _,
    b.marks.shift hstored _,outside_ok _ h.outside _ _ _ _ _,trivial⟩
  · rw [hempty,hzero]
  · rw [hzero]
    exact h.outIdx
  · exact b.ordered

theorem reader_inv (h : Steady s k c) (wrapped : Bool) (hu : undisturbed s .reader=true) :
    Inv (readerStep wrapped s) := by
  cases hr : s.reader with
  | resetOut i =>
    simp only [undisturbed,hr,decide_eq_true_eq] at hu
    obtain ⟨hin,hfree⟩ := hu
    have hout := h.reader
    rw [hr] at hout
    have hout' : i=s.fifo.outIdx := hout
    simp only [readerStep,hr]
    by_cases hi : i=0
    · refine ⟨k,c,Or.inl ?_⟩
      have hkeep : ({ s with fifo := { s.fifo with outIdx := 0 }, reader := .resetIn i } : Shared)=
          { s with reader := .resetIn i } := by
        rw [← hi,hout']
      rw [hkeep]
      exact h.setReader_empty _ rfl hi
    · refine ⟨k,c,Or.inr ⟨i,rfl,hi,rfl,hin,hfree.resolve_left hi,?_⟩⟩
      have hkeep : ({ s with fifo := { s.fifo with outIdx := i }, reader := .resetOut i } :
          Shared)=s := by
        rw [← hr,hout']
      exact hkeep ▸ h
  | resetIn i =>
    simp only [undisturbed,hr,decide_eq_true_eq] at hu
    have hz := h.reader
    rw [hr] at hz
    have hkeep : readerStep wrapped s={ s with reader := .idle } := by
      simp only [readerStep,hr]
      rw [show (0 : Uint)=s.fifo.inIdx by rw [hu.1]; exact hz.symm]
    rw [hkeep]
    exact ⟨k,c,Or.inl (h.setReader_empty _ rfl trivial)⟩
  | _ => exact ⟨k,c,Or.inl (readerStep_steady h wrapped (by rw [hr]; simp) (by rw [hr]; simp))⟩

/-- A put begins. -/
theorem put_steady (h : Steady s k c) (wrapped : Bool) (source : Source) :
    Steady (act wrapped s (.put source)) k c := by
  cases hw : s.writer with
  | idle =>
    simp only [act,hw]
    exact h.setWriter _ (by rw [hw]; rfl) trivial
  | _ =>
    simp only [act,hw]
    exact h

theorem get_steady (h : Steady s k c) (wrapped : Bool) (len : Uint) :
    Steady (act wrapped s (.get len)) k c := by
  cases hr : s.reader with
  | idle =>
    simp only [act,hr]
    exact h.setReader_empty _ rfl trivial
  | _ =>
    simp only [act,hr]
    exact h

theorem Resetting.act_inv {i : Uint} (h : Resetting s k c i) (wrapped : Bool) (a : Act)
    (hu : undisturbed s a=true) : Inv (act wrapped s a) := by
  cases a with
  | put source =>
    refine ⟨k,c,Or.inr ⟨i,?_⟩⟩
    have hput := put_steady h.before wrapped source
    cases hw : s.writer with
    | idle =>
      simp only [act,hw] at hput ⊢
      exact ⟨h.reader,h.nonzero,h.outIdx,h.inIdx,rfl,hput⟩
    | _ =>
      simp only [act,hw]
      exact h
  | get len =>
    simp only [act,h.reader]
    exact ⟨k,c,Or.inr ⟨i,h⟩⟩
  | writer =>
    simp only [undisturbed,h.reader,decide_eq_true_eq] at hu
    simp only [act,resting_step s (hu.resolve_left h.nonzero)]
    exact ⟨k,c,Or.inr ⟨i,h⟩⟩
  | reader =>
    obtain ⟨c',hc⟩ := h.finish wrapped
    exact ⟨k,c',Or.inl hc⟩

theorem act_inv (h : Inv s) (wrapped : Bool) (a : Act) (hu : undisturbed s a=true) :
    Inv (act wrapped s a) := by
  obtain ⟨k,c,hs | ⟨i,hi⟩⟩ := h
  · cases a with
    | put source => exact ⟨k,c,Or.inl (put_steady hs wrapped source)⟩
    | get len => exact ⟨k,c,Or.inl (get_steady hs wrapped len)⟩
    | writer => exact ⟨k,c,Or.inl (writerStep_steady hs)⟩
    | reader => exact reader_inv hs wrapped hu
  · exact hi.act_inv wrapped a hu

end

/-- Every step of a run leaves the resets undisturbed. -/
def quiet (wrapped : Bool) : Shared → List Act → Bool
  | _,[] => true
  | s,a::acts => undisturbed s a && quiet wrapped (act wrapped s a) acts

theorem interleave_inv (wrapped : Bool) (s : Shared) (acts : List Act) (h : Inv s)
    (hq : quiet wrapped s acts=true) : Inv (interleave wrapped s acts) := by
  induction acts generalizing s with
  | nil => exact h
  | cons a acts ih =>
    obtain ⟨ha,hrest⟩ := Bool.and_eq_true_iff.mp hq
    exact ih (act wrapped s a) (act_inv h wrapped a ha) hrest

/-- The bytes got are in order also between the stores of a reset. -/
theorem Inv.ordered {s : Shared} (h : Inv s) : s.got<+:s.accepted := by
  obtain ⟨k,c,hs | ⟨i,hi⟩⟩ := h
  · exact hs.ordered
  · have hordered := hi.before.ordered
    simp only [Shared.got,hi.reader] at hordered ⊢
    exact hordered

/-- __kfifo_get never resets. -/
def NoReset : Reader → Prop
  | .testIn => False
  | .testOut _ => False
  | .resetOut _ => False
  | .resetIn _ => False
  | _ => True

theorem writerStep_reader (s : Shared) : (writerStep s).reader=s.reader := by
  cases hw : s.writer with
  | copy source len l offset j =>
    simp only [writerStep,hw]
    split <;> rfl
  | _ => simp only [writerStep,hw]

/-- __kfifo_get goes from its store of out straight back to its caller. -/
theorem readerStep_noReset (s : Shared) (h : NoReset s.reader) :
    NoReset (readerStep false s).reader := by
  cases hr : s.reader with
  | copy len l offset bytes =>
    simp only [readerStep,hr]
    split <;> trivial
  | testIn =>
    rw [hr] at h
    exact absurd h not_false
  | testOut i =>
    rw [hr] at h
    exact absurd h not_false
  | resetOut i =>
    rw [hr] at h
    exact absurd h not_false
  | resetIn i =>
    rw [hr] at h
    exact absurd h not_false
  | _ =>
    simp only [readerStep,hr]
    trivial

theorem act_noReset (s : Shared) (a : Act) (h : NoReset s.reader) :
    NoReset (act false s a).reader := by
  cases a with
  | put source => cases hw : s.writer <;> simpa only [act,hw] using h
  | get len =>
    cases hr : s.reader with
    | idle =>
      simp only [act,hr]
      trivial
    | _ =>
      simp only [act,hr]
      exact hr ▸ h
  | writer => exact (writerStep_reader s).symm ▸ h
  | reader => exact readerStep_noReset s h

theorem noReset_undisturbed {s : Shared} (h : NoReset s.reader) (a : Act) :
    undisturbed s a=true := by
  cases a with
  | put => rfl
  | get => rfl
  | writer =>
    cases hr : s.reader with
    | resetIn i =>
      rw [hr] at h
      exact absurd h not_false
    | _ => simp only [undisturbed,hr]
  | reader =>
    cases hr : s.reader with
    | resetOut i =>
      rw [hr] at h
      exact absurd h not_false
    | resetIn i =>
      rw [hr] at h
      exact absurd h not_false
    | _ => simp only [undisturbed,hr]

theorem quiet_unlocked (s : Shared) (acts : List Act) (h : NoReset s.reader) :
    quiet false s acts=true ∧ NoReset (interleave false s acts).reader := by
  induction acts generalizing s with
  | nil => exact ⟨rfl,h⟩
  | cons a acts ih =>
    obtain ⟨hquiet,hend⟩ := ih (act false s a) (act_noReset s a h)
    exact ⟨Bool.and_eq_true_iff.mpr ⟨noReset_undisturbed h a,hquiet⟩,hend⟩

/-- The slot the reader copies next holds a published byte. -/
def ReadsPublished (s : Shared) : Prop :=
  ∀ len l offset bytes,s.reader=.copy len l offset bytes → bytes.length<len.toNat →
    ∃ p < s.accepted.length,s.tags[slotOf l offset bytes.length]?=some (some p)

/-- The slot the writer stores next holds no byte that is still to be delivered. -/
def SparesUnread (s : Shared) : Prop :=
  ∀ source len l offset j,s.writer=.copy source len l offset j → j<len.toNat →
    slotOf l offset j < s.fifo.buffer.length ∧
    ∀ p,s.tags[slotOf l offset j]?=some (some p) → p < s.delivered.length

theorem Steady.readsPublished {s : Shared} {k c : Nat} (h : Steady s k c) :
    ReadsPublished s := by
  intro len l offset bytes hr hj
  obtain ⟨hslot,hlt⟩ := h.reader_slot len l offset bytes hr hj
  have hlive := h.marks.live s.got.length (by rw [Shared.got,List.length_append]; omega)
    (by rw [Shared.stored,List.length_append]; omega)
  rw [h.slots,← hslot] at hlive
  exact ⟨_,hlt,hlive⟩

theorem Steady.sparesUnread {s : Shared} {k c : Nat} (h : Steady s k c) : SparesUnread s := by
  intro source len l offset j hw hj
  obtain ⟨hslot,hroom⟩ := h.writer_slot source len l offset j hw hj
  rw [hslot]
  refine ⟨by rw [h.ring]; exact Nat.mod_lt _ (Nat.two_pow_pos k),fun p hp => ?_⟩
  rw [← h.slots] at hp
  exact h.marks.next_free (by rw [h.slots]; exact hroom) p hp

/-- One writer and one reader need no lock around __kfifo_put and __kfifo_get. -/
theorem kfifo_lock_free (buffer : List Byte) (size : Uint) (fifo : Kfifo)
    (hinit : kfifoInit buffer size=some fifo) (hbuf : buffer.length=size.toNat)
    (acts : List Act) :
    (interleave false (startOf fifo) acts).got<+:
      (interleave false (startOf fifo) acts).accepted ∧
    ReadsPublished (interleave false (startOf fifo) acts) ∧
    SparesUnread (interleave false (startOf fifo) acts) := by
  obtain ⟨k,hstart⟩ := steady_start buffer size fifo hinit hbuf
  obtain ⟨hquiet,hend⟩ := quiet_unlocked (startOf fifo) acts trivial
  have hinv := interleave_inv false _ acts ⟨k,0,Or.inl hstart⟩ hquiet
  refine ⟨hinv.ordered,?_⟩
  obtain ⟨k,c,hs | ⟨i,hi⟩⟩ := hinv
  · exact ⟨hs.readsPublished,hs.sparesUnread⟩
  · rw [hi.reader] at hend
    exact absurd hend not_false

/-- A get copies two bytes out of a full ring while the next put begins. -/
def overlapping : List Act :=
  [Act.put ⟨[7,8,9],3,by decide⟩,Act.get 5]++List.replicate 8 Act.writer++
    List.replicate 6 Act.reader++[Act.put ⟨[5],1,by decide⟩,Act.writer]

theorem kfifo_lock_free_overlapping :
    (interleave false (startOf ⟨[0,0],2,0,0⟩) overlapping).got<+:
      (interleave false (startOf ⟨[0,0],2,0,0⟩) overlapping).accepted ∧
    (interleave false (startOf ⟨[0,0],2,0,0⟩) overlapping).got=[7,8] :=
  ⟨(kfifo_lock_free [0,0] 2 _ rfl (by decide) overlapping).1,by decide⟩

theorem Inv.len_atRest {s : Shared} (h : Inv s) (hrest : atRest s=true) :
    s.accepted.length-s.delivered.length=(kfifoLen s.fifo).toNat := by
  obtain ⟨k,c,hs | ⟨i,hi⟩⟩ := h
  · rw [kfifoLen,__kfifoLen,hs.inIdx,hs.outIdx]
    exact (ofNat_sub_ofNat _ _ c k hs.exponent hs.delivered_le hs.accepted_le).symm
  · rw [atRest,hi.reader] at hrest
    exact absurd hrest (by simp [Reader.resting])

/-- No accepted byte is lost by kfifo_get as long as no put meets a reset. -/
theorem kfifo_wrapped_keeps_bytes (buffer : List Byte) (size : Uint) (fifo : Kfifo)
    (hinit : kfifoInit buffer size=some fifo) (hbuf : buffer.length=size.toNat)
    (acts : List Act) (hquiet : quiet true (startOf fifo) acts=true) :
    (interleave true (startOf fifo) acts).delivered<+:
      (interleave true (startOf fifo) acts).accepted ∧
    (atRest (interleave true (startOf fifo) acts)=true →
      (interleave true (startOf fifo) acts).accepted.length-
        (interleave true (startOf fifo) acts).delivered.length=
        (kfifoLen (interleave true (startOf fifo) acts).fifo).toNat) := by
  obtain ⟨k,hstart⟩ := steady_start buffer size fifo hinit hbuf
  have hinv := interleave_inv true _ acts ⟨k,0,Or.inl hstart⟩ hquiet
  exact ⟨(List.prefix_append _ _).trans hinv.ordered,hinv.len_atRest⟩

/-- A byte goes through, the get resets the emptied fifo, and another byte follows. -/
def throughReset : List Act :=
  [Act.put ⟨[7],1,by decide⟩]++List.replicate 7 Act.writer++[Act.get 1]++
    List.replicate 11 Act.reader++[Act.put ⟨[8],1,by decide⟩]++List.replicate 7 Act.writer

theorem kfifo_wrapped_keeps_bytes_reset :
    quiet true (startOf ⟨[0,0],2,0,0⟩) throughReset=true ∧
    (interleave true (startOf ⟨[0,0],2,0,0⟩) throughReset).delivered<+:
      (interleave true (startOf ⟨[0,0],2,0,0⟩) throughReset).accepted ∧
    (interleave true (startOf ⟨[0,0],2,0,0⟩) throughReset).accepted.length-
      (interleave true (startOf ⟨[0,0],2,0,0⟩) throughReset).delivered.length=
      (kfifoLen (interleave true (startOf ⟨[0,0],2,0,0⟩) throughReset).fifo).toNat := by
  have hquiet : quiet true (startOf ⟨[0,0],2,0,0⟩) throughReset=true := by decide
  have hall := kfifo_wrapped_keeps_bytes [0,0] 2 _ rfl (by decide) throughReset hquiet
  exact ⟨hquiet,hall.1,hall.2 (by decide)⟩

/-- A get on the fresh fifo finds both indices equal, a put publishes a byte, and the two stores
of the reset follow. -/
def racing : List Act :=
  [Act.get 1]++List.replicate 8 Act.reader++[Act.put ⟨[7],1,by decide⟩]++
    List.replicate 7 Act.writer++List.replicate 2 Act.reader

/-- The byte is lost. -/
theorem kfifo_reset_loses_byte :
    kfifoInit [0,0] 2=some ⟨[0,0],2,0,0⟩ ∧
    atRest (interleave true (startOf ⟨[0,0],2,0,0⟩) racing)=true ∧
    (interleave true (startOf ⟨[0,0],2,0,0⟩) racing).accepted=[7] ∧
    (interleave true (startOf ⟨[0,0],2,0,0⟩) racing).delivered=[] ∧
    (kfifoLen (interleave true (startOf ⟨[0,0],2,0,0⟩) racing).fifo).toNat=0 :=
  ⟨rfl,by decide,by decide,by decide,by decide⟩

end IdearNiu.Fifo
