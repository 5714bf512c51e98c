import IdearNiu.Dhcpc.Message
import IdearNiu.Framework.Cursor
import Mathlib.Data.List.GetD

namespace IdearNiu.XSplit

open Cursor (stringAt stringAt_eq)
open Dhcpc (Byte Word le32 le32_le32Bytes)

def tokMaxSz : Nat := 32

def tokMaxCnt : Nat := 32

/-- The memory from the start of a struct token on: the rows of str, then str_cnt. -/
abbrev Mem := Int → Byte

def rowStart (row : Int) : Int := tokMaxSz*row

/-- The offset of str_cnt. -/
def cntStart : Int := rowStart tokMaxCnt

def strCnt (mem : Mem) : Int :=
  (le32 (mem cntStart) (mem (cntStart+1)) (mem (cntStart+2)) (mem (cntStart+3))).toInt

def setStrCnt (mem : Mem) (n : Int) : Mem :=
  let w := BitVec.ofInt 32 n
  fun i => if i=cntStart then w.extractLsb' 0 8
    else if i=cntStart+1 then w.extractLsb' 8 8
    else if i=cntStart+2 then w.extractLsb' 16 8
    else if i=cntStart+3 then w.extractLsb' 24 8
    else mem i

/-- The loop of xsplit: substr points to column col of row. Every write with its row and its
column and every value of str_cnt are kept for the statements. -/
structure State where
  mem : Mem
  row : Int
  col : Nat
  writes : List (Int × Nat)
  counts : List Int

/-- One character of the sentence; a char is signed. -/
def step (sep : Int) (st : State) (c : Byte) : State :=
  if c.toInt=sep then
    let mem := setStrCnt st.mem (strCnt st.mem+1)
    {st with mem := mem, row := strCnt mem, col := 0, counts := strCnt mem::st.counts}
  else
    {st with
      mem := Function.update st.mem (rowStart st.row+st.col) c
      col := st.col+1
      writes := (st.row,st.col)::st.writes}

/-- xsplit on the memory of tok and the characters before the terminator of sentence. -/
def xsplit (tok : Mem) (sentence : List Byte) (sep : Int) : State :=
  sentence.foldl (step sep) ⟨tok,0,0,[],[]⟩

def Zeroed (tok : Mem) : Prop := ∀ i, 0 ≤ i → i<cntStart+4 → tok i=0

/-- Every write leaves room for the terminator of its row, and there is a row for every
value of str_cnt. -/
structure Inside (st : State) : Prop where
  writes : ∀ w∈st.writes, 0≤w.1 ∧ w.1 < tokMaxCnt ∧ w.2+1 < tokMaxSz
  counts : ∀ n∈st.counts, 0≤n ∧ n < tokMaxCnt

/-- The strings in the rows up to str_cnt, joined with the separator, are the sentence. -/
def Joins (sentence : List Byte) (sep : Int) (st : State) : Prop :=
  ∃ rows : List (List Byte), (rows.length : Int)=strCnt st.mem+1 ∧
    (∀ (i : Nat) (h : i<rows.length),
      stringAt 0 st.mem (rowStart i) tokMaxSz=some rows[i]) ∧
    [BitVec.ofInt 8 sep].intercalate rows=sentence

/-- The fields of the sentence fit in the rows, and there are enough rows. -/
def Fits (sentence : List Byte) (sep : Byte) : Prop :=
  (∀ f∈sentence.splitOn sep, f.length < tokMaxSz) ∧ sentence.count sep < tokMaxCnt

theorem strCnt_setStrCnt (mem : Mem) (n : Int) :
    strCnt (setStrCnt mem n)=(BitVec.ofInt 32 n).toInt := by
  have h1 : cntStart+1≠cntStart := by omega
  have h2 : cntStart+2≠cntStart ∧ cntStart+2≠cntStart+1 := by omega
  have h3 : cntStart+3≠cntStart ∧ cntStart+3≠cntStart+1 ∧ cntStart+3≠cntStart+2 := by omega
  simp only [strCnt,setStrCnt,if_true,h1,h2,h3,if_false,le32_le32Bytes]

theorem setStrCnt_table (mem : Mem) (n : Int) (i : Int) (h : i<cntStart) :
    setStrCnt mem n i=mem i := by
  have h0 : i≠cntStart ∧ i≠cntStart+1 ∧ i≠cntStart+2 ∧ i≠cntStart+3 := by omega
  simp only [setStrCnt,h0,if_false]

theorem strCnt_update (mem : Mem) (i : Int) (c : Byte) (h : i<cntStart) :
    strCnt (Function.update mem i c)=strCnt mem := by
  have h0 : cntStart≠i ∧ cntStart+1≠i ∧ cntStart+2≠i ∧ cntStart+3≠i := by omega
  simp only [strCnt,Function.update_of_ne h0.1,Function.update_of_ne h0.2.1,
    Function.update_of_ne h0.2.2.1,Function.update_of_ne h0.2.2.2]

theorem toInt_eq_iff (c : Byte) (sep : Int) (h0 : 0 < sep) (h1 : sep<128) :
    c.toInt=sep ↔ c=BitVec.ofInt 8 sep := by
  have hs : (BitVec.ofInt 8 sep).toInt=sep := by
    rw [BitVec.toInt_ofInt]
    apply Int.bmod_eq_of_le
    · omega
    · omega
  constructor
  · intro h
    apply BitVec.eq_of_toInt_eq
    rw [hs,h]
  · intro h
    rw [h,hs]

section Fields

variable (p : List Byte) (sep : Byte)

theorem length_splitOn : (p.splitOn sep).length=p.count sep+1 := by
  induction p with
  | nil => simp
  | cons c p ih =>
    rw [List.splitOn_cons_eq_if_modifyHead,List.count_cons]
    split_ifs
    · rw [List.length_cons,ih]
    · rw [List.length_modifyHead,ih,Nat.add_zero]

theorem splitOn_concat_self : (p++[sep]).splitOn sep=p.splitOn sep++[[]] := by
  rw [List.splitOn_append_cons_self,List.splitOn_nil]

/-- A character that is no separator goes to the last field. -/
theorem splitOn_concat_ne (c : Byte) (h : c≠sep) :
    ∃ fields last, p.splitOn sep=fields++[last] ∧
      (p++[c]).splitOn sep=fields++[last++[c]] := by
  have hc : ¬(c==sep)=true := by simpa using h
  induction p with
  | nil =>
    refine ⟨[],[],List.splitOn_nil sep,?_⟩
    rw [List.nil_append,List.splitOn_cons_eq_if_modifyHead,if_neg hc,List.splitOn_nil]
    rfl
  | cons x p ih =>
    obtain ⟨fields,last,hp,hpc⟩ := ih
    rw [List.cons_append,List.splitOn_cons_eq_if_modifyHead,List.splitOn_cons_eq_if_modifyHead,
      hp,hpc]
    by_cases hx : (x==sep)=true
    · exact ⟨[]::fields,last,by rw [if_pos hx]; rfl,by rw [if_pos hx]; rfl⟩
    · rw [if_neg hx,if_neg hx]
      cases fields with
      | nil => exact ⟨[],x::last,rfl,rfl⟩
      | cons f fields => exact ⟨(x::f)::fields,last,rfl,rfl⟩

theorem mem_of_mem_splitOn (f : List Byte) (hf : f∈p.splitOn sep) (c : Byte) (hc : c∈f) :
    c∈p := by
  induction p generalizing f with
  | nil =>
    rw [List.splitOn_nil,List.mem_singleton] at hf
    rw [hf] at hc
    exact hc
  | cons x p ih =>
    rw [List.splitOn_cons_eq_if_modifyHead] at hf
    by_cases hx : (x==sep)=true
    · rw [if_pos hx] at hf
      rcases List.mem_cons.mp hf with he|hm
      · rw [he] at hc
        cases hc
      · exact List.mem_cons_of_mem x (ih f hm hc)
    · rw [if_neg hx] at hf
      obtain ⟨g,fields,hp⟩ := List.exists_cons_of_ne_nil (List.splitOn_ne_nil sep p)
      rw [hp] at hf ih
      rcases List.mem_cons.mp hf with he|hm
      · rw [he] at hc
        rcases List.mem_cons.mp hc with hcx|hcg
        · rw [hcx]
          exact List.mem_cons_self
        · exact List.mem_cons_of_mem x (ih g List.mem_cons_self hcg)
      · exact List.mem_cons_of_mem x (ih f (List.mem_cons_of_mem g hm) hc)

end Fields

/-- The token after a part of the sentence: its fields are in the rows, the rest is zero. -/
structure Holds (p : List Byte) (sep : Byte) (st : State) : Prop where
  cnt : strCnt st.mem=p.count sep
  row : st.row=p.count sep
  col : st.col=((p.splitOn sep).getLastD []).length
  cells : ∀ i < tokMaxCnt, ∀ j < tokMaxSz,
    st.mem (rowStart i+j)=((p.splitOn sep).getD i []).getD j 0

theorem cell_lt (i j : Nat) (hi : i < tokMaxCnt) (hj : j < tokMaxSz) :
    rowStart i+j<cntStart := by
  simp only [cntStart,rowStart,tokMaxCnt,tokMaxSz] at *
  omega

theorem cell_inj (i i' j j' : Nat) (hj : j < tokMaxSz) (hj' : j' < tokMaxSz)
    (h : rowStart i+j=rowStart i'+j') : i=i' ∧ j=j' := by
  simp only [rowStart,tokMaxSz] at *
  omega

theorem getD_concat_nil (fields : List (List Byte)) (i : Nat) :
    (fields++[[]]).getD i []=fields.getD i [] := by
  rcases Nat.lt_or_ge i fields.length with h|h
  · rw [List.getD_append _ _ _ _ h]
  · rw [List.getD_append_right _ _ _ _ h,List.getD_eq_default _ _ h]
    cases i-fields.length <;> rfl

/-- A character that is appended to the last field changes one place. -/
theorem getD_concat_char (fields : List (List Byte)) (last : List Byte) (c : Byte) (i j : Nat) :
    ((fields++[last++[c]]).getD i []).getD j 0=
      if i=fields.length ∧ j=last.length then c else ((fields++[last]).getD i []).getD j 0 := by
  rcases lt_trichotomy i fields.length with hi|hi|hi
  · rw [List.getD_append _ _ _ _ hi,List.getD_append _ _ _ _ hi,if_neg (by omega)]
  · rw [List.getD_append_right _ _ _ _ hi.ge,List.getD_append_right _ _ _ _ hi.ge,hi,
      Nat.sub_self,List.getD_cons_zero,List.getD_cons_zero]
    rcases lt_trichotomy j last.length with hj|hj|hj
    · rw [List.getD_append _ _ _ _ hj,if_neg (by omega)]
    · rw [List.getD_append_right _ _ _ _ hj.ge,if_pos ⟨rfl,hj⟩,hj,Nat.sub_self]
      rfl
    · rw [List.getD_eq_default _ _ (by simpa using hj),List.getD_eq_default _ _ hj.le,
        if_neg (by omega)]
  · rw [List.getD_eq_default (fields++[last++[c]]) _ (by simpa using hi),
      List.getD_eq_default (fields++[last]) _ (by simpa using hi),if_neg (by omega)]

/-- A separator leads to the next row. -/
theorem Holds.separator (p : List Byte) (sep : Int) (st : State) (h0 : 0 < sep) (h1 : sep<128)
    (hh : Holds p (BitVec.ofInt 8 sep) st) (hn : p.count (BitVec.ofInt 8 sep)+1<2^31) :
    Holds (p++[BitVec.ofInt 8 sep]) (BitVec.ofInt 8 sep) (step sep st (BitVec.ofInt 8 sep)) ∧
    (step sep st (BitVec.ofInt 8 sep)).counts=
      ((p.count (BitVec.ofInt 8 sep)+1 : Nat) : Int)::st.counts ∧
    (step sep st (BitVec.ofInt 8 sep)).writes=st.writes := by
  have hcnt : strCnt (setStrCnt st.mem (strCnt st.mem+1))=
      ((p.count (BitVec.ofInt 8 sep)+1 : Nat) : Int) := by
    rw [strCnt_setStrCnt,hh.cnt,BitVec.toInt_ofInt]
    apply Int.bmod_eq_of_le <;> omega
  have hcount : (p++[BitVec.ofInt 8 sep]).count (BitVec.ofInt 8 sep)=
      p.count (BitVec.ofInt 8 sep)+1 := by
    rw [List.count_append,List.count_singleton_self]
  rw [step,if_pos ((toInt_eq_iff _ sep h0 h1).mpr rfl)]
  refine ⟨⟨?_,?_,?_,?_⟩,?_,rfl⟩
  · rw [hcount]
    exact hcnt
  · rw [hcount]
    exact hcnt
  · rw [splitOn_concat_self,List.getLastD_concat]
    rfl
  · intro i hi j hj
    rw [splitOn_concat_self,getD_concat_nil,← hh.cells i hi j hj]
    exact setStrCnt_table _ _ _ (cell_lt i j hi hj)
  · dsimp only
    rw [hcnt]

/-- Another character goes to the end of the current row, as long as it is in the table. -/
theorem Holds.character (p : List Byte) (sep : Int) (st : State) (c : Byte) (h0 : 0 < sep)
    (h1 : sep<128) (hc : c≠BitVec.ofInt 8 sep) (hh : Holds p (BitVec.ofInt 8 sep) st)
    (hn : p.count (BitVec.ofInt 8 sep) < tokMaxCnt) (hcol : st.col < tokMaxSz) :
    Holds (p++[c]) (BitVec.ofInt 8 sep) (step sep st c) ∧
    (step sep st c).writes=((p.count (BitVec.ofInt 8 sep) : Int),st.col)::st.writes ∧
    (step sep st c).counts=st.counts := by
  obtain ⟨fields,last,hp,hpc⟩ := splitOn_concat_ne p (BitVec.ofInt 8 sep) c hc
  have hlen := length_splitOn p (BitVec.ofInt 8 sep)
  have hcl := hh.col
  rw [hp,List.length_append,List.length_singleton] at hlen
  rw [hp,List.getLastD_concat] at hcl
  have hcount : (p++[c]).count (BitVec.ofInt 8 sep)=p.count (BitVec.ofInt 8 sep) := by
    rw [List.count_append,List.count_singleton]
    simp [hc]
  have haddr := cell_lt _ st.col hn hcol
  rw [step,if_neg (fun h => hc ((toInt_eq_iff c sep h0 h1).mp h)),hh.row]
  refine ⟨⟨?_,?_,?_,?_⟩,rfl,rfl⟩
  · dsimp only
    rw [hcount,strCnt_update _ _ _ haddr,hh.cnt]
  · rw [hcount]
  · rw [hpc,List.getLastD_concat,List.length_append,hcl]
    rfl
  · intro i hi j hj
    rw [hpc,getD_concat_char,← hp,← hh.cells i hi j hj]
    dsimp only
    split_ifs with hij
    · obtain ⟨hi',hj'⟩ := hij
      rw [show i=p.count (BitVec.ofInt 8 sep) by omega,show j=st.col by omega,
        Function.update_self]
    · apply Function.update_of_ne
      intro he
      obtain ⟨hi',hj'⟩ := cell_inj i _ j st.col hj hcol he
      exact hij (by omega)

theorem fits_separator (p : List Byte) (sep : Byte) :
    Fits (p++[sep]) sep ↔ Fits p sep ∧ p.count sep+1 < tokMaxCnt := by
  have hcount : (p++[sep]).count sep=p.count sep+1 := by
    rw [List.count_append,List.count_singleton_self]
  rw [Fits,Fits,splitOn_concat_self,hcount]
  constructor
  · intro ⟨hf,hn⟩
    exact ⟨⟨fun f hm => hf f (List.mem_append_left _ hm),by omega⟩,hn⟩
  · intro ⟨⟨hf,_⟩,hn⟩
    refine ⟨?_,hn⟩
    intro f hm
    rcases List.mem_append.mp hm with hl|hr
    · exact hf f hl
    · rw [List.mem_singleton.mp hr]
      decide

theorem fits_character (p : List Byte) (sep c : Byte) (hc : c≠sep) :
    Fits (p++[c]) sep ↔ Fits p sep ∧ ((p.splitOn sep).getLastD []).length+1 < tokMaxSz := by
  obtain ⟨fields,last,hp,hpc⟩ := splitOn_concat_ne p sep c hc
  have hcount : (p++[c]).count sep=p.count sep := by
    rw [List.count_append,List.count_singleton]
    simp [hc]
  rw [Fits,Fits,hp,hpc,hcount,List.getLastD_concat]
  simp only [List.mem_append,List.mem_singleton,or_imp,forall_and,forall_eq,List.length_append,
    List.length_singleton]
  constructor
  · intro ⟨⟨hf,hl⟩,hn⟩
    exact ⟨⟨⟨hf,by omega⟩,hn⟩,hl⟩
  · intro ⟨⟨⟨hf,_⟩,hn⟩,hl⟩
    exact ⟨⟨hf,hl⟩,hn⟩

theorem inside_iff (st : State) : Inside st ↔
    (∀ w∈st.writes, 0≤w.1 ∧ w.1 < tokMaxCnt ∧ w.2+1 < tokMaxSz) ∧
    ∀ n∈st.counts, 0≤n ∧ n < tokMaxCnt :=
  ⟨fun h => ⟨h.writes,h.counts⟩,fun h => ⟨h.1,h.2⟩⟩

/-- A run that stays in the table has stayed there before its last character. -/
theorem Inside.of_step (sep : Int) (st : State) (c : Byte) (h : Inside (step sep st c)) :
    Inside st := by
  rw [step] at h
  split_ifs at h
  · exact ⟨h.writes,fun n hn => h.counts n (List.mem_cons_of_mem _ hn)⟩
  · exact ⟨fun w hw => h.writes w (List.mem_cons_of_mem _ hw),h.counts⟩

theorem Holds.inside_separator (p : List Byte) (sep : Int) (st : State) (h0 : 0 < sep)
    (h1 : sep<128) (hh : Holds p (BitVec.ofInt 8 sep) st)
    (hn : p.count (BitVec.ofInt 8 sep) < tokMaxCnt) :
    Inside (step sep st (BitVec.ofInt 8 sep)) ↔
      Inside st ∧ p.count (BitVec.ofInt 8 sep)+1 < tokMaxCnt := by
  have hlt : p.count (BitVec.ofInt 8 sep)+1<2^31 := by
    rw [tokMaxCnt] at hn
    omega
  obtain ⟨_,hcounts,hwrites⟩ := hh.separator p sep st h0 h1 hlt
  rw [inside_iff,inside_iff,hcounts,hwrites,List.forall_mem_cons]
  constructor
  · intro ⟨hw,hnew,hold⟩
    exact ⟨⟨hw,hold⟩,by omega⟩
  · intro ⟨⟨hw,hold⟩,hnew⟩
    exact ⟨hw,⟨by omega,by omega⟩,hold⟩

theorem Holds.inside_character (p : List Byte) (sep : Int) (st : State) (c : Byte) (h0 : 0 < sep)
    (h1 : sep<128) (hc : c≠BitVec.ofInt 8 sep) (hh : Holds p (BitVec.ofInt 8 sep) st)
    (hn : p.count (BitVec.ofInt 8 sep) < tokMaxCnt) :
    Inside (step sep st c) ↔ Inside st ∧ st.col+1 < tokMaxSz := by
  rw [step,if_neg (fun h => hc ((toInt_eq_iff c sep h0 h1).mp h)),inside_iff,inside_iff,
    List.forall_mem_cons,hh.row]
  constructor
  · intro ⟨⟨hnew,hw⟩,hold⟩
    exact ⟨⟨hw,hold⟩,hnew.2.2⟩
  · intro ⟨⟨hw,hold⟩,hnew⟩
    exact ⟨⟨⟨by omega,by omega,hnew⟩,hw⟩,hold⟩

theorem holds_nil (tok : Mem) (hz : Zeroed tok) (sep : Byte) :
    Holds [] sep ⟨tok,0,0,[],[]⟩ := by
  have hzero (k : Int) (h0 : 0 ≤ k) (h4 : k<4) : tok (cntStart+k)=0 := by
    apply hz
    · simp only [cntStart,rowStart,tokMaxCnt,tokMaxSz]
      omega
    · omega
  have hfirst : tok cntStart=0 := by
    have := hzero 0 (le_refl 0) (by omega)
    rwa [add_zero] at this
  refine ⟨?_,rfl,rfl,?_⟩
  · dsimp only
    rw [strCnt,hfirst,hzero 1 (by omega) (by omega),hzero 2 (by omega) (by omega),
      hzero 3 (by omega) (by omega),List.count_nil]
    decide
  · intro i hi j hj
    have hlt := cell_lt i j hi hj
    have hempty : (([] : List Byte).splitOn sep).getD i []=[] := by
      rw [List.splitOn_nil]
      cases i <;> rfl
    rw [hempty]
    apply hz
    · simp only [rowStart,tokMaxSz]
      omega
    · omega

/-- A run stays in the table exactly when the fields fit, and then it has them in its rows. -/
theorem xsplit_inside_iff (tok : Mem) (hz : Zeroed tok) (sep : Int) (h0 : 0 < sep)
    (h1 : sep<128) (p : List Byte) :
    (Inside (xsplit tok p sep) ↔ Fits p (BitVec.ofInt 8 sep)) ∧
    (Fits p (BitVec.ofInt 8 sep) → Holds p (BitVec.ofInt 8 sep) (xsplit tok p sep)) := by
  induction p using List.reverseRecOn with
  | nil =>
    refine ⟨iff_of_true ⟨?_,?_⟩ ⟨?_,?_⟩,fun _ => holds_nil tok hz _⟩
    · intro w hw
      cases hw
    · intro n hn
      cases hn
    · intro f hf
      rw [List.splitOn_nil,List.mem_singleton] at hf
      rw [hf]
      decide
    · rw [List.count_nil]
      decide
  | append_singleton p c ih =>
    obtain ⟨hiff,hholds⟩ := ih
    have hrun : xsplit tok (p++[c]) sep=step sep (xsplit tok p sep) c := by
      rw [xsplit,xsplit,List.foldl_append]
      rfl
    rw [hrun]
    by_cases hc : c=BitVec.ofInt 8 sep
    · subst hc
      rw [fits_separator]
      refine ⟨⟨?_,?_⟩,?_⟩
      · intro hin
        have hfits := hiff.mp (hin.of_step sep _ _)
        exact ⟨hfits,((hholds hfits).inside_separator p sep _ h0 h1 hfits.2).mp hin |>.2⟩
      · intro ⟨hfits,hn⟩
        exact ((hholds hfits).inside_separator p sep _ h0 h1 hfits.2).mpr ⟨hiff.mpr hfits,hn⟩
      · intro ⟨hfits,hn⟩
        apply ((hholds hfits).separator p sep _ h0 h1 _).1
        rw [tokMaxCnt] at hn
        omega
    · rw [fits_character p _ c hc]
      refine ⟨⟨?_,?_⟩,?_⟩
      · intro hin
        have hfits := hiff.mp (hin.of_step sep _ _)
        have hh := hholds hfits
        rw [← hh.col]
        exact ⟨hfits,(hh.inside_character p sep _ c h0 h1 hc hfits.2).mp hin |>.2⟩
      · intro ⟨hfits,hl⟩
        have hh := hholds hfits
        rw [← hh.col] at hl
        exact (hh.inside_character p sep _ c h0 h1 hc hfits.2).mpr ⟨hiff.mpr hfits,hl⟩
      · intro ⟨hfits,hl⟩
        have hh := hholds hfits
        rw [← hh.col] at hl
        exact (hh.character p sep _ c h0 h1 hc hfits.2 (by omega)).1

/-- The rows that hold the fields of a sentence join to it. -/
theorem Holds.joins (sentence : List Byte) (sep : Int) (st : State) (hnul : 0∉sentence)
    (hfits : Fits sentence (BitVec.ofInt 8 sep))
    (hh : Holds sentence (BitVec.ofInt 8 sep) st) : Joins sentence sep st := by
  have hlen := length_splitOn sentence (BitVec.ofInt 8 sep)
  refine ⟨sentence.splitOn (BitVec.ofInt 8 sep),?_,?_,List.intercalate_splitOn _⟩
  · rw [hlen,hh.cnt]
    rfl
  · intro i hi
    have hmem : (sentence.splitOn (BitVec.ofInt 8 sep))[i]∈sentence.splitOn (BitVec.ofInt 8 sep) :=
      List.getElem_mem hi
    have hshort := hfits.1 _ hmem
    have hrow : i < tokMaxCnt := by
      have := hfits.2
      omega
    have hcell (j : Nat) (hj : j < tokMaxSz) : st.mem (rowStart i+j)=
        (sentence.splitOn (BitVec.ofInt 8 sep))[i].getD j 0 := by
      rw [hh.cells i hrow j hj,List.getD_eq_getElem _ _ hi]
    apply stringAt_eq 0 _ _ _ _ hshort
    · intro k hk
      rw [hcell k (by omega),List.getD_eq_getElem _ _ hk]
    · intro h
      exact hnul (mem_of_mem_splitOn sentence _ _ hmem 0 h)
    · rw [hcell _ hshort,List.getD_eq_default _ _ (le_refl _)]

/-- On a zeroed token xsplit stays in the table and splits the sentence exactly when every
field has its terminator's room in a row and there are not more fields than rows. -/
theorem xsplit_splits_iff (tok : Mem) (sentence : List Byte) (sep : Int) (hz : Zeroed tok)
    (hnul : 0∉sentence) (h0 : 0 < sep) (h1 : sep<128) :
    Inside (xsplit tok sentence sep) ∧ Joins sentence sep (xsplit tok sentence sep) ↔
      Fits sentence (BitVec.ofInt 8 sep) := by
  obtain ⟨hiff,hholds⟩ := xsplit_inside_iff tok hz sep h0 h1 sentence
  constructor
  · intro ⟨hin,_⟩
    exact hiff.mp hin
  · intro hfits
    exact ⟨hiff.mpr hfits,(hholds hfits).joins sentence sep _ hnul hfits⟩

theorem zeroed_zero : Zeroed (fun _ => 0) := fun _ _ _ => rfl

/-- The three fields of "$G,3,". -/
theorem xsplit_splits_three :
    Inside (xsplit (fun _ => 0) [0x24,0x47,0x2c,0x33,0x2c] 0x2c) ∧
      Joins [0x24,0x47,0x2c,0x33,0x2c] 0x2c
        (xsplit (fun _ => 0) [0x24,0x47,0x2c,0x33,0x2c] 0x2c) := by
  apply (xsplit_splits_iff (fun _ => 0) [0x24,0x47,0x2c,0x33,0x2c] 0x2c zeroed_zero (by decide)
    (by decide) (by decide)).mpr
  exact ⟨by decide,by decide⟩

/-- The last of 32 characters without a separator takes the room of the terminator. -/
theorem xsplit_long_field : ¬∀ (tok : Mem) (sentence : List Byte) (sep : Int), Zeroed tok →
    0∉sentence → 0 < sep → sep<128 →
    Inside (xsplit tok sentence sep) ∧ Joins sentence sep (xsplit tok sentence sep) := by
  intro h
  have hin := (h (fun _ => 0) (List.replicate 32 0x61) 0x2c zeroed_zero (by decide) (by decide)
    (by decide)).1
  have hfits := (xsplit_inside_iff (fun _ => 0) zeroed_zero 0x2c (by decide) (by decide) _).1.mp hin
  exact absurd (hfits.1 (List.replicate 32 0x61) (by decide)) (by decide)

end IdearNiu.XSplit
