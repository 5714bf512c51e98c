import Mathlib.Tactic

namespace IdearNiu.Http

/-- The bytes of an ASCII text. -/
def text (s : String) : List UInt8 := s.toList.map Char.toUInt8

def newline : UInt8 := 10
def carriageReturn : UInt8 := 13
def space : UInt8 := 32
def tab : UInt8 := 9

/-- What follows the last byte that the peer has sent: silence, its close, or an error. -/
inductive Ending where
  | silent
  | closed
  | reset
deriving DecidableEq

/-- A connected socket as the client reads it; sawEof records a read or peek that gave 0. -/
structure Conn where
  unread : List UInt8
  ending : Ending
  sawEof : Bool
deriving DecidableEq

def Conn.fresh : Conn := ⟨[],.silent,false⟩

/-- The most that a peek and a read may return when they are made at some point of the
stream; they return at least one byte when there is one. -/
structure Segment where
  peek : Nat
  read : Nat

def atMost (want limit : Nat) : Nat := min (max want 1) limit

/-- The result of fd_read_hunk: NULL with errno 0, NULL with an error, or the data. -/
inductive Hunk where
  | noData
  | failed
  | data (bytes : List UInt8)
deriving DecidableEq

section Hunk

-- A terminator gets the data read and peeked so far and the length of the part that has
-- been read; it gives the position that follows the terminator.
variable (terminator : List UInt8 → Nat → Option Nat) (maxsize : Nat) (seg : Nat → Segment)

/-- The end of a pass of the loop: the buffer grows when it is full. -/
def growBuffer (bufsize tail : Nat) : Option Nat :=
  if tail=bufsize-1 then
    if bufsize≥maxsize then none else some (min (2*bufsize) maxsize)
  else some bufsize

/-- The schedule is looked up at the number of bytes that are still unread. -/
def fdReadHunkFrom : Nat → Nat → List UInt8 → Conn → Hunk×Conn
  | 0,_,_,c => (.failed,c)
  | fuel+1,bufsize,hunk,c =>
    if c.unread=[] ∧ c.ending≠.closed then (.failed,c)
    else
      let chunk := seg c.unread.length
      let peeked := c.unread.take (atMost chunk.peek (bufsize-1-hunk.length))
      let found := terminator (hunk++peeked) hunk.length
      let remain := match found with
        | some e => e-hunk.length
        | none => peeked.length
      if found.isSome ∧ remain=0 then (.data hunk,c)
      else
        let bufsize' := if bufsize-1<hunk.length+remain then hunk.length+remain+1 else bufsize
        let got := c.unread.take (atMost chunk.read remain)
        let hunk' := hunk++got
        let c' := { c with unread := c.unread.drop got.length }
        if got=[] then
          (if hunk'=[] then .noData else .data hunk',{ c' with sawEof := true })
        else if found.isSome ∧ got.length=remain then (.data hunk',c')
        else match growBuffer maxsize bufsize' hunk'.length with
          | none => (.failed,c')
          | some b => fdReadHunkFrom fuel b hunk' c'

/-- Every pass that goes on has read a byte. -/
def fdReadHunk (sizehint : Nat) (c : Conn) : Hunk×Conn :=
  fdReadHunkFrom terminator maxsize seg (c.unread.length+1) sizehint [] c

end Hunk

def lineTerminator (data : List UInt8) (tail : Nat) : Option Nat :=
  ((data.drop tail).idxOf? newline).map fun i => tail+i+1

def fdReadLineMax : Nat := 4096

def fdReadLine (seg : Nat → Segment) (c : Conn) : Hunk×Conn :=
  fdReadHunk lineTerminator fdReadLineMax seg 128 c

/-- The position that follows the first empty line. -/
def emptyLine : List UInt8 → Nat → Option Nat
  | [],_ => none
  | b::l,p =>
    if b=newline ∧ [carriageReturn,newline]<+:l then some (p+3)
    else if b=newline ∧ [newline]<+:l then some (p+2)
    else emptyLine l (p+1)

def responseHeadTerminator (data : List UInt8) (tail : Nat) : Option Nat :=
  if tail=0 ∧ data.take 4≠(text "HTTP").take (min data.length 4) then some 0
  else
    let start := if tail<2 then 0 else tail-2
    emptyLine (data.drop start) start

def httpResponseMaxSize : Nat := 65536

def readHttpResponseHead (seg : Nat → Segment) (c : Conn) : Hunk×Conn :=
  fdReadHunk responseHeadTerminator httpResponseMaxSize seg 512 c

theorem atMost_pos (want limit : Nat) (h : 0<limit) : 0<atMost want limit := by
  rw [atMost]
  omega

theorem atMost_le (want limit : Nat) : atMost want limit≤limit := by
  rw [atMost]
  omega

theorem growBuffer_of_lt (maxsize bufsize tail : Nat) (hb : tail<bufsize)
    (hm : tail+1 < maxsize) (hle : bufsize ≤ maxsize) :
    ∃ b,growBuffer maxsize bufsize tail=some b ∧ tail+1<b ∧ b ≤ maxsize := by
  rw [growBuffer]
  split_ifs with htail hfull
  · omega
  · exact ⟨_,rfl,by omega,by omega⟩
  · exact ⟨bufsize,rfl,by omega,hle⟩

/-- What a read of at most r bytes takes from a stream that starts with t. -/
theorem exists_take_atMost (t rest : List UInt8) (want r : Nat) (hr : 0<r) (hrt : r≤t.length) :
    ∃ g,0<g ∧ g≤r ∧ (t++rest).take (atMost want r)=t.take g ∧ (t.take g).length=g ∧
      t.take g≠[] ∧ (t++rest).drop g=t.drop g++rest := by
  have hgle := atMost_le want r
  have hgpos := atMost_pos want r hr
  have hlen : (t.take (atMost want r)).length=atMost want r := by
    rw [List.length_take]
    omega
  refine ⟨_,hgpos,hgle,List.take_append_of_le_length (by omega),hlen,?_,
    List.drop_append_of_le_length (by omega)⟩
  intro hnil
  rw [hnil,List.length_nil] at hlen
  omega

/-- A pass in which the terminator finds nothing reads a part of what it has peeked at. -/
theorem fdReadHunkFrom_unseen (terminator : List UInt8 → Nat → Option Nat) (maxsize : Nat)
    (seg : Nat → Segment) (e : Ending) (eof : Bool) (fuel bufsize : Nat) (h t : List UInt8)
    (ht : t≠[]) (hbuf : h.length+1<bufsize)
    (hnone : terminator (h++t.take (atMost (seg t.length).peek (bufsize-1-h.length)))
      h.length=none) :
    ∃ g,0<g ∧ g≤t.length ∧ g≤atMost (seg t.length).peek (bufsize-1-h.length) ∧
      fdReadHunkFrom terminator maxsize seg (fuel+1) bufsize h ⟨t,e,eof⟩=
        (growBuffer maxsize bufsize (h.length+g)).elim (.failed,⟨t.drop g,e,eof⟩)
          fun b => fdReadHunkFrom terminator maxsize seg fuel b (h++t.take g) ⟨t.drop g,e,eof⟩ := by
  have htpos : 0<t.length := List.length_pos_iff.mpr ht
  set p := atMost (seg t.length).peek (bufsize-1-h.length) with hp
  have hppos : 0<p := atMost_pos _ _ (by omega)
  have hple : p≤bufsize-1-h.length := atMost_le _ _
  set r := (t.take p).length with hr
  have hrlen : r=min p t.length := by rw [hr,List.length_take]
  obtain ⟨g,hg,hgr,htake,hglen,hgne,_⟩ :=
    exists_take_atMost t [] (seg t.length).read r (by omega) (by omega)
  rw [List.append_nil] at htake
  refine ⟨g,hg,by omega,by omega,?_⟩
  have hbig : ¬bufsize-1<h.length+r := by omega
  have hlen : (h++t.take g).length=h.length+g := by rw [List.length_append,hglen]
  rw [fdReadHunkFrom]
  simp only [ht,false_and,if_false,← hp,hnone,Option.isSome_none,Bool.false_eq_true,← hr,
    if_neg hbig,htake,hgne,hglen,hlen]
  cases growBuffer maxsize bufsize (h.length+g) <;> rfl

/-- A terminator that finds the end of l, and finds it as soon as it has been peeked at. -/
def Ends (terminator : List UInt8 → Nat → Option Nat) (l rest : List UInt8) : Prop :=
  ∀ i j,i<l.length → i<j →
    terminator ((l++rest).take j) i=if l.length≤j then some l.length else none

/-- However the stream is cut up, the hunk is what the terminator ends. -/
theorem fdReadHunkFrom_ends (terminator : List UInt8 → Nat → Option Nat) (maxsize : Nat)
    (seg : Nat → Segment) (l rest : List UInt8) (hend : Ends terminator l rest)
    (hmax : l.length < maxsize) (e : Ending) (eof : Bool) :
    ∀ fuel bufsize h t,l=h++t → t≠[] → t.length≤fuel → h.length+1<bufsize → bufsize ≤ maxsize →
      fdReadHunkFrom terminator maxsize seg fuel bufsize h ⟨t++rest,e,eof⟩=
        (.data l,⟨rest,e,eof⟩) := by
  intro fuel
  induction fuel with
  | zero =>
    intro bufsize h t _ ht hfuel
    exact absurd (List.eq_nil_of_length_eq_zero (by omega)) ht
  | succ fuel ih =>
    intro bufsize h t hl ht hfuel hbuf hle
    have htpos : 0<t.length := List.length_pos_iff.mpr ht
    have hlen : l.length=h.length+t.length := by rw [hl,List.length_append]
    have hne : t++rest≠[] := by simp [ht]
    have hnext (g : Nat) (hg : 0<g) (hgt : g<t.length) (hgb : h.length+g<bufsize) :
        (growBuffer maxsize bufsize (h.length+g)).elim (.failed,⟨t.drop g++rest,e,eof⟩)
          (fun b => fdReadHunkFrom terminator maxsize seg fuel b (h++t.take g)
            ⟨t.drop g++rest,e,eof⟩)=(.data l,⟨rest,e,eof⟩) := by
      have hlen' : (h++t.take g).length=h.length+g := by
        rw [List.length_append,List.length_take]
        omega
      obtain ⟨b,hb,hlt,hbmax⟩ :=
        growBuffer_of_lt maxsize bufsize (h.length+g) (by omega) (by omega) hle
      rw [hb,Option.elim_some]
      refine ih b (h++t.take g) (t.drop g) ?_ ?_ ?_ (by omega) hbmax
      · rw [List.append_assoc,List.take_append_drop,hl]
      · intro hnil
        have := congrArg List.length hnil
        rw [List.length_drop,List.length_nil] at this
        omega
      · rw [List.length_drop]
        omega
    set chunk := seg (t++rest).length with hchunk
    set p := atMost chunk.peek (bufsize-1-h.length) with hp
    have hppos : 0<p := atMost_pos _ _ (by omega)
    have hple : p≤bufsize-1-h.length := atMost_le _ _
    have hdata : terminator (h++(t++rest).take p) h.length=
        if l.length≤h.length+p then some l.length else none := by
      rw [← hend h.length (h.length+p) (by omega) (by omega),hl,List.append_assoc,
        List.take_length_add_append]
    by_cases hfound : l.length≤h.length+p
    · rw [if_pos hfound] at hdata
      have hrem : l.length-h.length=t.length := by omega
      obtain ⟨g,hg,hgr,htake,hglen,hgne,hdrop⟩ :=
        exists_take_atMost t rest chunk.read t.length htpos le_rfl
      have hbig : ¬bufsize-1<h.length+t.length := by omega
      have hlen' : (h++t.take g).length=h.length+g := by rw [List.length_append,hglen]
      rw [fdReadHunkFrom]
      simp only [hne,false_and,if_false,← hchunk,← hp,hdata,hrem,Option.isSome_some,true_and,
        htpos.ne',if_neg hbig,htake,hglen,hdrop,hgne,hlen']
      split_ifs with hall
      · rw [hall,List.take_length,List.drop_length,hl,List.nil_append]
      · rw [← hnext g hg (by omega) (by omega)]
        cases growBuffer maxsize bufsize (h.length+g) <;> rfl
    · rw [if_neg hfound] at hdata
      obtain ⟨g,hg,_,hgp,hpass⟩ := fdReadHunkFrom_unseen terminator maxsize seg e eof fuel bufsize
        h (t++rest) hne hbuf hdata
      rw [← hchunk,← hp] at hgp
      rw [hpass,List.take_append_of_le_length (by omega),List.drop_append_of_le_length (by omega)]
      exact hnext g hg (by omega) (by omega)

theorem fdReadHunk_ends (terminator : List UInt8 → Nat → Option Nat) (maxsize sizehint : Nat)
    (seg : Nat → Segment) (l rest : List UInt8) (hend : Ends terminator l rest) (hl : l≠[])
    (hmax : l.length < maxsize) (hsize : 1 < sizehint) (hle : sizehint ≤ maxsize) (e : Ending)
    (eof : Bool) :
    fdReadHunk terminator maxsize seg sizehint ⟨l++rest,e,eof⟩=(.data l,⟨rest,e,eof⟩) := by
  rw [fdReadHunk]
  refine fdReadHunkFrom_ends terminator maxsize seg l rest hend hmax e eof _ sizehint [] l rfl hl
    ?_ hsize hle
  simp only [List.length_append]
  omega

/-- A line that fd_read_line reads in one go. -/
structure IsLine (l : List UInt8) : Prop where
  ended : ∃ p,l=p++[newline] ∧ newline∉p
  short : l.length<fdReadLineMax

theorem idxOf?_newline (p q : List UInt8) (hp : newline∉p) :
    (p++newline::q).idxOf? newline=some p.length := by
  induction p with
  | nil => simp [List.idxOf?_cons]
  | cons b p ih =>
    simp only [List.mem_cons,not_or] at hp
    have hb : (b==newline)=false := by simpa using Ne.symm hp.1
    simp [List.idxOf?_cons,hb,ih hp.2]

theorem lineTerminator_ends (l rest : List UInt8) (hl : IsLine l) :
    Ends lineTerminator l rest := by
  obtain ⟨p,rfl,hp⟩ := hl.ended
  intro i j hi hij
  rw [List.length_append,List.length_singleton] at hi ⊢
  rw [lineTerminator]
  by_cases hj : p.length+1≤j
  · have hdata : ((p++[newline]++rest).take j).drop i=
        p.drop i++newline::rest.take (j-(p.length+1)) := by
      rw [List.append_assoc,List.singleton_append,List.take_append,
        List.take_of_length_le (by omega),List.drop_append_of_le_length (by omega),
        show j-p.length=(j-(p.length+1))+1 by omega,List.take_succ_cons]
    have hnot : newline∉p.drop i := fun h => hp (List.mem_of_mem_drop h)
    rw [hdata,if_pos hj,idxOf?_newline _ _ hnot,Option.map_some,List.length_drop]
    congr 1
    omega
  · have hnone : (((p++[newline]++rest).take j).drop i).idxOf? newline=none := by
      rw [List.idxOf?_eq_none_iff,List.append_assoc,List.take_append_of_le_length (by omega)]
      exact fun h => hp (List.mem_of_mem_take (List.mem_of_mem_drop h))
    rw [hnone,if_neg hj,Option.map_none]

theorem fdReadLine_nil (seg : Nat → Segment) (e : Ending) (eof : Bool) (line : List UInt8) :
    (fdReadLine seg ⟨[],e,eof⟩).1≠.data line := by
  cases e <;> simp [fdReadLine,fdReadHunk,fdReadHunkFrom,lineTerminator]

theorem fdReadLine_line (seg : Nat → Segment) (l rest : List UInt8) (hl : IsLine l)
    (e : Ending) (eof : Bool) :
    fdReadLine seg ⟨l++rest,e,eof⟩=(.data l,⟨rest,e,eof⟩) := by
  obtain ⟨p,hp,_⟩ := hl.ended
  have hne : l≠[] := by simp [hp]
  exact fdReadHunk_ends lineTerminator fdReadLineMax 128 seg l rest (lineTerminator_ends l rest hl)
    hne hl.short (by decide) (by decide) e eof

end IdearNiu.Http
