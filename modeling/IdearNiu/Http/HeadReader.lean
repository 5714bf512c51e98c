import IdearNiu.Http.Stream

namespace IdearNiu.Http

/-- The loop of response_head_terminator over the buffer: the given number of turns from p
on, and the test of the two bytes where it stops. -/
def headScan (mem : Nat → UInt8) : Nat → Nat → Option Nat
  | 0,p => if mem p=newline ∧ mem (p+1)=newline then some (p+2) else none
  | turns+1,p =>
    if mem p=newline ∧ mem (p+1)=carriageReturn ∧ mem (p+2)=newline then some (p+3)
    else if mem p=newline ∧ mem (p+1)=newline then some (p+2)
    else headScan mem turns (p+1)

/-- response_head_terminator on the buffer. The last test reads behind the data when fewer
than two bytes are there: junk is what it finds, by the length that has been read, which is
another one at each call. -/
def rawTerminator (junk : Nat → Nat → UInt8) (data : List UInt8) (tail : Nat) :
    Option Nat :=
  if tail=0 ∧ data.take 4≠(text "HTTP").take (min data.length 4) then some 0
  else
    let p := if tail<2 then 0 else tail-2
    headScan (fun i => data.getD i (junk tail i)) (data.length-2-p) p

/-- A text whose last line is empty. -/
def EndsEmpty (l : List UInt8) : Prop :=
  [newline,newline]<:+l ∨ [newline,carriageReturn,newline]<:+l

instance (l : List UInt8) : Decidable (EndsEmpty l) := inferInstanceAs (Decidable (_ ∨ _))

theorem not_endsEmpty_nil : ¬EndsEmpty [] := by
  intro h
  rcases h with h|h <;> simp at h

theorem endsEmpty_cons (b : UInt8) (l : List UInt8) :
    EndsEmpty (b::l) ↔ (b=newline ∧ l=[newline]) ∨ (b=newline ∧ l=[carriageReturn,newline]) ∨
      EndsEmpty l := by
  simp only [EndsEmpty,List.suffix_cons_iff,List.cons.injEq,eq_comm]
  tauto

theorem endsEmpty_length (l : List UInt8) (h : EndsEmpty l) : 2≤l.length := by
  rcases h with h|h
  · exact h.length_le
  · have := h.length_le
    simp at this
    omega

theorem newline_prefix_iff (b : UInt8) (l : List UInt8) : [newline]<+:b::l ↔ b=newline := by
  rw [List.cons_prefix_cons,eq_comm]
  simp

theorem crlf_prefix_iff (b c : UInt8) (l : List UInt8) :
    [carriageReturn,newline]<+:b::c::l ↔ b=carriageReturn ∧ c=newline := by
  rw [List.cons_prefix_cons,newline_prefix_iff,eq_comm]

/-- What the two tests of the search find are the ends of empty lines. -/
theorem endsEmpty_take_three (b : UInt8) (l : List UInt8)
    (h : b=newline ∧ [carriageReturn,newline]<+:l) :
    3≤(b::l).length ∧ EndsEmpty ((b::l).take 3) := by
  obtain ⟨hb,r,hr⟩ := h
  rw [hb,← hr]
  refine ⟨by simp,(endsEmpty_cons _ _).mpr (Or.inr (Or.inl ⟨rfl,rfl⟩))⟩

theorem endsEmpty_take_two (b : UInt8) (l : List UInt8) (h : b=newline ∧ [newline]<+:l) :
    2≤(b::l).length ∧ EndsEmpty ((b::l).take 2) := by
  obtain ⟨hb,r,hr⟩ := h
  rw [hb,← hr]
  refine ⟨by simp,(endsEmpty_cons _ _).mpr (Or.inl ⟨rfl,rfl⟩)⟩

/-- The search finds nothing in a text that has no empty line. -/
theorem emptyLine_none (d : List UInt8) (p : Nat)
    (h : ∀ n≤d.length, ¬EndsEmpty (d.take n)) : emptyLine d p=none := by
  induction d generalizing p with
  | nil => rfl
  | cons b l ih =>
    have hshort : ¬(b=newline ∧ [carriageReturn,newline]<+:l) := by
      intro hb
      obtain ⟨hlen,he⟩ := endsEmpty_take_three b l hb
      exact h 3 hlen he
    have hline : ¬(b=newline ∧ [newline]<+:l) := by
      intro hb
      obtain ⟨hlen,he⟩ := endsEmpty_take_two b l hb
      exact h 2 hlen he
    rw [emptyLine,if_neg hshort,if_neg hline]
    apply ih
    intro n hn he
    apply h (n+1) (by simpa using hn)
    rw [List.take_succ_cons]
    exact (endsEmpty_cons _ _).mpr (Or.inr (Or.inr he))

/-- Before the first empty line the search goes on. -/
theorem emptyLine_skip (b : UInt8) (l : List UInt8) (p m : Nat) (he : EndsEmpty (l.take m))
    (hmin : ∀ n < m+1, ¬EndsEmpty ((b::l).take n)) : emptyLine (b::l) p=emptyLine l (p+1) := by
  have hm2 : 2 ≤ m := (endsEmpty_length _ he).trans (List.length_take_le m l)
  have hshort : ¬(b=newline ∧ [carriageReturn,newline]<+:l) := by
    intro hb
    have hle : ¬3 < m+1 := fun hlt => hmin 3 hlt (endsEmpty_take_three b l hb).2
    obtain rfl : m=2 := by omega
    -- the line that ends at the second byte of l would be that carriage return
    obtain ⟨_,r,rfl⟩ := hb
    revert he
    change ¬EndsEmpty [carriageReturn,newline]
    decide
  have hline : ¬(b=newline ∧ [newline]<+:l) := by
    intro hb
    exact hmin 2 (by omega) (endsEmpty_take_two b l hb).2
  rw [emptyLine,if_neg hshort,if_neg hline]

/-- The search finds the end of the first empty line. -/
theorem emptyLine_some (d : List UInt8) (p m : Nat) (hm : m ≤ d.length)
    (h : EndsEmpty (d.take m)) (hmin : ∀ n < m, ¬EndsEmpty (d.take n)) :
    emptyLine d p=some (p+m) := by
  induction d generalizing p m with
  | nil =>
    rw [List.take_nil] at h
    exact absurd h not_endsEmpty_nil
  | cons b l ih =>
    cases m with
    | zero => exact absurd h not_endsEmpty_nil
    | succ m =>
      rw [List.length_cons] at hm
      rw [List.take_succ_cons] at h
      have hlen : (l.take m).length=m := by
        rw [List.length_take]
        omega
      rcases (endsEmpty_cons b _).mp h with ⟨hb,hl⟩|⟨hb,hl⟩|he
      · have hm1 : m=1 := by rw [← hlen,hl,List.length_singleton]
        have hpre : [newline]<+:l := hl ▸ List.take_prefix m l
        have hnot : ¬(b=newline ∧ [carriageReturn,newline]<+:l) := by
          intro ⟨_,hc⟩
          obtain ⟨r,rfl⟩ := hpre
          simp [newline,carriageReturn] at hc
        rw [emptyLine,if_neg hnot,if_pos ⟨hb,hpre⟩,hm1]
      · have hm2 : m=2 := by rw [← hlen,hl]; rfl
        have hpre : [carriageReturn,newline]<+:l := hl ▸ List.take_prefix m l
        rw [emptyLine,if_pos ⟨hb,hpre⟩,hm2]
      · rw [emptyLine_skip b l p m he hmin,ih (p+1) m (by omega) he]
        · congr 1
          omega
        · intro n hn hen
          apply hmin (n+1) (by omega)
          rw [List.take_succ_cons]
          exact (endsEmpty_cons _ _).mpr (Or.inr (Or.inr hen))

theorem getD_of_drop (data : List UInt8) (other : UInt8) (p k : Nat) (b : UInt8)
    (h : (data.drop p)[k]?=some b) : data.getD (p+k) other=b := by
  rw [List.getElem?_drop] at h
  rw [List.getD_eq_getElem?_getD,h,Option.getD_some]

/-- Where two bytes of the data are left, the loop on the buffer is the search in the data. -/
theorem headScan_eq (data : List UInt8) (junk : Nat → UInt8) (turns p : Nat)
    (hp : p+2+turns=data.length) :
    headScan (fun i => data.getD i (junk i)) turns p=emptyLine (data.drop p) p := by
  induction turns generalizing p with
  | zero =>
    obtain ⟨a,b,hab⟩ : ∃ a b,data.drop p=[a,b] := by
      apply List.length_eq_two.mp
      rw [List.length_drop]
      omega
    have ha : data.getD p (junk p)=a := getD_of_drop data _ p 0 a (by rw [hab]; rfl)
    have hb : data.getD (p+1) (junk (p+1))=b := getD_of_drop data _ p 1 b (by rw [hab]; rfl)
    rw [headScan,ha,hb,hab]
    have hshort : ¬(a=newline ∧ [carriageReturn,newline]<+:[b]) := by
      intro ⟨_,h⟩
      have := h.length_le
      simp at this
    simp only [emptyLine,if_neg hshort,newline_prefix_iff,List.prefix_nil,List.cons_ne_nil,and_false,if_false]
  | succ turns ih =>
    obtain ⟨a,b,c,r,habc⟩ : ∃ a b c r,data.drop p=a::b::c::r := by
      match hd : data.drop p with
      | a::b::c::r => exact ⟨a,b,c,r,rfl⟩
      | [] | [_] | [_,_] =>
        have := congrArg List.length hd
        simp only [List.length_drop,List.length_cons,List.length_nil] at this
        omega
    have ha : data.getD p (junk p)=a := getD_of_drop data _ p 0 a (by rw [habc]; rfl)
    have hb : data.getD (p+1) (junk (p+1))=b := getD_of_drop data _ p 1 b (by rw [habc]; rfl)
    have hc : data.getD (p+2) (junk (p+2))=c := getD_of_drop data _ p 2 c (by rw [habc]; rfl)
    have htail : data.drop (p+1)=b::c::r := by
      rw [← List.drop_drop,habc,List.drop_one,List.tail_cons]
    rw [headScan,ih (p+1) (by omega),ha,hb,hc,habc,htail]
    conv_rhs => rw [emptyLine]
    simp only [crlf_prefix_iff,newline_prefix_iff]

/-- For data that starts with another byte than a newline, the bytes behind the data play
no part. -/
theorem rawTerminator_eq (junk : Nat → Nat → UInt8) (b : UInt8) (l : List UInt8)
    (tail : Nat) (hb : b≠newline) (htail : tail≤(b::l).length) :
    rawTerminator junk (b::l) tail=responseHeadTerminator (b::l) tail := by
  rw [rawTerminator,responseHeadTerminator]
  apply if_congr Iff.rfl rfl
  dsimp only
  by_cases hlen : 2≤(b::l).length
  · apply headScan_eq
    split_ifs <;> omega
  · obtain rfl : l=[] := by
      apply List.eq_nil_of_length_eq_zero
      rw [List.length_cons] at hlen
      omega
    have hstart : (if tail<2 then 0 else tail-2)=0 := by
      rw [List.length_singleton] at htail
      split_ifs <;> omega
    rw [hstart,List.drop_zero,List.length_singleton]
    have hscan : headScan (fun i => [b].getD i (junk tail i)) 0 0=none := by
      rw [headScan]
      exact if_neg fun h => hb h.1
    have hfind : emptyLine [b] 0=none := by simp [emptyLine,hb]
    rw [hfind]
    exact hscan

theorem endsEmpty_drop (l : List UInt8) (p : Nat) (h : EndsEmpty l) (hp : p+3≤l.length) :
    EndsEmpty (l.drop p) := by
  rcases h with h|h
  · exact Or.inl (List.suffix_of_suffix_length_le h (List.drop_suffix p l) (by
      rw [List.length_drop]
      exact (by omega : 2≤l.length-p)))
  · exact Or.inr (List.suffix_of_suffix_length_le h (List.drop_suffix p l) (by
      rw [List.length_drop]
      exact (by omega : 3≤l.length-p)))

theorem endsEmpty_of_drop (l : List UInt8) (p : Nat) (h : EndsEmpty (l.drop p)) :
    EndsEmpty l := by
  rcases h with h|h
  · exact Or.inl (h.trans (List.drop_suffix p l))
  · exact Or.inr (h.trans (List.drop_suffix p l))

/-- A stream that starts as a response head does. -/
def StartsHttp (stream : List UInt8) : Prop := text "HTTP"<+:stream

instance (stream : List UInt8) : Decidable (StartsHttp stream) :=
  inferInstanceAs (Decidable (_<+:_))

theorem startsHttp_take (stream : List UInt8) (h : StartsHttp stream) (j : Nat) :
    (stream.take j).take 4=(text "HTTP").take (min (stream.take j).length 4) := by
  obtain ⟨r,rfl⟩ := h
  have hfour : (text "HTTP").length=4 := by decide
  rw [List.take_take,List.length_take,List.length_append,hfour,
    List.take_append_of_le_length (by omega)]
  congr 1
  omega

/-- Every window on such a stream is searched from two bytes before its unread part. -/
theorem rawTerminator_take (junk : Nat → Nat → UInt8) (stream : List UInt8)
    (h : StartsHttp stream) (i j : Nat) (hj : 0<j) (hij : i≤(stream.take j).length) :
    rawTerminator junk (stream.take j) i=
      emptyLine ((stream.take j).drop (if i<2 then 0 else i-2)) (if i<2 then 0 else i-2) := by
  have hstart := startsHttp_take stream h j
  obtain ⟨b,l,hb,hbl⟩ : ∃ b l,b≠newline ∧ stream.take j=b::l := by
    obtain ⟨r,rfl⟩ := h
    obtain ⟨k,rfl⟩ := Nat.exists_eq_add_one_of_ne_zero hj.ne'
    exact ⟨_,_,by decide,rfl⟩
  rw [hbl] at hij hstart ⊢
  rw [rawTerminator_eq junk b l i hb hij,responseHeadTerminator]
  simp only [hstart,ne_eq,not_true_eq_false,and_false,if_false]

/-- No window finds an empty line that is not there. -/
theorem rawTerminator_blind (junk : Nat → Nat → UInt8) (stream : List UInt8)
    (h : StartsHttp stream) (i j : Nat) (hj : 0<j) (hij : i≤(stream.take j).length)
    (hno : ∀ n≤j, ¬EndsEmpty (stream.take n)) : rawTerminator junk (stream.take j) i=none := by
  rw [rawTerminator_take junk stream h i j hj hij]
  apply emptyLine_none
  intro n _ he
  rw [List.take_drop,List.take_take] at he
  exact hno _ (Nat.min_le_right _ _) (endsEmpty_of_drop _ _ he)

theorem endsEmpty_http_length (l rest : List UInt8) (h : StartsHttp (l++rest))
    (he : EndsEmpty l) : 3≤l.length := by
  by_contra hlt
  have hlen := endsEmpty_length l he
  obtain ⟨r,hr⟩ := h
  have htwo : l=(text "HTTP").take 2 := by
    have := congrArg (List.take 2) hr
    rwa [List.take_append_of_le_length (by decide),List.take_append_of_le_length (by omega),
      List.take_of_length_le (by omega : l.length≤2),eq_comm] at this
  rw [htwo] at he
  rcases he with he|he <;> revert he <;> decide

/-- A window that holds the first empty line finds its end. -/
theorem rawTerminator_ends (junk : Nat → Nat → UInt8) (l rest : List UInt8)
    (h : StartsHttp (l++rest)) (he : EndsEmpty l)
    (hmin : ∀ n<l.length, ¬EndsEmpty ((l++rest).take n)) : Ends (rawTerminator junk) l rest := by
  intro i j hi hij
  have hthree := endsEmpty_http_length l rest h he
  have hlen : i≤((l++rest).take j).length := by
    rw [List.length_take,List.length_append]
    omega
  split_ifs with hj
  · rw [rawTerminator_take junk _ h i j (by omega) hlen]
    set p := if i<2 then 0 else i-2 with hp
    have hpl : p+3≤l.length := by
      rw [hp]
      split_ifs <;> omega
    have hwindow (n : Nat) : (((l++rest).take j).drop p).take n=
        ((l++rest).take (min (p+n) j)).drop p := by
      rw [List.take_drop,List.take_take]
    rw [emptyLine_some _ p (l.length-p)]
    · congr 1
      omega
    · rw [List.length_drop,List.length_take,List.length_append]
      omega
    · rw [hwindow,show min (p+(l.length-p)) j=l.length by omega,List.take_left]
      exact endsEmpty_drop l p he hpl
    · intro n hn hen
      rw [hwindow] at hen
      exact hmin _ (by omega) (endsEmpty_of_drop _ _ hen)
  · apply rawTerminator_blind junk _ h i j (by omega) hlen
    intro n hn
    exact hmin n (by omega)

section Run

variable (terminator : List UInt8 → Nat → Option Nat) (maxsize : Nat) (seg : Nat → Segment)

/-- A terminator that finds nothing in the part of a stream that fits in the buffer. -/
def Blind (stream : List UInt8) : Prop :=
  ∀ i j,0<j → j < maxsize → i≤(stream.take j).length → terminator (stream.take j) i=none

theorem fdReadHunkFrom_blind (stream : List UInt8) (hblind : Blind terminator maxsize stream)
    (e : Ending) (eof : Bool) (fuel bufsize : Nat) (h t : List UInt8) (hs : stream=h++t)
    (ht : t≠[]) (hbuf : h.length+1<bufsize) (hle : bufsize ≤ maxsize) :
    ∃ g,0<g ∧ g≤t.length ∧ h.length+g<bufsize ∧
      fdReadHunkFrom terminator maxsize seg (fuel+1) bufsize h ⟨t,e,eof⟩=
        (growBuffer maxsize bufsize (h.length+g)).elim (.failed,⟨t.drop g,e,eof⟩)
          fun b => fdReadHunkFrom terminator maxsize seg fuel b (h++t.take g) ⟨t.drop g,e,eof⟩ := by
  set p := atMost (seg t.length).peek (bufsize-1-h.length) with hp
  have hple : p≤bufsize-1-h.length := atMost_le _ _
  have hnone : terminator (h++t.take p) h.length=none := by
    have hdata : h++t.take p=stream.take (h.length+p) := by
      rw [hs,List.take_length_add_append]
    have hppos : 0<p := atMost_pos _ _ (by omega)
    rw [hdata]
    apply hblind _ _ (by omega) (by omega)
    rw [← hdata,List.length_append]
    omega
  obtain ⟨g,hg,hgt,hgp,hpass⟩ :=
    fdReadHunkFrom_unseen terminator maxsize seg e eof fuel bufsize h t ht hbuf hnone
  exact ⟨g,hg,hgt,by omega,hpass⟩

/-- A stream that ends early and has no terminator is returned as a whole. -/
theorem fdReadHunkFrom_whole (stream : List UInt8) (hblind : Blind terminator maxsize stream)
    (hne : stream≠[]) (hmax : stream.length+1 < maxsize) (eof : Bool) :
    ∀ fuel bufsize h t,stream=h++t → t.length<fuel → h.length+1<bufsize → bufsize ≤ maxsize →
      fdReadHunkFrom terminator maxsize seg fuel bufsize h ⟨t,.closed,eof⟩=
        (.data stream,⟨[],.closed,true⟩) := by
  intro fuel
  induction fuel with
  | zero => exact fun _ _ _ _ hfuel => absurd hfuel (Nat.not_lt_zero _)
  | succ fuel ih =>
    intro bufsize h t hs hfuel hbuf hle
    rcases eq_or_ne t [] with rfl|ht
    · rw [List.append_nil] at hs
      subst hs
      have hpos : 0 < stream.length := List.length_pos_iff.mpr hne
      have hnone : terminator stream stream.length=none := by
        have := hblind stream.length stream.length hpos (by omega)
        rw [List.take_length] at this
        exact this le_rfl
      rw [fdReadHunkFrom]
      simp [hnone,hne]
    · obtain ⟨g,hg,hgt,hgb,hpass⟩ := fdReadHunkFrom_blind terminator maxsize seg stream hblind
        .closed eof fuel bufsize h t hs ht hbuf hle
      have hlen : stream.length=h.length+t.length := by rw [hs,List.length_append]
      obtain ⟨b,hb,hlt,hbmax⟩ := growBuffer_of_lt maxsize bufsize (h.length+g) hgb (by omega) hle
      rw [hpass,hb,Option.elim_some]
      apply ih b (h++t.take g) (t.drop g) ?_ ?_ ?_ hbmax
      · rw [List.append_assoc,List.take_append_drop,hs]
      · rw [List.length_drop]
        omega
      · rw [List.length_append,List.length_take]
        omega

/-- A stream whose first part has no terminator and fills the largest buffer fails. -/
theorem fdReadHunkFrom_full (stream : List UInt8) (hblind : Blind terminator maxsize stream)
    (hmax : maxsize ≤ stream.length+1) (e : Ending) (eof : Bool) :
    ∀ fuel bufsize h t,stream=h++t → maxsize ≤ h.length+1+fuel → h.length+1<bufsize →
      bufsize ≤ maxsize →
      (fdReadHunkFrom terminator maxsize seg fuel bufsize h ⟨t,e,eof⟩).1=.failed := by
  intro fuel
  induction fuel with
  | zero =>
    intro bufsize h t _ hfuel hbuf hle
    omega
  | succ fuel ih =>
    intro bufsize h t hs hfuel hbuf hle
    have hlen : stream.length=h.length+t.length := by rw [hs,List.length_append]
    have ht : t≠[] := List.length_pos_iff.mp (by omega)
    obtain ⟨g,hg,hgt,hgb,hpass⟩ := fdReadHunkFrom_blind terminator maxsize seg stream hblind
      e eof fuel bufsize h t hs ht hbuf hle
    rw [hpass]
    rcases Nat.lt_or_ge (h.length+g+1) maxsize with hlt|hge
    · obtain ⟨b,hb,hltb,hbmax⟩ := growBuffer_of_lt maxsize bufsize (h.length+g) hgb hlt hle
      rw [hb,Option.elim_some]
      apply ih b (h++t.take g) (t.drop g) ?_ ?_ ?_ hbmax
      · rw [List.append_assoc,List.take_append_drop,hs]
      · rw [List.length_append,List.length_take]
        omega
      · rw [List.length_append,List.length_take]
        omega
    · have hfull : growBuffer maxsize bufsize (h.length+g)=none := by
        rw [growBuffer,if_pos (by omega),if_pos (by omega)]
      rw [hfull,Option.elim_none]

end Run

theorem blind_rawTerminator (junk : Nat → Nat → UInt8) (maxsize : Nat)
    (stream : List UInt8) (h : StartsHttp stream)
    (hno : ∀ n < maxsize, ¬EndsEmpty (stream.take n)) :
    Blind (rawTerminator junk) maxsize stream := by
  intro i j hj hjm hij
  exact rawTerminator_blind junk stream h i j hj hij fun n hn => hno n (by omega)

/-- The first empty line that ends within the first bytes of a stream. -/
theorem exists_first_endsEmpty (stream : List UInt8) (limit : Nat)
    (h : ∃ n<limit,EndsEmpty (stream.take n)) :
    ∃ l rest,stream=l++rest ∧ l.length<limit ∧ EndsEmpty l ∧
      ∀ n<l.length, ¬EndsEmpty (stream.take n) := by
  classical
  obtain ⟨m,hm,he⟩ := h
  have hex : ∃ n,EndsEmpty (stream.take n) := ⟨m,he⟩
  have hmin := Nat.find_min' hex he
  have hle : (stream.take (Nat.find hex)).length≤Nat.find hex := List.length_take_le _ _
  refine ⟨_,_,(List.take_append_drop (Nat.find hex) stream).symm,by omega,Nat.find_spec hex,?_⟩
  intro n hn
  exact Nat.find_min hex (by omega)

section Reader

variable (junk : Nat → Nat → UInt8) (maxsize sizehint : Nat) (stream : List UInt8)

/-- The head is read up to its first empty line. -/
theorem fdReadHunk_head (seg : Nat → Segment) (l rest : List UInt8) (h : StartsHttp stream)
    (hsize : 1 < sizehint) (hle : sizehint ≤ maxsize) (hs : stream=l++rest) (he : EndsEmpty l)
    (hmin : ∀ n<l.length, ¬EndsEmpty (stream.take n)) (hl : l.length ≤ maxsize-1) (e : Ending)
    (eof : Bool) :
    fdReadHunk (rawTerminator junk) maxsize seg sizehint ⟨stream,e,eof⟩=
      (.data l,⟨rest,e,eof⟩) := by
  subst hs
  have hlen := endsEmpty_length l he
  exact fdReadHunk_ends (rawTerminator junk) maxsize sizehint seg l rest
    (rawTerminator_ends junk l rest h he hmin) (List.length_pos_iff.mp (by omega)) (by omega)
    hsize hle e eof

theorem fdReadHunk_no_head (seg : Nat → Segment) (h : StartsHttp stream) (hsize : 1 < sizehint)
    (hle : sizehint ≤ maxsize) (hno : ∀ n ≤ maxsize-1, ¬EndsEmpty (stream.take n))
    (hshort : stream.length < maxsize-1) (eof : Bool) :
    fdReadHunk (rawTerminator junk) maxsize seg sizehint ⟨stream,.closed,eof⟩=
      (.data stream,⟨[],.closed,true⟩) := by
  have hblind := blind_rawTerminator junk maxsize stream h fun n hn => hno n (by omega)
  have hne : stream≠[] := by
    obtain ⟨r,rfl⟩ := h
    exact List.append_ne_nil_of_left_ne_nil (by decide) r
  exact fdReadHunkFrom_whole (rawTerminator junk) maxsize seg stream hblind hne (by omega) eof
    _ sizehint [] stream rfl (Nat.lt_succ_self _) hsize hle

theorem fdReadHunk_overlong (seg : Nat → Segment) (h : StartsHttp stream)
    (hsize : 1 < sizehint) (hle : sizehint ≤ maxsize)
    (hno : ∀ n ≤ maxsize-1, ¬EndsEmpty (stream.take n)) (hlong : maxsize-1 ≤ stream.length)
    (e : Ending) (eof : Bool) :
    (fdReadHunk (rawTerminator junk) maxsize seg sizehint ⟨stream,e,eof⟩).1=.failed := by
  have hblind := blind_rawTerminator junk maxsize stream h fun n hn => hno n (by omega)
  apply fdReadHunkFrom_full (rawTerminator junk) maxsize seg stream hblind (by omega) e eof
    _ sizehint [] stream rfl _ hsize hle
  simp only [List.length_nil]
  omega

end Reader

/-- The sizes that fd_read_hunk is made for: its assertion holds, and neither the position tail
nor the size that xrealloc is given, ints both, can wrap. -/
structure HunkSizes where
  maxsize : Nat
  sizehint : Nat
  more : 1 < sizehint
  le : sizehint ≤ maxsize
  int : maxsize<2^31

def headSizes : HunkSizes := ⟨httpResponseMaxSize,512,by decide,by decide,by decide⟩

/-- Whatever the segments and the bytes behind the data: the reader returns the shortest
prefix that ends in an empty line and leaves the rest, it returns a stream that ends before
one and before the limit, and it fails on every other stream. -/
theorem response_head_reader (junk : Nat → Nat → UInt8) (size : HunkSizes)
    (seg : Nat → Segment) (stream : List UInt8) (eof : Bool) (h : StartsHttp stream) :
    let read (seg : Nat → Segment) (e : Ending) :=
      fdReadHunk (rawTerminator junk) size.maxsize seg size.sizehint ⟨stream,e,eof⟩
    (∀ e l rest,stream=l++rest → EndsEmpty l → (∀ n<l.length, ¬EndsEmpty (stream.take n)) →
      l.length ≤ size.maxsize-1 → read seg e=(.data l,⟨rest,e,eof⟩)) ∧
    ((∀ n, ¬EndsEmpty (stream.take n)) → stream.length < size.maxsize-1 →
      (read seg .closed).1=.data stream) ∧
    ((∀ n ≤ size.maxsize-1, ¬EndsEmpty (stream.take n)) → ¬stream.length < size.maxsize-1 →
      ∀ e,(read seg e).1=.failed) ∧
    ∀ seg',(read seg' .closed).1=(read seg .closed).1 := by
  intro read
  have hsize := size.more
  have hle := size.le
  have hhead (seg : Nat → Segment) (e : Ending) (l rest : List UInt8) (hs : stream=l++rest)
      (he : EndsEmpty l) (hmin : ∀ n<l.length, ¬EndsEmpty (stream.take n))
      (hl : l.length ≤ size.maxsize-1) : read seg e=(.data l,⟨rest,e,eof⟩) :=
    fdReadHunk_head junk _ _ stream seg l rest h hsize hle hs he hmin hl e eof
  have hwhole (seg : Nat → Segment) (hno : ∀ n ≤ size.maxsize-1, ¬EndsEmpty (stream.take n))
      (hshort : stream.length < size.maxsize-1) : (read seg .closed).1=.data stream :=
    congrArg Prod.fst (fdReadHunk_no_head junk _ _ stream seg h hsize hle hno hshort eof)
  have hfail (seg : Nat → Segment) (hno : ∀ n ≤ size.maxsize-1, ¬EndsEmpty (stream.take n))
      (hlong : ¬stream.length < size.maxsize-1) (e : Ending) : (read seg e).1=.failed :=
    fdReadHunk_overlong junk _ _ stream seg h hsize hle hno (by omega) e eof
  refine ⟨hhead seg,fun hno => hwhole seg fun n _ => hno n,hfail seg,?_⟩
  intro seg'
  by_cases hex : ∃ n < size.maxsize,EndsEmpty (stream.take n)
  · obtain ⟨l,rest,hs,hl,he,hmin⟩ := exists_first_endsEmpty stream size.maxsize hex
    rw [hhead seg' .closed l rest hs he hmin (by omega),
      hhead seg .closed l rest hs he hmin (by omega)]
  · have hno : ∀ n ≤ size.maxsize-1, ¬EndsEmpty (stream.take n) :=
      fun n hn he => hex ⟨n,by omega,he⟩
    by_cases hshort : stream.length < size.maxsize-1
    · rw [hwhole seg' hno hshort,hwhole seg hno hshort]
    · rw [hfail seg' hno hshort,hfail seg hno hshort]

theorem response_head_reader_bytewise :
    fdReadHunk (rawTerminator fun _ _ => newline) httpResponseMaxSize (fun _ => ⟨1,1⟩) 512
      ⟨text "HTTP/1.1 200 OK\r\n\r\nbody",.closed,false⟩=
        (.data (text "HTTP/1.1 200 OK\r\n\r\n"),⟨text "body",.closed,false⟩) ∧
    (fdReadHunk (rawTerminator fun _ _ => newline) httpResponseMaxSize (fun _ => ⟨7,2⟩) 512
      ⟨text "HTTP/1.1 200\r\n",.closed,false⟩).1=.data (text "HTTP/1.1 200\r\n") ∧
    (fdReadHunk (rawTerminator fun _ _ => newline) 8 (fun _ => ⟨3,2⟩) 4
      ⟨text "HTTP/1.1 200\r\n\r\n",.closed,false⟩).1=.failed := by
  refine ⟨?_,?_,?_⟩
  · exact (response_head_reader (fun _ _ => newline) headSizes (fun _ => ⟨1,1⟩)
      (text "HTTP/1.1 200 OK\r\n\r\nbody") false (by decide)).1 .closed _ _ (by decide)
      (by decide) (by decide) (by decide)
  · refine (response_head_reader (fun _ _ => newline) headSizes (fun _ => ⟨7,2⟩)
      (text "HTTP/1.1 200\r\n") false (by decide)).2.1 ?_ (by decide)
    intro n
    rcases Nat.lt_or_ge n 14 with hn|hn
    · exact (by decide : ∀ n<14, ¬EndsEmpty ((text "HTTP/1.1 200\r\n").take n)) n hn
    · rw [List.take_of_length_le hn]
      decide
  · exact (response_head_reader (fun _ _ => newline)
      ⟨8,4,by decide,by decide,by decide⟩ (fun _ => ⟨3,2⟩) (text "HTTP/1.1 200\r\n\r\n") false
      (by decide)).2.2.1 (by decide) (by decide) .closed

end IdearNiu.Http
