import IdearNiu.Http.GetHttp

namespace IdearNiu.Http

/-- Everything the server sent has been read, and no end of file with it. -/
def Conn.Clean (c : Conn) : Prop := c.unread=[] ∧ c.sawEof=false

/-- A request that is sent on the persistent connection finds it clean, and the head read
next is the one of the answer to it. -/
def Hygienic (s : Client) (a : Attempt) : Prop :=
  ∀ c,s.pconn=some c → a.sent=true → c.Clean ∧
    (c.ending=.silent → readReply a.seg a.upper (c.answered a)=
      readReply a.seg a.upper ⟨a.bytes,a.ending,false⟩)

/-- A chunked body with an empty trailer, or one that breaks off in such a way that the
connection is given up. -/
inductive ChunkFramed : List UInt8 → Prop
  | last (l e : List UInt8) (hl : IsLine l) (hsize : strtol16 (cString l)=0)
      (he : IsLine e) : ChunkFramed (l++e)
  | chunk (l d e body : List UInt8) (hl : IsLine l) (hsize : strtol16 (cString l)=d.length)
      (hd : d≠[]) (he : IsLine e) (hbody : ChunkFramed body) :
      ChunkFramed (l++(d++(e++body)))
  | negative (l rest : List UInt8) (hl : IsLine l) (hsize : strtol16 (cString l)<0) :
      ChunkFramed (l++rest)
  | short (l d : List UInt8) (hl : IsLine l) (hsize : d.length < strtol16 (cString l)) :
      ChunkFramed (l++d)
  | unended (l d : List UInt8) (hl : IsLine l) (hsize : strtol16 (cString l)=d.length)
      (hd : d≠[]) : ChunkFramed (l++d)

/-- A body that is skipped: too long to be read, or with nothing after its framing. -/
def SkipFramed (h : Head) (c : Conn) : Prop :=
  h.bodyLength>skipThreshold ∨ (c.sawEof=false ∧
    if h.chunked then ChunkFramed c.unread else (c.unread.length : Int) ≤ max h.bodyLength 0)

/-- A body that is saved and whose length is known: the server does not close the connection
before the entity is complete, and when it has ignored the range it sends nothing more. -/
def SaveFramed (h : Head) (c : Conn) (restval : Int) : Prop :=
  (c.unread.length<h.bodyLength → c.ending=.closed →
    h.bodyLength+h.contrange≤restval+c.unread.length) ∧
  (0<h.bodyLength → h.bodyLength≤c.unread.length → restval≠h.contrange →
    c.unread.length=h.bodyLength ∧ c.sawEof=false)

/-- The head says that the connection will be closed, or the body is framed; this matters
only where the loop goes on, after a gateway timeout and after a body that was saved. -/
def Delimited (h : Head) (c : Conn) (restval : Int) : Prop :=
  h.close=true ∨ match h.disposition restval with
    | .refused => h.statcode=504 → SkipFramed h c
    | .saved => h.bodyLength≠-1 → SaveFramed h c restval
    | _ => True

/-- The answer that a pass gets is delimited. -/
def DelimitedPass (s : Client) (a : Attempt) : Prop :=
  ∀ h c,a.sent=true → readReply a.seg a.upper (s.sock.answered a)=(.head h,c) →
    Delimited h c s.restart.hs.restval

theorem skipChunks_clean (seg : Nat → Segment) (body : List UInt8) (hb : ChunkFramed body)
    (e : Ending) :
    ∀ fuel,(skipChunks seg fuel ⟨body,e,false⟩).1=true →
      (skipChunks seg fuel ⟨body,e,false⟩).2.Clean := by
  induction hb with
  | last l t hl hsize ht =>
    intro fuel
    cases fuel with
    | zero => simp [skipChunks]
    | succ fuel =>
      have hread := fdReadLine_line seg t [] ht e false
      rw [List.append_nil] at hread
      simp [skipChunks,fdReadLine_line seg l t hl e false,hsize,hread,Conn.Clean]
  | chunk l d t body hl hsize hd ht hbody ih =>
    intro fuel
    cases fuel with
    | zero => simp [skipChunks]
    | succ fuel =>
      have hpos : 0<d.length := List.length_pos_iff.mpr hd
      have hneg : ¬(d.length : Int)<0 := by omega
      have hzero : ¬(d.length : Int)=0 := by omega
      have hlong : ¬((d++(t++body)).length : Int)<d.length := by
        rw [List.length_append]
        omega
      have hdrop : (d++(t++body)).drop (d.length : Int).toNat=t++body := by
        rw [Int.toNat_natCast,List.drop_left]
      simp only [skipChunks,fdReadLine_line seg l _ hl e false,hsize,hneg,hzero,hlong,hdrop,
        if_false,fdReadLine_line seg t _ ht e false]
      exact ih fuel
  | negative l rest hl hsize =>
    intro fuel
    cases fuel with
    | zero => simp [skipChunks]
    | succ fuel => simp [skipChunks,fdReadLine_line seg l rest hl e false,hsize]
  | short l d hl hsize =>
    intro fuel
    cases fuel with
    | zero => simp [skipChunks]
    | succ fuel =>
      have hneg : ¬strtol16 (cString l)<0 := by omega
      have hzero : ¬strtol16 (cString l)=0 := by omega
      simp [skipChunks,fdReadLine_line seg l d hl e false,hneg,hzero,hsize]
  | unended l d hl hsize hd =>
    intro fuel
    cases fuel with
    | zero => simp [skipChunks]
    | succ fuel =>
      have hneg : ¬(d.length : Int)<0 := by omega
      simp only [skipChunks,fdReadLine_line seg l d hl e false,hsize,hneg,Int.natCast_eq_zero,
        List.length_eq_zero_iff,hd,lt_irrefl,if_false,Int.toNat_natCast,List.drop_length]
      split
      · next line c hline => exact absurd (congrArg Prod.fst hline) (fdReadLine_nil seg e false line)
      · intro h
        cases h

theorem skipShortBody_clean (seg : Nat → Segment) (h : Head) (c : Conn) (hf : SkipFramed h c)
    (hok : (skipShortBody seg c h.bodyLength h.chunked).1=true) :
    (skipShortBody seg c h.bodyLength h.chunked).2.Clean := by
  rcases hf with hbig|⟨heof,hframe⟩
  · simp [skipShortBody,hbig] at hok
  · obtain ⟨body,e,eof⟩ := c
    simp only at heof
    subst heof
    rw [skipShortBody] at hok ⊢
    by_cases hbig : h.bodyLength>skipThreshold
    · simp [hbig] at hok
    · rw [if_neg hbig] at hok ⊢
      by_cases hc : h.chunked=true
      · rw [if_pos hc] at hok hframe ⊢
        exact skipChunks_clean seg body hframe e _ hok
      · rw [if_neg hc] at hok hframe ⊢
        simp only at hok hframe ⊢
        split_ifs at hok ⊢ with hshort
        · refine ⟨List.drop_eq_nil_of_le ?_,rfl⟩
          omega

theorem skipOrClose_clean (seg : Nat → Segment) (h : Head) (c c' : Conn)
    (hf : h.close=true ∨ SkipFramed h c)
    (hskip : skipOrClose seg (!h.close) c h.bodyLength h.chunked=some c') : c'.Clean := by
  unfold skipOrClose closeFinish at hskip
  split_ifs at hskip with hkeep hka
  · simp only [Bool.and_eq_true,Bool.not_eq_true'] at hkeep
    rcases hf with hclose|hf
    · rw [hkeep.1] at hclose
      cases hclose
    · rw [← Option.some.inj hskip]
      exact skipShortBody_clean seg h c hf hkeep.2

/-- The connection is kept when all that was asked for has been read, or at its end. -/
theorem fdReadBody_cases (output : Output) (exact : Bool) (toread : Int) (c : Conn) (res : Int)
    (written : List UInt8) (c' : Conn)
    (h : fdReadBody output exact toread c=some (res,written,c')) (hres : 0≤res) :
    (exact=true ∧ toread≤written.length ∧ res=lastRead written.length ∧
      written=c.unread.take toread.toNat ∧
      c'={ c with unread := c.unread.drop written.length }) ∨
    (res=0 ∧ c.ending=.closed ∧ (exact=true → written=c.unread ∧ c.unread.length<toread)) := by
  unfold fdReadBody at h
  simp only at h
  generalize hgot : (if exact=true then c.unread.take toread.toNat else c.unread)=got at h
  split_ifs at h with hwrite hdone
  · cases h
    omega
  · cases h
    rw [if_pos hdone.1] at hgot
    exact Or.inl ⟨hdone.1,hdone.2,rfl,hgot.symm,rfl⟩
  · cases hend : c.ending with
    | silent =>
      rw [hend] at h
      cases h
    | reset =>
      rw [hend] at h
      cases h
      omega
    | closed =>
      rw [hend] at h
      cases h
      refine Or.inr ⟨rfl,rfl,?_⟩
      intro hexact
      have hshort : ¬toread≤written.length := fun hle => hdone ⟨hexact,hle⟩
      rw [if_pos hexact] at hgot
      subst hgot
      rw [List.length_take] at hshort
      exact ⟨List.take_of_length_le (by omega),by omega⟩

/-- Nothing is resumed before the start, and the persistent connection is clean. -/
structure Tidy (s : Client) : Prop where
  len : 0 ≤ s.hs.len
  clean : ∀ c,s.pconn=some c → c.Clean

theorem saveBody_tidy (s : Client) (a : Attempt) (h : Head) (c : Conn) (e : Uerr) (s' : Client)
    (hpos : 0 ≤ s.hs.restval) (hcontlen : s.hs.contlen=h.totalLength)
    (hrange : h.contrange=0 ∨ h.contrange=s.hs.restval)
    (hframe : h.close=true ∨ (h.bodyLength≠-1 → SaveFramed h c s.hs.restval))
    (hsave : saveBody s a h c=.ok (e,s')) (hagain : conclude s' e=.again s') : Tidy s' := by
  unfold saveBody at hsave
  split at hsave
  · cases hsave
  · cases hsave
  · split at hsave
    · cases hsave
    next res written c' hread =>
    cases hsave
    have hjudge := (conclude_again _ _ _ hagain).2
    refine ⟨by simp only; omega,?_⟩
    intro d hd
    simp only at hd
    split_ifs at hd with hres
    have hfin : ¬res=-2 := by omega
    rw [if_neg hfin] at hjudge
    have hjudge := judge_again _ _ (hjudge.resolve_left (by simp [Uerr.retried])).2
    simp only [hcontlen] at hjudge
    unfold closeFinish at hd
    split_ifs at hd with hkeep
    cases hd
    have hsf := hframe.resolve_left (by simpa using hkeep)
    rcases fdReadBody_cases _ _ _ _ _ _ _ hread hres with ⟨hexact,hle,hlast,hw,hc'⟩|⟨h0,hcl,hw⟩
    · have hknown : h.bodyLength≠-1 := by simpa using hexact
      have htotal : h.totalLength=h.bodyLength+h.contrange := by simp [Head.totalLength,hknown]
      have hlen : written.length≤h.bodyLength.toNat ∧ written.length≤c.unread.length := by
        rw [hw]
        exact ⟨List.length_take_le _ _,List.length_take_le' _ _⟩
      have hbody : 0<h.bodyLength := by
        by_contra hnone
        have hzero : written.length=0 := by omega
        have hless := (hjudge.2.2 (by rw [hlast,hzero]; rfl)).2
        omega
      obtain ⟨hall,heof⟩ := (hsf hknown).2 hbody (by omega) (by omega)
      rw [hc']
      exact ⟨List.drop_eq_nil_of_le (by omega),heof⟩
    · obtain ⟨hnot,hless⟩ := hjudge.2.2 h0
      have hknown : h.bodyLength≠-1 := by
        intro hone
        exact hnot (by simp [Head.totalLength,hone])
      have htotal : h.totalLength=h.bodyLength+h.contrange := by simp [Head.totalLength,hknown]
      obtain ⟨hw,hshort⟩ := hw (by simpa using hknown)
      have hreach := (hsf hknown).1 hshort hcl
      rw [hw] at hless
      omega

theorem handleHead_tidy (s : Client) (a : Attempt) (h : Head) (c : Conn) (e : Uerr)
    (s' : Client) (hlen : 0 ≤ s.hs.len) (hcontlen : s.hs.contlen=-1) (hpos : 0 ≤ s.hs.restval)
    (hframe : Delimited h c s.hs.restval)
    (hhead : handleHead s a h c=.ok (e,s')) (hagain : conclude s' e=.again s') : Tidy s' := by
  unfold Delimited at hframe
  unfold handleHead at hhead
  simp only at hhead
  cases hd : h.disposition s.hs.restval with
  | unauthorized =>
    simp only [hd] at hhead
    cases hhead
    simp [conclude,Uerr.retried] at hagain
  | noContent =>
    simp only [hd] at hhead
    cases hhead
    exact absurd hcontlen ((judge_again _ _ hagain).2.2 rfl).1
  | redirected =>
    simp only [hd] at hhead
    cases hhead
    unfold Head.redirection at hagain
    split_ifs at hagain <;> cases hagain
  | rangeError =>
    simp only [hd] at hhead
    cases hhead
    refine ⟨hlen,fun c hc => ?_⟩
    cases hc
  | alreadyRetrieved =>
    simp only [hd] at hhead
    cases hhead
    cases hagain
  | refused =>
    simp only [hd] at hhead hframe
    cases hhead
    have hno := disposition_refused h _ hd
    by_cases h504 : h.statcode=504
    · exact ⟨le_rfl,fun d hskip => skipOrClose_clean a.seg h c d (hframe.imp_right (· h504)) hskip⟩
    · simp [h504,conclude,judge,hno] at hagain
  | saved =>
    simp only [hd] at hhead hframe
    refine saveBody_tidy _ a h c e s' ?_ ?_ ?_ ?_ hhead hagain
    · exact hpos
    · rfl
    · exact (disposition_saved h _ hd).2
    · exact hframe

theorem restart_restval (s : Client) (h : 0 ≤ s.hs.len) : 0 ≤ s.restart.hs.restval := by
  simp only [Client.restart]
  split_ifs
  · exact h
  · exact le_rfl

/-- A pass that gets a delimited answer leaves the client tidy for the next one. -/
theorem httpPass_tidy (s : Client) (a : Attempt) (s' : Client) (hs : Tidy s)
    (hframe : DelimitedPass s a) (h : httpPass s a=.again s') : Tidy s' := by
  unfold httpPass at h
  split at h
  · cases h
  · next e s₁ hget =>
    obtain ⟨rfl,_⟩ := conclude_again _ _ _ h
    rcases gethttp_cases _ _ _ _ hget with hfail|⟨hd,c,hsent,hread,hhead⟩
    · refine ⟨hfail.len.ge,fun c hc => ?_⟩
      rw [hfail.pconn] at hc
      cases hc
    · refine handleHead_tidy _ a hd c e s' ?_ ?_ ?_ ?_ hhead h
      · exact le_rfl
      · rfl
      · exact restart_restval s hs.len
      · exact hframe hd c hsent hread

theorem hygienic_of_tidy (s : Client) (a : Attempt) (hs : Tidy s) : Hygienic s a := by
  intro c hc _
  have hclean := hs.clean c hc
  refine ⟨hclean,fun hsilent => ?_⟩
  rw [Conn.answered,if_pos hsilent,hclean.1,hclean.2,List.nil_append]

theorem passesFrom_hygienic (env : Nat → Attempt) (n : Nat) :
    ∀ s,Tidy s → (∀ p∈(passesFrom env n s).dropLast,DelimitedPass p.1 p.2) →
      ∀ p∈passesFrom env n s,Hygienic p.1 p.2 := by
  induction n with
  | zero =>
    intro s _ _ p hp
    cases hp
  | succ n ih =>
    intro s hs hframe p hp
    rw [passesFrom] at hp hframe
    rcases List.mem_cons.mp hp with rfl|hp
    · exact hygienic_of_tidy _ _ hs
    · split at hp
      · next s' hpass =>
        have hne : passesFrom env n s'≠[] := List.ne_nil_of_mem hp
        simp only [hpass,List.dropLast_cons_of_ne_nil hne,List.forall_mem_cons] at hframe
        exact ih s' (httpPass_tidy _ _ _ hs hframe.1 hpass) hframe.2 p hp
      · cases hp

/-- In every run of http_loop in which each answer that is followed by another request is
delimited, every request on the persistent connection finds it clean, and the head read
next is the one of its own answer. -/
theorem delimited_run_hygienic (file : Option (List UInt8)) (env : Nat → Attempt)
    (h : ∀ p∈(passes env file).dropLast,DelimitedPass p.1 p.2) :
    ∀ p∈passes env file,Hygienic p.1 p.2 :=
  passesFrom_hygienic env ntry _ ⟨le_rfl,fun _ hc => (nomatch hc)⟩ h

/-- A gateway timeout with a body of three bytes, and then the entity on the same
connection. -/
def timeoutRun (k : Nat) : Attempt :=
  if k=0 then
    plainAttempt (text "HTTP/1.1 504 Timeout\r\nContent-Length: 3\r\n\r\nabc") .silent
  else plainAttempt (text "HTTP/1.1 200 OK\r\nContent-Length: 5\r\n\r\nhello") .silent

theorem delimited_run_hygienic_timeout :
    (passes timeoutRun none).map (·.1.pconn)=[none,some ⟨[],.silent,false⟩] ∧
      ∀ p∈passes timeoutRun none,Hygienic p.1 p.2 := by
  refine ⟨by decide,delimited_run_hygienic none timeoutRun ?_⟩
  let s₁ : Client := ⟨1,⟨0,3,0,0⟩,false,none,some ⟨[],.silent,false⟩⟩
  have hfirst : httpPass (Client.init none) (timeoutRun 0)=.again s₁ := by decide
  have hsecond : httpPass s₁ (timeoutRun 1)=
      .exit .retrok ⟨2,⟨5,5,0,5⟩,true,some (text "hello"),some ⟨[],.silent,false⟩⟩ := by
    decide
  have hpasses : passes timeoutRun none=[(Client.init none,timeoutRun 0),(s₁,timeoutRun 1)] := by
    calc passes timeoutRun none
        = (Client.init none,timeoutRun 0)::passesFrom timeoutRun 19 s₁ :=
          passesFrom_again timeoutRun 19 _ _ hfirst
      _ = _ := by rw [passesFrom_exit timeoutRun 18 s₁ _ _ hsecond]
  have hread : readReply (timeoutRun 0).seg (timeoutRun 0).upper
      ((Client.init none).sock.answered (timeoutRun 0))=
      (.head ⟨504,3,false,false,false,none⟩,⟨text "abc",.silent,false⟩) := by decide
  rw [hpasses]
  intro p hp
  rw [List.mem_singleton.mp hp]
  intro h c _ hh
  rw [hread] at hh
  cases hh
  refine Or.inr fun _ => Or.inr ⟨rfl,?_⟩
  rw [if_neg (by decide)]
  decide

/-- The server ends the connection in the middle of a body without having announced it. -/
def cutRun (_ : Nat) : Attempt :=
  plainAttempt (text "HTTP/1.1 200 OK\r\nContent-Length: 10\r\n\r\nhello") .closed

/-- The connection was read up to its end, and the next request is still sent on it. -/
theorem ended_connection_is_reused : ¬∀ p∈passes cutRun none,Hygienic p.1 p.2 := by
  intro h
  let s₁ : Client := ⟨1,⟨5,10,0,0⟩,true,some (text "hello"),some ⟨[],.closed,true⟩⟩
  have hfirst : httpPass (Client.init none) (cutRun 0)=.again s₁ := by decide
  have hmem : (s₁,cutRun 1)∈passes cutRun none := by
    rw [passes,ntry,passesFrom_again cutRun 19 _ _ hfirst]
    exact List.mem_cons_of_mem _ List.mem_cons_self
  have hclean := (h _ hmem _ rfl rfl).1.2
  cases hclean

end IdearNiu.Http
