import IdearNiu.Http.GetHttp

namespace IdearNiu.Http

/-- The answer of a server that holds the entity: all of it, or its tail when a range was
asked for. The body may be cut short by a close of the connection. -/
inductive EntityAnswer (entity : List UInt8) (restval : Int) : Head → Conn → Prop
  | whole (close newloc : Bool) (c : Conn) (hbody : c.unread<+:entity)
      (hcut : c.unread=entity ∨ c.ending=.closed) (heof : c.sawEof=false) :
      EntityAnswer entity restval ⟨200,entity.length,close,false,newloc,none⟩ c
  | tail (n : Nat) (contlen : Int) (close newloc : Bool) (c : Conn) (hn : restval=n)
      (hpos : 0<n) (hlt : n<entity.length) (hbody : c.unread<+:entity.drop n)
      (hcut : c.unread=entity.drop n ∨ c.ending=.closed) (heof : c.sawEof=false) :
      EntityAnswer entity restval
        ⟨206,contlen,close,false,newloc,some (n,entity.length-1)⟩ c

/-- What the answer is when it is read from its first byte on. -/
def Attempt.reply (a : Attempt) : Reply×Conn :=
  readReply a.seg a.upper ⟨a.bytes,a.ending,false⟩

/-- The request of this pass is answered with the entity, unless it is sent on a connection
that the server has left. -/
structure Serves (entity : List UInt8) (s : Client) (a : Attempt) : Prop where
  connect : a.connect=none
  output : a.output=.ok
  answer : s.sock.ending=.silent → a.sent=true ∧
    ∃ h c,a.reply=(.head h,c) ∧ EntityAnswer entity s.restart.hs.restval h c

/-- A pass that resumes inside the entity receives exactly as many bytes as are missing. -/
def Completes (entity : List UInt8) (s : Client) (a : Attempt) : Prop :=
  s.sock.ending=.silent ∧ 0 < s.restart.hs.restval ∧ s.restart.hs.restval<entity.length ∧
    s.restart.hs.restval+a.reply.2.unread.length=entity.length

/-- A first pass starts at the beginning; what is left of the persistent connection has been
read. -/
structure Resuming (s : Client) : Prop where
  len : 0 ≤ s.hs.len
  start : s.count=0 → s.hs.len=0
  read : ∀ c,s.pconn=some c → c.unread=[] ∧ (c.ending=.silent → c.sawEof=false)

theorem Resuming.restval {s : Client} (h : Resuming s) :
    s.restart.hs.restval=s.hs.len := by
  simp only [Client.restart]
  split_ifs with hcount
  · rfl
  · rw [h.start (by omega)]

/-- Nothing comes from a connection that the server has left. -/
theorem readReply_left (seg : Nat → Segment) (upper : Int×Int) (e : Ending) (eof : Bool)
    (he : e≠.silent) : ∀ h,(readReply seg upper ⟨[],e,eof⟩).1≠.head h := by
  intro h
  cases e with
  | silent => exact absurd rfl he
  | closed =>
    simp [readReply,readReplyFrom,readHttpResponseHead,fdReadHunk,fdReadHunkFrom,
      responseHeadTerminator,emptyLine]
  | reset => simp [readReply,readReplyFrom,readHttpResponseHead,fdReadHunk,fdReadHunkFrom]

theorem disposition_whole (entity : List UInt8) (restval : Int) (close newloc : Bool) :
    Head.disposition ⟨200,entity.length,close,false,newloc,none⟩ restval=
      if 0<restval ∧ entity.length≤restval then .alreadyRetrieved else .saved := by
  simp [Head.disposition,Head.redirects,Head.retrievable,Head.contrange,Head.bodyLength]

theorem disposition_tail (entity : List UInt8) (n : Nat) (contlen : Int) (close newloc : Bool)
    (hpos : 0<n) :
    Head.disposition ⟨206,contlen,close,false,newloc,some (n,entity.length-1)⟩ n=.saved := by
  have hn : n≠0 := by omega
  simp [Head.disposition,Head.redirects,Head.retrievable,Head.contrange,Head.bodyLength,hn]

theorem Resuming.answered {s : Client} (h : Resuming s)
    (a : Attempt) (hsilent : s.sock.ending=.silent) :
    s.sock.answered a=⟨a.bytes,a.ending,false⟩ := by
  rw [Conn.answered]
  rw [if_pos hsilent]
  cases hp : s.pconn with
  | none => simp [Client.sock,hp,Conn.fresh]
  | some c =>
    simp only [Client.sock,hp,Option.getD_some] at hsilent ⊢
    obtain ⟨hread,heof⟩ := h.read c hp
    rw [hread,heof hsilent,List.nil_append]

/-- What one call of gethttp does with the answer it gets. -/
theorem httpPass_answered {s : Client} (hr : Resuming s)
    (a : Attempt) (h : Head) (c : Conn) (hconnect : a.connect=none) (hsent : a.sent=true)
    (hsilent : s.sock.ending=.silent) (hreply : a.reply=(.head h,c)) (e : Uerr) (s' : Client)
    (hhead : handleHead { s.restart.begin with retrokf := false } a h c=.ok (e,s')) :
    httpPass s a=conclude s' e := by
  have hread : readReply a.seg a.upper
      ((Client.sock { s.restart.begin with retrokf := false }).answered a)=(.head h,c) :=
    (congrArg (readReply a.seg a.upper) (hr.answered a hsilent)).trans hreply
  have hget : gethttp s.restart a=.ok (e,s') := by
    rw [← hhead]
    simp only [gethttp,hconnect,ite_self,hsent,Bool.not_true,Bool.false_eq_true,if_false,hread]
  rw [httpPass,hget]

/-- A body of known length that is complete or cut by the end of the connection. -/
theorem saveBody_served (s : Client) (a : Attempt) (h : Head) (c : Conn) (n : Nat)
    (hout : a.output=.ok) (hn : h.bodyLength=n) (hle : c.unread.length≤n)
    (hcut : c.unread.length=n ∨ c.ending=.closed) (heof : c.sawEof=false) :
    ∃ res d,saveBody s a h c=.ok (.retrfinished,{ s with
        hs := { s.hs with len := s.hs.restval+c.unread.length, res := res }
        file := some c.unread
        pconn := closeFinish (!h.close) d }) ∧
      (res=0 ↔ c.unread.length<n ∨ n=0) ∧ d.unread=[] ∧ (d.ending=.silent → d.sawEof=false) := by
  have hexact : decide (h.bodyLength≠-1)=true := decide_eq_true (by omega)
  have htake : c.unread.take h.bodyLength.toNat=c.unread := List.take_of_length_le (by omega)
  by_cases hall : c.unread.length=n
  · have hbody : fdReadBody .ok (h.bodyLength≠-1) h.bodyLength c=
        some ((lastRead n : Int),c.unread,{ c with unread := [] }) := by
      have hdone : h.bodyLength≤c.unread.length := by omega
      simp only [fdReadBody,hexact,htake,if_true,hdone,List.drop_length]
      simp [hall]
    refine ⟨lastRead n,{ c with unread := [] },?_,?_,rfl,fun _ => heof⟩
    · rw [saveBody]
      rw [hout]
      simp only
      rw [hbody]
      simp only
      rw [if_neg (by omega),if_pos (by omega)]
    · rw [lastRead]
      split_ifs <;> omega
  · have hclosed := hcut.resolve_left hall
    have hbody : fdReadBody .ok (h.bodyLength≠-1) h.bodyLength c=
        some (0,c.unread,⟨[],.closed,true⟩) := by
      have hshort : ¬h.bodyLength≤c.unread.length := by omega
      simp only [fdReadBody,hexact,htake,if_true,hshort,hclosed,List.drop_length]
      simp
    refine ⟨0,⟨[],.closed,true⟩,?_,by omega,rfl,fun h0 => (nomatch h0)⟩
    rw [saveBody]
    rw [hout]
    simp only
    rw [hbody]
    rfl

/-- The result of a pass agrees with the entity. -/
def Intact (entity : List UInt8) : Pass → Prop
  | .again s => Resuming s
  | .exit e s => e=.retrok → s.file=some entity
  | .abort => True
  | .stop _ => True

/-- The length tests after m of the n bytes of an answer were saved: the loop ends when the
bytes since the offset reach the end of the entity, whatever the file holds. -/
theorem judge_served (entity : List UInt8) (s : Client) (n m : Nat) (hok : s.retrokf=true)
    (hcount : s.count≠0) (hcontlen : s.hs.contlen=entity.length) (hpos : 0 ≤ s.hs.restval)
    (hlen : s.hs.len=s.hs.restval+m)
    (hinside : s.hs.restval=0 ∨ s.hs.restval<entity.length)
    (hres : s.hs.res=0 ↔ m<n ∨ n=0) (hn0 : n=0 → s.hs.restval+m=entity.length)
    (hread : ∀ c,s.pconn=some c → c.unread=[] ∧ (c.ending=.silent → c.sawEof=false)) :
    (s.hs.restval+m=entity.length → judge s=.exit .retrok s) ∧
    (s.hs.restval+m≠entity.length → Intact entity (judge s)) := by
  rw [judge]
  rw [hok,hcontlen,hlen]
  constructor
  · intro hend
    simp [hend]
  · intro hend
    simp only [Bool.not_true,Bool.false_eq_true,if_false,hend]
    split_ifs with h0 h1 h2 h3
    · exact h1.elim
    · exact ⟨by omega,fun h => absurd h hcount,hread⟩
    · trivial
    · omega
    · exact ⟨by omega,fun h => absurd h hcount,hread⟩

/-- The lengths of an answer whose body, n bytes long when it is not cut, is saved. -/
structure Lengths (entity : List UInt8) (restval : Int) (h : Head) (c : Conn) (n : Nat) :
    Prop where
  body : h.bodyLength=n
  total : h.totalLength=entity.length
  retrievable : h.retrievable=true
  le : c.unread.length≤n
  cut : c.unread.length=n ∨ c.ending=.closed
  eof : c.sawEof=false
  inside : restval=0 ∨ restval<entity.length
  empty : n=0 → restval+c.unread.length=entity.length

theorem EntityAnswer.lengths {entity : List UInt8} {restval : Int} {h : Head} {c : Conn}
    (hans : EntityAnswer entity restval h c) (hpos : 0≤restval)
    (hd : h.disposition restval=.saved) : ∃ n,Lengths entity restval h c n := by
  cases hans with
  | whole close newloc c hbody hcut heof =>
    have hinside : restval=0 ∨ restval<entity.length := by
      rw [disposition_whole] at hd
      split_ifs at hd with hdone
      omega
    have hle := hbody.length_le
    refine ⟨entity.length,rfl,?_,rfl,hle,hcut.imp_left (congrArg List.length),heof,hinside,
      ?_⟩
    · have hknown : ¬(entity.length : Int)=-1 := by omega
      simp [Head.totalLength,Head.bodyLength,Head.contrange,hknown]
    · intro hzero
      omega
  | tail n contlen close newloc c hn hn0 hlt hbody hcut heof =>
    have hle := hbody.length_le
    rw [List.length_drop] at hle
    have hlength : Head.bodyLength ⟨206,contlen,close,false,newloc,some (n,entity.length-1)⟩=
        ((entity.length-n : Nat) : Int) := by
      simp only [Head.bodyLength,Option.map_some,Option.getD_some]
      omega
    refine ⟨entity.length-n,hlength,?_,rfl,hle,?_,heof,?_,?_⟩
    · rw [Head.totalLength,if_neg (by omega),hlength]
      simp only [Head.contrange,Option.map_some,Option.getD_some]
      omega
    · exact hcut.imp_left fun heq => by rw [heq,List.length_drop]
    · omega
    · omega

theorem EntityAnswer.eq_of_start {entity : List UInt8} {restval : Int} {h : Head} {c : Conn}
    (hans : EntityAnswer entity restval h c) (hstart : restval=0)
    (hlen : c.unread.length=entity.length) : c.unread=entity := by
  cases hans with
  | whole close newloc c hbody hcut heof => exact hbody.eq_of_length hlen
  | tail n contlen close newloc c hn hpos hlt hbody hcut heof => omega

/-- A pass that saves its answer returns when the bytes reach the end of the entity, and the
file then holds the bytes of this answer alone. -/
theorem httpPass_saved {entity : List UInt8} {s : Client} (hr : Resuming s)
    (a : Attempt) (hserve : Serves entity s a) (h : Head) (c : Conn) (hsent : a.sent=true)
    (hsilent : s.sock.ending=.silent) (hreply : a.reply=(.head h,c))
    (hans : EntityAnswer entity s.restart.hs.restval h c)
    (hd : h.disposition s.restart.hs.restval=.saved) :
    (s.restart.hs.restval+c.unread.length=entity.length →
      ∃ s',httpPass s a=.exit .retrok s' ∧ s'.file=some c.unread) ∧
    (s.restart.hs.restval+c.unread.length≠entity.length → Intact entity (httpPass s a)) := by
  have hpos : 0 ≤ s.restart.hs.restval := by
    rw [hr.restval]
    exact hr.len
  obtain ⟨n,hl⟩ := hans.lengths hpos hd
  let s₀ : Client := { s.restart.begin with
    retrokf := h.retrievable
    hs := { s.restart.begin.hs with contlen := h.totalLength } }
  obtain ⟨res,d,hsave,hres,hread,heof⟩ :=
    saveBody_served s₀ a h c n hserve.output hl.body hl.le hl.cut hl.eof
  have hhead : handleHead { s.restart.begin with retrokf := false } a h c=saveBody s₀ a h c := by
    rw [handleHead]
    simp only
    rw [show h.disposition s.restart.begin.hs.restval=.saved from hd]
  rw [hsave] at hhead
  rw [httpPass_answered hr a h c hserve.connect hsent hsilent hreply _ _ hhead]
  have hjudge := judge_served entity { s₀ with
      hs := { s₀.hs with len := s₀.hs.restval+c.unread.length, res := res }
      file := some c.unread
      pconn := closeFinish (!h.close) d } n c.unread.length hl.retrievable
    (Nat.succ_ne_zero s.count) hl.total hpos rfl hl.inside hres hl.empty ?_
  · exact ⟨fun h0 => ⟨_,hjudge.1 h0,rfl⟩,hjudge.2⟩
  · intro d' hd'
    simp only [closeFinish] at hd'
    split_ifs at hd' with hkeep
    cases hd'
    exact ⟨hread,heof⟩

/-- On a connection that the server has left the pass fails, and the next one starts anew. -/
theorem httpPass_left {entity : List UInt8} {s : Client} (hr : Resuming s)
    (a : Attempt) (hleft : s.sock.ending≠.silent) : Intact entity (httpPass s a) := by
  have hread : ∀ h c,readReply a.seg a.upper (s.restart.sock.answered a)≠(.head h,c) := by
    intro h c hh
    cases hp : s.pconn with
    | none => exact hleft (by simp [Client.sock,hp,Conn.fresh])
    | some d =>
      have hsock : s.restart.sock=d := by simp [Client.sock,Client.restart,hp]
      have hend : d.ending≠.silent := by simpa [Client.sock,hp] using hleft
      have hd : d=⟨[],d.ending,d.sawEof⟩ := by rw [← (hr.read d hp).1]
      rw [hsock,Conn.answered,if_neg hend,hd] at hh
      exact readReply_left _ _ _ _ hend h (congrArg Prod.fst hh)
  rw [httpPass]
  split
  · trivial
  · next e s' hget =>
    rcases gethttp_cases _ _ _ _ hget with hfail|⟨h,c,_,hh,_⟩
    · rcases hfail.pass with hagain|hlogged
      · rw [hagain]
        refine ⟨hfail.len.ge,?_,?_⟩
        · intro _
          exact hfail.len
        · intro c hc
          rw [hfail.pconn] at hc
          cases hc
      · rw [hlogged]
        trivial
    · exact absurd hh (hread h c)

/-- A pass that resumes at or past the end of the entity ends in log_error. -/
theorem httpPass_alreadyRetrieved {entity : List UInt8} {s : Client} (hr : Resuming s)
    (a : Attempt) (hserve : Serves entity s a) (h : Head) (c : Conn) (hsent : a.sent=true)
    (hsilent : s.sock.ending=.silent) (hreply : a.reply=(.head h,c))
    (hd : h.disposition s.restart.hs.restval=.alreadyRetrieved) :
    httpPass s a=.stop .logged := by
  have hhead : handleHead { s.restart.begin with retrokf := false } a h c=
      .ok (.retrunneeded,{ s.restart.begin with
        hs := { s.restart.begin.hs with len := h.bodyLength, res := 0 }
        retrokf := true
        pconn := skipOrClose a.seg (!h.close) c h.bodyLength h.chunked }) := by
    rw [handleHead]
    simp only
    rw [show h.disposition s.restart.begin.hs.restval=.alreadyRetrieved from hd]
  rw [httpPass_answered hr a h c hserve.connect hsent hsilent hreply _ _ hhead]
  rfl

/-- A pass that resumes inside the entity and gets the bytes that are missing reports success
with a file that has only these. -/
theorem httpPass_completes {entity : List UInt8} {s : Client} (hr : Resuming s)
    (a : Attempt) (hserve : Serves entity s a) (hc : Completes entity s a) :
    ∃ s',httpPass s a=.exit .retrok s' ∧ s'.file≠some entity := by
  obtain ⟨hsilent,hpos,hlt,hend⟩ := hc
  obtain ⟨hsent,h,c,hreply,hans⟩ := hserve.answer hsilent
  rw [hreply] at hend
  have hd : h.disposition s.restart.hs.restval=.saved := by
    cases hans with
    | whole close newloc c hbody hcut heof =>
      rw [disposition_whole,if_neg (by omega)]
    | tail n contlen close newloc c hn hn0 hlt hbody hcut heof =>
      rw [hn]
      exact disposition_tail entity n contlen close newloc hn0
  obtain ⟨s',hpass,hfile⟩ := (httpPass_saved hr a hserve h c hsent hsilent hreply hans hd).1 hend
  refine ⟨s',hpass,?_⟩
  rw [hfile]
  intro heq
  rw [Option.some.inj heq] at hend
  omega

/-- Every other pass agrees with the entity. -/
theorem httpPass_intact {entity : List UInt8} {s : Client} (hr : Resuming s)
    (a : Attempt) (hserve : Serves entity s a) (hc : ¬Completes entity s a) :
    Intact entity (httpPass s a) := by
  by_cases hsilent : s.sock.ending=.silent
  · obtain ⟨hsent,h,c,hreply,hans⟩ := hserve.answer hsilent
    have hpos : 0 ≤ s.restart.hs.restval := by
      rw [hr.restval]
      exact hr.len
    have hsaved (hd : h.disposition s.restart.hs.restval=.saved) :
        Intact entity (httpPass s a) := by
      obtain ⟨hend,hgo⟩ := httpPass_saved hr a hserve h c hsent hsilent hreply hans hd
      by_cases hlen : s.restart.hs.restval+c.unread.length=entity.length
      · obtain ⟨s',hpass,hfile⟩ := hend hlen
        obtain ⟨n,hl⟩ := hans.lengths hpos hd
        have hstart : s.restart.hs.restval=0 := by
          by_contra hne
          have hlt := hl.inside.resolve_left hne
          exact hc ⟨hsilent,by omega,hlt,by rw [hreply]; exact hlen⟩
        rw [hpass]
        intro _
        rw [hfile,hans.eq_of_start hstart (by omega)]
      · exact hgo hlen
    cases hans with
    | whole close newloc c hbody hcut heof =>
      by_cases hpast : 0 < s.restart.hs.restval ∧ entity.length ≤ s.restart.hs.restval
      · have hlogged := httpPass_alreadyRetrieved hr a hserve _ c hsent hsilent hreply ?_
        · rw [hlogged]
          trivial
        · rw [disposition_whole,if_pos hpast]
      · apply hsaved
        rw [disposition_whole,if_neg hpast]
    | tail n contlen close newloc c hn hn0 hlt hbody hcut heof =>
      apply hsaved
      rw [hn]
      exact disposition_tail entity n contlen close newloc hn0
  · exact httpPass_left hr a hsilent

theorem httpLoopFrom_intact_iff (entity : List UInt8) (env : Nat → Attempt) (n : Nat) :
    ∀ s,Resuming s → (∀ p∈passesFrom env n s,Serves entity p.1 p.2) →
      ((∀ s',httpLoopFrom env n s=.returned .retrok s' → s'.file=some entity) ↔
        ∀ p∈passesFrom env n s,¬Completes entity p.1 p.2) := by
  induction n with
  | zero =>
    intro s _ _
    simp [httpLoopFrom,passesFrom]
  | succ n ih =>
    intro s hr hserve
    rw [passesFrom,List.forall_mem_cons] at hserve
    rw [passesFrom,List.forall_mem_cons,httpLoopFrom]
    by_cases hc : Completes entity s (env s.count)
    · obtain ⟨s',hpass,hfile⟩ := httpPass_completes hr _ hserve.1 hc
      simp only [hpass]
      constructor
      · intro h
        exact absurd (h s' rfl) hfile
      · intro h
        exact absurd hc h.1
    · have hintact := httpPass_intact hr _ hserve.1 hc
      cases hpass : httpPass s (env s.count) with
      | again s' =>
        rw [hpass] at hintact
        simp only [hpass] at hserve
        simp only [hc,not_false_iff,true_and]
        exact ih s' hintact hserve.2
      | exit e s' =>
        rw [hpass] at hintact
        simp only [hc,not_false_iff,true_and,List.not_mem_nil,false_imp_iff,implies_true,iff_true]
        intro s'' heq
        cases heq
        exact hintact rfl
      | abort => simp [hc]
      | stop w => simp [hc]

/-- Against a server that answers every request with the entity or its tail, success of
http_loop means that the file holds the entity if and only if no pass that resumes inside
the entity receives exactly the bytes that are missing. -/
theorem download_intact_iff (entity : List UInt8) (file : Option (List UInt8))
    (env : Nat → Attempt) (hserve : ∀ p∈passes env file,Serves entity p.1 p.2) :
    (∀ s,httpLoop env file=.returned .retrok s → s.file=some entity) ↔
      ∀ p∈passes env file,¬Completes entity p.1 p.2 := by
  refine httpLoopFrom_intact_iff entity env ntry _ ?_ hserve
  exact ⟨le_rfl,fun _ => rfl,fun _ h => (nomatch h)⟩

/-- The first answer is cut, the second request finds the connection closed, and the third
answer is complete. -/
def retriedRun (k : Nat) : Attempt :=
  if k=0 then
    plainAttempt (text "HTTP/1.1 200 OK\r\nContent-Length: 5\r\n\r\nhe") .closed
  else plainAttempt (text "HTTP/1.1 200 OK\r\nContent-Length: 5\r\n\r\nhello") .silent

theorem download_intact_iff_retried :
    ((∀ s,httpLoop retriedRun none=.returned .retrok s → s.file=some (text "hello")) ↔
      ∀ p∈passes retriedRun none,¬Completes (text "hello") p.1 p.2) ∧
    (passes retriedRun none).length=3 := by
  let s₁ : Client := ⟨1,⟨2,5,0,0⟩,true,some (text "he"),some ⟨[],.closed,true⟩⟩
  let s₂ : Client := ⟨2,⟨0,-1,2,-1⟩,false,some (text "he"),none⟩
  have hfirst : httpPass (Client.init none) (retriedRun 0)=.again s₁ := by decide
  have hsecond : httpPass s₁ (retriedRun 1)=.again s₂ := by decide
  have hthird : httpPass s₂ (retriedRun 2)=
      .exit .retrok ⟨3,⟨5,5,0,5⟩,true,some (text "hello"),some ⟨[],.silent,false⟩⟩ := by
    decide
  have hpasses : passes retriedRun none=
      [(Client.init none,retriedRun 0),(s₁,retriedRun 1),(s₂,retriedRun 2)] := by
    calc passes retriedRun none
        = (Client.init none,retriedRun 0)::passesFrom retriedRun 19 s₁ :=
          passesFrom_again retriedRun 19 _ _ hfirst
      _ = (Client.init none,retriedRun 0)::(s₁,retriedRun 1)::passesFrom retriedRun 18 s₂ := by
          rw [passesFrom_again retriedRun 18 s₁ _ hsecond]
      _ = _ := by rw [passesFrom_exit retriedRun 17 s₂ _ _ hthird]
  refine ⟨download_intact_iff (text "hello") none retriedRun ?_,by rw [hpasses]; rfl⟩
  have hcut : (retriedRun 0).reply=
      (.head ⟨200,5,false,false,false,none⟩,⟨text "he",.closed,false⟩) := by decide
  have hall : (retriedRun 2).reply=
      (.head ⟨200,5,false,false,false,none⟩,⟨text "hello",.silent,false⟩) := by decide
  rw [hpasses]
  simp only [List.forall_mem_cons,List.not_mem_nil,false_imp_iff,implies_true,and_true]
  refine ⟨⟨rfl,rfl,fun _ => ⟨rfl,_,_,hcut,?_⟩⟩,⟨rfl,rfl,fun h => (nomatch h)⟩,
    ⟨rfl,rfl,fun _ => ⟨rfl,_,_,hall,?_⟩⟩⟩
  · exact .whole false false _ (by decide) (Or.inr rfl) rfl
  · exact .whole false false _ (by decide) (Or.inl rfl) rfl

/-- The first answer announces the close and is cut after five bytes; the second one brings
the rest. -/
def resumedRun (k : Nat) : Attempt :=
  if k=0 then plainAttempt
    (text "HTTP/1.1 200 OK\r\nContent-Length: 10\r\nConnection: close\r\n\r\n01234") .closed
  else plainAttempt (text
    "HTTP/1.1 206 Partial Content\r\nContent-Range: bytes 5-9/10\r\n\r\n56789") .silent

/-- The file is opened anew for the second answer, so it holds five of the ten bytes. -/
theorem resumed_file_is_truncated :
    (∀ p∈passes resumedRun none,Serves (text "0123456789") p.1 p.2) ∧
      ¬∀ s,httpLoop resumedRun none=.returned .retrok s → s.file=some (text "0123456789") := by
  let s₁ : Client := ⟨1,⟨5,10,0,0⟩,true,some (text "01234"),none⟩
  let s₂ : Client := ⟨2,⟨10,10,5,5⟩,true,some (text "56789"),some ⟨[],.silent,false⟩⟩
  have hfirst : httpPass (Client.init none) (resumedRun 0)=.again s₁ := by decide
  have hsecond : httpPass s₁ (resumedRun 1)=.exit .retrok s₂ := by decide
  have hpasses : passes resumedRun none=[(Client.init none,resumedRun 0),(s₁,resumedRun 1)] := by
    calc passes resumedRun none
        = (Client.init none,resumedRun 0)::passesFrom resumedRun 19 s₁ :=
          passesFrom_again resumedRun 19 _ _ hfirst
      _ = _ := by rw [passesFrom_exit resumedRun 18 s₁ _ _ hsecond]
  have hcut : (resumedRun 0).reply=
      (.head ⟨200,10,true,false,false,none⟩,⟨text "01234",.closed,false⟩) := by decide
  have htail : (resumedRun 1).reply=
      (.head ⟨206,-1,false,false,false,some (5,9)⟩,⟨text "56789",.silent,false⟩) := by
    decide
  constructor
  · rw [hpasses]
    simp only [List.forall_mem_cons,List.not_mem_nil,false_imp_iff,implies_true,and_true]
    refine ⟨⟨rfl,rfl,fun _ => ⟨rfl,_,_,hcut,?_⟩⟩,⟨rfl,rfl,fun _ => ⟨rfl,_,_,htail,?_⟩⟩⟩
    · exact .whole true false _ (by decide) (Or.inr rfl) rfl
    · exact .tail 5 (-1) false false _ rfl (by decide) (by decide) (by decide) (Or.inl rfl) rfl
  · have hloop : httpLoop resumedRun none=.returned .retrok s₂ :=
      (httpLoopFrom_again resumedRun 19 _ _ hfirst).trans
        (httpLoopFrom_exit resumedRun 18 s₁ _ _ hsecond)
    intro h
    exact absurd (h s₂ hloop) (by decide)

end IdearNiu.Http
