import IdearNiu.Http.GetHttp

namespace IdearNiu.Http

/-- A pass whose answer is saved from the start although the retrieval was to go on at
restval, and ends early: the bytes read together with restval pass the length announced. -/
structure Overruns (s : Client) (a : Attempt) (h : Head) (c : Conn) : Prop where
  connected : s.pconn.isSome=true ∨ a.connect=none
  sent : a.sent=true
  answer : readReply a.seg a.upper (s.restart.sock.answered a)=(.head h,c)
  saved : h.disposition s.restart.hs.restval=.saved
  output : a.output=.ok
  closed : c.ending=.closed
  whole : h.contrange=0
  some : c.unread≠[]
  cut : c.unread.length<h.bodyLength
  past : h.bodyLength < s.restart.hs.restval+c.unread.length

/-- Where the length tests end in the call of abort. -/
theorem judge_abort_iff (s : Client) :
    judge s=.abort ↔ s.retrokf=true ∧ s.hs.res=0 ∧ s.hs.contlen≠-1 ∧ s.hs.contlen < s.hs.len ∧
      s.hs.len≠s.hs.restval := by
  unfold judge
  split_ifs with hok hlen hres hknown hless hmore
  · simp only [false_iff]
    intro hgiven
    obtain ⟨h,-⟩ := hgiven
    simp [h] at hok
  · simp only [false_iff]
    omega
  · simp only [false_iff]
    omega
  · simp only [false_iff]
    omega
  · simp only [true_iff]
    exact ⟨by simpa using hok,hres,hknown,by omega,hmore⟩
  · simp only [false_iff]
    omega
  · simp only [false_iff]
    omega

/-- An error is retried or logged. -/
theorem conclude_error (s : Client) (e : Uerr) (he : e≠.retrfinished) :
    conclude s e≠.abort := by
  cases e <;> simp [conclude,Uerr.retried] at he ⊢

/-- How the reading of a body of known length ends. -/
theorem fdReadBody_exact (output : Output) (toread res : Int) (c c' : Conn)
    (written : List UInt8) (h : fdReadBody output true toread c=some (res,written,c')) :
    (res=0 ∧ written=[]) ∨ res≠0 ∨
      (output≠.writeError ∧ c.ending=.closed ∧ written=c.unread ∧ c.unread.length<toread) := by
  simp only [fdReadBody,if_true,true_and] at h
  split_ifs at h with hwrite hall
  · cases h
    exact Or.inr (Or.inl (by decide))
  · cases h
    by_cases hnil : c.unread.take toread.toNat=[]
    · rw [hnil]
      exact Or.inl ⟨rfl,rfl⟩
    · refine Or.inr (Or.inl ?_)
      have hpos := List.length_pos_iff.mpr hnil
      rw [lastRead,if_neg (by omega)]
      omega
  · have hlen : c.unread.length<toread := by
      rw [List.length_take] at hall
      omega
    have htake : c.unread.take toread.toNat=c.unread := List.take_of_length_le (by omega)
    rw [htake] at h hwrite
    split at h
    · cases h
    · next hclosed =>
      cases h
      by_cases hnil : c.unread=[]
      · exact Or.inl ⟨rfl,hnil⟩
      · exact Or.inr (Or.inr ⟨fun ho => hwrite ⟨ho,hnil⟩,hclosed,rfl,hlen⟩)
    · cases h
      exact Or.inr (Or.inl (by decide))

/-- A body that is cut by the close of the connection. -/
theorem fdReadBody_cut (toread : Int) (c : Conn) (hclosed : c.ending=.closed)
    (hcut : c.unread.length<toread) :
    fdReadBody .ok true toread c=some (0,c.unread,{ c with unread := [], sawEof := true }) := by
  have htake : c.unread.take toread.toNat=c.unread := List.take_of_length_le (by omega)
  simp only [fdReadBody,if_true,true_and,htake,reduceCtorEq,false_and,if_false,
    if_neg (show ¬toread≤c.unread.length by omega),hclosed,List.drop_length]

theorem saveBody_uerr (s : Client) (a : Attempt) (h : Head) (c : Conn) (e : Uerr)
    (s' : Client) (hrun : saveBody s a h c=.ok (e,s')) : e=.fwriteerr ∨ e=.retrfinished := by
  rw [saveBody] at hrun
  split at hrun
  · cases hrun
  · cases hrun
  · split at hrun
    · cases hrun
    · cases hrun
      split_ifs
      · exact Or.inl rfl
      · exact Or.inr rfl

/-- What a saved body leaves in the state. -/
theorem saveBody_some (s : Client) (a : Attempt) (h : Head) (c : Conn) (e : Uerr)
    (s' : Client) (hrun : saveBody s a h c=.ok (e,s')) (he : e=.retrfinished) :
    ∃ res written c',fdReadBody a.output (h.bodyLength≠-1) h.bodyLength c=
        some (res,written,c') ∧ (a.output=.ok ∨ a.output=.writeError) ∧
      s'.hs=⟨s.hs.restval+written.length,s.hs.contlen,s.hs.restval,res⟩ ∧
      s'.retrokf=s.retrokf := by
  subst he
  rw [saveBody] at hrun
  split at hrun
  · cases hrun
  · cases hrun
  · next hunlink hopen =>
    split at hrun
    · cases hrun
    next res written c' hread =>
    simp only [Except.ok.injEq,Prod.mk.injEq] at hrun
    obtain ⟨-,rfl⟩ := hrun
    refine ⟨res,written,c',hread,?_,rfl,rfl⟩
    cases hout : a.output with
    | ok => exact Or.inl rfl
    | unlinkError => exact absurd hout hunlink
    | openError => exact absurd hout hopen
    | writeError => exact Or.inr rfl

/-- The length tests after a body has been saved. -/
theorem saveBody_abort (s : Client) (a : Attempt) (h : Head) (c : Conn) (e : Uerr)
    (s' : Client) (hok : s.retrokf=true) (hcont : s.hs.contlen=h.totalLength)
    (hrange : h.contrange=0 ∨ h.contrange=s.hs.restval)
    (hrun : saveBody s a h c=.ok (e,s')) :
    conclude s' e=.abort ↔ a.output=.ok ∧ c.ending=.closed ∧ h.contrange=0 ∧ c.unread≠[] ∧
      c.unread.length<h.bodyLength ∧ h.bodyLength < s.hs.restval+c.unread.length := by
  constructor
  · intro habort
    have he : e=.retrfinished := by
      rcases saveBody_uerr s a h c e s' hrun with rfl|rfl
      · cases habort
      · rfl
    obtain ⟨res,written,c',hread,hout,hhs,-⟩ := saveBody_some s a h c e s' hrun he
    rw [he,conclude,judge_abort_iff] at habort
    simp only [hhs,hcont] at habort
    obtain ⟨-,hres,hknown,hpast,hsome⟩ := habort
    have hbody : h.bodyLength≠-1 := by
      intro hneg
      rw [Head.totalLength,if_pos hneg] at hknown
      exact hknown rfl
    rw [Head.totalLength,if_neg hbody] at hpast
    rw [decide_eq_true hbody] at hread
    rcases fdReadBody_exact _ _ _ _ _ _ hread with ⟨-,hnil⟩|hne|⟨hwrite,hclosed,hall,hcut⟩
    · rw [hnil] at hsome
      simp at hsome
    · exact absurd hres hne
    · rw [hall] at hpast hsome
      refine ⟨hout.resolve_right hwrite,hclosed,by omega,?_,hcut,by omega⟩
      intro hnil
      rw [hnil] at hsome
      simp at hsome
  · intro hgiven
    obtain ⟨hout,hclosed,hzero,hsome,hcut,hpast⟩ := hgiven
    have hpos := List.length_pos_iff.mpr hsome
    have hbody : h.bodyLength≠-1 := by omega
    rw [saveBody,hout] at hrun
    simp only [decide_eq_true hbody,fdReadBody_cut h.bodyLength c hclosed hcut,Except.ok.injEq,
      Prod.mk.injEq] at hrun
    obtain ⟨rfl,rfl⟩ := hrun
    have hfinished : (if (0:Int)=-2 then Uerr.fwriteerr else .retrfinished)=.retrfinished := rfl
    rw [hfinished,conclude,judge_abort_iff]
    simp only [hok,hcont,Head.totalLength,if_neg hbody,hzero,true_and]
    omega

/-- What gethttp makes of a head ends in abort only behind a saved body. -/
theorem handleHead_abort (s : Client) (a : Attempt) (h : Head) (c : Conn) (e : Uerr)
    (s' : Client) (hcont : s.hs.contlen=-1) (hrun : handleHead s a h c=.ok (e,s')) :
    conclude s' e=.abort ↔ h.disposition s.hs.restval=.saved ∧ a.output=.ok ∧
      c.ending=.closed ∧ h.contrange=0 ∧ c.unread≠[] ∧ c.unread.length<h.bodyLength ∧
      h.bodyLength < s.hs.restval+c.unread.length := by
  rw [handleHead] at hrun
  cases hd : h.disposition s.hs.restval with
  | saved =>
    simp only [hd] at hrun
    obtain ⟨hok,hrange⟩ := disposition_saved h _ hd
    have hsave := saveBody_abort
      { s with hs := { s.hs with contlen := h.totalLength }, retrokf := h.retrievable }
      a h c e s' hok rfl hrange hrun
    rw [hsave]
    simp only [true_and]
  | refused =>
    simp only [hd,Except.ok.injEq,Prod.mk.injEq] at hrun
    obtain ⟨rfl,rfl⟩ := hrun
    have hno := disposition_refused h _ hd
    split_ifs
    · simp [conclude,Uerr.retried]
    · simp [conclude,judge,hno]
  | noContent =>
    simp only [hd,Except.ok.injEq,Prod.mk.injEq] at hrun
    obtain ⟨rfl,rfl⟩ := hrun
    simp [conclude,judge_abort_iff,hcont]
  | redirected =>
    simp only [hd,Except.ok.injEq,Prod.mk.injEq] at hrun
    obtain ⟨rfl,rfl⟩ := hrun
    have herror : h.redirection≠.retrfinished := by
      rw [Head.redirection]
      split_ifs <;> decide
    simpa using conclude_error _ _ herror
  | unauthorized | rangeError | alreadyRetrieved =>
    simp only [hd,Except.ok.injEq,Prod.mk.injEq] at hrun
    obtain ⟨rfl,rfl⟩ := hrun
    simp [conclude,Uerr.retried]

/-- gethttp goes on to the head of the answer. -/
theorem gethttp_head (s : Client) (a : Attempt) (h : Head) (c : Conn)
    (hconn : s.pconn.isSome=true ∨ a.connect=none) (hsent : a.sent=true)
    (hread : readReply a.seg a.upper (s.sock.answered a)=(.head h,c)) :
    gethttp s a=handleHead { s.begin with retrokf := false } a h c := by
  have hnone : (if s.pconn.isSome then none else a.connect)=none := by
    rcases hconn with hp|hc
    · rw [if_pos hp]
    · rw [hc,ite_self]
  have hsock : (Client.sock { s.begin with retrokf := false })=s.sock := rfl
  rw [gethttp,hnone]
  simp only [hsent,Bool.not_true,Bool.false_eq_true,if_false,hsock,hread]

theorem httpPass_abort_iff (s : Client) (a : Attempt) :
    httpPass s a=.abort ↔ ∃ h c,Overruns s a h c := by
  rw [httpPass]
  constructor
  · intro habort
    split at habort
    · cases habort
    · next e s' hget =>
      have hconn : s.pconn.isSome=true ∨ a.connect=none := by
        by_contra hnot
        obtain ⟨hp,hc⟩ := not_or.mp hnot
        obtain ⟨err,herr⟩ := Option.ne_none_iff_exists'.mp hc
        have hp' : s.restart.pconn.isSome≠true := hp
        rw [gethttp,if_neg hp',herr,Except.ok.injEq,Prod.mk.injEq] at hget
        rw [← hget.1] at habort
        exact conclude_error s' err.uerr (by cases err <;> decide) habort
      rcases gethttp_cases _ _ _ _ hget with hfail|⟨h,c,hsent,hread,hhead⟩
      · rcases hfail.pass with hagain|hlogged
        · rw [hagain] at habort
          cases habort
        · rw [hlogged] at habort
          cases habort
      · obtain ⟨hd,hout,hclosed,hzero,hsome,hcut,hpast⟩ :=
          (handleHead_abort _ a h c e s' rfl hhead).mp habort
        exact ⟨h,c,hconn,hsent,hread,hd,hout,hclosed,hzero,hsome,hcut,hpast⟩
  · intro hgiven
    obtain ⟨h,c,hov⟩ := hgiven
    have hget := gethttp_head s.restart a h c hov.connected hov.sent hov.answer
    have hsome : ∃ e s',handleHead { s.restart.begin with retrokf := false } a h c=
        .ok (e,s') := by
      have hd : h.disposition s.restart.hs.restval=.saved := hov.saved
      have hcut := hov.cut
      have hbody : h.bodyLength≠-1 := by omega
      rw [handleHead]
      simp only [Client.begin,hd,saveBody,hov.output,decide_eq_true hbody,
        fdReadBody_cut h.bodyLength c hov.closed hcut]
      exact ⟨_,_,rfl⟩
    obtain ⟨e,s',hhead⟩ := hsome
    rw [hget,hhead]
    exact (handleHead_abort _ a h c e s' rfl hhead).mpr
      ⟨hov.saved,hov.output,hov.closed,hov.whole,hov.some,hov.cut,hov.past⟩

/-- The loop aborts in the first pass that overruns. -/
theorem httpLoopFrom_abort_iff (env : Nat → Attempt) (n : Nat) (s : Client) :
    httpLoopFrom env n s=.aborted ↔
      ∃ p∈passesFrom env n s,∃ h c,Overruns p.1 p.2 h c := by
  induction n generalizing s with
  | zero => simp [httpLoopFrom,passesFrom]
  | succ n ih =>
    rw [httpLoopFrom,passesFrom]
    have hnow := httpPass_abort_iff s (env s.count)
    have hnot (hpass : httpPass s (env s.count)≠.abort) :
        ¬∃ h c,Overruns s (env s.count) h c := fun hov => hpass (hnow.mpr hov)
    cases hp : httpPass s (env s.count) with
    | abort => simpa using hnow.mp hp
    | again s' =>
      have hnone := hnot (by rw [hp]; simp)
      simp only [ih s',List.mem_cons,exists_eq_or_imp]
      exact ⟨Or.inr,fun h => h.resolve_left hnone⟩
    | exit e s' =>
      have hnone := hnot (by rw [hp]; simp)
      simpa using hnone
    | stop w =>
      have hnone := hnot (by rw [hp]; simp)
      simpa using hnone

/-- A run does not reach the call of abort exactly when none of its passes overruns. -/
theorem http_loop_never_aborts_iff (env : Nat → Attempt) (file : Option (List UInt8)) :
    httpLoop env file≠.aborted ↔ ∀ p∈passes env file,∀ h c,¬Overruns p.1 p.2 h c := by
  rw [ne_eq,httpLoop,httpLoopFrom_abort_iff,passes]
  simp only [not_exists,not_and]

/-- Both answers announce ten bytes and the close; the first is cut after five bytes, the
second, which ignores the Range, after seven. -/
def ignoredRangeRun (k : Nat) : Attempt :=
  plainAttempt (text "HTTP/1.1 200 OK\r\nContent-Length: 10\r\nConnection: close\r\n\r\n"++
    (if k=0 then text "01234" else text "0123456")) .closed

theorem ignored_range_aborts : httpLoop ignoredRangeRun none=.aborted := by
  let s₁ : Client := ⟨1,⟨5,10,0,0⟩,true,some (text "01234"),none⟩
  have hfirst : httpPass (Client.init none) (ignoredRangeRun 0)=.again s₁ := by decide
  have hsecond : httpPass s₁ (ignoredRangeRun 1)=.abort := by decide
  have hloop : httpLoop ignoredRangeRun none=httpLoopFrom ignoredRangeRun 19 s₁ :=
    httpLoopFrom_again ignoredRangeRun 19 _ _ hfirst
  rw [hloop,httpLoopFrom]
  simp only [s₁] at hsecond ⊢
  rw [hsecond]

end IdearNiu.Http
