import IdearNiu.Bt.AttFrames

namespace IdearNiu.Att

/-- Whatever can be sent has the writer running. -/
def Awake (s : Att) : Prop :=
  s.io=true → s.shut=false → s.sendable=true → s.writerActive=true

section

variable {hand : Multiset SendOp} {s s' : Att} {l : Lane} {op : SendOp}

theorem awake_wakeup (s : Att) : Awake (wakeupWriter s) := by
  intro hio _ hsend
  rw [wakeupWriter] at hio hsend ⊢
  split_ifs at hio hsend ⊢ with hactive hnone
  · exact hactive
  · simp [hsend] at hnone
  · rfl
  · next hclosed => exact absurd hio hclosed

theorem ready_cancelled {c : Channel} (hpending : c.pending=some op) (op' : SendOp) :
    ({ c with pending := some op' } : Channel).ready=c.ready := by
  rw [Channel.ready,Channel.ready,hpending]
  rfl

theorem sendable_cancelPending (hpending : (s.channel l).pending=some op) :
    (cancelPending s l op).sendable=s.sendable := by
  have hready (k : Lane) : ((cancelPending s l op).channel k).ready=(s.channel k).ready := by
    change ((s.setChannel l _).channel k).ready=_
    by_cases hk : k=l
    · subst hk
      rw [setChannel_same,ready_cancelled hpending]
    · rw [setChannel_other s _ hk]
  rw [Att.sendable,Att.sendable,hready,hready]
  rfl

theorem Awake.cancelPending (h : Awake s) (hpending : (s.channel l).pending=some op) :
    Awake (cancelPending s l op) := by
  intro hio hshut hsend
  rw [sendable_cancelPending hpending] at hsend
  exact h hio hshut hsend

theorem cancelAll_channel (ops : List SendOp) (s : Att) :
    (cancelAll ops s).channel=s.channel ∧ (cancelAll ops s).writeQueue=s.writeQueue := by
  induction ops generalizing s with
  | nil => exact ⟨rfl,rfl⟩
  | cons op ops ih => exact ih (cancelQueued op s)

theorem cancelLane_queues (s : Att) (l k : Lane) :
    ((cancelLane s l).channel k).queue=(s.channel k).queue ∧
      (cancelLane s l).writeQueue=s.writeQueue := by
  rw [cancelLane]
  split
  · refine ⟨?_,rfl⟩
    change ((s.setChannel l _).channel k).queue=_
    by_cases hk : k=l
    · subst hk
      rw [setChannel_same]
    · rw [setChannel_other s _ hk]
  · exact ⟨rfl,rfl⟩

theorem emptyLane_queues (s : Att) (l k : Lane) :
    ((emptyLane s l).channel k).queue=if k=l then [] else (s.channel k).queue := by
  rw [emptyLane,(cancelAll_channel _ _).1]
  split_ifs with hk
  · rw [hk,setChannel_same]
  · rw [setChannel_other s _ hk]

/-- bt_att_cancel_all leaves nothing in the queues. -/
theorem btAttCancelAll_queues (s : Att) :
    (∀ k,((btAttCancelAll s).channel k).queue=[]) ∧ (btAttCancelAll s).writeQueue=[] := by
  constructor
  · intro k
    rw [btAttCancelAll,(cancelLane_queues _ _ _).1,(cancelLane_queues _ _ _).1,
      (cancelAll_channel _ _).1]
    change ((emptyLane (emptyLane s .req) .ind).channel k).queue=[]
    rw [emptyLane_queues,emptyLane_queues]
    cases k <;> rfl
  · rw [btAttCancelAll,(cancelLane_queues _ _ .req).2,(cancelLane_queues _ _ .req).2,
      (cancelAll_channel _ _).2]

theorem sendable_empty (hqueue : ∀ k,(s.channel k).queue=[]) (hwrite : s.writeQueue=[]) :
    s.sendable=false := by
  simp [Att.sendable,Channel.ready,hqueue,hwrite]

theorem Awake.callApi (h : Awake s) (call : Api) : Awake (callApi s call) := by
  cases call with
  | send opcode pdu length callback destroy =>
    rw [Att.callApi,btAttSend]
    split
    · exact h
    · cases createAttSendOp s opcode pdu length callback destroy with
      | none => exact h
      | some op => exact awake_wakeup _
  | cancel id =>
    rw [Att.callApi,btAttCancel]
    split_ifs
    · exact h
    split
    · next op hop => exact h.cancelPending (pendingWith_eq hop)
    split
    · next op hop => exact h.cancelPending (pendingWith_eq hop)
    split
    · exact awake_wakeup _
    split
    · exact awake_wakeup _
    split
    · exact awake_wakeup _
    · exact h
  | cancelAll =>
    obtain ⟨hqueue,hwrite⟩ := btAttCancelAll_queues s
    intro _ _ hsend
    rw [Att.callApi,sendable_empty hqueue hwrite] at hsend
    cases hsend

theorem Awake.callApis (h : Awake s) (calls : List Api) : Awake (callApis s calls) := by
  induction calls generalizing s with
  | nil => exact h
  | cons call calls ih => exact ih (h.callApi call)

/-- The operation that is picked is the first of the write queue or of a channel that waits for
nothing. -/
theorem pickNextSendOp_cases (s : Att) :
    (s.sendable=false ∧ pickNextSendOp s=none) ∨
    (∃ op queue,s.writeQueue=op::queue ∧
      pickNextSendOp s=some (op,{ s with writeQueue := queue })) ∨
    (∃ l op queue,s.channel l=⟨op::queue,none⟩ ∧
      pickNextSendOp s=some (op,s.setChannel l ⟨queue,none⟩)) := by
  have hpop (l : Lane) : ((s.channel l).ready=false ∧ popLane s l=none) ∨
      ∃ op queue,s.channel l=⟨op::queue,none⟩ ∧
        popLane s l=some (op,s.setChannel l ⟨queue,none⟩) := by
    rw [popLane,Channel.ready]
    cases hchannel : s.channel l with
    | mk queue pending =>
      cases pending with
      | some op => exact Or.inl ⟨rfl,rfl⟩
      | none =>
        cases queue with
        | nil => exact Or.inl ⟨rfl,rfl⟩
        | cons op queue => exact Or.inr ⟨op,queue,rfl,rfl⟩
  rw [pickNextSendOp,Att.sendable]
  cases hwrite : s.writeQueue with
  | cons op queue => exact Or.inr (Or.inl ⟨op,queue,rfl,rfl⟩)
  | nil =>
    rcases hpop .req with ⟨hready,hnone⟩|⟨op,queue,hchannel,hsome⟩
    · rcases hpop .ind with ⟨hready',hnone'⟩|⟨op,queue,hchannel,hsome⟩
      · exact Or.inl ⟨by rw [hready,hready']; rfl,by rw [hnone,hnone']⟩
      · exact Or.inr (Or.inr ⟨.ind,op,queue,hchannel,by rw [hnone,hsome]⟩)
    · exact Or.inr (Or.inr ⟨.req,op,queue,hchannel,by rw [hsome]⟩)

theorem Kept.canWriteData (h : Kept none 0 s) (ok : Bool) (nested : List Api) :
    Kept none 0 (canWriteData s ok nested) := by
  rw [Att.canWriteData]
  rcases pickNextSendOp_cases s with ⟨_,hpick⟩|⟨op,queue,hwrite,hpick⟩|⟨l,op,queue,hchannel,hpick⟩
  · rw [hpick]
    exact h.same rfl rfl rfl rfl
  · have hplain : laneOf op.type=none := h.plain op (hwrite ▸ List.mem_cons_self ..)
    have hperm : s.writeQueue.Perm ([op]++queue) := by
      rw [hwrite]
      exact List.Perm.refl _
    have htaken : Kept none (op::ₘ0) { s with writeQueue := queue } := h.takeWrite hperm
    rw [hpick]
    cases ok with
    | false => exact htaken.disc nested
    | true =>
      simp only [Bool.not_true,Bool.false_eq_true,if_false,hplain]
      split_ifs
      · exact htaken.destroySent hplain false
      · exact htaken.destroySent hplain s.inReq
  · rw [hpick]
    cases ok with
    | false =>
      have hperm : (s.channel l).queue.Perm ([op]++queue) := by
        rw [hchannel]
        exact List.Perm.refl _
      have htaken : Kept none (op::ₘ0) (s.setChannel l { s.channel l with queue := queue }) :=
        h.takeLane hperm (by rw [hchannel]; exact List.sublist_cons_self op queue)
      rw [hchannel] at htaken
      exact htaken.disc nested
    | true =>
      have htype : op.type=l.type :=
        ((h.lined l).typed op.tag (by rw [hchannel]; exact List.mem_cons_self ..)).1
      have hlane : laneOf op.type=some l := by
        rw [htype]
        cases l <;> rfl
      simp only [Bool.not_true,Bool.false_eq_true,if_false,hlane]
      refine h.send hchannel (some s.timeoutsAdded) rfl rfl ?_ rfl
      simp [Att.setChannel,Att.note]

theorem Kept.completeLane (h : Kept none hand s) {code : UInt8} (l : Lane)
    (hans : ∀ op∈(s.channel l).pending,Answers op code) (nested : List Api) :
    Kept none hand (completeLane s l code nested) := by
  rw [Att.completeLane]
  cases hpending : (s.channel l).pending with
  | none => exact h
  | some op =>
    have hrun := h.runCallback (Multiset.mem_add.mpr (Or.inr (pending_mem_ops s l op hpending)))
      code (hans op hpending) nested
    have htag := (framed_runCallback op code nested s).pending l
    rw [hpending,Option.map_some] at htag
    obtain ⟨op',hop',htag'⟩ := Option.map_eq_some_iff.mp htag
    have hserial : op'.serial=op.serial := congrArg Prod.fst htag'
    refine hrun.freePending (Or.inr ⟨op',hop',by rw [hserial]⟩) fun o ho _ => ?_
    rw [hop'] at ho
    cases ho
    rw [hserial]

theorem answers_rsp (htype : op.type=.req) (opcode reqOpcode : UInt8)
    (hreq : opcode≠errorRsp → reqOpcode=getReqOpcode opcode) :
    Answers op (if reqOpcode=0 ∨ reqOpcode≠op.opcode then errorRsp else opcode) := by
  split_ifs with hwrong
  · exact Or.inl rfl
  · by_cases herror : opcode=errorRsp
    · exact Or.inl herror
    · refine Or.inr (Or.inl ⟨htype,?_⟩)
      rw [← hreq herror]
      by_contra hne
      exact hwrong (Or.inr hne)

theorem Kept.pending_type (h : Kept none hand s) (l : Lane) : ∀ op∈(s.channel l).pending,op.type=l.type := by
  intro op hop
  refine ((h.lined l).typed op.tag ?_).1
  rw [Channel.tags,line_pending hop]
  exact List.mem_cons_self ..

theorem Kept.handleRsp (h : Kept none 0 s) (opcode : UInt8) (pdu : List UInt8) (retry : Bool)
    (nested : List Api) : Kept none 0 (handleRsp s opcode pdu retry nested) := by
  rw [Att.handleRsp]
  cases hpending : (s.channel .req).pending with
  | none => exact h.same rfl rfl rfl rfl
  | some op =>
    dsimp only
    split
    · refine Kept.wakeup ?_
      exact h.requeue hpending rfl rfl rfl rfl
    · refine (h.completeLane .req (fun o ho => ?_) nested).wakeup
      obtain rfl : op=o := Option.some.inj (hpending.symm.trans ho)
      exact answers_rsp (h.pending_type .req op hpending) opcode _ fun hne => if_neg hne

theorem Kept.handleConf (h : Kept none 0 s) (pdu : List UInt8) (nested : List Api) :
    Kept none 0 (handleConf s pdu nested) := by
  rw [Att.handleConf]
  split_ifs
  · exact h.same rfl rfl rfl rfl
  · exact (h.completeLane .ind
      (fun o ho => Or.inr (Or.inr ⟨h.pending_type .ind o ho,rfl⟩)) nested).wakeup

theorem Kept.handleNotify (h : Kept none 0 s) (opcode : UInt8) (found signed : Bool)
    (nested : List Api) : Kept none 0 (handleNotify s opcode found signed nested) := by
  rw [Att.handleNotify]
  split
  · exact h
  · have hnested : Kept none 0 (if found then Att.callApis s nested else s) := by
      split
      · exact h.callApis nested
      · exact h
    dsimp only
    split
    · exact hnested.sent ..
    · exact hnested

theorem Kept.canReadData (h : Kept none 0 s) (bytes : List UInt8) (retry found signed : Bool)
    (nested : List Api) : Kept none 0 (canReadData s bytes retry found signed nested) := by
  cases bytes with
  | nil => exact h
  | cons opcode pdu =>
    simp only [Att.canReadData]
    split
    · exact h.handleRsp ..
    · exact h.handleConf ..
    · split
      · exact h.same rfl rfl rfl rfl
      · have hreq : Kept none 0 { s with inReq := true } := h.same rfl rfl rfl rfl
        exact hreq.handleNotify ..
    · exact h.handleNotify ..

theorem Kept.expireLane (h : Kept none 0 s) (hpending : (s.channel l).pending=some op)
    (nested : List Api) : Kept none 0 (expireLane s l op nested) :=
  (((h.expire hpending).callApis nested).destroyTold (Or.inr rfl) fun _ => rfl).same rfl rfl rfl rfl

theorem Kept.timeoutCb (h : Kept none 0 s) (t : Nat) (id : BitVec 32) (nested : List Api) :
    Kept none 0 (timeoutCb s t id nested) := by
  have hstopped : Kept none 0 { s with timeouts := timeoutRemove (some t) s.timeouts } :=
    h.same rfl rfl rfl rfl
  rw [Att.timeoutCb]
  split
  · next op hop => exact hstopped.expireLane (pendingWith_eq hop) nested
  split
  · next op hop => exact hstopped.expireLane (pendingWith_eq hop) nested
  · exact hstopped

theorem Kept.discPending (h : Kept none 0 s) (nested : Nat → List Api) (l : Lane) :
    Kept none 0 (discPending nested s l) := by
  rw [Att.discPending]
  split
  · exact h
  · exact h.completeLane l (fun _ _ => Or.inl rfl) _

theorem Kept.disconnectCb (h : Kept none 0 s) (nested : Nat → List Api) :
    Kept none 0 (disconnectCb s nested) := by
  have hclosed : Kept none 0 { s with io := false, writerActive := false } := h.same rfl rfl rfl rfl
  have hlanes := (hclosed.discQueue nested .req).discQueue nested .ind
  exact (((hlanes.takeWrite (by rw [List.append_nil])).discAll).discPending nested
    .req).discPending nested .ind

theorem Kept.step (h : Kept none 0 s) (e : Event) : Kept none 0 (step s e) := by
  cases e with
  | api call => exact h.callApi call
  | writable ok nested =>
    rw [Att.step]
    split_ifs
    · exact h.canWriteData ok nested
    · exact h
  | readable bytes retry found signed nested =>
    rw [Att.step]
    split_ifs
    · exact h.canReadData bytes retry found signed nested
    · exact h
  | timeout t nested =>
    rw [Att.step]
    split
    · exact h.timeoutCb t _ nested
    · exact h
  | disconnect nested =>
    rw [Att.step]
    split_ifs
    · exact h.disconnectCb nested
    · exact h

end

section

variable {s s' s'' : Att} {l : Lane}

theorem freePending_io (s : Att) (l : Lane) : (freePending s l).io=s.io := by
  rw [freePending]
  split <;> rfl

theorem completeLane_io (s : Att) (l : Lane) (code : UInt8) (nested : List Api) :
    (completeLane s l code nested).io=s.io := by
  rw [completeLane]
  split
  · rw [freePending_io,(framed_runCallback ..).io]
  · rfl

theorem canWriteData_spec (h : s.writerActive=true) (ok : Bool) (nested : List Api) :
    (canWriteData s ok nested).io=s.io ∧ Awake (canWriteData s ok nested) := by
  rw [canWriteData]
  rcases pickNextSendOp_cases s with ⟨hsend,hpick⟩|⟨op,queue,_,hpick⟩|⟨l,op,queue,_,hpick⟩
  · rw [hpick]
    refine ⟨rfl,fun _ _ hs => ?_⟩
    exact absurd (hs.symm.trans hsend) (by decide)
  all_goals
    rw [hpick]
    cases ok
    · have hframed := framed_runCallback op errorRsp nested
      exact ⟨(hframed _).io,fun _ _ _ => (hframed _).active h⟩
    · dsimp only
      cases laneOf op.type with
      | some l => exact ⟨rfl,fun _ _ _ => h⟩
      | none =>
        simp only [Bool.not_true,Bool.false_eq_true,if_false]
        split_ifs <;> exact ⟨rfl,fun _ _ _ => h⟩

theorem awake_of_shut (h : s.shut=true) : Awake s := fun _ hshut => by
  rw [h] at hshut
  cases hshut

theorem Awake.canReadData (h : Awake s) (bytes : List UInt8) (retry found signed : Bool)
    (nested : List Api) : Awake (canReadData s bytes retry found signed nested) := by
  have hnotify {s : Att} (h : Awake s) (opcode : UInt8) :
      Awake (handleNotify s opcode found signed nested) := by
    rw [handleNotify]
    split
    · exact h
    · have hnested : Awake (if found then Att.callApis s nested else s) := by
        split
        · exact h.callApis nested
        · exact h
      dsimp only
      split
      · exact hnested.callApi
          (.send errorRsp (some [opcode,0,0,requestNotSupported]) 4 false false)
      · exact hnested
  cases bytes with
  | nil => exact h
  | cons opcode pdu =>
    simp only [Att.canReadData]
    split
    · rw [handleRsp]
      split
      · exact awake_of_shut rfl
      · dsimp only
        split <;> exact awake_wakeup _
    · rw [handleConf]
      split_ifs
      · exact awake_of_shut rfl
      · exact awake_wakeup _
    · split
      · exact awake_of_shut rfl
      · have hreq : Awake { s with inReq := true } := h
        exact hnotify hreq opcode
    · exact hnotify h opcode

theorem canReadData_io (s : Att) (bytes : List UInt8) (retry found signed : Bool)
    (nested : List Api) : (canReadData s bytes retry found signed nested).io=s.io := by
  have hnotify (s : Att) (opcode : UInt8) : (handleNotify s opcode found signed nested).io=s.io := by
    rw [handleNotify]
    split
    · rfl
    · have hnested : (if found then callApis s nested else s).io=s.io := by
        split
        · exact (framed_callApis s nested).io
        · rfl
      dsimp only
      split
      · exact (framed_btAttSend ..).io.trans hnested
      · exact hnested
  cases bytes with
  | nil => rfl
  | cons opcode pdu =>
    simp only [canReadData]
    split
    · rw [handleRsp]
      split
      · rfl
      · dsimp only
        split
        · exact (framed_wakeup _).io
        · rw [(framed_wakeup _).io,completeLane_io]
    · rw [handleConf]
      split_ifs
      · rfl
      · rw [(framed_wakeup _).io,completeLane_io]
    · split
      · rfl
      · exact hnotify { s with inReq := true } opcode
    · exact hnotify s opcode

/-- What stays empty when the link is gone. -/
structure Settles (s s' : Att) : Prop where
  io : s'.io=false
  queue : ∀ l,(s.channel l).queue=[] → (s'.channel l).queue=[]
  pending : ∀ l,(s.channel l).pending=none → (s'.channel l).pending=none
  write : s.writeQueue=[] → s'.writeQueue=[]

theorem Framed.settles (h : Framed s s') (hio : s.io=false) : Settles s s' where
  io := h.io.trans hio
  queue := h.queue hio
  pending l hl := by
    have := h.pending l
    rw [hl,Option.map_none] at this
    exact Option.map_eq_none_iff.mp this
  write := h.write hio

theorem Settles.trans (h : Settles s s') (h' : Settles s' s'') : Settles s s'' where
  io := h'.io
  queue l hl := h'.queue l (h.queue l hl)
  pending l hl := h'.pending l (h.pending l hl)
  write hw := h'.write (h.write hw)

theorem freePending_spec (s : Att) (l : Lane) :
    ((freePending s l).channel l).pending=none ∧
      (∀ k,((freePending s l).channel k).queue=(s.channel k).queue) ∧
      (∀ k,(s.channel k).pending=none → ((freePending s l).channel k).pending=none) ∧
      (freePending s l).writeQueue=s.writeQueue := by
  rw [freePending]
  cases hpending : (s.channel l).pending with
  | none => exact ⟨hpending,fun _ => rfl,fun _ h => h,rfl⟩
  | some op =>
    refine ⟨by rw [setChannel_same],fun k => ?_,fun k hk => ?_,rfl⟩ <;> by_cases hkl : k=l
    · subst hkl
      rw [setChannel_same]
    · rw [setChannel_other _ _ hkl]
      rfl
    · subst hkl
      rw [setChannel_same]
    · rw [setChannel_other _ _ hkl]
      exact hk

theorem settles_freePending (hio : s.io=false) (l : Lane) : Settles s (freePending s l) := by
  obtain ⟨_,hqueue,hpending,hwrite⟩ := freePending_spec s l
  exact ⟨(freePending_io s l).trans hio,fun k hk => (hqueue k).trans hk,hpending,
    fun hw => hwrite.trans hw⟩

theorem discPending_spec (hio : s.io=false) (nested : Nat → List Api) (l : Lane) :
    Settles s (discPending nested s l) ∧ ((discPending nested s l).channel l).pending=none := by
  rw [discPending]
  cases hpending : (s.channel l).pending with
  | none => exact ⟨(Framed.refl s).settles hio,hpending⟩
  | some op =>
    have hrun := (framed_runCallback op errorRsp (nested op.serial) s).settles hio
    dsimp only
    rw [completeLane,hpending]
    exact ⟨hrun.trans (settles_freePending hrun.io l),(freePending_spec _ l).1⟩

theorem discQueue_spec (hio : s.io=false) (nested : Nat → List Api) (l : Lane) :
    Settles s (discQueue nested s l) ∧ ((discQueue nested s l).channel l).queue=[] := by
  have htaken : Framed s (s.setChannel l { s.channel l with queue := [] }) :=
    framed_takeLane (List.nil_sublist _)
  have hdisc := framed_discAll nested (s.channel l).queue
    (s.setChannel l { s.channel l with queue := [] })
  refine ⟨(htaken.trans hdisc).settles hio,hdisc.queue (htaken.io.trans hio) l ?_⟩
  rw [setChannel_same]

theorem discWrite_spec (hio : s.io=false) (nested : Nat → List Api) :
    Settles s (discAll nested s.writeQueue { s with writeQueue := [] }) ∧
      (discAll nested s.writeQueue { s with writeQueue := [] }).writeQueue=[] := by
  have htaken : Framed s { s with writeQueue := [] } := framed_takeWrite (List.nil_sublist _)
  have hdisc := framed_discAll nested s.writeQueue { s with writeQueue := [] }
  exact ⟨(htaken.trans hdisc).settles hio,hdisc.write hio rfl⟩

/-- Nothing is left when the link is gone. -/
def Closed (s : Att) : Prop :=
  s.io=false → (∀ l,(s.channel l).queue=[] ∧ (s.channel l).pending=none) ∧ s.writeQueue=[]

theorem Closed.settles (h : Closed s) (hs : s.io=false → Settles s s') (hio : s'.io=s.io) :
    Closed s' := by
  intro hclosed
  have hbefore : s.io=false := hio.symm.trans hclosed
  obtain ⟨hlanes,hwrite⟩ := h hbefore
  have hsettles := hs hbefore
  exact ⟨fun l => ⟨hsettles.queue l (hlanes l).1,hsettles.pending l (hlanes l).2⟩,
    hsettles.write hwrite⟩

theorem closed_of_open (h : s.io=true) : Closed s := fun hclosed => by
  rw [h] at hclosed
  cases hclosed

theorem disconnectCb_closed (s : Att) (nested : Nat → List Api) :
    (disconnectCb s nested).io=false ∧ Closed (disconnectCb s nested) := by
  have hio : ({ s with io := false, writerActive := false } : Att).io=false := rfl
  obtain ⟨h1,hreq⟩ := discQueue_spec hio nested .req
  obtain ⟨h2,hind⟩ := discQueue_spec h1.io nested .ind
  obtain ⟨h3,hwrite⟩ := discWrite_spec h2.io nested
  obtain ⟨h4,hpreq⟩ := discPending_spec h3.io nested .req
  obtain ⟨h5,hpind⟩ := discPending_spec h4.io nested .ind
  refine ⟨h5.io,fun _ => ⟨fun l => ?_,h5.write (h4.write hwrite)⟩⟩
  cases l with
  | req => exact ⟨h5.queue _ (h4.queue _ (h3.queue _ (h2.queue _ hreq))),h5.pending _ hpreq⟩
  | ind => exact ⟨h5.queue _ (h4.queue _ (h3.queue _ hind)),hpind⟩

theorem expireLane_spec (s : Att) (l : Lane) (op : SendOp) (nested : List Api) :
    (expireLane s l op nested).io=s.io ∧ (expireLane s l op nested).shut=true :=
  ⟨(framed_callApis _ nested).io,rfl⟩

theorem timeoutCb_spec (s : Att) (t : Nat) (id : BitVec 32) (nested : List Api) :
    (timeoutCb s t id nested).io=s.io ∧ (Awake s → Awake (timeoutCb s t id nested)) ∧
      ((∀ l,(s.channel l).pending=none) → Framed s (timeoutCb s t id nested)) := by
  have hnone (l : Lane) (h : (s.channel l).pending=none) :
      pendingWith { s with timeouts := timeoutRemove (some t) s.timeouts } l id=none := by
    rw [pendingWith]
    change ((s.channel l).pending).filter _=none
    rw [h]
    rfl
  refine ⟨?_,fun hawake => ?_,fun hpending => ?_⟩
  · rw [timeoutCb]
    split
    · exact (expireLane_spec ..).1
    split
    · exact (expireLane_spec ..).1
    · rfl
  · rw [timeoutCb]
    split
    · exact awake_of_shut (expireLane_spec ..).2
    split
    · exact awake_of_shut (expireLane_spec ..).2
    · exact hawake
  · rw [timeoutCb]
    rw [hnone .req (hpending .req),hnone .ind (hpending .ind)]
    exact framed_same rfl rfl rfl rfl rfl

theorem Awake.step (h : Awake s) (e : Event) : Awake (step s e) := by
  cases e with
  | api call => exact h.callApi call
  | writable ok nested =>
    rw [Att.step]
    split_ifs with hready
    · have hactive : s.writerActive=true := by
        rw [Bool.and_eq_true] at hready
        exact hready.2
      exact (canWriteData_spec hactive ok nested).2
    · exact h
  | readable bytes retry found signed nested =>
    rw [Att.step]
    split_ifs
    · exact h.canReadData bytes retry found signed nested
    · exact h
  | timeout t nested =>
    rw [Att.step]
    split
    · exact (timeoutCb_spec ..).2.1 h
    · exact h
  | disconnect nested =>
    rw [Att.step]
    split_ifs
    · intro hio
      rw [(disconnectCb_closed s nested).1] at hio
      cases hio
    · exact h

theorem Closed.step (h : Closed s) (e : Event) : Closed (step s e) := by
  cases e with
  | api call =>
    exact h.settles (fun hio => (framed_callApi s call).settles hio) (framed_callApi s call).io
  | writable ok nested =>
    rw [Att.step]
    split_ifs with hready
    · rw [Bool.and_eq_true] at hready
      exact closed_of_open ((canWriteData_spec hready.2 ok nested).1.trans hready.1)
    · exact h
  | readable bytes retry found signed nested =>
    rw [Att.step]
    split_ifs with hio
    · exact closed_of_open ((canReadData_io ..).trans hio)
    · exact h
  | timeout t nested =>
    rw [Att.step]
    split
    · next e _ =>
      obtain ⟨hio,_,hframed⟩ := timeoutCb_spec s t e.2 nested
      exact h.settles (fun hclosed => (hframed fun l => ((h hclosed).1 l).2).settles hclosed) hio
    · exact h
  | disconnect nested =>
    rw [Att.step]
    split_ifs
    · exact (disconnectCb_closed s nested).2
    · exact h

/-- What holds in every state of a run. -/
structure Sound (s : Att) : Prop where
  kept : Kept none 0 s
  awake : Awake s
  closed : Closed s

theorem Sound.step (h : Sound s) (e : Event) : Sound (step s e) :=
  ⟨h.kept.step e,h.awake.step e,h.closed.step e⟩

theorem books_new : Books none [] [] 0 := by
  refine ⟨Multiset.nodup_zero,fun i op h => ?_,fun op h => ?_,fun op h => ?_,fun op h => ?_,
    fun e h => ?_,fun serial code h => ?_⟩
  · simp at h
  all_goals exact absurd h (by simp)

theorem lined_new (l : Lane) : Lined 0 [] l ⟨[],none⟩ :=
  ⟨⟨0,rfl,Nat.le_refl 0,fun t ht => absurd ht List.not_mem_nil⟩,List.Pairwise.nil,
    fun t ht => absurd ht List.not_mem_nil⟩

theorem sound_new (mtu : Nat) : Sound (btAttNew mtu) where
  kept := ⟨books_new,lined_new,fun op h => absurd h List.not_mem_nil,fun i h => by cases h⟩
  awake _ _ h := absurd h Bool.false_ne_true
  closed := closed_of_open rfl

theorem run_sound (mtu : Nat) (events : List Event) : Sound (run mtu events) := by
  rw [run]
  induction events using List.reverseRecOn with
  | nil => exact sound_new mtu
  | append_singleton events e ih =>
    rw [List.foldl_append]
    exact ih.step e

/-- Every operation that was made is in one place or gone for good, its callback was called with
a fitting code, and each channel has awaited one answer at a time, in the order of the calls;
what can be sent will be sent, and a lost link leaves nothing behind. -/
structure Orderly (s : Att) : Prop where
  distinct : (s.ops.map SendOp.serial).Nodup
  lives : ∀ op∈s.made,
    (∃ o∈s.ops,o.serial=op.serial ∧ ∃ life,lifeOf op.serial s.log=some life ∧
      life.called=false ∧ life.freed=false) ∨
    ((∀ o∈s.ops,o.serial≠op.serial) ∧ Gone op s.log)
  numbered : ∀ i (op : SendOp),s.made[i]?=some op → op.serial=i
  noted : ∀ e∈s.log,e.serial < s.made.length
  answered : ∀ serial code,.called serial code∈s.log →
    ∃ op,s.made[serial]?=some op ∧ Answers op code
  waiting : ∀ l,∃ last,waitingOf l s.log=some ⟨(s.channel l).pending.map SendOp.serial,last⟩
  awake : Awake s
  closed : s.io=false → s.ops=0

theorem Kept.books_quiet (h : Kept none 0 s) : Books none s.made s.log s.ops := by
  have hb := h.books
  rwa [zero_add] at hb

theorem ops_zero (hlanes : ∀ l,(s.channel l).queue=[] ∧ (s.channel l).pending=none)
    (hwrite : s.writeQueue=[]) : s.ops=0 := by
  have hline (l : Lane) : (s.channel l).line=[] := by
    rw [Channel.line,(hlanes l).1,(hlanes l).2]
    rfl
  rw [Att.ops,hline,hline,hwrite]
  rfl

theorem Sound.orderly (h : Sound s) : Orderly s := by
  have hb := h.kept.books_quiet
  refine ⟨hb.distinct,fun op hop => ?_,hb.numbered,hb.noted,hb.answered,fun l => ?_,h.awake,
    fun hio => ops_zero (h.closed hio).1 (h.closed hio).2⟩
  · by_cases hlive : ∃ o∈s.ops,o.serial=op.serial
    · obtain ⟨o,ho,heq⟩ := hlive
      obtain ⟨m,life,_,hlife,hfits⟩ := hb.live o ho
      rw [heq] at hlife
      exact Or.inl ⟨o,ho,heq,life,hlife,hfits.not_called,hfits.freed⟩
    · have hout : ∀ o∈s.ops,o.serial≠op.serial := fun o ho heq => hlive ⟨o,ho,heq⟩
      exact Or.inr ⟨hout,hb.gone op hop hout⟩
  · obtain ⟨last,hwait,_⟩ := (h.kept.lined l).waiting
    exact ⟨last,hwait⟩

/-- A pending operation has lost its callback. -/
theorem cancelLane_callback (s : Att) (l : Lane) :
    ∀ o∈((cancelLane s l).channel l).pending,o.callback=false := by
  intro o ho
  rw [cancelLane] at ho
  cases hpending : (s.channel l).pending with
  | none =>
    rw [hpending] at ho
    change o∈(s.channel l).pending at ho
    rw [hpending] at ho
    cases ho
  | some op =>
    rw [hpending] at ho
    change o∈((s.setChannel l _).channel l).pending at ho
    rw [setChannel_same] at ho
    cases ho
    rfl

theorem cancelLane_other (s : Att) {l k : Lane} (h : k≠l) :
    (cancelLane s l).channel k=s.channel k := by
  rw [cancelLane]
  split
  · exact setChannel_other s _ h
  · rfl

theorem btAttCancelAll_callback (s : Att) (l : Lane) :
    ∀ o∈((btAttCancelAll s).channel l).pending,o.callback=false := by
  rw [btAttCancelAll]
  cases l with
  | req =>
    rw [cancelLane_other _ (by decide)]
    exact cancelLane_callback _ .req
  | ind => exact cancelLane_callback _ .ind

/-- bt_att_unref leaves nothing behind either. -/
theorem btAttUnref_gone (h : Kept none 0 s) :
    ∀ op∈(btAttUnref s).made,Gone op (btAttUnref s).log := by
  have hcancelled := h.allCancelled
  obtain ⟨hqueue,hwrite⟩ := btAttCancelAll_queues s
  have hcallback := btAttCancelAll_callback s
  have hreq := hcancelled.freePending (l := .req) (Or.inl rfl) fun o ho hc => by
    rw [hcallback .req o ho] at hc
    cases hc
  have hkept : Kept none 0 (btAttUnref s) := hreq.freePending (Or.inl rfl) fun o ho hc => by
    have hind : ((Att.freePending (btAttCancelAll s) .req).channel .ind).pending=
        ((btAttCancelAll s).channel .ind).pending := by
      rw [Att.freePending]
      split
      · rw [setChannel_other _ _ (by decide)]
        rfl
      · rfl
    rw [hind] at ho
    rw [hcallback .ind o ho] at hc
    cases hc
  have hzero : (btAttUnref s).ops=0 := by
    obtain ⟨hpreq,hqreq,_,hwreq⟩ := freePending_spec (btAttCancelAll s) .req
    obtain ⟨hpind,hqind,hkeep,hwind⟩ := freePending_spec (freePending (btAttCancelAll s) .req) .ind
    refine ops_zero (fun l => ⟨(hqind l).trans ((hqreq l).trans (hqueue l)),?_⟩)
      (hwind.trans (hwreq.trans hwrite))
    cases l with
    | req => exact hkeep .req hpreq
    | ind => exact hpind
  intro op hop
  exact hkept.books_quiet.gone op hop fun o ho => by
    rw [hzero] at ho
    cases ho

/-- In every run the operations are in order, and with bt_att_unref all of them are gone. -/
theorem att_runs_orderly (mtu : Nat) (events : List Event) :
    Orderly (run mtu events) ∧ ∀ op∈(btAttUnref (run mtu events)).made,
      Gone op (btAttUnref (run mtu events)).log :=
  ⟨(run_sound mtu events).orderly,btAttUnref_gone (run_sound mtu events).kept⟩

end

end IdearNiu.Att
