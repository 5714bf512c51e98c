import IdearNiu.Bt.AttHistory

namespace IdearNiu.Att

def Att.rest (s : Att) (l : Lane) : Multiset SendOp :=
  match l with
  | .req => ↑(s.channel .ind).line+↑s.writeQueue
  | .ind => ↑(s.channel .req).line+↑s.writeQueue

theorem ops_eq (s : Att) (l : Lane) : s.ops=↑(s.channel l).line+s.rest l := by
  cases l
  · rfl
  · exact add_left_comm _ _ _

@[simp] theorem setChannel_same (s : Att) (l : Lane) (c : Channel) : (s.setChannel l c).channel l=c :=
  Function.update_self ..

theorem setChannel_other (s : Att) {l k : Lane} (c : Channel) (h : k≠l) :
    (s.setChannel l c).channel k=s.channel k :=
  Function.update_of_ne h ..

theorem ops_setChannel (s : Att) (l : Lane) (c : Channel) :
    (s.setChannel l c).ops=↑c.line+s.rest l := by
  have hrest : (s.setChannel l c).rest l=s.rest l := by
    cases l
    · rw [Att.rest,Att.rest,setChannel_other s c (k := .ind) (by decide)]
      rfl
    · rw [Att.rest,Att.rest,setChannel_other s c (k := .req) (by decide)]
      rfl
  rw [ops_eq _ l,setChannel_same,hrest]

/-- The operations that are in no queue are in the hand of a function. -/
structure Kept (busy : Option Nat) (hand : Multiset SendOp) (s : Att) : Prop where
  books : Books busy s.made s.log (hand+s.ops)
  lined : ∀ l,Lined s.made.length s.log l (s.channel l)
  plain : ∀ op∈s.writeQueue,laneOf op.type=none
  running : ∀ i,busy=some i → i < s.made.length

section

variable {busy busy' : Option Nat} {hand : Multiset SendOp} {s s' : Att} {l : Lane} {op : SendOp}

/-- Only these fields matter. -/
theorem Kept.same (h : Kept busy hand s) (hmade : s'.made=s.made) (hlog : s'.log=s.log)
    (hchannel : s'.channel=s.channel) (hqueue : s'.writeQueue=s.writeQueue) :
    Kept busy hand s' := by
  have hops : s'.ops=s.ops := by rw [Att.ops,Att.ops,hchannel,hqueue]
  exact ⟨by rw [hmade,hlog,hops]; exact h.books,fun l => by rw [hmade,hlog,hchannel]; exact h.lined l,
    by rw [hqueue]; exact h.plain,by rw [hmade]; exact h.running⟩

theorem Kept.wakeup (h : Kept busy hand s) : Kept busy hand (wakeupWriter s) := by
  rw [wakeupWriter]
  split_ifs
  · exact h
  · exact h
  · exact h.same rfl rfl rfl rfl
  · exact h

/-- What a channel awaits is not what is elsewhere. -/
theorem Books.pending_ne {made : List SendOp} {log : List Entry} {ops : Multiset SendOp}
    {p : Option SendOp} (h : Books busy made log (op::ₘops)) (hp : ∀ o∈p,o∈ops) :
    p.map SendOp.serial≠some op.serial := by
  intro heq
  obtain ⟨o,ho,hser⟩ := Option.map_eq_some_iff.mp heq
  have hdistinct := h.distinct
  rw [Multiset.map_cons,Multiset.nodup_cons] at hdistinct
  exact hdistinct.1 (hser ▸ Multiset.mem_map_of_mem _ (hp o ho))

theorem pending_mem_ops (s : Att) (l : Lane) : ∀ o∈(s.channel l).pending,o∈s.ops := by
  intro o ho
  rw [ops_eq s l,Multiset.mem_add,Multiset.mem_coe,Channel.line,List.mem_append,Option.mem_toList]
  exact Or.inl (Or.inl ho)

theorem pending_mem_rest (s : Att) {l k : Lane} (h : k≠l) :
    ∀ o∈(s.channel k).pending,o∈s.rest l := by
  intro o ho
  cases l <;> cases k <;> first | exact absurd rfl h | skip
  all_goals
    rw [Att.rest,Multiset.mem_add,Multiset.mem_coe,Channel.line,List.mem_append,Option.mem_toList]
    exact Or.inl (Or.inl ho)

/-- An operation in hand comes to its end. -/
theorem Kept.handGone {entries : List Entry} (h : Kept busy (op::ₘhand) s)
    (hbooks : Books busy' s.made (s.log++entries) (hand+s.ops))
    (hentries : ∀ e∈entries,e.serial=op.serial ∧ ∀ type serial,e=.sent type serial → laneOf type=none)
    (hrunning : ∀ i,busy'=some i → i < s.made.length) (hmade : s'.made=s.made)
    (hlog : s'.log=s.log++entries) (hchannel : s'.channel=s.channel)
    (hqueue : s'.writeQueue=s.writeQueue) : Kept busy' hand s' := by
  have hgone : Kept busy' hand { s with log := s.log++entries } := by
    refine ⟨hbooks,fun l => ?_,h.plain,hrunning⟩
    refine (h.lined l).still rfl (List.Sublist.refl _) fun e he last => ?_
    have hb := h.books
    rw [Multiset.cons_add] at hb
    refine Lane.next_other ?_ fun type serial heq htype => ?_
    · rw [(hentries e he).1]
      exact hb.pending_ne fun o ho => Multiset.mem_add.mpr (Or.inr (pending_mem_ops s l o ho))
    · have := (hentries e he).2 type serial heq
      rw [htype] at this
      cases l <;> cases this
  exact hgone.same hmade hlog hchannel hqueue

theorem Kept.cancelQueued (h : Kept busy (op::ₘhand) s) : Kept busy hand (cancelQueued op s) := by
  have hb := h.books
  rw [Multiset.cons_add] at hb
  refine h.handGone hb.dropCancelled (fun e he => ?_) h.running rfl (List.append_assoc ..) rfl rfl
  rcases List.mem_cons.mp he with rfl|he
  · exact ⟨rfl,fun _ _ h => by cases h⟩
  · rcases mem_destroyEntries he with rfl|rfl <;> exact ⟨rfl,fun _ _ h => by cases h⟩

theorem Kept.destroyTold (h : Kept busy (op::ₘhand) s) (hbusy : busy=none ∨ busy=some op.serial)
    (hcallback : op.callback=true → busy=some op.serial) :
    Kept none hand (destroyAttSendOp op s) := by
  have hb := h.books
  rw [Multiset.cons_add] at hb
  refine h.handGone (hb.dropTold hbusy hcallback) (fun e he => ?_) (fun _ h => by cases h) rfl rfl rfl rfl
  rcases mem_destroyEntries he with rfl|rfl <;> exact ⟨rfl,fun _ _ h => by cases h⟩

theorem Kept.destroySent (h : Kept none (op::ₘhand) s) (hplain : laneOf op.type=none)
    (inReq : Bool) : Kept none hand
      (destroyAttSendOp op { s.note [.sent op.type op.serial] with inReq := inReq }) := by
  have hb := h.books
  rw [Multiset.cons_add] at hb
  refine h.handGone (hb.dropSent hplain) (fun e he => ?_) (fun _ h => by cases h) rfl (List.append_assoc ..) rfl rfl
  rcases List.mem_cons.mp he with rfl|he
  · exact ⟨rfl,fun type serial heq => by cases heq; exact hplain⟩
  · rcases mem_destroyEntries he with rfl|rfl <;> exact ⟨rfl,fun _ _ h => by cases h⟩

/-- Some operations of a queue are taken in hand. -/
theorem Kept.takeLane (h : Kept busy hand s) {taken queue : List SendOp}
    (hperm : (s.channel l).queue.Perm (taken++queue)) (hsub : queue.Sublist (s.channel l).queue) :
    Kept busy (↑taken+hand) (s.setChannel l { s.channel l with queue := queue }) := by
  refine ⟨?_,fun k => ?_,h.plain,h.running⟩
  · have hops : ↑taken+hand+(s.setChannel l { s.channel l with queue := queue }).ops=
        hand+s.ops := by
      rw [ops_setChannel,ops_eq s l,Channel.line,Channel.line,← Multiset.coe_add,
        ← Multiset.coe_add,Multiset.coe_eq_coe.mpr hperm,← Multiset.coe_add]
      simp only [add_comm,add_left_comm,add_assoc]
    rw [hops]
    exact h.books
  · by_cases hk : k=l
    · subst hk
      rw [setChannel_same]
      have hstill : Lined s.made.length (s.log++[]) k { s.channel k with queue := queue } :=
        (h.lined k).still rfl hsub fun e he => absurd he List.not_mem_nil
      rwa [List.append_nil] at hstill
    · rw [setChannel_other s _ hk]
      exact h.lined k

theorem Kept.takeWrite (h : Kept busy hand s) {taken queue : List SendOp}
    (hperm : s.writeQueue.Perm (taken++queue)) :
    Kept busy (↑taken+hand) { s with writeQueue := queue } := by
  refine ⟨?_,h.lined,fun op hop => h.plain op (hperm.mem_iff.mpr (List.mem_append_right _ hop)),
    h.running⟩
  have hops : ↑taken+hand+({ s with writeQueue := queue } : Att).ops=hand+s.ops := by
    rw [Att.ops,Att.ops,Multiset.coe_eq_coe.mpr hperm,← Multiset.coe_add]
    simp only [add_comm,add_left_comm,add_assoc]
  rw [hops]
  exact h.books

theorem Kept.split {queue : List SendOp} (h : Kept busy hand s)
    (hline : (s.channel l).line=op::queue) :
    Books busy s.made s.log (op::ₘ(hand+(↑queue+s.rest l))) := by
  have hb := h.books
  rwa [ops_eq s l,hline,← Multiset.cons_coe,Multiset.cons_add,Multiset.add_cons] at hb

/-- Something happens to the first operation of a channel. -/
theorem Kept.laneChanged {hand' : Multiset SendOp} {queue : List SendOp} (c : Channel)
    (entries : List Entry) (h : Kept busy hand s) (hline : (s.channel l).line=op::queue)
    (hentries : ∀ e∈entries,e.serial=op.serial ∧ ∀ type serial,e=.sent type serial → type=l.type)
    (hlined : Lined s.made.length (s.log++entries) l c)
    (hbooks : Books busy' s.made (s.log++entries) (hand'+(↑c.line+s.rest l)))
    (hrunning : ∀ i,busy'=some i → i < s.made.length) (hmade : s'.made=s.made)
    (hlog : s'.log=s.log++entries) (hchannel : s'.channel=(s.setChannel l c).channel)
    (hqueue : s'.writeQueue=s.writeQueue) : Kept busy' hand' s' := by
  have hchanged : Kept busy' hand' { s.setChannel l c with log := s.log++entries } := by
    refine ⟨?_,fun k => ?_,h.plain,hrunning⟩
    · have hops : ({ s.setChannel l c with log := s.log++entries } : Att).ops=
          ↑c.line+s.rest l := ops_setChannel s l c
      rwa [hops]
    · by_cases hk : k=l
      · subst hk
        have hc : ({ s.setChannel k c with log := s.log++entries } : Att).channel k=c :=
          setChannel_same s k c
        rw [hc]
        exact hlined
      · have hc : ({ s.setChannel l c with log := s.log++entries } : Att).channel k=s.channel k :=
          setChannel_other s c hk
        rw [hc]
        refine (h.lined k).still rfl (List.Sublist.refl _) fun e he last => Lane.next_other ?_ ?_
        · rw [(hentries e he).1]
          refine (h.split hline).pending_ne fun o ho => ?_
          simp only [Multiset.mem_add]
          exact Or.inr (Or.inr (pending_mem_rest s hk o ho))
        · intro type serial heq htype
          rw [(hentries e he).2 type serial heq] at htype
          cases l <;> cases k <;> first | exact hk rfl | cases htype
  exact hchanged.same hmade hlog hchannel hqueue

theorem line_pending (hpending : (s.channel l).pending=some op) :
    (s.channel l).line=op::(s.channel l).queue := by
  rw [Channel.line,hpending]
  rfl

theorem Kept.cancelPending (h : Kept busy hand s) (hpending : (s.channel l).pending=some op) :
    Kept busy hand (cancelPending s l op) := by
  have hline := line_pending hpending
  have hentries : ∀ e∈(cancelAttSendOp op).2,e=.cancelled op.serial ∨ e=.destroyed op.serial := by
    intro e he
    rw [cancelAttSendOp] at he
    split_ifs at he
    · simpa using he
    · exact Or.inl (List.mem_singleton.mp he)
  refine h.laneChanged { s.channel l with pending := some (cancelAttSendOp op).1 }
    (cancelAttSendOp op).2 hline (fun e he => ?_)
    ((h.lined l).still (by rw [hpending]; rfl) (List.Sublist.refl _) fun e he last => ?_) ?_
    h.running rfl rfl rfl rfl
  · rcases hentries e he with rfl|rfl <;> exact ⟨rfl,fun _ _ h => by cases h⟩
  · rcases hentries e he with rfl|rfl <;> rfl
  · have hb := (h.split hline).cancel
    rwa [← Multiset.add_cons,← Multiset.cons_add,Multiset.cons_coe] at hb

/-- The end of a pending operation. -/
theorem Kept.freePending (h : Kept busy hand s)
    (hbusy : busy=none ∨ ∃ o∈(s.channel l).pending,busy=some o.serial)
    (hcallback : ∀ o∈(s.channel l).pending,o.callback=true → busy=some o.serial) :
    Kept none hand (freePending s l) := by
  rw [Att.freePending]
  cases hpending : (s.channel l).pending with
  | none =>
    rcases hbusy with hb|⟨o,ho,_⟩
    · rwa [← hb]
    · rw [hpending] at ho
      cases ho
  | some op =>
    have hline := line_pending hpending
    have hlined := h.lined l
    rw [show s.channel l=⟨(s.channel l).queue,some op⟩ by rw [← hpending]] at hlined
    have hbusy' : busy=none ∨ busy=some op.serial := by
      rcases hbusy with hb|⟨o,ho,hb⟩
      · exact Or.inl hb
      · rw [hpending] at ho
        cases ho
        exact Or.inr hb
    refine h.laneChanged ⟨(s.channel l).queue,none⟩ (destroyEntries op) hline
      (fun e he => ?_) (hlined.clear [] (List.nil_sublist _) clear_destroyEntries)
      ((h.split hline).dropTold hbusy' (hcallback op hpending)) (fun _ h => by cases h) rfl rfl rfl rfl
    rcases mem_destroyEntries he with rfl|rfl <;> exact ⟨rfl,fun _ _ h => by cases h⟩

/-- The first operation of a queue is sent and waits. -/
theorem Kept.send {queue : List SendOp} (h : Kept none hand s)
    (hchannel : s.channel l=⟨op::queue,none⟩) (timeoutId : Option Nat) (hmade : s'.made=s.made)
    (hlog : s'.log=s.log++[.sent op.type op.serial])
    (hset : s'.channel=(s.setChannel l ⟨queue,some { op with timeoutId := timeoutId }⟩).channel)
    (hqueue : s'.writeQueue=s.writeQueue) : Kept none hand s' := by
  have hline : (s.channel l).line=op::queue := by
    rw [hchannel]
    rfl
  have hlined := h.lined l
  rw [hchannel] at hlined
  have htype : op.type=l.type := (hlined.typed op.tag (List.mem_cons_self ..)).1
  refine h.laneChanged ⟨queue,some { op with timeoutId := timeoutId }⟩
    [.sent op.type op.serial] hline (fun e he => ?_) (hlined.send rfl) ?_ (fun _ h => by cases h) hmade hlog
    hset hqueue
  · rw [List.mem_singleton.mp he]
    exact ⟨rfl,fun type serial heq => by cases heq; exact htype⟩
  · have hb := (h.split hline).move timeoutId (Or.inl ⟨op.type,rfl⟩)
    rwa [← Multiset.add_cons,← Multiset.cons_add,Multiset.cons_coe] at hb

/-- A pending operation goes back to its queue. -/
theorem Kept.requeue (h : Kept none hand s) (hpending : (s.channel l).pending=some op)
    (hmade : s'.made=s.made) (hlog : s'.log=s.log++[.requeued op.serial])
    (hset : s'.channel=
      (s.setChannel l ⟨{ op with timeoutId := none }::(s.channel l).queue,none⟩).channel)
    (hqueue : s'.writeQueue=s.writeQueue) : Kept none hand s' := by
  have hline := line_pending hpending
  have hlined := h.lined l
  rw [show s.channel l=⟨(s.channel l).queue,some op⟩ by rw [← hpending]] at hlined
  refine h.laneChanged ⟨{ op with timeoutId := none }::(s.channel l).queue,none⟩
    [.requeued op.serial] hline (fun e he => ?_)
    (hlined.clear [{ op with timeoutId := none }] (List.Sublist.refl _) fun last => ?_) ?_
    (fun _ h => by cases h) hmade hlog hset hqueue
  · rw [List.mem_singleton.mp he]
    exact ⟨rfl,fun _ _ h => by cases h⟩
  · simp [Histories.after,Lane.next,Waiting.without]
  · have hb := (h.split hline).move none (Or.inr rfl)
    rwa [← Multiset.add_cons,← Multiset.cons_add,Multiset.cons_coe] at hb

/-- The time of a pending operation is over, and it is taken in hand. -/
theorem Kept.expire (h : Kept none hand s) (hpending : (s.channel l).pending=some op) :
    Kept (some op.serial) (op::ₘhand)
      ((s.setChannel l { s.channel l with pending := none }).note [.expired op.serial]) := by
  have hline := line_pending hpending
  have hlined := h.lined l
  rw [show s.channel l=⟨(s.channel l).queue,some op⟩ by rw [← hpending]] at hlined
  refine h.laneChanged ⟨(s.channel l).queue,none⟩ [.expired op.serial] hline
    (fun e he => ?_) (hlined.clear [] (List.nil_sublist _) fun last => ?_) ?_
    (fun i hi => ?_) rfl rfl rfl rfl
  · rw [List.mem_singleton.mp he]
    exact ⟨rfl,fun _ _ h => by cases h⟩
  · simp [Histories.after,Lane.next,Waiting.without]
  · rw [Multiset.cons_add]
    exact (h.split hline).expire
  · rw [← Option.some.inj hi]
    exact (h.split hline).serial_lt

/-- A callback is called. -/
theorem Kept.call (h : Kept none hand s) (hop : op∈hand+s.ops) (code : UInt8)
    (hans : Answers op code) :
    Kept (some op.serial) hand (s.note (if op.callback then [.called op.serial code] else [])) := by
  obtain ⟨ops,hops⟩ := Multiset.exists_cons_of_mem hop
  have hb := h.books
  rw [hops] at hb
  refine ⟨?_,fun k => (h.lined k).still rfl (List.Sublist.refl _) fun e he last => ?_,h.plain,
    fun i hi => ?_⟩
  · have := hb.call code hans
    rwa [← hops] at this
  · split_ifs at he
    · rw [List.mem_singleton.mp he]
      rfl
    · cases he
  · rw [← Option.some.inj hi]
    exact hb.serial_lt

theorem laneOf_eq_some {type : OpType} (h : laneOf type=some l) : type=l.type := by
  cases type <;> cases h <;> rfl

theorem Kept.enqueueLane (h : Kept busy hand s) (hserial : op.serial=s.made.length)
    (hlane : laneOf op.type=some l) :
    Kept busy hand ({ s with made := s.made++[op] }.setChannel l
      { s.channel l with queue := (s.channel l).queue++[op] }) := by
  have hline : (({ s.channel l with queue := (s.channel l).queue++[op] } : Channel).line :
      Multiset SendOp)=op::ₘ↑(s.channel l).line := by
    rw [Channel.line,Channel.line,← List.append_assoc,← Multiset.coe_add,Multiset.coe_singleton,
      add_comm,Multiset.singleton_add]
  have hops : ({ s with made := s.made++[op] }.setChannel l
      { s.channel l with queue := (s.channel l).queue++[op] }).ops=op::ₘs.ops := by
    rw [ops_setChannel,hline,Multiset.cons_add,ops_eq s l]
    rfl
  refine ⟨?_,fun k => ?_,h.plain,fun i hi => ?_⟩
  · rw [hops,Multiset.add_cons]
    exact h.books.add hserial (fun _ h => by rw [hlane] at h; cases h) h.running
  · change Lined (s.made++[op]).length s.log k _
    rw [List.length_append,List.length_singleton]
    by_cases hk : k=l
    · subst hk
      rw [setChannel_same]
      exact (h.lined k).push (laneOf_eq_some hlane) hserial
    · rw [setChannel_other _ _ hk]
      exact (h.lined k).grow
  · have := h.running i hi
    change i < (s.made++[op]).length
    rw [List.length_append]
    omega

theorem Kept.enqueueWrite (h : Kept busy hand s) (hserial : op.serial=s.made.length)
    (hcallback : op.callback=true → laneOf op.type≠none) (hplain : laneOf op.type=none) :
    Kept busy hand { s with made := s.made++[op], writeQueue := s.writeQueue++[op] } := by
  have hops : ({ s with made := s.made++[op], writeQueue := s.writeQueue++[op] } : Att).ops=
      op::ₘs.ops := by
    rw [Att.ops,Att.ops,← Multiset.coe_add,Multiset.coe_singleton,← Multiset.singleton_add]
    simp only [add_comm,add_left_comm,add_assoc]
  refine ⟨?_,fun k => ?_,fun o ho => ?_,fun i hi => ?_⟩
  · rw [hops,Multiset.add_cons]
    exact h.books.add hserial hcallback h.running
  · change Lined (s.made++[op]).length s.log k _
    rw [List.length_append,List.length_singleton]
    exact (h.lined k).grow
  · rcases List.mem_append.mp ho with ho|ho
    · exact h.plain o ho
    · rw [List.mem_singleton.mp ho]
      exact hplain
  · have := h.running i hi
    change i < (s.made++[op]).length
    rw [List.length_append]
    omega

theorem Kept.enqueue (op : SendOp) (h : Kept busy hand s) (hserial : op.serial=s.made.length)
    (hcallback : op.callback=true → laneOf op.type≠none) :
    Kept busy hand (enqueueSendOp op { s with made := s.made++[op] }) := by
  rw [enqueueSendOp]
  cases hlane : laneOf op.type with
  | some l => exact h.enqueueLane hserial hlane
  | none => exact h.enqueueWrite hserial hcallback hlane

theorem createAttSendOp_spec {opcode : UInt8} {pdu : Option (List UInt8)} {length : Nat}
    {callback destroy : Bool}
    (h : createAttSendOp s opcode pdu length callback destroy=some op) :
    op.serial=s.made.length ∧ (op.callback=true → laneOf op.type≠none) := by
  rw [createAttSendOp] at h
  split_ifs at h with _ _ hnone _
  obtain ⟨bytes,_,rfl⟩ := Option.map_eq_some_iff.mp h
  refine ⟨rfl,fun hc hlane => hnone ⟨hc,?_⟩⟩
  constructor <;> intro htype <;> rw [htype] at hlane <;> cases hlane

theorem Kept.sent (h : Kept busy hand s) (opcode : UInt8) (pdu : Option (List UInt8))
    (length : Nat) (callback destroy : Bool) :
    Kept busy hand (btAttSend s opcode pdu length callback destroy).1 := by
  rw [btAttSend]
  split
  · exact h
  cases hop : createAttSendOp s opcode pdu length callback destroy with
  | none => exact h
  | some op =>
    obtain ⟨hserial,hcallback⟩ := createAttSendOp_spec hop
    dsimp only
    generalize (if s.nextSendId < 1 then 1 else s.nextSendId)=id
    have hid : Kept busy hand { s with nextSendId := id+1 } := h.same rfl rfl rfl rfl
    exact (hid.enqueue { op with id := id } hserial hcallback).wakeup

theorem removeId_spec {id : BitVec 32} {queue rest : List SendOp}
    (h : removeId id queue=some (op,rest)) : queue.Perm ([op]++rest) ∧ rest.Sublist queue := by
  obtain ⟨o,hfind,heq⟩ := Option.map_eq_some_iff.mp h
  obtain ⟨rfl,rfl⟩ := Prod.mk.inj heq
  refine ⟨?_,List.eraseP_sublist⟩
  obtain ⟨hid,front,back,rfl,hfront⟩ := List.find?_eq_some_iff_append.mp hfind
  rw [List.eraseP_append_right _ (fun b hb => by simpa using hfront b hb),
    List.eraseP_cons_of_pos (p := fun op : SendOp => op.id==id) hid]
  exact List.perm_middle

theorem pendingWith_eq {id : BitVec 32} (h : pendingWith s l id=some op) :
    (s.channel l).pending=some op :=
  (Option.filter_eq_some_iff.mp h).1

theorem Kept.cancelled (h : Kept busy hand s) (id : BitVec 32) :
    Kept busy hand (btAttCancel s id).1 := by
  rw [btAttCancel]
  split_ifs
  · exact h
  split
  · next op hop => exact h.cancelPending (pendingWith_eq hop)
  split
  · next op hop => exact h.cancelPending (pendingWith_eq hop)
  split
  · next op queue hop =>
    obtain ⟨hperm,hsub⟩ := removeId_spec hop
    exact (h.takeLane hperm hsub).cancelQueued.wakeup
  split
  · next op queue hop =>
    obtain ⟨hperm,hsub⟩ := removeId_spec hop
    exact (h.takeLane hperm hsub).cancelQueued.wakeup
  split
  · next op queue hop => exact (h.takeWrite (removeId_spec hop).1).cancelQueued.wakeup
  · exact h

theorem Kept.cancelAll {ops : List SendOp} (h : Kept busy (↑ops+hand) s) :
    Kept busy hand (cancelAll ops s) := by
  induction ops generalizing s with
  | nil =>
    rw [Multiset.coe_nil,zero_add] at h
    exact h
  | cons op ops ih =>
    rw [← Multiset.cons_coe,Multiset.cons_add] at h
    exact ih h.cancelQueued

theorem Kept.emptyLane (h : Kept busy hand s) (l : Lane) : Kept busy hand (emptyLane s l) :=
  (h.takeLane (by rw [List.append_nil]) (List.nil_sublist _)).cancelAll

theorem Kept.cancelLane (h : Kept busy hand s) (l : Lane) : Kept busy hand (cancelLane s l) := by
  rw [Att.cancelLane]
  split
  · next op hop => exact h.cancelPending hop
  · exact h

theorem Kept.allCancelled (h : Kept busy hand s) : Kept busy hand (btAttCancelAll s) :=
  ((((h.emptyLane .req).emptyLane .ind).takeWrite (by rw [List.append_nil])).cancelAll.cancelLane
    .req).cancelLane .ind

theorem Kept.callApi (h : Kept busy hand s) (call : Api) : Kept busy hand (callApi s call) := by
  cases call with
  | send opcode pdu length callback destroy => exact h.sent opcode pdu length callback destroy
  | cancel id => exact h.cancelled id
  | cancelAll => exact h.allCancelled

theorem Kept.callApis (h : Kept busy hand s) (calls : List Api) :
    Kept busy hand (callApis s calls) := by
  induction calls generalizing s with
  | nil => exact h
  | cons call calls ih => exact ih (h.callApi call)

theorem Kept.runCallback (h : Kept none hand s) (hop : op∈hand+s.ops) (code : UInt8)
    (hans : Answers op code) (nested : List Api) :
    Kept (some op.serial) hand (runCallback op code nested s) := by
  have hcall := h.call hop code hans
  rw [Att.runCallback]
  split_ifs with hcallback
  · rw [if_pos hcallback] at hcall
    exact hcall.callApis nested
  · rw [if_neg hcallback] at hcall
    exact hcall.same rfl (List.append_nil _).symm rfl rfl

/-- The callback of an operation in hand, and its end. -/
theorem Kept.disc (h : Kept none (op::ₘhand) s) (nested : List Api) :
    Kept none hand (destroyAttSendOp op (Att.runCallback op errorRsp nested s)) :=
  (h.runCallback (Multiset.mem_add.mpr (Or.inl (Multiset.mem_cons_self _ _))) errorRsp (Or.inl rfl)
    nested).destroyTold (Or.inr rfl) fun _ => rfl

theorem Kept.discAll {nested : Nat → List Api} {ops : List SendOp} (h : Kept none (↑ops+hand) s) :
    Kept none hand (discAll nested ops s) := by
  induction ops generalizing s with
  | nil =>
    rw [Multiset.coe_nil,zero_add] at h
    exact h
  | cons op ops ih =>
    rw [← Multiset.cons_coe,Multiset.cons_add] at h
    exact ih (h.disc (nested op.serial))

theorem Kept.discQueue (h : Kept none hand s) (nested : Nat → List Api) (l : Lane) :
    Kept none hand (discQueue nested s l) :=
  (h.takeLane (by rw [List.append_nil]) (List.nil_sublist _)).discAll

end

end IdearNiu.Att
