import IdearNiu.Bt.AttSteps

namespace IdearNiu.Att

/-- What the calls of a callback leave as it is. -/
structure Framed (s s' : Att) : Prop where
  io : s'.io=s.io
  shut : s'.shut=s.shut
  active : s.writerActive=true → s'.writerActive=true
  pending : ∀ l,(s'.channel l).pending.map SendOp.tag=(s.channel l).pending.map SendOp.tag
  queue : s.io=false → ∀ l,(s.channel l).queue=[] → (s'.channel l).queue=[]
  write : s.io=false → s.writeQueue=[] → s'.writeQueue=[]

section

variable {s s' s'' : Att} {l : Lane} {op : SendOp}

theorem Framed.refl (s : Att) : Framed s s :=
  ⟨rfl,rfl,id,fun _ => rfl,fun _ _ h => h,fun _ h => h⟩

theorem Framed.trans (h : Framed s s') (h' : Framed s' s'') : Framed s s'' where
  io := h'.io.trans h.io
  shut := h'.shut.trans h.shut
  active ha := h'.active (h.active ha)
  pending l := (h'.pending l).trans (h.pending l)
  queue hio l hq := h'.queue (h.io.trans hio) l (h.queue hio l hq)
  write hio hq := h'.write (h.io.trans hio) (h.write hio hq)

theorem framed_same (hio : s'.io=s.io) (hshut : s'.shut=s.shut)
    (hactive : s'.writerActive=s.writerActive) (hchannel : s'.channel=s.channel)
    (hqueue : s'.writeQueue=s.writeQueue) : Framed s s' :=
  ⟨hio,hshut,fun h => hactive.trans h,fun l => by rw [hchannel],fun _ l h => by rwa [hchannel],
    fun _ h => by rwa [hqueue]⟩

theorem framed_wakeup (s : Att) : Framed s (wakeupWriter s) := by
  rw [wakeupWriter]
  split_ifs
  · exact Framed.refl s
  · exact Framed.refl s
  · exact ⟨rfl,rfl,fun _ => rfl,fun _ => rfl,fun _ _ h => h,fun _ h => h⟩
  · exact Framed.refl s

theorem framed_setChannel {c : Channel}
    (hpending : c.pending.map SendOp.tag=(s.channel l).pending.map SendOp.tag)
    (hqueue : s.io=false → (s.channel l).queue=[] → c.queue=[]) :
    Framed s (s.setChannel l c) := by
  refine ⟨rfl,rfl,id,fun k => ?_,fun hio k hk => ?_,fun _ h => h⟩
  · by_cases hkl : k=l
    · subst hkl
      rw [setChannel_same,hpending]
    · rw [setChannel_other s c hkl]
  · by_cases hkl : k=l
    · subst hkl
      rw [setChannel_same]
      exact hqueue hio hk
    · rwa [setChannel_other s c hkl]

theorem framed_destroy (op : SendOp) (s : Att) : Framed s (destroyAttSendOp op s) :=
  framed_same rfl rfl rfl rfl rfl

theorem framed_cancelQueued (op : SendOp) (s : Att) : Framed s (cancelQueued op s) :=
  framed_same rfl rfl rfl rfl rfl

theorem framed_cancelAll (ops : List SendOp) (s : Att) : Framed s (cancelAll ops s) := by
  induction ops generalizing s with
  | nil => exact Framed.refl s
  | cons op ops ih => exact (framed_cancelQueued op s).trans (ih _)

theorem framed_cancelPending (hpending : (s.channel l).pending=some op) :
    Framed s (cancelPending s l op) := by
  have hset : Framed s
      (s.setChannel l { s.channel l with pending := some (cancelAttSendOp op).1 }) :=
    framed_setChannel (by rw [hpending]; rfl) fun _ h => h
  exact hset.trans (framed_same rfl rfl rfl rfl rfl)

theorem framed_takeLane {queue : List SendOp} (hsub : queue.Sublist (s.channel l).queue) :
    Framed s (s.setChannel l { s.channel l with queue := queue }) :=
  framed_setChannel rfl fun _ h => List.sublist_nil.mp (h ▸ hsub)

theorem framed_takeWrite {queue : List SendOp} (hsub : queue.Sublist s.writeQueue) :
    Framed s { s with writeQueue := queue } :=
  ⟨rfl,rfl,id,fun _ => rfl,fun _ _ h => h,fun _ h => List.sublist_nil.mp (h ▸ hsub)⟩

theorem framed_emptyLane (s : Att) (l : Lane) : Framed s (emptyLane s l) :=
  (framed_takeLane (List.nil_sublist _)).trans (framed_cancelAll _ _)

theorem framed_cancelLane (s : Att) (l : Lane) : Framed s (cancelLane s l) := by
  rw [cancelLane]
  split
  · next op hop => exact framed_cancelPending hop
  · exact Framed.refl s

theorem framed_btAttCancelAll (s : Att) : Framed s (btAttCancelAll s) :=
  ((((((framed_emptyLane s .req).trans (framed_emptyLane _ .ind)).trans
    (framed_takeWrite (List.nil_sublist _))).trans (framed_cancelAll _ _)).trans
    (framed_cancelLane _ .req)).trans (framed_cancelLane _ .ind))

theorem framed_enqueue (op : SendOp) (hio : s.io=true) : Framed s (enqueueSendOp op s) := by
  have hopen : s.io≠false := by simp [hio]
  rw [enqueueSendOp]
  split
  · exact framed_setChannel rfl fun h => absurd h hopen
  · exact ⟨rfl,rfl,id,fun _ => rfl,fun h => absurd h hopen,fun h => absurd h hopen⟩

theorem framed_btAttSend (s : Att) (opcode : UInt8) (pdu : Option (List UInt8)) (length : Nat)
    (callback destroy : Bool) : Framed s (btAttSend s opcode pdu length callback destroy).1 := by
  rw [btAttSend]
  split
  · exact Framed.refl s
  · next hio =>
    cases createAttSendOp s opcode pdu length callback destroy with
    | none => exact Framed.refl s
    | some op =>
      dsimp only
      generalize (if s.nextSendId < 1 then 1 else s.nextSendId)=id
      have hmade : Framed s
          { s with nextSendId := id+1, made := s.made++[{ op with id := id }] } :=
        framed_same rfl rfl rfl rfl rfl
      have hopen : s.io=true := by simpa using hio
      exact (hmade.trans (framed_enqueue _ hopen)).trans (framed_wakeup _)

theorem framed_btAttCancel (s : Att) (id : BitVec 32) : Framed s (btAttCancel s id).1 := by
  rw [btAttCancel]
  split_ifs
  · exact Framed.refl s
  split
  · next op hop => exact framed_cancelPending (pendingWith_eq hop)
  split
  · next op hop => exact framed_cancelPending (pendingWith_eq hop)
  split
  · next op queue hop =>
    exact ((framed_takeLane (removeId_spec hop).2).trans (framed_cancelQueued op _)).trans
      (framed_wakeup _)
  split
  · next op queue hop =>
    exact ((framed_takeLane (removeId_spec hop).2).trans (framed_cancelQueued op _)).trans
      (framed_wakeup _)
  split
  · next op queue hop =>
    exact ((framed_takeWrite (removeId_spec hop).2).trans (framed_cancelQueued op _)).trans
      (framed_wakeup _)
  · exact Framed.refl s

theorem framed_callApi (s : Att) (call : Api) : Framed s (callApi s call) := by
  cases call with
  | send opcode pdu length callback destroy =>
    exact framed_btAttSend s opcode pdu length callback destroy
  | cancel id => exact framed_btAttCancel s id
  | cancelAll => exact framed_btAttCancelAll s

theorem framed_callApis (s : Att) (calls : List Api) : Framed s (callApis s calls) := by
  induction calls generalizing s with
  | nil => exact Framed.refl s
  | cons call calls ih => exact (framed_callApi s call).trans (ih _)

theorem framed_runCallback (op : SendOp) (code : UInt8) (nested : List Api) (s : Att) :
    Framed s (runCallback op code nested s) := by
  rw [runCallback]
  split_ifs
  · have hnote : Framed s (s.note [.called op.serial code]) := framed_same rfl rfl rfl rfl rfl
    exact hnote.trans (framed_callApis _ nested)
  · exact Framed.refl s

theorem framed_discAll (nested : Nat → List Api) (ops : List SendOp) (s : Att) :
    Framed s (discAll nested ops s) := by
  induction ops generalizing s with
  | nil => exact Framed.refl s
  | cons op ops ih =>
    exact ((framed_runCallback op errorRsp _ s).trans (framed_destroy op _)).trans (ih _)

end

end IdearNiu.Att
