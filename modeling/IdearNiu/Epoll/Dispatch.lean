import IdearNiu.Epoll.Loop

namespace IdearNiu.Epoll

/-- The kernel's interest list and mainloop_list hold the same registrations, each at its
own descriptor and at an address of its own. -/
structure Inv (s : State) : Prop where
  agree : ∀ i,s.interest i=(s.mainloopList i).map MainloopData.ptr
  own : ∀ i d,s.mainloopList i=some d → d.fd=i ∧ i < maxMainloopEntries
  distinct : ∀ i j d e,s.mainloopList i=some d → s.mainloopList j=some e →
    d.ptr=e.ptr → i=j

/-- All events still to come in a batch belong to registered data. -/
def Pending (s : State) (pending : List Nat) : Prop := ∀ p∈pending,registered s p=true

theorem epollInit_inv : Inv epollInit :=
  ⟨fun _ => rfl,fun _ _ h => (nomatch h),fun _ _ _ _ h => (nomatch h)⟩

theorem slot_some (fd : Int) (i : Nat) (h : slot fd=some i) : i < maxMainloopEntries := by
  rw [slot,maxMainloopEntries] at *
  split_ifs at h with hfd
  injection h with h
  omega

section

variable {s : State} {pending : List Nat}

theorem Inv.registered_iff (h : Inv s) (ptr : Nat) :
    registered s ptr=true ↔ ∃ i d,s.mainloopList i=some d ∧ d.ptr=ptr := by
  rw [registered]
  rw [List.any_eq_true]
  constructor
  · intro hgiven
    obtain ⟨i,_,hi⟩ := hgiven
    cases hd : s.mainloopList i with
    | none =>
      rw [hd] at hi
      cases hi
    | some d =>
      rw [hd] at hi
      exact ⟨i,d,hd,by simpa using hi⟩
  · intro hgiven
    obtain ⟨i,d,hd,hp⟩ := hgiven
    refine ⟨i,List.mem_range.mpr (h.own i d hd).2,?_⟩
    rw [hd]
    simpa using hp

/-- Storing data at a slot whose old data, if any, has the same address. -/
theorem Inv.store (h : Inv s) (i : Nat) (d : MainloopData) (hi : i < maxMainloopEntries)
    (hfd : d.fd=i)
    (hsame : ∀ e,s.mainloopList i=some e → e.ptr=d.ptr)
    (hnew : ∀ j e,s.mainloopList j=some e → e.ptr=d.ptr → j=i) :
    Inv ⟨Function.update s.mainloopList i (some d),Function.update s.interest i (some d.ptr)⟩ ∧
    ∀ p,registered s p=true → registered
      ⟨Function.update s.mainloopList i (some d),Function.update s.interest i (some d.ptr)⟩ p
        =true := by
  have hinv : Inv ⟨Function.update s.mainloopList i (some d),
      Function.update s.interest i (some d.ptr)⟩ := by
    refine ⟨?_,?_,?_⟩
    · intro j
      by_cases hj : j=i
      · subst hj
        simp
      · simp only [Function.update_of_ne hj]
        exact h.agree j
    · intro j e he
      by_cases hj : j=i
      · subst hj
        simp only [Function.update_self,Option.some.injEq] at he
        subst he
        exact ⟨hfd,hi⟩
      · simp only [Function.update_of_ne hj] at he
        exact h.own j e he
    · intro j k e f he hf hp
      by_cases hj : j=i <;> by_cases hk : k=i
      · rw [hj,hk]
      · subst hj
        simp only [Function.update_self,Option.some.injEq,Function.update_of_ne hk] at he hf
        subst he
        exact (hnew k f hf hp.symm).symm
      · subst hk
        simp only [Function.update_self,Option.some.injEq,Function.update_of_ne hj] at he hf
        subst hf
        exact hnew j e he hp
      · simp only [Function.update_of_ne hj,Function.update_of_ne hk] at he hf
        exact h.distinct j k e f he hf hp
  refine ⟨hinv,?_⟩
  intro p hp
  obtain ⟨j,e,he,hep⟩ := (h.registered_iff p).mp hp
  apply (hinv.registered_iff p).mpr
  by_cases hj : j=i
  · subst hj
    exact ⟨j,d,by simp,(hsame e he).symm.trans hep⟩
  · exact ⟨j,e,by simpa only [Function.update_of_ne hj] using he,hep⟩

theorem Inv.addFd (h : Inv s) (fd : Int) (events : Events) (malloc : Option Nat) (ctl : Bool)
    (hnew : ∀ ptr,malloc=some ptr → registered s ptr=false) :
    Inv (epollAddFd s fd events malloc ctl).2 ∧
    ∀ p,registered s p=true → registered (epollAddFd s fd events malloc ctl).2 p=true := by
  simp only [epollAddFd]
  cases hslot : slot fd with
  | none => exact ⟨h,fun _ hp => hp⟩
  | some i =>
    cases malloc with
    | none => exact ⟨h,fun _ hp => hp⟩
    | some ptr =>
      simp only
      split_ifs with hc
      · exact ⟨h,fun _ hp => hp⟩
      · have hempty : s.mainloopList i=none := by
          have hi : ¬(s.interest i).isSome=true := fun hs => hc (Or.inr hs)
          rw [h.agree i,Option.isSome_map] at hi
          simpa using hi
        refine h.store i ⟨ptr,i,events⟩ (slot_some fd i hslot) rfl ?_ ?_
        · intro e he
          rw [hempty] at he
          cases he
        · intro j e he hp
          have hfresh := hnew ptr rfl
          rw [(h.registered_iff ptr).mpr ⟨j,e,he,hp⟩] at hfresh
          cases hfresh

theorem Inv.modifyFd (h : Inv s) (fd : Int) (events : Events) (ctl : Bool) :
    Inv (epollModifyFd s fd events ctl).2 ∧
    ∀ p,registered s p=true → registered (epollModifyFd s fd events ctl).2 p=true := by
  rw [epollModifyFd]
  cases hslot : slot fd with
  | none => exact ⟨h,fun _ hp => hp⟩
  | some i =>
    simp only
    cases hd : s.mainloopList i with
    | none => exact ⟨h,fun _ hp => hp⟩
    | some d =>
      simp only
      split_ifs
      · exact ⟨h,fun _ hp => hp⟩
      · have hfd := (h.own i d hd).1
        simp only [hfd]
        apply h.store i { d with fd := i, events := events } (slot_some fd i hslot) rfl
        · intro e he
          rw [hd] at he
          injection he with he
          rw [he]
        · intro j e he hp
          exact h.distinct j i e d he hd hp

theorem Inv.removeFd (h : Inv s) (fd : Int) (hp : Pending s pending)
    (hc : removesPending s pending fd=false) :
    Inv (epollRemoveFd s fd).2 ∧ Pending (epollRemoveFd s fd).2 pending := by
  unfold removesPending at hc
  rw [epollRemoveFd]
  cases hslot : slot fd with
  | none => exact ⟨h,hp⟩
  | some i =>
    rw [hslot] at hc
    simp only at hc ⊢
    cases hd : s.mainloopList i with
    | none => exact ⟨h,hp⟩
    | some d =>
      rw [hd] at hc
      simp only [decide_eq_false_iff_not] at hc
      simp only [(h.own i d hd).1]
      have hinv : Inv ⟨Function.update s.mainloopList i none,
          Function.update s.interest i none⟩ := by
        refine ⟨?_,?_,?_⟩
        · intro j
          by_cases hj : j=i
          · subst hj
            simp
          · simp only [Function.update_of_ne hj]
            exact h.agree j
        · intro j e he
          by_cases hj : j=i
          · subst hj
            simp at he
          · simp only [Function.update_of_ne hj] at he
            exact h.own j e he
        · intro j k e f he hf
          by_cases hj : j=i
          · subst hj
            simp at he
          · by_cases hk : k=i
            · subst hk
              simp at hf
            · simp only [Function.update_of_ne hj,Function.update_of_ne hk] at he hf
              exact h.distinct j k e f he hf
      refine ⟨hinv,?_⟩
      intro p hmem
      obtain ⟨j,e,he,hep⟩ := (h.registered_iff p).mp (hp p hmem)
      have hj : j≠i := by
        intro heq
        subst heq
        rw [hd] at he
        injection he with he
        rw [← he] at hep
        exact hc (hep ▸ hmem)
      exact (hinv.registered_iff p).mpr
        ⟨j,e,by simpa only [Function.update_of_ne hj] using he,hep⟩

theorem Inv.modifyTimeout (h : Inv s) (id : Int) (set ctl : Bool) :
    Inv (epollModifyTimeout s id set ctl).2 ∧
    ∀ p,registered s p=true → registered (epollModifyTimeout s id set ctl).2 p=true := by
  have hm := h.modifyFd id timerEvents ctl
  rw [epollModifyTimeout]
  simp only
  split_ifs
  · exact ⟨h,fun _ hp => hp⟩
  · exact ⟨h,fun _ hp => hp⟩
  · exact hm

/-- A call that removes no pending data keeps the registrations of the batch. -/
theorem Inv.op (h : Inv s) (op : Op) {s' : State} (hrun : applyOp s op=some s')
    (hp : Pending s pending) (hc : op.considerate s pending=true) :
    Inv s' ∧ Pending s' pending := by
  unfold applyOp at hrun
  split_ifs at hrun with hposs
  injection hrun with hrun
  subst hrun
  cases op with
  | addFd fd events malloc ctl =>
    have hk := h.addFd fd events malloc ctl (by
      intro ptr hm
      rw [hm] at hposs
      simpa [Op.possible] using hposs)
    exact ⟨hk.1,fun p hm => hk.2 p (hp p hm)⟩
  | modifyFd fd events ctl =>
    have hk := h.modifyFd fd events ctl
    exact ⟨hk.1,fun p hm => hk.2 p (hp p hm)⟩
  | removeFd fd => exact h.removeFd fd hp (by simpa [Op.considerate] using hc)
  | addTimeout fd set malloc ctl =>
    have hk := h.addFd fd timerEvents malloc ctl (by
      intro ptr hm
      rw [hm] at hposs
      simpa [Op.possible] using hposs)
    simp only [Op.effect,epollAddTimeout]
    split_ifs
    · exact ⟨h,hp⟩
    · exact ⟨h,hp⟩
    · exact ⟨hk.1,fun p hm => hk.2 p (hp p hm)⟩
  | modifyTimeout id set ctl =>
    have hk := h.modifyTimeout id set ctl
    exact ⟨hk.1,fun p hm => hk.2 p (hp p hm)⟩
  | removeTimeout id => exact h.removeFd id hp (by simpa [Op.considerate] using hc)
  | timeoutRemove id =>
    simp only [Op.effect,timeoutRemove]
    split_ifs with hz
    · exact ⟨h,hp⟩
    · simp only [Op.considerate,Bool.or_eq_true,decide_eq_true_eq] at hc
      exact h.removeFd id.toInt hp (by simpa using hc.resolve_left hz)

theorem Inv.ops (h : Inv s) (ops : List Op) {s' : State} (hrun : applyOps s ops=some s')
    (hp : Pending s pending) (hc : considerateOps s pending ops=true) :
    Inv s' ∧ Pending s' pending := by
  induction ops generalizing s with
  | nil =>
    injection hrun with hrun
    exact hrun ▸ ⟨h,hp⟩
  | cons op ops ih =>
    obtain ⟨s1,hop,hrest⟩ := Option.bind_eq_some_iff.mp hrun
    simp only [considerateOps,hop,Bool.and_eq_true] at hc
    obtain ⟨h1,hp1⟩ := h.op op hop hp hc.1
    exact ih h1 hrest hp1 hc.2

theorem Inv.callback (h : Inv s) (cb : Callback) {s' : State}
    (hrun : runCallback s cb=some s') (hp : Pending s pending)
    (hc : considerateCallback s pending cb=true) : Inv s' ∧ Pending s' pending := by
  cases cb with
  | event ops => exact h.ops ops hrun hp hc
  | timeout id ops again set ctl =>
    obtain ⟨s1,hops,hrest⟩ := Option.bind_eq_some_iff.mp hrun
    simp only [considerateCallback,hops,Bool.and_eq_true] at hc
    obtain ⟨h1,hp1⟩ := h.ops ops hops hp hc.1
    have hm := h1.modifyTimeout id set ctl
    cases again with
    | true =>
      simp only [if_true] at hrest hc
      by_cases hzero : (epollModifyTimeout s1 id set ctl).1=0
      · rw [if_pos hzero] at hrest
        injection hrest with hrest
        exact hrest ▸ ⟨hm.1,fun p hmem => hm.2 p (hp1 p hmem)⟩
      · rw [if_neg hzero] at hrest
        injection hrest with hrest
        have hunchanged : (epollModifyTimeout s1 id set ctl).2=s1 := by
          rw [epollModifyTimeout] at hzero ⊢
          simp only at hzero ⊢
          split_ifs at hzero ⊢
          · rfl
          · rfl
          · exact absurd rfl hzero
        rw [hunchanged] at hrest
        have hnot : removesPending s1 pending id=false := by simpa [hzero] using hc.2
        exact hrest ▸ h1.removeFd id hp1 hnot
    | false =>
      simp only at hrest hc
      injection hrest with hrest
      exact hrest ▸ h1.removeFd id hp1 (by simpa using hc.2)

/-- In a considerate batch every call is made on registered data. -/
theorem Inv.dispatch (h : Inv s) (batch : List Event) {s' : State} {calls : List Bool}
    (hrun : dispatch s batch=some (s',calls)) (hp : Pending s (batch.map Event.ptr))
    (hc : considerateBatch s batch=true) : Inv s' ∧ ∀ c∈calls,c=true := by
  induction batch generalizing s s' calls with
  | nil =>
    injection hrun with hrun
    injection hrun with hs hcalls
    subst hs hcalls
    exact ⟨h,by simp⟩
  | cons e batch ih =>
    obtain ⟨s1,hcb,hrest⟩ := Option.bind_eq_some_iff.mp hrun
    obtain ⟨⟨s2,calls2⟩,hd,hlast⟩ := Option.bind_eq_some_iff.mp hrest
    injection hlast with hlast
    injection hlast with hs hcalls
    subst hs hcalls
    simp only [considerateBatch,hcb,Bool.and_eq_true] at hc
    rw [List.map_cons] at hp
    obtain ⟨h1,hp1⟩ := h.callback e.callback hcb
      (fun p hm => hp p (List.mem_cons_of_mem _ hm)) hc.1
    obtain ⟨h2,hall⟩ := ih h1 hd hp1 hc.2
    refine ⟨h2,?_⟩
    intro c hmem
    rcases List.mem_cons.mp hmem with rfl|hmem
    · exact hp e.ptr List.mem_cons_self
    · exact hall c hmem

theorem Inv.waitReturns (h : Inv s) (batch : List Event) (hw : waitReturns s batch=true) :
    Pending s (batch.map Event.ptr) := by
  simp only [Epoll.waitReturns,Bool.and_eq_true,List.all_eq_true,List.any_eq_true,
    decide_eq_true_eq] at hw
  intro p hp
  obtain ⟨e,he,rfl⟩ := List.mem_map.mp hp
  obtain ⟨i,_,hi⟩ := hw.2 e he
  rw [h.agree i] at hi
  obtain ⟨d,hd,hptr⟩ := Option.map_eq_some_iff.mp hi
  exact (h.registered_iff e.ptr).mpr ⟨i,d,hd,hptr⟩

theorem Inv.run (h : Inv s) (batches : List (List Event)) {s' : State} {calls : List Bool}
    (hrun : epollRun s batches=some (s',calls)) (hc : considerateRun s batches=true) :
    ∀ c∈calls,c=true := by
  induction batches generalizing s s' calls with
  | nil =>
    injection hrun with hrun
    injection hrun with _ hcalls
    subst hcalls
    simp
  | cons batch batches ih =>
    unfold epollRun at hrun
    split_ifs at hrun with hw
    obtain ⟨⟨s1,calls1⟩,hd,hrest⟩ := Option.bind_eq_some_iff.mp hrun
    obtain ⟨⟨s2,calls2⟩,hr,hlast⟩ := Option.bind_eq_some_iff.mp hrest
    injection hlast with hlast
    injection hlast with _ hcalls
    subst hcalls
    simp only [considerateRun,hd,Bool.and_eq_true] at hc
    obtain ⟨h1,hall⟩ := h.dispatch batch hd (h.waitReturns batch hw) hc.1
    intro c hmem
    rcases List.mem_append.mp hmem with hmem|hmem
    · exact hall c hmem
    · exact ih h1 hr hc.2 c hmem

end

theorem applyOps_inv (ops : List Op) {s s' : State} (h : Inv s)
    (hrun : applyOps s ops=some s') : Inv s' := by
  have hfree : ∀ (s : State) (ops : List Op),considerateOps s [] ops=true := by
    intro s ops
    induction ops generalizing s with
    | nil => rfl
    | cons op ops ih =>
      have hop : op.considerate s []=true := by
        have hnone (id : Int) : removesPending s [] id=false := by
          rw [removesPending]
          cases slot id with
          | none => rfl
          | some i => cases hd : s.mainloopList i <;> simp [hd]
        cases op <;> simp [Op.considerate,hnone]
      simp only [considerateOps,hop,Bool.true_and]
      cases applyOp s op with
      | none => rfl
      | some s1 => exact ih s1
  have hnone : Pending s [] := by simp [Pending]
  exact (h.ops ops hrun hnone (hfree s ops)).1

/-- Whenever no callback removes data whose event is still to come in its batch, every
callback is called on data that is registered at that moment. -/
theorem considerate_calls_registered (setup : List Op) (batches : List (List Event))
    (s : State) (calls : List Bool) (hrun : program setup batches=some (s,calls))
    (hc : considerateProgram setup batches=true) : ∀ c∈calls,c=true := by
  obtain ⟨s0,hsetup,hrest⟩ := Option.bind_eq_some_iff.mp hrun
  simp only [considerateProgram,hsetup] at hc
  exact (applyOps_inv setup epollInit_inv hsetup).run batches hrest hc

def twoDescriptors : List Op := [.addFd 3 1 (some 1) true,.addFd 4 1 (some 2) true]

/-- Each callback of one batch removes its own registration. -/
theorem considerate_calls_registered_own :
    ∃ s calls,program twoDescriptors [[⟨1,.event [.removeFd 3]⟩,⟨2,.event [.removeFd 4]⟩]]=
      some (s,calls) ∧ calls=[true,true] ∧ ∀ c∈calls,c=true := by
  have hcalls : (program twoDescriptors
      [[⟨1,.event [.removeFd 3]⟩,⟨2,.event [.removeFd 4]⟩]]).map Prod.snd=
      some [true,true] := by decide
  obtain ⟨⟨s,calls⟩,hrun,hsnd⟩ := Option.map_eq_some_iff.mp hcalls
  exact ⟨s,calls,hrun,hsnd,considerate_calls_registered _ _ s calls hrun (by decide)⟩

/-- The callback of the first event removes the descriptor of the second one: the second
call is made on freed data. -/
theorem stale_event_is_called :
    ∃ s calls,program twoDescriptors [[⟨1,.event [.removeFd 4]⟩,⟨2,.event []⟩]]=
      some (s,calls) ∧ calls=[true,false] ∧ ¬∀ c∈calls,c=true := by
  have hcalls : (program twoDescriptors
      [[⟨1,.event [.removeFd 4]⟩,⟨2,.event []⟩]]).map Prod.snd=some [true,false] := by
    decide
  obtain ⟨⟨s,calls⟩,hrun,hsnd⟩ := Option.map_eq_some_iff.mp hcalls
  refine ⟨s,calls,hrun,hsnd,?_⟩
  intro hall
  exact absurd (hall false (by rw [show calls=[true,false] from hsnd]; decide)) (by decide)

end IdearNiu.Epoll
