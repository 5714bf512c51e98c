import IdearNiu.Bt.Att
import IdearNiu.Framework.Histories

namespace IdearNiu.Att

open Histories

def Entry.serial : Entry → Nat
  | .sent _ serial => serial
  | .requeued serial => serial
  | .called serial _ => serial
  | .cancelled serial => serial
  | .expired serial => serial
  | .destroyed serial => serial
  | .freed serial => serial

/-- What has happened to an operation; closed means cancelled or expired. -/
structure Life where
  called : Bool
  closed : Bool
  destroyed : Bool
  freed : Bool

def Life.new : Life := ⟨false,false,false,false⟩

/-- What may still happen: one call of the callback, and none when its user has been told
otherwise; one call of the destroy function; nothing once the memory is gone. -/
def Life.next (life : Life) : Entry → Option Life
  | .sent _ _ => if life.called || life.freed then none else some life
  | .requeued _ => if life.called || life.freed then none else some life
  | .called _ _ =>
    if life.called || life.closed || life.destroyed || life.freed then none
    else some { life with called := true }
  | .cancelled _ => if life.freed then none else some { life with closed := true }
  | .expired _ => if life.called || life.freed then none else some { life with closed := true }
  | .destroyed _ =>
    if life.destroyed || life.freed then none else some { life with destroyed := true }
  | .freed _ => if life.freed then none else some { life with freed := true }

def lifeOf (serial : Nat) (log : List Entry) : Option Life :=
  Histories.lifeOf Life.next Life.new Entry.serial serial log

/-- The request or indication that waits for its answer, and the one that was last sent. -/
structure Waiting where
  outstanding : Option Nat
  last : Nat

def Waiting.without (w : Waiting) (serial : Nat) : Waiting :=
  if w.outstanding=some serial then ⟨none,w.last⟩ else w

/-- Nothing is sent while an answer is awaited, and nothing before what has been sent. -/
def Lane.next (l : Lane) (w : Waiting) : Entry → Option Waiting
  | .sent type serial =>
    if type=l.type then
      if w.outstanding=none ∧ w.last ≤ serial then some ⟨some serial,serial⟩ else none
    else some w
  | .requeued serial => some (w.without serial)
  | .expired serial => some (w.without serial)
  | .freed serial => some (w.without serial)
  | _ => some w

def waitingOf (l : Lane) (log : List Entry) : Option Waiting := after l.next ⟨none,0⟩ log

/-- The code a callback gets is that of the answer, or the one for an error. -/
def Answers (op : SendOp) (code : UInt8) : Prop :=
  code=errorRsp ∨ (op.type=.req ∧ getReqOpcode code=op.opcode) ∨
    (op.type=.ind ∧ code=handleValConf)

/-- The operations of a channel in the order in which they were made. -/
def Channel.line (c : Channel) : List SendOp := c.pending.toList++c.queue

def Att.ops (s : Att) : Multiset SendOp :=
  ↑(s.channel .req).line+(↑(s.channel .ind).line+↑s.writeQueue)

/-- Freed, with the destroy function called if there was one, and the callback too unless the
user has cancelled the operation or its time has run out. -/
structure Life.Over (life : Life) (op : SendOp) : Prop where
  freed : life.freed=true
  destroyed : life.destroyed=op.destroy
  told : op.callback=true → life.called=true ∨ life.closed=true

def Gone (op : SendOp) (log : List Entry) : Prop := ∃ life,lifeOf op.serial log=some life ∧ life.Over op

/-- An operation now and when it was made; busy is the one whose callback is running. -/
structure Fits (busy : Option Nat) (made op : SendOp) (life : Life) : Prop where
  type : op.type=made.type
  opcode : op.opcode=made.opcode
  destroy : op.destroy=true → made.destroy=true
  destroyed : life.destroyed=(made.destroy && !op.destroy)
  freed : life.freed=false
  called : life.called=true → busy=some op.serial
  callback : op.callback=true → life.destroyed=false ∧
    if busy=some op.serial then life.called=true ∨ life.closed=true else life.closed=false
  told : made.callback=true → op.callback=true ∨ life.closed=true

theorem Fits.not_called {made op : SendOp} {life : Life} (h : Fits none made op life) :
    life.called=false := by
  cases hc : life.called
  · rfl
  · cases h.called hc

/-- The operations that exist, and what the log says of them and of those that are gone. -/
structure Books (busy : Option Nat) (made : List SendOp) (log : List Entry)
    (ops : Multiset SendOp) : Prop where
  distinct : (ops.map SendOp.serial).Nodup
  numbered : ∀ i (op : SendOp),made[i]?=some op → op.serial=i
  asks : ∀ op∈made,op.callback=true → laneOf op.type≠none
  live : ∀ op∈ops,∃ m life,made[op.serial]?=some m ∧ lifeOf op.serial log=some life ∧
    Fits busy m op life
  gone : ∀ op∈made,(∀ op'∈ops,op'.serial≠op.serial) → Gone op log
  noted : ∀ e∈log,e.serial < made.length
  answered : ∀ serial code,.called serial code∈log →
    ∃ m,made[serial]?=some m ∧ Answers m code

section

variable {busy busy' : Option Nat} {made : List SendOp} {log entries : List Entry}
  {op op' : SendOp} {ops : Multiset SendOp}

theorem lifeOf_unborn {i : Nat} (h : ∀ e∈log,e.serial < made.length) (hi : made.length ≤ i) :
    lifeOf i log=some Life.new := by
  have hnone : ∀ e∈log,e.serial≠i := fun e he => by
    have := h e he
    omega
  have hlife : lifeOf i ([]++log)=lifeOf i [] := lifeOf_other hnone
  rwa [List.nil_append] at hlife

theorem Books.serial_lt (h : Books busy made log (op::ₘops)) : op.serial < made.length := by
  obtain ⟨m,life,hm,_⟩ := h.live op (Multiset.mem_cons_self _ _)
  exact (List.getElem?_eq_some_iff.mp hm).1

theorem mem_destroyEntries {e : Entry} (h : e∈destroyEntries op) :
    e=.destroyed op.serial ∨ e=.freed op.serial := by
  rw [destroyEntries,List.mem_append,List.mem_singleton] at h
  rcases h with h|h
  · split_ifs at h
    · exact Or.inl (List.mem_singleton.mp h)
    · cases h
  · exact Or.inr h

/-- The operations of which nothing is said stay as they are. -/
theorem Books.others (h : Books busy made log (op::ₘops))
    (hentries : ∀ e∈entries,e.serial=op.serial)
    (hbusy : ∀ i,busy=some i → i≠op.serial → busy'=some i)
    (hbusy' : ∀ i,busy'=some i → i≠op.serial → busy=some i) :
    (∀ o∈ops,∃ m life,made[o.serial]?=some m ∧ lifeOf o.serial (log++entries)=some life ∧
      Fits busy' m o life) ∧
    (∀ o∈made,o.serial≠op.serial → (∀ op'∈ops,op'.serial≠o.serial) → Gone o (log++entries)) := by
  have hdistinct := h.distinct
  rw [Multiset.map_cons,Multiset.nodup_cons] at hdistinct
  have hother (i : Nat) (hi : i≠op.serial) : lifeOf i (log++entries)=lifeOf i log :=
    lifeOf_other fun e he => by
      rw [hentries e he]
      exact hi.symm
  refine ⟨fun o ho => ?_,fun o ho hne hout => ?_⟩
  · have hne : o.serial≠op.serial := fun heq =>
      hdistinct.1 (heq ▸ Multiset.mem_map_of_mem _ ho)
    obtain ⟨mo,lo,hmo,hlo,hfo⟩ := h.live o (Multiset.mem_cons_of_mem ho)
    refine ⟨mo,lo,hmo,(hother _ hne).trans hlo,
      { hfo with called := fun hc => hbusy _ (hfo.called hc) hne, callback := fun hc => ?_ }⟩
    have hiff : busy'=some o.serial ↔ busy=some o.serial :=
      ⟨fun hb => hbusy' _ hb hne,fun hb => hbusy _ hb hne⟩
    simp only [hiff]
    exact hfo.callback hc
  · have hg : Gone o log := h.gone o ho fun op' hop' => by
      rcases Multiset.mem_cons.mp hop' with rfl|hop'
      · exact hne.symm
      · exact hout op' hop'
    rw [Gone,hother _ hne]
    exact hg

theorem Books.written (h : Books busy made log (op::ₘops))
    (hentries : ∀ e∈entries,e.serial=op.serial)
    (hcodes : ∀ m code,made[op.serial]?=some m → op.type=m.type → op.opcode=m.opcode →
      .called op.serial code∈entries → Answers m code) :
    (∀ e∈log++entries,e.serial < made.length) ∧
    (∀ serial code,.called serial code∈log++entries →
      ∃ m,made[serial]?=some m ∧ Answers m code) := by
  obtain ⟨m,life,hm,hlife,hfits⟩ := h.live op (Multiset.mem_cons_self _ _)
  refine ⟨fun e he => ?_,fun serial code hcall => ?_⟩
  · rcases List.mem_append.mp he with he|he
    · exact h.noted e he
    · rw [hentries e he]
      exact (List.getElem?_eq_some_iff.mp hm).1
  · rcases List.mem_append.mp hcall with hcall|hcall
    · exact h.answered serial code hcall
    · obtain rfl : serial=op.serial := hentries _ hcall
      exact ⟨m,hm,hcodes m code hm hfits.type hfits.opcode hcall⟩

/-- An operation that stays. -/
theorem Books.replace (op' : SendOp) (h : Books busy made log (op::ₘops))
    (hserial : op'.serial=op.serial)
    (hentries : ∀ e∈entries,e.serial=op.serial)
    (hcodes : ∀ m code,made[op.serial]?=some m → op.type=m.type → op.opcode=m.opcode →
      .called op.serial code∈entries → Answers m code)
    (hbusy : ∀ i,busy=some i → i≠op.serial → busy'=some i)
    (hbusy' : ∀ i,busy'=some i → i≠op.serial → busy=some i)
    (hstep : ∀ m life,Fits busy m op life →
      ∃ life',after Life.next life entries=some life' ∧ Fits busy' m op' life') :
    Books busy' made (log++entries) (op'::ₘops) := by
  obtain ⟨m,life,hm,hlife,hfits⟩ := h.live op (Multiset.mem_cons_self _ _)
  obtain ⟨life',hafter,hfits'⟩ := hstep m life hfits
  obtain ⟨hlive,hgone⟩ := h.others hentries hbusy hbusy'
  obtain ⟨hnoted,hanswered⟩ := h.written hentries hcodes
  refine ⟨?_,h.numbered,h.asks,fun o ho => ?_,fun o ho hout => ?_,hnoted,hanswered⟩
  · have hdistinct := h.distinct
    rw [Multiset.map_cons] at hdistinct
    rwa [Multiset.map_cons,hserial]
  · rcases Multiset.mem_cons.mp ho with rfl|ho
    · rw [hserial]
      exact ⟨m,life',hm,lifeOf_own hentries hlife hafter,hfits'⟩
    · exact hlive o ho
  · have hne : op'.serial≠o.serial := hout op' (Multiset.mem_cons_self _ _)
    exact hgone o ho (hserial ▸ hne.symm) fun o' ho' => hout o' (Multiset.mem_cons_of_mem ho')

/-- An operation that goes. -/
theorem Books.drop (before : List Entry) (h : Books busy made log (op::ₘops))
    (hbusy : ∀ i,busy=some i → i≠op.serial → busy'=some i)
    (hbusy' : ∀ i,busy'=some i → i≠op.serial → busy=some i)
    (hbefore : ∀ e∈before,e=.cancelled op.serial ∨ ∃ type,e=.sent type op.serial)
    (hstep : ∀ m life,m∈made → Fits busy m op life →
      ∃ life',after Life.next life before=some life' ∧ life'.destroyed=life.destroyed ∧
        life'.freed=false ∧ (m.callback=true → life'.called=true ∨ life'.closed=true)) :
    Books busy' made (log++(before++destroyEntries op)) ops := by
  obtain ⟨m,life,hm,hlife,hfits⟩ := h.live op (Multiset.mem_cons_self _ _)
  have hentries : ∀ e∈before++destroyEntries op,e.serial=op.serial := fun e he => by
    rcases List.mem_append.mp he with he|he
    · rcases hbefore e he with rfl|⟨type,rfl⟩ <;> rfl
    · rcases mem_destroyEntries he with rfl|rfl <;> rfl
  have hcalled : ∀ code,.called op.serial code∉before++destroyEntries op := fun code hc => by
    rcases List.mem_append.mp hc with hc|hc
    · rcases hbefore _ hc with hc|⟨type,hc⟩ <;> cases hc
    · rcases mem_destroyEntries hc with hc|hc <;> cases hc
  obtain ⟨hlive,hgone⟩ := h.others hentries hbusy hbusy'
  obtain ⟨hnoted,hanswered⟩ := h.written hentries
    (fun _ code _ _ _ hc => absurd hc (hcalled code))
  have hdistinct := h.distinct
  rw [Multiset.map_cons,Multiset.nodup_cons] at hdistinct
  refine ⟨hdistinct.2,h.numbered,h.asks,hlive,fun o ho hout => ?_,hnoted,hanswered⟩
  by_cases hne : o.serial=op.serial
  · have hom : o=m := by
      obtain ⟨i,hi,hget⟩ := List.mem_iff_getElem.mp ho
      have hsome : made[i]?=some o := List.getElem?_eq_some_iff.mpr ⟨hi,hget⟩
      have hio := h.numbered i o hsome
      rw [← hio,hne,hm] at hsome
      exact (Option.some.inj hsome).symm
    obtain ⟨life',hafter,hd',hf',htold⟩ := hstep m life (hom ▸ ho) hfits
    have hdestroy : after Life.next life' (destroyEntries op)=
        some { life' with destroyed := m.destroy, freed := true } := by
      have hd := hfits.destroyed
      have hdm := hfits.destroy
      rw [← hd'] at hd
      rw [destroyEntries]
      cases hop : op.destroy
      · simp [hop] at hd
        simp [after,Life.next,hf',hd]
      · simp [hop] at hd
        simp [after,Life.next,hf',hd,hdm hop]
    rw [Gone,hne]
    refine ⟨_,lifeOf_own hentries hlife ((after_extend hafter hdestroy)),rfl,?_,?_⟩
    · exact congrArg SendOp.destroy hom.symm
    · rw [hom]
      exact htold
  · exact hgone o ho hne hout

theorem Books.add (h : Books busy made log ops) (hserial : op.serial=made.length)
    (hasks : op.callback=true → laneOf op.type≠none) (hbusy : ∀ i,busy=some i → i < made.length) :
    Books busy (made++[op]) log (op::ₘops) := by
  have hsome {o m : SendOp} (hm : made[o.serial]?=some m) : o.serial < made.length :=
    (List.getElem?_eq_some_iff.mp hm).1
  refine ⟨?_,fun i o hi => ?_,fun o ho => ?_,fun o ho => ?_,fun o ho hout => ?_,fun e he => ?_,
    fun serial code hcall => ?_⟩
  · rw [Multiset.map_cons,Multiset.nodup_cons]
    refine ⟨fun hmem => ?_,h.distinct⟩
    obtain ⟨o,ho,heq⟩ := Multiset.mem_map.mp hmem
    obtain ⟨m,life,hm,_⟩ := h.live o ho
    have := hsome hm
    omega
  · rcases Nat.lt_or_ge i made.length with hlt|hge
    · rw [List.getElem?_append_left hlt] at hi
      exact h.numbered i o hi
    · have hilt : i < (made++[op]).length := (List.getElem?_eq_some_iff.mp hi).1
      rw [List.length_append,List.length_singleton] at hilt
      obtain rfl : i=made.length := by omega
      rw [List.getElem?_append_right (Nat.le_refl _),Nat.sub_self] at hi
      obtain rfl : op=o := Option.some.inj hi
      exact hserial
  · rcases List.mem_append.mp ho with ho|ho
    · exact h.asks o ho
    · rw [List.mem_singleton.mp ho]
      exact hasks
  · rcases Multiset.mem_cons.mp ho with rfl|ho
    · refine ⟨o,Life.new,?_,lifeOf_unborn h.noted hserial.ge,⟨rfl,rfl,id,?_,rfl,nofun,?_,Or.inl⟩⟩
      · rw [hserial,List.getElem?_append_right (Nat.le_refl _),Nat.sub_self]
        rfl
      · cases o.destroy <;> rfl
      · intro _
        have hb : busy≠some o.serial := fun hb => by
          have := hbusy _ hb
          omega
        rw [if_neg hb]
        exact ⟨rfl,rfl⟩
    · obtain ⟨m,life,hm,hrest⟩ := h.live o ho
      exact ⟨m,life,by rwa [List.getElem?_append_left (hsome hm)],hrest⟩
  · rcases List.mem_append.mp ho with ho|ho
    · exact h.gone o ho fun o' ho' => hout o' (Multiset.mem_cons_of_mem ho')
    · rw [List.mem_singleton.mp ho] at hout
      exact absurd rfl (hout op (Multiset.mem_cons_self _ _))
  · have := h.noted e he
    rw [List.length_append,List.length_singleton]
    omega
  · obtain ⟨m,hm,hans⟩ := h.answered serial code hcall
    exact ⟨m,by rwa [List.getElem?_append_left (List.getElem?_eq_some_iff.mp hm).1],hans⟩

theorem Books.cancel (h : Books busy made log (op::ₘops)) :
    Books busy made (log++(cancelAttSendOp op).2) ((cancelAttSendOp op).1::ₘops) := by
  have hentries : ∀ e∈(cancelAttSendOp op).2,e.serial=op.serial ∧ ∀ code,e≠.called op.serial code := by
    intro e he
    rw [cancelAttSendOp] at he
    split_ifs at he <;> simp at he
    · rcases he with rfl|rfl <;> exact ⟨rfl,nofun⟩
    · rw [he]
      exact ⟨rfl,nofun⟩
  refine h.replace (cancelAttSendOp op).1 rfl (fun e he => (hentries e he).1)
    (fun _ code _ _ _ hc => absurd rfl ((hentries _ hc).2 code)) (fun _ hi _ => hi)
    (fun _ hi _ => hi) fun m life hf => ?_
  have hd := hf.destroyed
  have hdm := hf.destroy
  refine ⟨{ life with closed := true, destroyed := m.destroy },?_,
    ⟨hf.type,hf.opcode,nofun,by simp [cancelAttSendOp],hf.freed,hf.called,nofun,fun _ => Or.inr rfl⟩⟩
  rw [cancelAttSendOp]
  cases hop : op.destroy
  · simp [hop] at hd
    simp [after,Life.next,hf.freed,hd]
  · simp [hop] at hd
    simp [after,Life.next,hf.freed,hd,hdm hop]

/-- What runCallback writes before the callback's own calls. -/
theorem Books.call (h : Books none made log (op::ₘops)) (code : UInt8) (hans : Answers op code) :
    Books (some op.serial) made
      (log++if op.callback then [.called op.serial code] else []) (op::ₘops) := by
  have hentries : ∀ e∈(if op.callback then [.called op.serial code] else [] : List Entry),
      e=.called op.serial code := fun e he => by
    split_ifs at he with hc
    · exact List.mem_singleton.mp he
    · cases he
  refine h.replace _ rfl (fun e he => by rw [hentries e he]; rfl) (fun m code' _ htype hopcode hc => ?_)
    nofun (fun i hi hne => absurd (Option.some.inj hi).symm hne) fun m life hf => ?_
  · cases hentries _ hc
    rwa [Answers,← htype,← hopcode]
  · cases hop : op.callback
    · exact ⟨life,rfl,{ hf with called := fun _ => rfl, callback := by simp [hop] }⟩
    · obtain ⟨hd,hclosed⟩ := hf.callback hop
      simp only [reduceCtorEq,if_false] at hclosed
      exact ⟨{ life with called := true },by simp [after,Life.next,hf.not_called,hd,hclosed,hf.freed],
        { hf with called := fun _ => rfl, callback := fun _ => ⟨hd,by simp⟩ }⟩

/-- An operation that is sent or goes back to its queue. -/
theorem Books.move (h : Books none made log (op::ₘops)) {e : Entry} (timeoutId : Option Nat)
    (he : (∃ type,e=.sent type op.serial) ∨ e=.requeued op.serial) :
    Books none made (log++[e]) ({ op with timeoutId := timeoutId }::ₘops) := by
  have heq : e.serial=op.serial ∧ (∀ code,e≠.called op.serial code) ∧
      ∀ life,life.called=false → life.freed=false → Life.next life e=some life := by
    rcases he with ⟨type,rfl⟩|rfl <;>
      exact ⟨rfl,nofun,fun life hc hf => by simp [Life.next,hc,hf]⟩
  refine h.replace _ rfl (fun e' he' => by rw [List.mem_singleton.mp he']; exact heq.1)
    (fun _ code _ _ _ hc => absurd (List.mem_singleton.mp hc).symm (heq.2.1 code)) nofun nofun
    fun m life hf => ⟨life,?_,{ hf with }⟩
  rw [after_cons_some (heq.2.2 life hf.not_called hf.freed),after_nil]

/-- The time of an operation runs out; its end is reported from here on. -/
theorem Books.expire (h : Books none made log (op::ₘops)) :
    Books (some op.serial) made (log++[.expired op.serial]) (op::ₘops) := by
  refine h.replace _ rfl (fun e he => by rw [List.mem_singleton.mp he]; rfl)
    (fun _ code _ _ _ hc => by cases List.mem_singleton.mp hc) nofun
    (fun i hi hne => absurd (Option.some.inj hi).symm hne) fun m life hf =>
      ⟨{ life with closed := true },?_,{ hf with
        called := fun _ => rfl
        callback := fun hc => ⟨(hf.callback hc).1,by simp⟩
        told := fun _ => Or.inr rfl }⟩
  simp [after,Life.next,hf.not_called,hf.freed]

/-- The end of an operation whose callback has been called or taken away. -/
theorem Books.dropTold (h : Books busy made log (op::ₘops))
    (hbusy : busy=none ∨ busy=some op.serial) (hcallback : op.callback=true → busy=some op.serial) :
    Books none made (log++destroyEntries op) ops := by
  refine h.drop [] (fun i hi hne => ?_) nofun nofun fun m life _ hf =>
    ⟨life,rfl,rfl,hf.freed,fun hm => ?_⟩
  · rcases hbusy with hb|hb
    · rw [hb] at hi
      cases hi
    · exact absurd (Option.some.inj (hi.symm.trans hb)) hne
  · rcases hf.told hm with hc|hc
    · have := (hf.callback hc).2
      rwa [if_pos (hcallback hc)] at this
    · exact Or.inr hc

theorem Books.dropCancelled (h : Books busy made log (op::ₘops)) :
    Books busy made (log++(.cancelled op.serial::destroyEntries op)) ops :=
  h.drop [.cancelled op.serial] (fun _ hi _ => hi) (fun _ hi _ => hi)
    (fun e he => Or.inl (List.mem_singleton.mp he)) fun m life _ hf =>
    ⟨{ life with closed := true },by simp [after,Life.next,hf.freed],rfl,hf.freed,fun _ => Or.inr rfl⟩

/-- An operation that waits for no answer. -/
theorem Books.dropSent (h : Books none made log (op::ₘops)) (hplain : laneOf op.type=none) :
    Books none made (log++(.sent op.type op.serial::destroyEntries op)) ops := by
  refine h.drop [.sent op.type op.serial] nofun nofun
    (fun e he => Or.inr ⟨_,List.mem_singleton.mp he⟩) fun m life hm hf =>
    ⟨life,?_,rfl,hf.freed,fun hc => absurd (hf.type ▸ hplain) (h.asks m hm hc)⟩
  simp [after,Life.next,hf.not_called,hf.freed]

end

def SendOp.tag (op : SendOp) : Nat × OpType := (op.serial,op.type)

def Channel.tags (c : Channel) : List (Nat × OpType) := c.line.map SendOp.tag

/-- What the log says of a channel; the operations made so far are numbered below the bound. -/
structure Lined (bound : Nat) (log : List Entry) (l : Lane) (c : Channel) : Prop where
  waiting : ∃ last,waitingOf l log=some ⟨c.pending.map SendOp.serial,last⟩ ∧ last≤bound ∧
    ∀ t∈c.tags,last≤t.1
  ascending : c.tags.Pairwise (fun t u => t.1 < u.1)
  typed : ∀ t∈c.tags,t.2=l.type ∧ t.1 < bound

section

variable {bound : Nat} {log entries : List Entry} {l : Lane} {c c' : Channel}
  {op op' : SendOp} {queue : List SendOp}

theorem Lined.advance (h : Lined bound log l c) (htags : c'.tags.Sublist c.tags)
    (hlog : ∀ last,last≤bound → (∀ t∈c.tags,last≤t.1) →
      ∃ last',after l.next ⟨c.pending.map SendOp.serial,last⟩ entries=
          some ⟨c'.pending.map SendOp.serial,last'⟩ ∧ last'≤bound ∧ ∀ t∈c.tags,last'≤t.1) :
    Lined bound (log++entries) l c' := by
  obtain ⟨last,hwait,hbound,hlast⟩ := h.waiting
  obtain ⟨last',hafter,hbound',hlast'⟩ := hlog last hbound hlast
  exact ⟨⟨last',after_extend hwait hafter,hbound',fun t ht => hlast' t (htags.subset ht)⟩,
    h.ascending.sublist htags,fun t ht => h.typed t (htags.subset ht)⟩

theorem Waiting.without_other {w : Waiting} {serial : Nat} (h : w.outstanding≠some serial) :
    w.without serial=w := if_neg h

theorem Lane.next_other {w : Waiting} {e : Entry} (hserial : w.outstanding≠some e.serial)
    (hsent : ∀ type serial,e=.sent type serial → type≠l.type) : l.next w e=some w := by
  cases e with
  | sent type serial => rw [Lane.next,if_neg (hsent _ _ rfl)]
  | requeued serial => exact congrArg some (Waiting.without_other hserial)
  | expired serial => exact congrArg some (Waiting.without_other hserial)
  | freed serial => exact congrArg some (Waiting.without_other hserial)
  | called serial code => rfl
  | cancelled serial => rfl
  | destroyed serial => rfl

/-- The log goes on with nothing for this channel, which may lose operations that wait. -/
theorem Lined.still (h : Lined bound log l c)
    (hpending : c'.pending.map SendOp.tag=c.pending.map SendOp.tag)
    (hqueue : c'.queue.Sublist c.queue)
    (hentries : ∀ e∈entries,∀ last,l.next ⟨c.pending.map SendOp.serial,last⟩ e=
      some ⟨c.pending.map SendOp.serial,last⟩) : Lined bound (log++entries) l c' := by
  have hserial : c'.pending.map SendOp.serial=c.pending.map SendOp.serial := by
    have := congrArg (Option.map Prod.fst) hpending
    rwa [Option.map_map,Option.map_map] at this
  have htags : c'.tags.Sublist c.tags := by
    rw [Channel.tags,Channel.tags,Channel.line,Channel.line,List.map_append,List.map_append]
    refine List.Sublist.append ?_ (hqueue.map _)
    rw [← Option.toList_map,← Option.toList_map,hpending]
  refine h.advance htags fun last hb hlast => ⟨last,?_,hb,hlast⟩
  rw [hserial]
  exact after_still fun e he => hentries e he last

theorem Lined.push (h : Lined bound log l c) (htype : op.type=l.type) (hserial : op.serial=bound) :
    Lined (bound+1) log l { c with queue := c.queue++[op] } := by
  have htags : ({ c with queue := c.queue++[op] } : Channel).tags=c.tags++[op.tag] := by
    simp [Channel.tags,Channel.line]
  obtain ⟨last,hwait,hbound,hlast⟩ := h.waiting
  refine ⟨⟨last,hwait,by omega,fun t ht => ?_⟩,?_,fun t ht => ?_⟩
  · rw [htags,List.mem_append,List.mem_singleton] at ht
    rcases ht with ht|rfl
    · exact hlast t ht
    · exact hbound.trans hserial.ge
  · rw [htags,List.pairwise_append]
    refine ⟨h.ascending,List.pairwise_singleton _ _,fun t ht u hu => ?_⟩
    rw [List.mem_singleton.mp hu,SendOp.tag,hserial]
    exact (h.typed t ht).2
  · rw [htags,List.mem_append,List.mem_singleton] at ht
    rcases ht with ht|rfl
    · have := h.typed t ht
      exact ⟨this.1,by omega⟩
    · exact ⟨htype,by rw [SendOp.tag,hserial]; omega⟩

theorem Lined.grow (h : Lined bound log l c) : Lined (bound+1) log l c := by
  obtain ⟨last,hwait,hbound,hlast⟩ := h.waiting
  exact ⟨⟨last,hwait,by omega,hlast⟩,h.ascending,fun t ht =>
    ⟨(h.typed t ht).1,by have := (h.typed t ht).2; omega⟩⟩

/-- The head of the queue is sent. -/
theorem Lined.send (h : Lined bound log l ⟨op::queue,none⟩) (htag : op'.tag=op.tag) :
    Lined bound (log++[.sent op.type op.serial]) l ⟨queue,some op'⟩ := by
  have htags : (⟨queue,some op'⟩ : Channel).tags=op.tag::queue.map SendOp.tag := by
    rw [Channel.tags,Channel.line,Option.toList_some,List.singleton_append,List.map_cons,htag]
  have htags' : (⟨op::queue,none⟩ : Channel).tags=op.tag::queue.map SendOp.tag := rfl
  have hserial : op'.serial=op.serial := congrArg Prod.fst htag
  have hop := h.typed op.tag (htags' ▸ List.mem_cons_self ..)
  refine h.advance (by rw [htags,htags']) fun last hb hlast => ⟨op.serial,?_,hop.2.le,fun t ht => ?_⟩
  · have hle : last≤op.serial := hlast op.tag (htags' ▸ List.mem_cons_self ..)
    have htype : op.type=l.type := hop.1
    have hnext : l.next ⟨none,last⟩ (.sent op.type op.serial)=some ⟨some op.serial,op.serial⟩ := by
      rw [Lane.next,if_pos htype,if_pos ⟨rfl,hle⟩]
    rw [Option.map_some,hserial]
    exact after_cons_some hnext
  · have hasc := h.ascending
    rw [htags',List.pairwise_cons] at hasc
    rw [htags',List.mem_cons] at ht
    rcases ht with rfl|ht
    · exact Nat.le_refl _
    · exact (hasc.1 t ht).le

/-- The pending operation waits no longer; it leaves the channel or goes back to its queue. -/
theorem Lined.clear (front : List SendOp) (h : Lined bound log l ⟨queue,some op⟩)
    (hfront : (front.map SendOp.tag).Sublist [op.tag])
    (hentries : ∀ last,after l.next ⟨some op.serial,last⟩ entries=some ⟨none,last⟩) :
    Lined bound (log++entries) l ⟨front++queue,none⟩ := by
  refine h.advance ?_ fun last hb hlast => ⟨last,hentries last,hb,hlast⟩
  have htags : (⟨front++queue,none⟩ : Channel).tags=front.map SendOp.tag++queue.map SendOp.tag := by
    rw [Channel.tags,Channel.line,Option.toList_none,List.nil_append,List.map_append]
  rw [htags]
  exact List.Sublist.append hfront (List.Sublist.refl _)

theorem clear_destroyEntries (last : Nat) :
    after l.next ⟨some op.serial,last⟩ (destroyEntries op)=some ⟨none,last⟩ := by
  rw [destroyEntries]
  split_ifs <;> simp [after,Lane.next,Waiting.without]

end

end IdearNiu.Att
