import IdearNiu.Lists.Refinement

set_option linter.style.nameCheck false

namespace IdearNiu.ListHead

open Rings

variable {Node : Type} [DecidableEq Node]

/-- One allowed call gives the sequences of its meaning. -/
theorem exec_represents (k : Heap Node) (L : Lists Node) (op : Op Node) (h : Represents k L)
    (ha : Allowed L op) : Represents (exec k op) (meaning L op) := by
  cases op with
  | initListHead list => exact initListHead_represents k L list h ha
  | listAdd new head =>
    exact listAdd_represents k (without L new) new head _ (represents_without k L new h ha.1)
      (fun a t => not_mem_without L new a t h.disjoint) (entries_without L new head ha.2.1 ha.2.2)
  | listAddTail new head =>
    exact listAddTail_represents k (without L new) new head _
      (represents_without k L new h ha.1)
      (fun a t => not_mem_without L new a t h.disjoint) (entries_without L new head ha.2.1 ha.2.2)
  | listDel entry => exact listDel_represents k L entry h ha
  | listDelInit entry => exact listDelInit_represents k L entry h ha
  | listReplaceInit old new =>
    obtain ⟨hnew,hne,a,s,hs,ho⟩ := ha
    exact listReplaceInit_represents k L old new a s h hnew hne hs ho
  | listMove list head => exact listMove_represents k L list head h ha.1 ha.2.1 ha.2.2
  | listMoveTail list head => exact listMoveTail_represents k L list head h ha.1 ha.2.1 ha.2.2
  | listRotateLeft head => exact listRotateLeft_represents k L head h ha
  | listCutPosition list head entry =>
    obtain ⟨hne,hl,s,hs,he⟩ := ha
    obtain ⟨s1,s2,hs12⟩ := List.append_of_mem he
    have hnot : entry∉s1 := by
      have hnd := (List.nodup_cons.mp (h.disjoint.nodup head s hs)).2
      rw [hs12] at hnd
      exact fun hm => (List.disjoint_of_nodup_append hnd) hm List.mem_cons_self
    have hpre : ∀ x∈s1,decide (x≠entry)=true := fun x hx =>
      decide_eq_true (ne_of_mem_of_not_mem hx hnot)
    have hent : entries L head=s1++entry::s2 := by
      rw [entries,hs,hs12]
      rfl
    have htake : (s1++entry::s2).takeWhile (fun x => decide (x≠entry))=s1 := by
      rw [List.takeWhile_append_of_pos hpre,List.takeWhile_cons_of_neg (by simp),
        List.append_nil]
    have hdrop : (s1++entry::s2).dropWhile (fun x => decide (x≠entry))=entry::s2 := by
      rw [List.dropWhile_append_of_pos hpre,List.dropWhile_cons_of_neg (by simp)]
    have hres := __listCutPosition_represents k L list head entry s1 s2 h hne hl
      (by rw [hs,hs12,List.append_assoc]; rfl)
    simp only [meaning,hent,htake,hdrop,List.tail_cons]
    exact hres

/-- The pointers of the nodes of a list are as before. -/
def Untouched (k k' : Heap Node) (c : List Node) : Prop :=
  ∀ x∈c,k'.next x=k.next x ∧ k'.prev x=k.prev x

theorem untouched_link (k k' : Heap Node) (p q : Node) (c : List Node) (h : Untouched k k' c)
    (hp : p∉c) (hq : q∉c) : Untouched k (link k' p q) c := by
  intro x hx
  rw [link_next,link_prev,if_neg (ne_of_mem_of_not_mem hx hp),
    if_neg (ne_of_mem_of_not_mem hx hq)]
  exact h x hx

omit [DecidableEq Node] in
theorem untouched_refl (k : Heap Node) (c : List Node) : Untouched k k c :=
  fun _ _ => ⟨rfl,rfl⟩

omit [DecidableEq Node] in
theorem untouched_trans (k k' k'' : Heap Node) (c : List Node) (h : Untouched k k' c)
    (h' : Untouched k' k'' c) : Untouched k k'' c :=
  fun x hx => ⟨(h' x hx).1.trans (h x hx).1,(h' x hx).2.trans (h x hx).2⟩

omit [DecidableEq Node] in
/-- The neighbours of a node are outside the lists it is outside of. -/
theorem neighbours_out (k : Heap Node) (L : Lists Node) (h : Represents k L) (a b x : Node)
    (s t : List Node) (ha : L a=some s) (hx : x∈a::s) (hb : L b=some t) (hout : x∉b::t) :
    k.next x∉b::t ∧ k.prev x∉b::t := by
  obtain ⟨hn,hp⟩ := neighbours_mem k L h a x s ha hx
  have hab : a≠b := by
    intro heq
    subst heq
    rw [ha,Option.some.injEq] at hb
    exact hout (hb ▸ hx)
  exact ⟨fun hm => hab (h.disjoint.apart a b s t _ ha hb hn hm),
    fun hm => hab (h.disjoint.apart a b s t _ ha hb hp hm)⟩

omit [DecidableEq Node] in
theorem attached_mem (L : Lists Node) (x : Node) (h : Attached L x) :
    ∃ a s,L a=some s ∧ x∈a::s := by
  rcases h with ⟨a,s,ha,hx⟩|hx
  · exact ⟨a,s,ha,List.mem_cons_of_mem a hx⟩
  · exact ⟨x,[],hx,List.mem_cons_self⟩

theorem __listDelEntry_untouched (k : Heap Node) (L : Lists Node) (e b : Node) (t : List Node)
    (h : Represents k L) (he : Attached L e) (hb : L b=some t) (hout : e∉b::t) :
    Untouched k (__listDelEntry k e) (b::t) := by
  obtain ⟨a,s,ha,hx⟩ := attached_mem L e he
  obtain ⟨hn,hp⟩ := neighbours_out k L h a b e s t ha hx hb hout
  exact untouched_link k k _ _ _ (untouched_refl k _) hp hn

theorem listAdd_untouched (k : Heap Node) (L : Lists Node) (new head b : Node) (t : List Node)
    (h : Represents k L) (hh : (L head).isSome) (hb : L b=some t) (hnew : new∉b::t)
    (hhead : head∉b::t) : Untouched k (listAdd k new head) (b::t) := by
  obtain ⟨s,hs⟩ := Option.isSome_iff_exists.mp hh
  obtain ⟨hn,-⟩ := neighbours_out k L h head b head s t hs List.mem_cons_self hb hhead
  exact untouched_link k _ _ _ _ (untouched_link k k _ _ _ (untouched_refl k _) hnew hn)
    hhead hnew

theorem listAddTail_untouched (k : Heap Node) (L : Lists Node) (new head b : Node)
    (t : List Node) (h : Represents k L) (hh : (L head).isSome) (hb : L b=some t)
    (hnew : new∉b::t) (hhead : head∉b::t) : Untouched k (listAddTail k new head) (b::t) := by
  obtain ⟨s,hs⟩ := Option.isSome_iff_exists.mp hh
  obtain ⟨-,hp⟩ := neighbours_out k L h head b head s t hs List.mem_cons_self hb hhead
  exact untouched_link k _ _ _ _ (untouched_link k k _ _ _ (untouched_refl k _) hnew hhead)
    hp hnew

/-- A list that holds none of two nodes is the same without one of them. -/
theorem without_out (L : Lists Node) (x b : Node) (t : List Node) (hb : L b=some t)
    (hout : x∉b::t) : without L x b=some t := by
  rw [List.mem_cons,not_or] at hout
  rw [without,if_neg (Ne.symm hout.1),hb,Option.map_some,List.erase_of_not_mem hout.2]

theorem isSome_without (L : Lists Node) (x head : Node) (hh : (L head).isSome) (hne : x≠head) :
    (without L x head).isSome := by
  rw [entries_without L x head hh hne]
  rfl

theorem listMoveTail_untouched (k : Heap Node) (L : Lists Node) (list head b : Node)
    (t : List Node) (h : Represents k L) (hl : Attached L list) (hh : (L head).isSome)
    (hne : list≠head) (hb : L b=some t) (hlist : list∉b::t) (hhead : head∉b::t) :
    Untouched k (listMoveTail k list head) (b::t) := by
  apply untouched_trans k _ _ _ (__listDelEntry_untouched k L list b t h hl hb hlist)
  exact listAddTail_untouched _ (without L list) list head b t
    (__listDelEntry_represents k L list h hl) (isSome_without L list head hh hne)
    (without_out L list b t hb hlist) hlist hhead

/-- The nodes of a list that holds no argument of a call keep their pointers. -/
theorem exec_untouched (k : Heap Node) (L : Lists Node) (op : Op Node) (b : Node)
    (t : List Node) (h : Represents k L) (ha : Allowed L op) (hb : L b=some t)
    (hout : ∀ x∈op.args,x∉b::t) : Untouched k (exec k op) (b::t) := by
  have hinit : ∀ (k' : Heap Node) (n : Node),Untouched k k' (b::t) → n∉b::t →
      Untouched k (initListHead k' n) (b::t) := fun k' n h' hn =>
    untouched_link k k' n n _ h' hn hn
  cases op with
  | initListHead list => exact hinit k list (untouched_refl k _) (hout list (by simp [Op.args]))
  | listAdd new head =>
    exact listAdd_untouched k L new head b t h ha.2.1 hb (hout new (by simp [Op.args]))
      (hout head (by simp [Op.args]))
  | listAddTail new head =>
    exact listAddTail_untouched k L new head b t h ha.2.1 hb (hout new (by simp [Op.args]))
      (hout head (by simp [Op.args]))
  | listDel entry =>
    have he := hout entry (by simp [Op.args])
    exact hinit _ entry (__listDelEntry_untouched k L entry b t h ha hb he) he
  | listDelInit entry =>
    have he := hout entry (by simp [Op.args])
    exact hinit _ entry (hinit _ entry (__listDelEntry_untouched k L entry b t h ha hb he) he) he
  | listReplaceInit old new =>
    obtain ⟨-,-,a,s,hs,ho⟩ := ha
    have hold := hout old (by simp [Op.args])
    have hnew := hout new (by simp [Op.args])
    obtain ⟨hn,hp⟩ := neighbours_out k L h a b old s t hs ho hb hold
    apply hinit _ old _ hold
    by_cases hself : k.next old=old
    · rw [listReplace_self k old new hself]
      exact untouched_link k _ _ _ _ (untouched_link k k _ _ _ (untouched_refl k _) hnew hold)
        hnew hnew
    · rw [listReplace_eq k old new hself]
      exact untouched_link k _ _ _ _ (untouched_link k k _ _ _ (untouched_refl k _) hnew hn)
        hp hnew
  | listMove list head =>
    have hlist := hout list (by simp [Op.args])
    apply untouched_trans k _ _ _ (__listDelEntry_untouched k L list b t h ha.1 hb hlist)
    exact listAdd_untouched _ (without L list) list head b t
      (__listDelEntry_represents k L list h ha.1) (isSome_without L list head ha.2.1 ha.2.2)
      (without_out L list b t hb hlist) hlist (hout head (by simp [Op.args]))
  | listMoveTail list head =>
    exact listMoveTail_untouched k L list head b t h ha.1 ha.2.1 ha.2.2 hb
      (hout list (by simp [Op.args])) (hout head (by simp [Op.args]))
  | listRotateLeft head =>
    have hhead := hout head (by simp [Op.args])
    obtain ⟨s,hs⟩ := Option.isSome_iff_exists.mp ha
    simp only [exec,listRotateLeft]
    split
    · next hemp =>
      have hne : k.next head≠head := by simpa [listEmpty] using hemp
      have hmem := (neighbours_mem k L h head head s hs List.mem_cons_self).1
      obtain ⟨hn,-⟩ := neighbours_out k L h head b head s t hs List.mem_cons_self hb hhead
      have hentry := (List.mem_cons.mp hmem).resolve_left hne
      exact listMoveTail_untouched k L (k.next head) head b t h
        (Or.inl ⟨head,s,hs,hentry⟩) ha hne hb hn hhead
    · exact untouched_refl k _
  | listCutPosition list head entry =>
    obtain ⟨-,-,s,hs,he⟩ := ha
    have hlist := hout list (by simp [Op.args])
    have hhead := hout head (by simp [Op.args])
    have hentry := hout entry (by simp [Op.args])
    obtain ⟨hn1,-⟩ := neighbours_out k L h head b head s t hs List.mem_cons_self hb hhead
    obtain ⟨hn2,-⟩ := neighbours_out k L h head b entry s t hs (List.mem_cons_of_mem head he) hb
      hentry
    rw [exec,__listCutPosition_eq]
    exact untouched_link k _ _ _ _ (untouched_link k _ _ _ _
      (untouched_link k k _ _ _ (untouched_refl k _) hlist hn1) hentry hlist) hhead hn2

/-- Its sequence is the same too. -/
theorem meaning_other (L : Lists Node) (op : Op Node) (b : Node) (t : List Node)
    (hb : L b=some t) (hout : ∀ x∈op.args,x∉b::t) : meaning L op b=some t := by
  have hne : ∀ x∈op.args,b≠x := fun x hx e => hout x hx (e ▸ List.mem_cons_self)
  have hpush : ∀ (x head : Node) (s : List Node),x∈op.args → head∈op.args →
      assign (without L x) head s b=some t := by
    intro x head s hx hh
    rw [assign_other _ _ _ _ (hne head hh)]
    exact without_out L x b t hb (hout x hx)
  cases op with
  | initListHead list => rw [meaning,assign_other _ _ _ _ (hne list (by simp [Op.args])),hb]
  | listAdd new head => exact hpush new head _ (by simp [Op.args]) (by simp [Op.args])
  | listAddTail new head => exact hpush new head _ (by simp [Op.args]) (by simp [Op.args])
  | listDel entry => exact hpush entry entry _ (by simp [Op.args]) (by simp [Op.args])
  | listDelInit entry => exact hpush entry entry _ (by simp [Op.args]) (by simp [Op.args])
  | listReplaceInit old new =>
    have hold := hout old (by simp [Op.args])
    rw [List.mem_cons,not_or] at hold
    rw [meaning,replaced,if_neg (Ne.symm hold.1),if_neg (hne new (by simp [Op.args])),hb,
      Option.map_some]
    exact congrArg some (map_rename_of_not_mem old new t hold.2)
  | listMove list head => exact hpush list head _ (by simp [Op.args]) (by simp [Op.args])
  | listMoveTail list head => exact hpush list head _ (by simp [Op.args]) (by simp [Op.args])
  | listRotateLeft head => rw [meaning,assign_other _ _ _ _ (hne head (by simp [Op.args])),hb]
  | listCutPosition list head entry =>
    rw [meaning,assign_other _ _ _ _ (hne head (by simp [Op.args])),
      assign_other _ _ _ _ (hne list (by simp [Op.args])),hb]

/-- What the reading functions give for the sequence of a head. -/
structure Reads (k : Heap Node) (head : Node) (s : List Node) : Prop where
  linked : ∀ n∈head::s,k.prev (k.next n)=n ∧ k.next (k.prev n)=n
  forEach : ∀ fuel,s.length<fuel → listForEach k head fuel=some s
  forEachPrev : ∀ fuel,s.length<fuel → listForEachPrev k head fuel=some s.reverse
  empty : listEmpty k head=true ↔ s=[]
  emptyCareful : listEmptyCareful k head=true ↔ s=[]
  isLast : ∀ n∈s,listIsLast k n head=true ↔ s.getLast?=some n
  isSingular : listIsSingular k head=true ↔ s.length=1

omit [DecidableEq Node] in
theorem next_head (k : Heap Node) (head : Node) (s : List Node) (hr : Ring k (head::s))
    (hnd : (head::s).Nodup) : k.next head=head ↔ s=[] := by
  cases s with
  | nil => simp [((ring_singleton k head).mp hr).1]
  | cons x t =>
    rw [(ring_first k head x t hr).1]
    have hne : x≠head := fun e => (List.nodup_cons.mp hnd).1 (e ▸ List.mem_cons_self)
    simp [hne]

omit [DecidableEq Node] in
theorem prev_head (k : Heap Node) (head : Node) (s : List Node) (hr : Ring k (head::s)) :
    s=[] ∨ s.getLast?=some (k.prev head) := by
  rcases List.eq_nil_or_concat' s with rfl|⟨a,p,rfl⟩
  · exact Or.inl rfl
  · rw [(ring_last k head p a hr).2,List.getLast?_concat]
    exact Or.inr rfl

theorem reads_of_ring (k : Heap Node) (head : Node) (s : List Node) (hr : Ring k (head::s))
    (hnd : (head::s).Nodup) : Reads k head s := by
  have hhead : head∉s := (List.nodup_cons.mp hnd).1
  have hempty : listEmpty k head=true ↔ s=[] := by
    rw [listEmpty,decide_eq_true_eq]
    exact next_head k head s hr hnd
  constructor
  · intro n hn
    exact (ring_mem k _ hr n hn).2.2
  · exact fun fuel hf => walk_ring k head s fuel hr hhead hf
  · exact fun fuel hf => walk_ring_prev k head s fuel hr hhead hf
  · exact hempty
  · rw [listEmptyCareful,decide_eq_true_eq,next_head k head s hr hnd]
    constructor
    · exact fun h => h.1
    · intro hsame
      subst hsame
      obtain ⟨h1,h2⟩ := (ring_singleton k head).mp hr
      exact ⟨rfl,by rw [h1,h2]⟩
  · intro n hn
    rw [listIsLast,decide_eq_true_eq]
    constructor
    · intro hnext
      have hprev := (ring_mem k _ hr n (List.mem_cons_of_mem head hn)).2.2.1
      rw [hnext] at hprev
      rcases prev_head k head s hr with rfl|h
      · cases hn
      · rw [h,hprev]
    · intro hlast
      rcases prev_head k head s hr with rfl|h
      · cases hn
      · rw [hlast,Option.some.injEq] at h
        rw [h]
        exact (ring_mem k _ hr head List.mem_cons_self).2.2.2
  · rw [listIsSingular,decide_eq_true_eq,Bool.not_eq_true',← Bool.not_eq_true,hempty]
    constructor
    · intro hgiven
      obtain ⟨hne,heq⟩ := hgiven
      rcases prev_head k head s hr with h|h
      · exact absurd h hne
      · cases s with
        | nil => exact absurd rfl hne
        | cons x t =>
          rw [← heq,(ring_first k head x t hr).1] at h
          cases t with
          | nil => rfl
          | cons y t =>
            rw [List.getLast?_cons_cons] at h
            exact absurd (List.mem_of_getLast? h)
              (List.nodup_cons.mp (List.nodup_cons.mp hnd).2).1
    · intro hlen
      obtain ⟨x,rfl⟩ := List.length_eq_one_iff.mp hlen
      refine ⟨by simp,?_⟩
      rw [(ring_first k head x [] hr).1,(ring_last k head x [] hr).2]

/-- A sequence of calls each of which is allowed where it is made. -/
def AllowedRun (L : Lists Node) : List (Op Node) → Prop
  | [] => True
  | op::ops => Allowed L op ∧ AllowedRun (meaning L op) ops

theorem run_represents (k : Heap Node) (L : Lists Node) (ops : List (Op Node))
    (h : Represents k L) (ha : AllowedRun L ops) :
    Represents (run k ops) (ops.foldl meaning L) := by
  induction ops generalizing k L with
  | nil => exact h
  | cons op ops ih => exact ih (exec k op) (meaning L op) (exec_represents k L op h ha.1) ha.2

theorem allowedRun_append (L : Lists Node) (ops ops' : List (Op Node))
    (ha : AllowedRun L (ops++ops')) :
    AllowedRun L ops ∧ AllowedRun (ops.foldl meaning L) ops' := by
  induction ops generalizing L with
  | nil => exact ⟨trivial,ha⟩
  | cons op ops ih =>
    obtain ⟨h1,h2⟩ := ih (meaning L op) ha.2
    exact ⟨⟨ha.1,h1⟩,h2⟩

/-- Every run of allowed calls on disjoint circular lists: each head denotes the sequence of
the sequence operations, all reading functions agree with it, and every call leaves the lists
that hold none of its arguments as they are. -/
theorem lists_refine_sequences (k : Heap Node) (L : Lists Node) (ops : List (Op Node))
    (h : Represents k L) (ha : AllowedRun L ops) :
    Represents (run k ops) (ops.foldl meaning L) ∧
      (∀ head s,ops.foldl meaning L head=some s → Reads (run k ops) head s) ∧
      ∀ before op after,ops=before++op::after →
        ∀ b t,before.foldl meaning L b=some t → (∀ x∈op.args,x∉b::t) →
          (before++[op]).foldl meaning L b=some t ∧
            Untouched (run k before) (run k (before++[op])) (b::t) := by
  have hrun := run_represents k L ops h ha
  refine ⟨hrun,?_,?_⟩
  · intro head s hs
    exact reads_of_ring _ head s (hrun.ring head s hs) (hrun.disjoint.nodup head s hs)
  · intro before op after heq b t hb hout
    subst heq
    obtain ⟨h1,h2⟩ := allowedRun_append L before (op::after) ha
    have hbefore := run_represents k L before h h1
    simp only [run,List.foldl_append,List.foldl_cons,List.foldl_nil]
    exact ⟨meaning_other _ op b t hb hout,
      exec_untouched _ _ op b t hbefore h2.1 hb hout⟩

/-- Two empty lists, at 0 and at 1. -/
def twoEmpty : Lists Nat := fun a => if a=0 ∨ a=1 then some [] else none

theorem twoEmpty_represents : Represents ⟨id,id⟩ twoEmpty := by
  have hnil : ∀ a s,twoEmpty a=some s → s=[] := by
    intro a s ha
    simp only [twoEmpty] at ha
    split at ha
    · exact (Option.some.inj ha).symm
    · cases ha
  refine ⟨⟨?_,?_⟩,?_⟩
  · intro a s ha
    rw [hnil a s ha]
    exact List.nodup_singleton a
  · intro a b s t x ha hb hxa hxb
    rw [hnil a s ha,List.mem_singleton] at hxa
    rw [hnil b t hb,List.mem_singleton] at hxb
    rw [← hxa,hxb]
  · intro a s ha
    rw [hnil a s ha,ring_singleton]
    exact ⟨rfl,rfl⟩

theorem twoEmpty_allowed : AllowedRun twoEmpty [.listAdd 2 0,.listMoveTail 2 1] := by
  refine ⟨⟨?_,rfl,by decide⟩,⟨Or.inl ⟨0,[2],rfl,by decide⟩,rfl,by decide⟩,trivial⟩
  intro a s ha hm
  simp only [twoEmpty] at ha
  split at ha
  · next h =>
    rw [← Option.some.inj ha,List.mem_singleton] at hm
    omega
  · cases ha

theorem lists_refine_sequences_move :
    Represents (run (⟨id,id⟩ : Heap Nat) [.listAdd 2 0,.listMoveTail 2 1])
        ([Op.listAdd 2 0,.listMoveTail 2 1].foldl meaning twoEmpty) ∧
      Reads (run (⟨id,id⟩ : Heap Nat) [.listAdd 2 0,.listMoveTail 2 1]) 1 [2] := by
  have h := lists_refine_sequences (⟨id,id⟩ : Heap Nat) twoEmpty
    [.listAdd 2 0,.listMoveTail 2 1] twoEmpty_represents twoEmpty_allowed
  exact ⟨h.1,h.2.1 1 [2] rfl⟩

end IdearNiu.ListHead
