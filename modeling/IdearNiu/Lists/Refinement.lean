import IdearNiu.Lists.Sequences

set_option linter.style.nameCheck false

namespace IdearNiu.ListHead

open Rings

variable {Node : Type} [DecidableEq Node]

theorem __listDelEntry_eq (k : Heap Node) (e : Node) :
    __listDelEntry k e=link k (k.prev e) (k.next e) := rfl

theorem __listAdd_eq (k : Heap Node) (new prev next : Node) :
    __listAdd k new prev next=link (link k new next) prev new := rfl

theorem initListHead_eq (k : Heap Node) (n : Node) : initListHead k n=link k n n := rfl

theorem listDel_eq (k : Heap Node) (e : Node) :
    listDel k e=initListHead (__listDelEntry k e) e := rfl

/-- A list that holds neither of two linked nodes stays as it was. -/
theorem link_frame (k : Heap Node) (p q : Node) (c : List Node) (h : Ring k c) (hp : p∉c)
    (hq : q∉c) : Ring (link k p q) c := by
  apply ring_frame k _ c h
  intro x hx
  rw [link_next,link_prev,if_neg (ne_of_mem_of_not_mem hx hp),
    if_neg (ne_of_mem_of_not_mem hx hq)]
  exact ⟨rfl,rfl⟩

theorem initListHead_represents (k : Heap Node) (L : Lists Node) (n : Node)
    (h : Represents k L) (hn : ∀ a s,L a=some s → n∉s) :
    Represents (initListHead k n) (assign L n []) := by
  have hother : ∀ a s,L a=some s → a≠n → n∉a::s := by
    intro a s ha hne
    rw [List.mem_cons,not_or]
    exact ⟨Ne.symm hne,hn a s ha⟩
  constructor
  · apply disjoint_assign L n [] h.disjoint (List.nodup_singleton n)
    intro x hx b t hb hxb
    rw [List.mem_singleton.mp hx] at hxb
    by_contra hne
    exact hother b t hb hne hxb
  · intro a s ha
    rw [initListHead_eq]
    by_cases he : a=n
    · rw [he,assign_same,Option.some.injEq] at ha
      rw [he,← ha,ring_singleton,link_next,link_prev,if_pos rfl,if_pos rfl]
      exact ⟨rfl,rfl⟩
    · rw [assign_other L n a [] he] at ha
      exact link_frame k n n _ (h.ring a s ha) (hother a s ha he) (hother a s ha he)

omit [DecidableEq Node] in
/-- The ring of a list read from one of its entries on. -/
theorem ring_at (k : Heap Node) (L : Lists Node) (h : Represents k L) (a x : Node)
    (s t : List Node) (ha : L a=some (s++x::t)) : Ring k (x::(t++a::s)) :=
  ring_rotate k (a::s) (x::t) (h.ring a _ ha)

omit [DecidableEq Node] in
theorem neighbours_mem (k : Heap Node) (L : Lists Node) (h : Represents k L) (a x : Node)
    (s : List Node) (ha : L a=some s) (hx : x∈a::s) : k.next x∈a::s ∧ k.prev x∈a::s :=
  ⟨(ring_mem k _ (h.ring a s ha) x hx).1,(ring_mem k _ (h.ring a s ha) x hx).2.1⟩

/-- Taking an entry out of its list. -/
theorem __listDelEntry_represents (k : Heap Node) (L : Lists Node) (e : Node)
    (h : Represents k L) (he : Attached L e) :
    Represents (__listDelEntry k e) (without L e) := by
  refine ⟨disjoint_without L e h.disjoint,?_⟩
  intro b t hb
  obtain ⟨hbe,t',ht',rfl⟩ := without_some L e b t hb
  rw [__listDelEntry_eq]
  -- the list that e is on, as its head and its entries
  have hframe : ∀ a s,L a=some s → e∈a::s → a≠b →
      Ring (link k (k.prev e) (k.next e)) (b::t') := by
    intro a s ha hea hab
    obtain ⟨hnext,hprev⟩ := neighbours_mem k L h a e s ha hea
    apply link_frame k _ _ _ (h.ring b t' ht')
    · exact fun hm => hab (h.disjoint.apart a b s t' _ ha ht' hprev hm)
    · exact fun hm => hab (h.disjoint.apart a b s t' _ ha ht' hnext hm)
  rcases he with ⟨a,s,ha,hes⟩|hself
  · by_cases hab : a=b
    · rw [hab,ht',Option.some.injEq] at ha
      obtain ⟨s1,s2,hs⟩ := List.append_of_mem (ha ▸ hes)
      have hnd := (List.nodup_cons.mp (h.disjoint.nodup b t' ht')).2
      have herase : t'.erase e=s1++s2 := by
        rw [hs] at hnd ⊢
        rw [List.erase_append_right _
          (fun hm => (List.disjoint_of_nodup_append hnd) hm List.mem_cons_self),
          List.erase_cons_head]
      have hr := ring_at k L h b e s1 s2 (by rw [ht',hs])
      have hperm : (s2++b::s1).Nodup := by
        have hall := h.disjoint.nodup b t' ht'
        rw [hs,← List.cons_append] at hall
        exact (List.nodup_cons.mp
          ((List.perm_append_comm.nodup_iff).mp hall)).2
      have hrem := ring_remove k e (s2++b::s1) hr hperm (by simp)
      rw [herase]
      exact ring_rotate _ s2 (b::s1) hrem
    · have hmem : e∉t' := fun hm =>
        hab (h.disjoint.apart a b s t' e ha ht' (List.mem_cons_of_mem a hes)
          (List.mem_cons_of_mem b hm))
      rw [List.erase_of_not_mem hmem]
      exact hframe a s ha (List.mem_cons_of_mem a hes) hab
  · have hmem : e∉t' := fun hm => hbe
      (h.disjoint.apart b e t' [] e ht' hself (List.mem_cons_of_mem b hm) List.mem_cons_self)
    rw [List.erase_of_not_mem hmem]
    exact hframe e [] hself List.mem_cons_self (Ne.symm hbe)

/-- A node that is alone can be left out without touching the heap. -/
theorem represents_without (k : Heap Node) (L : Lists Node) (x : Node) (h : Represents k L)
    (hx : Alone L x) : Represents k (without L x) := by
  refine ⟨disjoint_without L x h.disjoint,?_⟩
  intro a s ha
  obtain ⟨hne,t,ht,rfl⟩ := without_some L x a s ha
  rw [List.erase_of_not_mem (fun hm => hne (hx a t ht (List.mem_cons_of_mem a hm)).1)]
  exact h.ring a t ht

theorem entries_without (L : Lists Node) (x head : Node) (hh : (L head).isSome)
    (hne : x≠head) : without L x head=some (entries (without L x) head) := by
  obtain ⟨s,hs⟩ := Option.isSome_iff_exists.mp hh
  rw [entries,without,if_neg (Ne.symm hne),hs]
  rfl

/-- A new node before a node of a list; how the list reads from its head on is given. -/
theorem insert_represents (k : Heap Node) (L : Lists Node) (new head x : Node)
    (s s' : List Node) (h : Represents k L) (hnew : ∀ a t,L a=some t → new∉a::t)
    (hs : L head=some s) (hx : x∈head::s) (hperm : s'.Perm (new::s))
    (hring : Ring (__listAdd k new (k.prev x) x) (head::s')) :
    Represents (__listAdd k new (k.prev x) x) (assign L head s') := by
  have hmem : ∀ y,y∈head::s' ↔ y=new ∨ y∈head::s := by
    intro y
    rw [List.mem_cons,hperm.mem_iff,List.mem_cons,List.mem_cons]
    tauto
  have hnd : (head::s').Nodup := by
    have hold := h.disjoint.nodup head s hs
    rw [List.nodup_cons] at hold ⊢
    rw [hperm.mem_iff,hperm.nodup_iff,List.nodup_cons,List.mem_cons,not_or]
    have hnot := hnew head s hs
    rw [List.mem_cons,not_or] at hnot
    exact ⟨⟨Ne.symm hnot.1,hold.1⟩,hnot.2,hold.2⟩
  constructor
  · apply disjoint_assign L head s' h.disjoint hnd
    intro y hy b t hb hyb
    rcases (hmem y).mp hy with rfl|hy
    · exact absurd hyb (hnew b t hb)
    · exact h.disjoint.apart b head t s y hb hs hyb hy
  · intro a t ha
    by_cases he : a=head
    · rw [he,assign_same,Option.some.injEq] at ha
      rw [he,← ha]
      exact hring
    · rw [assign_other L head a s' he] at ha
      have hout : ∀ y∈head::s,y∉a::t := fun y hy hm =>
        he (h.disjoint.apart a head t s y ha hs hm hy)
      have hprev := (neighbours_mem k L h head x s hs hx).2
      rw [__listAdd_eq]
      apply link_frame _ _ _ _ _ (hout _ hprev) (hnew a t ha)
      exact link_frame k _ _ _ (h.ring a t ha) (hnew a t ha) (hout x hx)

theorem listAddTail_represents (k : Heap Node) (L : Lists Node) (new head : Node)
    (s : List Node) (h : Represents k L) (hnew : ∀ a t,L a=some t → new∉a::t)
    (hs : L head=some s) : Represents (listAddTail k new head) (assign L head (s++[new])) := by
  apply insert_represents k L new head head s (s++[new]) h hnew hs List.mem_cons_self
  · exact List.perm_append_singleton new s
  · exact ring_insert k head new s (h.ring head s hs) (h.disjoint.nodup head s hs)
      (hnew head s hs)

theorem listAdd_represents (k : Heap Node) (L : Lists Node) (new head : Node)
    (s : List Node) (h : Represents k L) (hnew : ∀ a t,L a=some t → new∉a::t)
    (hs : L head=some s) : Represents (listAdd k new head) (assign L head (new::s)) := by
  obtain ⟨q,c,hq⟩ := List.exists_cons_of_ne_nil (show s++[head]≠[] by simp)
  have hring := h.ring head s hs
  have hnext : k.next head=q ∧ k.prev q=head := by
    rw [ring_cons,List.cons_append,hq] at hring
    exact (List.isChain_cons_cons.mp hring).1
  have hmem : ∀ y,y∈q::c ↔ y∈head::s := by
    intro y
    rw [← hq]
    exact (List.perm_append_singleton head s).mem_iff
  have hrot : Ring k (q::c) := by
    rw [← hq]
    exact ring_rotate k [head] s hring
  have hnd : (q::c).Nodup := by
    rw [← hq]
    exact (List.perm_append_singleton head s).nodup_iff.mpr (h.disjoint.nodup head s hs)
  have hins := ring_insert k q new c hrot hnd (fun hm => hnew head s hs ((hmem new).mp hm))
  rw [← hq,List.append_assoc] at hins
  have hres := insert_represents k L new head q s (new::s) h hnew hs
    ((hmem q).mp List.mem_cons_self) (List.Perm.refl _) (ring_rotate _ s [head,new] hins)
  rw [hnext.2] at hres
  rw [listAdd,hnext.1]
  exact hres

theorem listMove_represents (k : Heap Node) (L : Lists Node) (list head : Node)
    (h : Represents k L) (hl : Attached L list) (hh : (L head).isSome) (hne : list≠head) :
    Represents (listMove k list head)
      (assign (without L list) head (list::entries (without L list) head)) := by
  apply listAdd_represents _ (without L list) list head _ (__listDelEntry_represents k L list h hl)
  · exact fun a t ha => not_mem_without L list a t h.disjoint ha
  · exact entries_without L list head hh hne

theorem listMoveTail_represents (k : Heap Node) (L : Lists Node) (list head : Node)
    (h : Represents k L) (hl : Attached L list) (hh : (L head).isSome) (hne : list≠head) :
    Represents (listMoveTail k list head)
      (assign (without L list) head (entries (without L list) head++[list])) := by
  apply listAddTail_represents _ (without L list) list head _
    (__listDelEntry_represents k L list h hl)
  · exact fun a t ha => not_mem_without L list a t h.disjoint ha
  · exact entries_without L list head hh hne

theorem listDel_represents (k : Heap Node) (L : Lists Node) (entry : Node)
    (h : Represents k L) (he : Attached L entry) :
    Represents (listDel k entry) (assign (without L entry) entry []) := by
  rw [listDel_eq]
  apply initListHead_represents _ _ entry (__listDelEntry_represents k L entry h he)
  intro a s ha hm
  exact not_mem_without L entry a s h.disjoint ha (List.mem_cons_of_mem a hm)

theorem listDelInit_represents (k : Heap Node) (L : Lists Node) (entry : Node)
    (h : Represents k L) (he : Attached L entry) :
    Represents (listDelInit k entry) (assign (without L entry) entry []) := by
  have hdel := listDel_represents k L entry h he
  have hinit := initListHead_represents _ _ entry hdel (by
    intro a s ha hm
    have hin := hdel.disjoint.apart a entry s [] entry ha (assign_same _ _ _)
      (List.mem_cons_of_mem a hm) List.mem_cons_self
    rw [hin,assign_same,Option.some.injEq] at ha
    rw [← ha] at hm
    cases hm)
  have hsame : assign (assign (without L entry) entry []) entry []=
      assign (without L entry) entry [] := Function.update_idem _ _ _
  rw [hsame] at hinit
  exact hinit

/-- An entry is no head, and taking it out leaves the lists without it as they are. -/
theorem without_other (L : Lists Node) (x a b : Node) (s : List Node) (h : Disjoint L)
    (ha : L a=some s) (hx : x∈s) (hb : b≠a) : without L x b=L b := by
  have hxa : x≠a := fun e => (List.nodup_cons.mp (h.nodup a s ha)).1 (e ▸ hx)
  have hout : ∀ t,L b=some t → x∉b::t := fun t ht hm =>
    hb (h.apart b a t s x ht ha hm (List.mem_cons_of_mem a hx))
  rw [without]
  by_cases he : b=x
  · rw [if_pos he]
    cases ht : L b with
    | none => rfl
    | some t => exact absurd (he ▸ List.mem_cons_self) (hout t ht)
  · rw [if_neg he]
    cases ht : L b with
    | none => rfl
    | some t =>
      rw [Option.map_some,List.erase_of_not_mem (fun hm => hout t ht (List.mem_cons_of_mem b hm))]

theorem listRotateLeft_represents (k : Heap Node) (L : Lists Node) (head : Node)
    (h : Represents k L) (hh : (L head).isSome) :
    Represents (listRotateLeft k head) (assign L head ((entries L head).rotate 1)) := by
  obtain ⟨s,hs⟩ := Option.isSome_iff_exists.mp hh
  have hent : entries L head=s := by rw [entries,hs]; rfl
  have hring := h.ring head s hs
  have hnd := h.disjoint.nodup head s hs
  rw [hent,listRotateLeft]
  cases s with
  | nil =>
    have hnext := ((ring_singleton k head).mp hring).1
    rw [if_neg (by simp [listEmpty,hnext]),List.rotate_nil,assign,← hs,Function.update_eq_self]
    exact h
  | cons x t =>
    have hnext := (ring_first k head x t hring).1
    have hne : x≠head := fun e => (List.nodup_cons.mp hnd).1 (e ▸ List.mem_cons_self)
    rw [if_pos (by simp [listEmpty,hnext,hne]),hnext]
    have hmove := listMoveTail_represents k L x head h
      (Or.inl ⟨head,x::t,hs,List.mem_cons_self⟩) hh hne
    have hwith : without L x head=some t := by
      rw [without,if_neg (Ne.symm hne),hs,Option.map_some,List.erase_cons_head]
    have hsame : assign (without L x) head (entries (without L x) head++[x])=
        assign L head ((x::t).rotate 1) := by
      funext b
      by_cases hb : b=head
      · rw [hb,assign_same,assign_same,entries,hwith,List.rotate_cons_succ,List.rotate_zero]
        rfl
      · rw [assign_other _ _ _ _ hb,assign_other _ _ _ _ hb,
          without_other L x head b (x::t) h.disjoint hs List.mem_cons_self hb]
    rw [hsame] at hmove
    exact hmove

theorem __listCutPosition_eq (k : Heap Node) (list head entry : Node) :
    __listCutPosition k list head entry=
      link (link (link k list (k.next head)) entry list) head (k.next entry) := by
  simp only [__listCutPosition,link,setNext,setPrev,Function.update_self]

/-- Cutting moves the first entries of a list to another head. -/
theorem __listCutPosition_represents (k : Heap Node) (L : Lists Node) (list head entry : Node)
    (s1 s2 : List Node) (h : Represents k L) (hne : list≠head)
    (hl : ∀ a s,L a=some s → list∉s) (hs : L head=some (s1++[entry]++s2)) :
    Represents (__listCutPosition k list head entry)
      (assign (assign L list (s1++[entry])) head s2) := by
  have hnd := h.disjoint.nodup head _ hs
  have hnl : list∉head::(s1++[entry]++s2) := by
    rw [List.mem_cons,not_or]
    exact ⟨hne,hl head _ hs⟩
  have hcut := ring_cut k head entry list s1 s2 (h.ring head _ hs) hnd hnl
  have hcomm : assign (assign L list (s1++[entry])) head s2=
      assign (assign L head s2) list (s1++[entry]) := Function.update_comm hne _ _ L
  have hrest : (head::s2).Nodup :=
    hnd.sublist (List.Sublist.cons_cons head (List.sublist_append_right _ _))
  have hfirst : (s1++[entry]).Nodup :=
    (List.nodup_cons.mp hnd).2.sublist (List.sublist_append_left _ _)
  have hold : ∀ y∈s1++[entry],y∈head::(s1++[entry]++s2) := fun y hy =>
    List.mem_cons_of_mem head (List.mem_append_left s2 hy)
  have hapart : ∀ y∈s1++[entry],y∉head::s2 := by
    intro y hy hm
    rcases List.mem_cons.mp hm with rfl|hm
    · exact (List.nodup_cons.mp hnd).1 (List.mem_append_left s2 hy)
    · exact (List.disjoint_of_nodup_append (List.nodup_cons.mp hnd).2) hy hm
  have hd1 : Disjoint (assign L head s2) := by
    apply disjoint_assign L head s2 h.disjoint hrest
    intro x hx b t hb hxb
    apply h.disjoint.apart b head t _ x hb hs hxb
    rcases List.mem_cons.mp hx with rfl|hx
    · exact List.mem_cons_self
    · exact List.mem_cons_of_mem head (List.mem_append_right _ hx)
  rw [hcomm,__listCutPosition_eq]
  constructor
  · apply disjoint_assign _ list _ hd1
    · rw [List.nodup_cons]
      exact ⟨fun hm => hnl (hold list hm),hfirst⟩
    · intro x hx b t hb hxb
      by_cases hbh : b=head
      · rw [hbh,assign_same,Option.some.injEq] at hb
        rw [hbh,← hb] at hxb
        rcases List.mem_cons.mp hx with rfl|hx
        · rcases List.mem_cons.mp hxb with hxh|hx2
          · exact absurd hxh hne
          · exact absurd (List.mem_cons_of_mem head (List.mem_append_right _ hx2)) hnl
        · exact absurd hxb (hapart x hx)
      · rw [assign_other _ _ _ _ hbh] at hb
        rcases List.mem_cons.mp hx with rfl|hx
        · rcases List.mem_cons.mp hxb with hxh|hx2
          · exact hxh.symm
          · exact absurd hx2 (hl b t hb)
        · exact absurd (h.disjoint.apart b head t _ x hb hs hxb (hold x hx)) hbh
  · intro a t ha
    by_cases hal : a=list
    · rw [hal,assign_same,Option.some.injEq] at ha
      rw [hal,← ha]
      exact hcut.1
    · rw [assign_other _ _ _ _ hal] at ha
      by_cases hah : a=head
      · rw [hah,assign_same,Option.some.injEq] at ha
        rw [hah,← ha]
        exact hcut.2
      · rw [assign_other _ _ _ _ hah] at ha
        have hout : ∀ y∈head::(s1++[entry]++s2),y∉a::t := fun y hy hm =>
          hah (h.disjoint.apart a head t _ y ha hs hm hy)
        have hlist : list∉a::t := by
          rw [List.mem_cons,not_or]
          exact ⟨Ne.symm hal,hl a t ha⟩
        have hentry : entry∈head::(s1++[entry]++s2) := hold entry (by simp)
        have hn1 := (neighbours_mem k L h head head _ hs List.mem_cons_self).1
        have hn2 := (neighbours_mem k L h head entry _ hs hentry).1
        apply link_frame _ _ _ _ _ (hout head List.mem_cons_self) (hout _ hn2)
        apply link_frame _ _ _ _ _ (hout entry hentry) hlist
        exact link_frame k _ _ _ (h.ring a t ha) hlist (hout _ hn1)

/-- The new node for the old one. -/
def rename (old new x : Node) : Node := if x=old then new else x

theorem rename_injective (old new x y : Node) (hx : x≠new) (hy : y≠new)
    (h : rename old new x=rename old new y) : x=y := by
  simp only [rename] at h
  split_ifs at h with h1 h2 h2
  · rw [h1,h2]
  · exact absurd h.symm hy
  · exact absurd h hx
  · exact h

theorem map_rename_of_not_mem (old new : Node) (l : List Node) (h : old∉l) :
    l.map (rename old new)=l := by
  conv_rhs => rw [← List.map_id l]
  apply List.map_congr_left
  intro x hx
  exact if_neg (ne_of_mem_of_not_mem hx h)

/-- The lists between the two halves of list_replace_init. -/
def renamed (L : Lists Node) (old new : Node) : Lists Node :=
  fun a => if a=old then none else if a=new then L old
    else (L a).map (·.map (rename old new))

theorem replaced_eq (L : Lists Node) (old new : Node) :
    replaced L old new=assign (renamed L old new) old [] := by
  funext a
  by_cases h : a=old
  · rw [h,assign_same,replaced,if_pos rfl]
  · rw [assign_other _ _ _ _ h,replaced,renamed,if_neg h,if_neg h]
    rfl

theorem renamed_some (L : Lists Node) (old new b : Node) (u : List Node) (h : Disjoint L)
    (hne : new≠old) (hb : renamed L old new b=some u) :
    ∃ a t,L a=some t ∧ a≠new ∧ b::u=(a::t).map (rename old new) := by
  rw [renamed] at hb
  by_cases hbo : b=old
  · rw [if_pos hbo] at hb
    cases hb
  · rw [if_neg hbo] at hb
    by_cases hbn : b=new
    · rw [if_pos hbn] at hb
      refine ⟨old,u,hb,Ne.symm hne,?_⟩
      rw [List.map_cons,map_rename_of_not_mem old new u (List.nodup_cons.mp (h.nodup old u hb)).1,
        hbn,rename,if_pos rfl]
    · rw [if_neg hbn,Option.map_eq_some_iff] at hb
      obtain ⟨t,ht,rfl⟩ := hb
      refine ⟨b,t,ht,hbn,?_⟩
      rw [List.map_cons]
      congr 1
      exact (if_neg hbo).symm

theorem disjoint_renamed (L : Lists Node) (old new : Node) (h : Disjoint L) (hne : new≠old)
    (hnew : Alone L new) : Disjoint (renamed L old new) := by
  have hout : ∀ a t,L a=some t → a≠new → ∀ x∈a::t,x≠new := by
    intro a t ha han x hx heq
    subst heq
    exact han (hnew a t ha hx).1
  constructor
  · intro b u hb
    obtain ⟨a,t,ha,han,he⟩ := renamed_some L old new b u h hne hb
    rw [he]
    apply List.Nodup.map_on _ (h.nodup a t ha)
    intro x hx y hy hxy
    exact rename_injective old new x y (hout a t ha han x hx) (hout a t ha han y hy) hxy
  · intro b c u v x hb hc hxb hxc
    obtain ⟨a,t,ha,han,he⟩ := renamed_some L old new b u h hne hb
    obtain ⟨a',t',ha',han',he'⟩ := renamed_some L old new c v h hne hc
    rw [he,List.mem_map] at hxb
    rw [he',List.mem_map] at hxc
    obtain ⟨y,hy,hyx⟩ := hxb
    obtain ⟨z,hz,hzx⟩ := hxc
    have hyz := rename_injective old new y z (hout a t ha han y hy) (hout a' t' ha' han' z hz)
      (hyx.trans hzx.symm)
    have haa := h.apart a a' t t' y ha ha' hy (hyz ▸ hz)
    rw [List.map_cons,List.cons.injEq] at he he'
    rw [he.1,he'.1,haa]

/-- Of a node with neighbours the four writes make two links. -/
theorem listReplace_eq (k : Heap Node) (old new : Node) (hself : k.next old≠old) :
    listReplace k old new=link (link k new (k.next old)) (k.prev old) new := by
  simp only [listReplace,link,setNext,setPrev,Function.update_self,
    Function.update_of_ne (Ne.symm hself)]

/-- Of a node by itself they make the new node one by itself. -/
theorem listReplace_self (k : Heap Node) (old new : Node) (hself : k.next old=old) :
    listReplace k old new=link (link k new old) new new := by
  simp only [listReplace,link,setNext,setPrev,Function.update_self,hself]

theorem listReplace_represents (k : Heap Node) (L : Lists Node) (old new a : Node)
    (s : List Node) (h : Represents k L) (hnew : Alone L new) (hne : new≠old)
    (ha : L a=some s) (ho : old∈a::s) :
    Represents (listReplace k old new) (renamed L old new) := by
  have hnr : new∉a::s := by
    intro hm
    obtain ⟨h1,h2⟩ := hnew a s ha hm
    rw [h1,h2,List.mem_singleton] at ho
    exact hne ho.symm
  have hnd := h.disjoint.nodup a s ha
  obtain ⟨c,d,hcd⟩ := List.append_of_mem ho
  have hring : Ring k (old::(d++c)) := by
    have hr := h.ring a s ha
    rw [hcd] at hr
    exact ring_rotate k c (old::d) hr
  have hold : old∉d++c ∧ (d++c).Nodup := by
    rw [hcd] at hnd
    exact List.nodup_cons.mp (List.perm_append_comm.nodup_iff.mp hnd)
  have hmem : new∉d++c := by
    rw [hcd] at hnr
    simp only [List.mem_append,List.mem_cons,not_or] at hnr ⊢
    exact ⟨hnr.2.2,hnr.1⟩
  have hmap : (a::s).map (rename old new)=c++new::d := by
    have hc := (List.mem_append.not.mp hold.1)
    rw [not_or] at hc
    rw [hcd,List.map_append,List.map_cons,map_rename_of_not_mem _ _ _ hc.1,
      map_rename_of_not_mem _ _ _ hc.2,rename,if_pos rfl]
  -- the ring with the new node, and the nodes that keep their pointers
  have hres : Ring (listReplace k old new) (c++new::d) ∧ ∀ b t,L b=some t → b≠a → b≠new →
      Ring (listReplace k old new) (b::t) := by
    have hout : ∀ b t,L b=some t → b≠a → ∀ y∈a::s,y∉b::t := fun b t hb hba y hy hm =>
      hba (h.disjoint.apart b a t s y hb ha hm hy)
    have hnb : ∀ b t,L b=some t → b≠new → new∉b::t := fun b t hb hbn hm =>
      hbn (hnew b t hb hm).1
    by_cases ht : d++c=[]
    · rw [ht] at hring
      have hself := (ring_singleton k old).mp hring
      obtain ⟨hd,hc⟩ := List.append_eq_nil_iff.mp ht
      rw [listReplace_self k old new hself.1,hd,hc]
      constructor
      · rw [List.nil_append,ring_singleton]
        simp
      · intro b t hb hba hbn
        apply link_frame _ _ _ _ _ (hnb b t hb hbn) (hnb b t hb hbn)
        exact link_frame k _ _ _ (h.ring b t hb) (hnb b t hb hbn) (hout b t hb hba old ho)
    · have hself : k.next old≠old := by
        obtain ⟨q,l,hl⟩ := List.exists_cons_of_ne_nil ht
        rw [hl] at hring hold
        rw [(ring_first k old q l hring).1]
        exact fun e => hold.1 (e ▸ List.mem_cons_self)
      obtain ⟨hn,hp⟩ := neighbours_mem k L h a old s ha ho
      rw [listReplace_eq k old new hself]
      constructor
      · exact ring_rotate _ (new::d) c
          (ring_replace k old new (d++c) hring hold.2 hmem ht)
      · intro b t hb hba hbn
        apply link_frame _ _ _ _ _ (hout b t hb hba _ hp) (hnb b t hb hbn)
        exact link_frame k _ _ _ (h.ring b t hb) (hnb b t hb hbn) (hout b t hb hba _ hn)
  refine ⟨disjoint_renamed L old new h.disjoint hne hnew,?_⟩
  intro b u hb
  obtain ⟨b',t,hb',hbn,he⟩ := renamed_some L old new b u h.disjoint hne hb
  rw [he]
  by_cases hba : b'=a
  · rw [hba,ha,Option.some.injEq] at hb'
    rw [hba,← hb',hmap]
    exact hres.1
  · rw [map_rename_of_not_mem _ _ _ (fun hm =>
      hba (h.disjoint.apart b' a t s old hb' ha hm ho))]
    exact hres.2 b' t hb' hba hbn

theorem listReplaceInit_represents (k : Heap Node) (L : Lists Node) (old new a : Node)
    (s : List Node) (h : Represents k L) (hnew : Alone L new) (hne : new≠old)
    (ha : L a=some s) (ho : old∈a::s) :
    Represents (listReplaceInit k old new) (replaced L old new) := by
  rw [replaced_eq,listReplaceInit]
  apply initListHead_represents _ _ old (listReplace_represents k L old new a s h hnew hne ha ho)
  intro b u hb hm
  obtain ⟨b',t,-,-,he⟩ := renamed_some L old new b u h.disjoint hne hb
  have hin : old∈(b'::t).map (rename old new) := by
    rw [← he]
    exact List.mem_cons_of_mem b hm
  obtain ⟨y,-,hy⟩ := List.mem_map.mp hin
  simp only [rename] at hy
  split_ifs at hy with hyo
  · exact hne hy
  · exact hyo hy

end IdearNiu.ListHead
