import IdearNiu.Lists.ListHead

set_option linter.style.nameCheck false

namespace IdearNiu.ListHead

open Rings

/-- The sequence of entries that each list head denotes. -/
abbrev Lists (Node : Type) := Node → Option (List Node)

variable {Node : Type} [DecidableEq Node]

def assign (L : Lists Node) (head : Node) (s : List Node) : Lists Node :=
  Function.update L head (some s)

/-- The same lists, with a node in none of them. -/
def without (L : Lists Node) (x : Node) : Lists Node :=
  fun a => if a=x then none else (L a).map (·.erase x)

def entries (L : Lists Node) (head : Node) : List Node := (L head).getD []

/-- A new head or entry in the place of an old one, which is left as an empty list. -/
def replaced (L : Lists Node) (old new : Node) : Lists Node :=
  fun a => if a=old then some [] else if a=new then L old
    else (L a).map (·.map (fun x => if x=old then new else x))

/-- What each call does to the sequences. -/
def meaning (L : Lists Node) : Op Node → Lists Node
  | .initListHead list => assign L list []
  | .listAdd new head => assign (without L new) head (new::entries (without L new) head)
  | .listAddTail new head => assign (without L new) head (entries (without L new) head++[new])
  | .listDel entry => assign (without L entry) entry []
  | .listDelInit entry => assign (without L entry) entry []
  | .listReplaceInit old new => replaced L old new
  | .listMove list head => assign (without L list) head (list::entries (without L list) head)
  | .listMoveTail list head =>
    assign (without L list) head (entries (without L list) head++[list])
  | .listRotateLeft head => assign L head ((entries L head).rotate 1)
  | .listCutPosition list head entry =>
    assign (assign L list ((entries L head).takeWhile (·≠entry)++[entry])) head
      ((entries L head).dropWhile (·≠entry)).tail

/-- A node in no list, or one that is a list by itself. -/
def Alone (L : Lists Node) (x : Node) : Prop := ∀ a s,L a=some s → x∈a::s → a=x ∧ s=[]

/-- An entry of a list, or a node that is a list by itself. -/
def Attached (L : Lists Node) (x : Node) : Prop := (∃ a s,L a=some s ∧ x∈s) ∨ L x=some []

/-- The preconditions of the calls. -/
def Allowed (L : Lists Node) : Op Node → Prop
  | .initListHead list => ∀ a s,L a=some s → list∉s
  | .listAdd new head => Alone L new ∧ (L head).isSome ∧ new≠head
  | .listAddTail new head => Alone L new ∧ (L head).isSome ∧ new≠head
  | .listDel entry => Attached L entry
  | .listDelInit entry => Attached L entry
  | .listReplaceInit old new => Alone L new ∧ new≠old ∧ ∃ a s,L a=some s ∧ old∈a::s
  | .listMove list head => Attached L list ∧ (L head).isSome ∧ list≠head
  | .listMoveTail list head => Attached L list ∧ (L head).isSome ∧ list≠head
  | .listRotateLeft head => (L head).isSome
  | .listCutPosition list head entry =>
    list≠head ∧ (∀ a s,L a=some s → list∉s) ∧ ∃ s,L head=some s ∧ entry∈s

/-- Pairwise disjoint lists without repetition. -/
structure Disjoint (L : Lists Node) : Prop where
  nodup : ∀ a s,L a=some s → (a::s).Nodup
  apart : ∀ a b s t x,L a=some s → L b=some t → x∈a::s → x∈b::t → a=b

/-- A heap whose circular lists are the given sequences. -/
structure Represents (k : Heap Node) (L : Lists Node) : Prop where
  disjoint : Disjoint L
  ring : ∀ a s,L a=some s → Ring k (a::s)

theorem assign_same (L : Lists Node) (a : Node) (s : List Node) : assign L a s a=some s :=
  Function.update_self a _ L

theorem assign_other (L : Lists Node) (a b : Node) (s : List Node) (h : b≠a) :
    assign L a s b=L b :=
  Function.update_of_ne h _ L

/-- The lists stay disjoint when a head gets nodes that are in no other list. -/
theorem disjoint_assign (L : Lists Node) (a : Node) (s : List Node) (h : Disjoint L)
    (hs : (a::s).Nodup) (hfree : ∀ x∈a::s,∀ b t,L b=some t → x∈b::t → b=a) :
    Disjoint (assign L a s) := by
  constructor
  · intro b t hb
    by_cases he : b=a
    · rw [he,assign_same,Option.some.injEq] at hb
      rw [he,← hb]
      exact hs
    · rw [assign_other L a b s he] at hb
      exact h.nodup b t hb
  · intro b c t u x hb hc hxb hxc
    by_cases heb : b=a
    · by_cases hec : c=a
      · rw [heb,hec]
      · rw [heb,assign_same,Option.some.injEq] at hb
        rw [assign_other L a c s hec] at hc
        rw [heb,← hb] at hxb
        rw [heb,hfree x hxb c u hc hxc]
    · rw [assign_other L a b s heb] at hb
      by_cases hec : c=a
      · rw [hec,assign_same,Option.some.injEq] at hc
        rw [hec,← hc] at hxc
        rw [hec,hfree x hxc b t hb hxb]
      · rw [assign_other L a c s hec] at hc
        exact h.apart b c t u x hb hc hxb hxc

theorem without_some (L : Lists Node) (x a : Node) (s : List Node)
    (h : without L x a=some s) : a≠x ∧ ∃ t,L a=some t ∧ s=t.erase x := by
  rw [without] at h
  by_cases he : a=x
  · rw [if_pos he] at h
    cases h
  · rw [if_neg he,Option.map_eq_some_iff] at h
    obtain ⟨t,ht,hs⟩ := h
    exact ⟨he,t,ht,hs.symm⟩

theorem disjoint_without (L : Lists Node) (x : Node) (h : Disjoint L) : Disjoint (without L x) := by
  constructor
  · intro a s ha
    obtain ⟨-,t,ht,rfl⟩ := without_some L x a s ha
    exact (h.nodup a t ht).sublist (List.Sublist.cons_cons a List.erase_sublist)
  · intro a b s t y ha hb hya hyb
    obtain ⟨-,s',hs,rfl⟩ := without_some L x a s ha
    obtain ⟨-,t',ht,rfl⟩ := without_some L x b t hb
    exact h.apart a b s' t' y hs ht
      ((List.Sublist.cons_cons a List.erase_sublist).subset hya)
      ((List.Sublist.cons_cons b List.erase_sublist).subset hyb)

/-- The node taken out is in no list. -/
theorem not_mem_without (L : Lists Node) (x a : Node) (s : List Node) (h : Disjoint L)
    (ha : without L x a=some s) : x∉a::s := by
  obtain ⟨hne,t,ht,rfl⟩ := without_some L x a s ha
  have hnd := (List.nodup_cons.mp (h.nodup a t ht)).2
  rw [List.mem_cons,not_or]
  exact ⟨Ne.symm hne,hnd.not_mem_erase⟩

end IdearNiu.ListHead
