import IdearNiu.Framework.SlotTables

namespace IdearNiu.Dm

open SlotTables

def maxDriver : Nat := 32

/-- A driver name: the bytes before the terminator, as strcmp compares them. -/
abbrev Name := List UInt8

section

variable {W : Type}

/-- Operations act on a world W of memory and devices; a null pointer is none. -/
structure DriverOps (W : Type) where
  read : Option (Nat → Int → W → Int × W)
  write : Option (Nat → Int → W → Int × W)
  ioctl : Option (BitVec 32 → BitVec 64 → W → Int × W)

structure Driver (W : Type) where
  fd : Int
  driverName : Option Name
  ops : Option (DriverOps W)

/-- The global array `drivers`. -/
structure Drivers (W : Type) where
  slots : List (Driver W)
  length_slots : slots.length=maxDriver

def Drivers.set (d : Drivers W) (i : Nat) (s : Driver W) : Drivers W where
  slots := d.slots.set i s
  length_slots := by rw [List.length_set,d.length_slots]

/-- Static storage: every slot is zero. -/
def initial : Drivers W where
  slots := List.replicate maxDriver ⟨0,none,none⟩
  length_slots := by rw [List.length_replicate]

def dmOpen (d : Drivers W) (name : Option Name) : Int :=
  match name with
  | none => -1
  | some n =>
    let i := first Driver.driverName n d.slots
    if i < maxDriver then i else -1

/-- The operations in a slot; there are none outside the array. -/
def slotOps (d : Drivers W) (fd : Int) : Option (DriverOps W) :=
  d.slots[fd.toNat]?.bind Driver.ops

def dmRead (d : Drivers W) (fd : Int) (buf : Nat) (count : Int) (w : W) : Int × W :=
  if fd<0 ∨ fd ≥ maxDriver ∨ buf=0 ∨ count≤0 then (-1,w)
  else match (slotOps d fd).bind DriverOps.read with
    | some read => read buf count w
    | none => (-1,w)

def dmWrite (d : Drivers W) (fd : Int) (buf : Nat) (count : Int) (w : W) : Int × W :=
  if fd<0 ∨ fd ≥ maxDriver ∨ buf=0 ∨ count≤0 then (-1,w)
  else match (slotOps d fd).bind DriverOps.write with
    | some write => write buf count w
    | none => (-1,w)

def dmIoctl (d : Drivers W) (fd : Int) (cmd : BitVec 32) (arg : BitVec 64) (w : W) :
    Int × W :=
  if fd<0 ∨ fd ≥ maxDriver then (-1,w)
  else match (slotOps d fd).bind DriverOps.ioctl with
    | some ioctl => ioctl cmd arg w
    | none => (-1,w)

def driverRegister (d : Drivers W) (name : Option Name) (ops : Option (DriverOps W)) :
    Int × Drivers W :=
  match name,ops with
  | some n,some o =>
    let i := firstFree Driver.driverName d.slots
    if i ≥ maxDriver then (-1,d) else (0,d.set i ⟨i,some n,some o⟩)
  | _,_ => (-1,d)

def driverDeregister (d : Drivers W) (driverName : Option Name) : Drivers W :=
  match driverName with
  | none => d
  | some n =>
    let i := first Driver.driverName n d.slots
    if i ≥ maxDriver then d else d.set i ⟨-1,none,none⟩

inductive Call (W : Type) where
  | register (name : Option Name) (ops : Option (DriverOps W))
  | deregister (name : Option Name)

/-- A call and what it returns; driver_deregister is void. -/
def Call.perform (d : Drivers W) : Call W → Int × Drivers W
  | .register name ops => driverRegister d name ops
  | .deregister name => (0,driverDeregister d name)

def Call.name : Call W → Option Name
  | .register name _ => name
  | .deregister name => name

def run (d : Drivers W) : List (Call W) → Drivers W
  | [] => d
  | c::cs => run (c.perform d).2 cs

/-- The abstract registry: what each name stands for. -/
abbrev Registry (W : Type) := Name → Option (DriverOps W)

/-- A registration that returned 0 binds its name; a deregistration unbinds it. -/
def record (m : Registry W) (c : Call W) (ret : Int) : Registry W :=
  match c with
  | .register (some n) (some o) => if ret=0 then Function.update m n (some o) else m
  | .deregister (some n) => Function.update m n none
  | _ => m

/-- What the names stand for after the calls of a run, by the results they returned. -/
def meant (d : Drivers W) (m : Registry W) : List (Call W) → Registry W
  | [] => m
  | c::cs => meant (c.perform d).2 (record m c (c.perform d).1) cs

/-- Reading, writing and controlling through fd reach the operations o. -/
structure Reaches (d : Drivers W) (fd : Int) (o : DriverOps W) : Prop where
  read : ∀ buf count w,dmRead d fd buf count w=
    if buf=0 ∨ count≤0 then (-1,w) else o.read.elim (-1,w) (fun f => f buf count w)
  write : ∀ buf count w,dmWrite d fd buf count w=
    if buf=0 ∨ count≤0 then (-1,w) else o.write.elim (-1,w) (fun f => f buf count w)
  ioctl : ∀ cmd arg w,dmIoctl d fd cmd arg w=
    o.ioctl.elim (-1,w) (fun f => f cmd arg w)

/-- The table shows the partial map m. -/
structure Shows (d : Drivers W) (m : Registry W) : Prop where
  absent : ∀ n,dmOpen d (some n)=-1 ↔ m n=none
  present : ∀ n o,m n=some o → ∃ i < maxDriver,dmOpen d (some n)=i ∧ Reaches d i o

/-- Nothing observable of the name n differs between the tables. -/
structure SameFor (n : Name) (d d' : Drivers W) : Prop where
  opened : dmOpen d' (some n)=dmOpen d (some n)
  read : dmRead d' (dmOpen d (some n))=dmRead d (dmOpen d (some n))
  write : dmWrite d' (dmOpen d (some n))=dmWrite d (dmOpen d (some n))
  ioctl : dmIoctl d' (dmOpen d (some n))=dmIoctl d (dmOpen d (some n))

/-- The call registers no name that a slot of a table with room still holds. -/
def fresh (d : Drivers W) : Call W → Prop
  | .register (some n) (some _) =>
    first Driver.driverName n d.slots=maxDriver ∨ firstFree Driver.driverName d.slots=maxDriver
  | _ => True

def AllFresh (d : Drivers W) : List (Call W) → Prop
  | [] => True
  | c::cs => fresh d c ∧ AllFresh (c.perform d).2 cs

theorem first_le (d : Drivers W) (n : Name) :
    first Driver.driverName n d.slots ≤ maxDriver :=
  d.length_slots ▸ List.findIdx_le_length

theorem dmOpen_eq_neg_one (d : Drivers W) (n : Name) :
    dmOpen d (some n)=-1 ↔ first Driver.driverName n d.slots=maxDriver := by
  have hle := first_le d n
  simp only [dmOpen]
  split
  · constructor <;> intro h <;> omega
  · exact ⟨fun _ => by omega,fun _ => rfl⟩

theorem dmOpen_eq_first (d : Drivers W) (n : Name)
    (h : first Driver.driverName n d.slots < maxDriver) :
    dmOpen d (some n)=first Driver.driverName n d.slots := by
  simp only [dmOpen,h,if_true]

theorem reaches_slot (d : Drivers W) (i : Nat) (s : Driver W) (o : DriverOps W)
    (hi : i < maxDriver) (hs : d.slots[i]?=some s) (ho : s.ops=some o) : Reaches d i o := by
  have hslot : slotOps d i=some o := by
    rw [slotOps,Int.toNat_natCast,hs,Option.bind_some,ho]
  have hnot : ¬(i : Int)<0 := by omega
  have hin : ¬(i : Int) ≥ maxDriver := by omega
  constructor
  · intro buf count w
    simp only [dmRead,hnot,hin,false_or,hslot,Option.bind_some]
    cases o.read <;> rfl
  · intro buf count w
    simp only [dmWrite,hnot,hin,false_or,hslot,Option.bind_some]
    cases o.write <;> rfl
  · intro cmd arg w
    simp only [dmIoctl,hnot,hin,false_or,if_false,hslot,Option.bind_some]
    cases o.ioctl <;> rfl

/-- The slots and the partial map agree, and no name holds two slots. -/
structure Inv (d : Drivers W) (m : Registry W) : Prop where
  distinct : Distinct Driver.driverName d.slots
  held : ∀ (i : Nat) (s : Driver W) (n : Name),d.slots[i]?=some s → s.driverName=some n →
    ∃ o,s.ops=some o ∧ m n=some o
  bound : ∀ n o,m n=some o → ∃ (i : Nat) (s : Driver W),d.slots[i]?=some s ∧
    s.driverName=some n

theorem Inv.shows {d : Drivers W} {m : Registry W} (h : Inv d m) : Shows d m := by
  have hlt : ∀ n o,m n=some o → first Driver.driverName n d.slots < maxDriver := by
    intro n o hm
    obtain ⟨i,s,hs,hn⟩ := h.bound n o hm
    have := first_lt hs hn
    rwa [d.length_slots] at this
  constructor
  · intro n
    rw [dmOpen_eq_neg_one]
    constructor
    · intro hfirst
      cases hm : m n with
      | none => rfl
      | some o =>
        have := hlt n o hm
        omega
    · intro hm
      by_contra hne
      have hle := first_le d n
      have hin : first Driver.driverName n d.slots<d.slots.length := by
        rw [d.length_slots]
        omega
      obtain ⟨s,hs,hn⟩ := first_spec hin
      obtain ⟨o,_,hmo⟩ := h.held _ s n hs hn
      rw [hm] at hmo
      simp at hmo
  · intro n o hm
    have hi := hlt n o hm
    obtain ⟨s,hs,hn⟩ := first_spec (d.length_slots.symm ▸ hi)
    obtain ⟨o',ho',hmo⟩ := h.held _ s n hs hn
    obtain rfl : o=o' := by
      rw [hm] at hmo
      exact Option.some.inj hmo
    exact ⟨_,hi,dmOpen_eq_first d n hi,reaches_slot d _ s o hi hs ho'⟩

theorem inv_initial : Inv (initial : Drivers W) (fun _ => none) := by
  have hslot : ∀ (i : Nat) (s : Driver W),(initial : Drivers W).slots[i]?=some s →
      s.driverName=none := by
    intro i s hs
    have hmem := List.mem_of_getElem? hs
    rw [initial,List.mem_replicate] at hmem
    rw [hmem.2]
  constructor
  · intro i j s t k hs _ hk _
    rw [hslot i s hs] at hk
    simp at hk
  · intro i s n hs hn
    rw [hslot i s hs] at hn
    simp at hn
  · intro n o hm
    simp at hm

/-- A name that is found nowhere holds no slot. -/
theorem not_held {d : Drivers W} {n : Name}
    (h : first Driver.driverName n d.slots=maxDriver) (i : Nat) (s : Driver W)
    (hs : d.slots[i]?=some s) : s.driverName≠some n := by
  intro hn
  have := first_lt hs hn
  rw [d.length_slots] at this
  omega

theorem Inv.register {d : Drivers W} {m : Registry W} (h : Inv d m) (n : Name)
    (o : DriverOps W) (hn : first Driver.driverName n d.slots=maxDriver)
    (hfree : firstFree Driver.driverName d.slots < maxDriver) :
    Inv (d.set (firstFree Driver.driverName d.slots)
      ⟨firstFree Driver.driverName d.slots,some n,some o⟩) (Function.update m n (some o)) := by
  obtain ⟨old,hold,hempty⟩ := firstFree_spec (d.length_slots.symm ▸ hfree)
  constructor
  · apply h.distinct.set
    intro j s k hk hs
    obtain rfl : n=k := Option.some.inj hk
    exact not_held hn j s hs
  · intro j s k hs hk
    rcases get_set hs with ⟨_,rfl⟩|⟨_,hsj⟩
    · obtain rfl : n=k := Option.some.inj hk
      exact ⟨o,rfl,Function.update_self ..⟩
    · obtain ⟨o',ho',hm⟩ := h.held j s k hsj hk
      have hne : k≠n := by
        intro heq
        subst heq
        exact not_held hn j s hsj hk
      exact ⟨o',ho',by rw [Function.update_of_ne hne,hm]⟩
  · intro k o' hm
    by_cases hk : k=n
    · subst hk
      have hlen : firstFree Driver.driverName d.slots<d.slots.length :=
        d.length_slots.symm ▸ hfree
      exact ⟨_,_,List.getElem?_set_self hlen,rfl⟩
    · rw [Function.update_of_ne hk] at hm
      obtain ⟨j,s,hs,hsn⟩ := h.bound k o' hm
      refine ⟨j,s,?_,hsn⟩
      have hj : firstFree Driver.driverName d.slots≠j := by
        intro heq
        subst heq
        rw [hold] at hs
        rw [← Option.some.inj hs,hempty] at hsn
        simp at hsn
      exact (List.getElem?_set_ne hj).trans hs

theorem Inv.deregister {d : Drivers W} {m : Registry W} (h : Inv d m) (n : Name)
    (hn : first Driver.driverName n d.slots < maxDriver) :
    Inv (d.set (first Driver.driverName n d.slots) ⟨-1,none,none⟩)
      (Function.update m n none) := by
  constructor
  · apply h.distinct.set
    intro j s k hk
    simp at hk
  · intro j s k hs hk
    rcases get_set hs with ⟨_,rfl⟩|⟨hj,hsj⟩
    · simp at hk
    · obtain ⟨o,ho,hm⟩ := h.held j s k hsj hk
      have hne : k≠n := by
        intro heq
        subst heq
        exact hj (first_eq h.distinct hsj hk).symm
      exact ⟨o,ho,by rw [Function.update_of_ne hne,hm]⟩
  · intro k o hm
    by_cases hk : k=n
    · subst hk
      rw [Function.update_self] at hm
      simp at hm
    · rw [Function.update_of_ne hk] at hm
      obtain ⟨j,s,hs,hsn⟩ := h.bound k o hm
      refine ⟨j,s,?_,hsn⟩
      have hj : first Driver.driverName n d.slots≠j := by
        intro heq
        subst heq
        obtain ⟨t,ht,htn⟩ := first_spec (d.length_slots.symm ▸ hn)
        rw [hs] at ht
        rw [Option.some.inj ht,htn] at hsn
        exact hk (Option.some.inj hsn).symm
      exact (List.getElem?_set_ne hj).trans hs

theorem Inv.forget {d : Drivers W} {m : Registry W} (h : Inv d m) (n : Name)
    (hn : first Driver.driverName n d.slots=maxDriver) : Function.update m n none=m := by
  rw [Function.update_eq_self_iff]
  exact ((h.shows.absent n).mp ((dmOpen_eq_neg_one d n).mpr hn)).symm

/-- One call keeps the table and the recorded map in step. -/
theorem Inv.perform {d : Drivers W} {m : Registry W} (h : Inv d m) (c : Call W)
    (hc : fresh d c) : Inv (c.perform d).2 (record m c (c.perform d).1) := by
  rcases c with ⟨_|n,_|o⟩|⟨_|n⟩
  · exact h
  · exact h
  · exact h
  · simp only [Call.perform,driverRegister]
    by_cases hfull : firstFree Driver.driverName d.slots ≥ maxDriver
    · simp only [hfull,if_true]
      exact h
    · simp only [hfull,if_false]
      have hn : first Driver.driverName n d.slots=maxDriver :=
        hc.resolve_right (by omega)
      exact h.register n o hn (by omega)
  · exact h
  · simp only [Call.perform,driverDeregister]
    by_cases hnone : first Driver.driverName n d.slots ≥ maxDriver
    · simp only [hnone,if_true,record]
      have hle := first_le d n
      rw [h.forget n (by omega)]
      exact h
    · simp only [hnone,if_false]
      exact h.deregister n (by omega)

theorem Inv.run {d : Drivers W} {m : Registry W} (h : Inv d m) (cs : List (Call W))
    (hcs : AllFresh d cs) : Inv (run d cs) (meant d m cs) := by
  induction cs generalizing d m with
  | nil => exact h
  | cons c cs ih => exact ih (h.perform c hcs.1) hcs.2

theorem AllFresh.take {d : Drivers W} {cs : List (Call W)} (h : AllFresh d cs) (k : Nat) :
    AllFresh d (cs.take k) := by
  induction cs generalizing d k with
  | nil => simpa using h
  | cons c cs ih =>
    cases k with
    | zero => trivial
    | succ k => exact ⟨h.1,ih h.2 k⟩

/-- Every way to reach a slot sees the same if its operations are the same. -/
theorem same_slot (d d' : Drivers W) (fd : Int) (h : 0≤fd → slotOps d' fd=slotOps d fd) :
    dmRead d' fd=dmRead d fd ∧ dmWrite d' fd=dmWrite d fd ∧ dmIoctl d' fd=dmIoctl d fd := by
  by_cases hneg : fd<0
  · refine ⟨?_,?_,?_⟩
    · funext buf count w
      simp only [dmRead,hneg,true_or,if_true]
    · funext buf count w
      simp only [dmWrite,hneg,true_or,if_true]
    · funext cmd arg w
      simp only [dmIoctl,hneg,true_or,if_true]
  · have hops := h (by omega)
    refine ⟨?_,?_,?_⟩
    · funext buf count w
      simp only [dmRead,hops]
    · funext buf count w
      simp only [dmWrite,hops]
    · funext cmd arg w
      simp only [dmIoctl,hops]

/-- Writing a slot that n neither held nor takes shows nothing to n. -/
theorem sameFor_set (d : Drivers W) (n : Name) (i : Nat) (old new : Driver W)
    (hi : d.slots[i]?=some old) (hold : old.driverName≠some n)
    (hnew : new.driverName≠some n) : SameFor n d (d.set i new) := by
  have hfirst : first Driver.driverName n (d.set i new).slots=
      first Driver.driverName n d.slots := first_set hi hold hnew
  have hopen : dmOpen (d.set i new) (some n)=dmOpen d (some n) := by
    simp only [dmOpen,hfirst]
  have hslot : 0≤dmOpen d (some n) →
      slotOps (d.set i new) (dmOpen d (some n))=slotOps d (dmOpen d (some n)) := by
    intro hpos
    have hlt : first Driver.driverName n d.slots < maxDriver := by
      have hle := first_le d n
      have hne := mt (dmOpen_eq_neg_one d n).mpr (by omega)
      omega
    obtain ⟨s,hs,hn⟩ := first_spec (d.length_slots.symm ▸ hlt)
    have hne : i≠first Driver.driverName n d.slots := by
      intro heq
      subst heq
      rw [hi] at hs
      rw [Option.some.inj hs] at hold
      exact hold hn
    have hget : (d.set i new).slots[first Driver.driverName n d.slots]?=
        d.slots[first Driver.driverName n d.slots]? := List.getElem?_set_ne hne
    rw [dmOpen_eq_first d n hlt,slotOps,slotOps,Int.toNat_natCast,hget]
  obtain ⟨hread,hwrite,hioctl⟩ := same_slot d (d.set i new) (dmOpen d (some n)) hslot
  exact ⟨hopen,hread,hwrite,hioctl⟩

theorem SameFor.refl (n : Name) (d : Drivers W) : SameFor n d d := ⟨rfl,rfl,rfl,rfl⟩

/-- A call shows nothing to any name but its own, in any table. -/
theorem perform_sameFor (d : Drivers W) (c : Call W) (n : Name) (h : c.name≠some n) :
    SameFor n d (c.perform d).2 := by
  rcases c with ⟨_|k,_|o⟩|⟨_|k⟩
  · exact SameFor.refl n d
  · exact SameFor.refl n d
  · exact SameFor.refl n d
  · simp only [Call.perform,driverRegister]
    by_cases hfull : firstFree Driver.driverName d.slots ≥ maxDriver
    · simp only [hfull,if_true]
      exact SameFor.refl n d
    · simp only [hfull,if_false]
      have hlt : firstFree Driver.driverName d.slots<d.slots.length := by
        rw [d.length_slots]
        omega
      obtain ⟨old,hold,hempty⟩ := firstFree_spec hlt
      exact sameFor_set d n _ old _ hold (by rw [hempty]; simp) h
  · exact SameFor.refl n d
  · simp only [Call.perform,driverDeregister]
    by_cases hnone : first Driver.driverName k d.slots ≥ maxDriver
    · simp only [hnone,if_true]
      exact SameFor.refl n d
    · simp only [hnone,if_false]
      have hlt : first Driver.driverName k d.slots<d.slots.length := by
        rw [d.length_slots]
        omega
      obtain ⟨old,hold,hk⟩ := first_spec hlt
      exact sameFor_set d n _ old _ hold (by rw [hk]; exact h) (by simp)

/-- The condition is needed in every table: a name that is registered again while it
holds a slot is still found after it is deregistered. -/
theorem duplicate_survives (d : Drivers W) (n : Name) (o : DriverOps W)
    (hn : first Driver.driverName n d.slots < maxDriver)
    (hfree : firstFree Driver.driverName d.slots < maxDriver) :
    dmOpen (driverDeregister (driverRegister d (some n) (some o)).2 (some n)) (some n)≠-1 := by
  obtain ⟨s,hs,hsn⟩ := first_spec (d.length_slots.symm ▸ hn)
  obtain ⟨old,hold,hempty⟩ := firstFree_spec (d.length_slots.symm ▸ hfree)
  have hdiff : firstFree Driver.driverName d.slots≠first Driver.driverName n d.slots := by
    intro heq
    rw [heq,hs] at hold
    rw [← Option.some.inj hold,hsn] at hempty
    simp at hempty
  have hreg : (driverRegister d (some n) (some o)).2=
      d.set (firstFree Driver.driverName d.slots)
        ⟨firstFree Driver.driverName d.slots,some n,some o⟩ := by
    simp only [driverRegister,ge_iff_le,show ¬maxDriver≤firstFree Driver.driverName d.slots
      by omega,if_false]
  rw [hreg]
  -- both slots hold the name now, and only one of them is emptied
  generalize hd : d.set (firstFree Driver.driverName d.slots)
    ⟨firstFree Driver.driverName d.slots,some n,some o⟩=e
  have hlen : firstFree Driver.driverName d.slots<d.slots.length :=
    d.length_slots.symm ▸ hfree
  have hnew : e.slots[firstFree Driver.driverName d.slots]?=
      some ⟨firstFree Driver.driverName d.slots,some n,some o⟩ := by
    rw [← hd]
    exact List.getElem?_set_self hlen
  have hkept : e.slots[first Driver.driverName n d.slots]?=some s := by
    rw [← hd]
    exact (List.getElem?_set_ne hdiff).trans hs
  obtain ⟨j,t,hj,ht,htn⟩ : ∃ (j : Nat) (t : Driver W),
      first Driver.driverName n e.slots≠j ∧ e.slots[j]?=some t ∧ t.driverName=some n := by
    by_cases hfirst : first Driver.driverName n e.slots=first Driver.driverName n d.slots
    · exact ⟨_,_,fun heq => hdiff (heq.symm.trans hfirst),hnew,rfl⟩
    · exact ⟨_,_,hfirst,hkept,hsn⟩
  have hin := first_lt ht htn
  rw [e.length_slots] at hin
  have hleft : (e.set (first Driver.driverName n e.slots) ⟨-1,none,none⟩).slots[j]?=some t :=
    (List.getElem?_set_ne hj).trans ht
  simp only [driverDeregister,ge_iff_le,show ¬maxDriver≤first Driver.driverName n e.slots
    by omega,if_false]
  intro hopen
  rw [dmOpen_eq_neg_one] at hopen
  exact not_held hopen j t hleft htn

def idleOps : DriverOps Unit := ⟨none,none,some (fun _ _ w => (0,w))⟩

/-- As long as no name is registered while it still holds a slot, every table of a run
shows the partial map that its calls and their results describe, and a call for one
name shows nothing to another. -/
theorem registry_refines_partial_map (cs : List (Call W)) (h : AllFresh initial cs)
    (k : Nat) :
    Shows (run initial (cs.take k)) (meant initial (fun _ => none) (cs.take k)) ∧
    ∀ (c : Call W) (n : Name),c.name≠some n →
      SameFor n (run initial (cs.take k)) (c.perform (run initial (cs.take k))).2 :=
  ⟨(inv_initial.run (cs.take k) (h.take k)).shows,fun c n hn => perform_sameFor _ c n hn⟩

theorem registry_refines_partial_map_reused :
    AllFresh initial [Call.register (some [116]) (some idleOps),Call.deregister (some [116]),
      Call.register (some [116]) (some idleOps)] ∧
    Shows (run initial ([Call.register (some [116]) (some idleOps),
        Call.deregister (some [116]),Call.register (some [116]) (some idleOps)].take 3))
      (meant initial (fun _ => none) ([Call.register (some [116]) (some idleOps),
        Call.deregister (some [116]),Call.register (some [116]) (some idleOps)].take 3)) := by
  have h : AllFresh initial [Call.register (some [116]) (some idleOps),
      Call.deregister (some [116]),Call.register (some [116]) (some idleOps)] :=
    ⟨Or.inl (by decide),trivial,Or.inl (by decide),trivial⟩
  exact ⟨h,(registry_refines_partial_map _ h 3).1⟩

/-- Two registrations of one name and one deregistration: all three succeed, the name
is no longer registered, and dm_open still finds it. -/
theorem registry_keeps_duplicate :
    ¬Shows (run initial [Call.register (some [116]) (some idleOps),
        Call.register (some [116]) (some idleOps),Call.deregister (some [116])])
      (meant initial (fun _ => none) [Call.register (some [116]) (some idleOps),
        Call.register (some [116]) (some idleOps),Call.deregister (some [116])]) := by
  intro h
  have habsent := (h.absent [116]).mpr (by
    simp only [meant,record]
    exact Function.update_self ..)
  exact absurd habsent (by decide)

end

end IdearNiu.Dm
