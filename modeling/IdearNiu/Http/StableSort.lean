import Mathlib.Data.List.Sort
import IdearNiu.Util.Allocation

namespace IdearNiu.StableSort

open Allocation

section

variable {α : Type} (cmpfun : α → α → Int)

/-- What a merge works on: the scratch array, the two read positions and the write position. -/
structure Merging (α : Type) where
  temp : Nat → α
  i : Nat
  j : Nat
  k : Nat

/-- The turns of the loop over both halves; each writes one element. -/
def mergeBoth (base : Nat → α) (mid last : Nat) : Nat → Merging α → Merging α
  | 0,s => s
  | fuel+1,s =>
    if s.i ≤ mid ∧ s.j≤last then
      if cmpfun (base s.i) (base s.j)≤0 then
        mergeBoth base mid last fuel
          ⟨Function.update s.temp s.k (base s.i),s.i+1,s.j,s.k+1⟩
      else
        mergeBoth base mid last fuel
          ⟨Function.update s.temp s.k (base s.j),s.i,s.j+1,s.k+1⟩
    else s

/-- The loop that copies count elements from position i on to position k on. -/
def copyRun (source : Nat → α) : Nat → Nat → Nat → (Nat → α) → Nat → α
  | 0,_,_,target => target
  | count+1,i,k,target => copyRun source count (i+1) (k+1) (Function.update target k (source i))

/-- The scratch array after the loop over both halves and the two that copy what is left. -/
def mergeLoops (base : Nat → α) (mid last fuel : Nat) (s : Merging α) : Nat → α :=
  let s := mergeBoth cmpfun base mid last fuel s
  copyRun base (last+1-s.j) s.j (s.k+(mid+1-s.i)) (copyRun base (mid+1-s.i) s.i s.k s.temp)

/-- One merge of the halves first..mid and mid+1..last, back into the array. -/
def mergeHalves (base temp : Nat → α) (first mid last : Nat) : (Nat → α) × (Nat → α) :=
  let temp := mergeLoops cmpfun base mid last (last+1-first) ⟨temp,first,mid+1,first⟩
  (copyRun temp (last+1-first) first first base,temp)

/-- The array and the scratch array after the call; first and last are from and to. -/
def mergesortInternal (base temp : Nat → α) (first last : Nat) : (Nat → α) × (Nat → α) :=
  if first<last then
    let mid := (last+first)/2
    let left := mergesortInternal base temp first mid
    let right := mergesortInternal left.1 left.2 (mid+1) last
    mergeHalves cmpfun right.1 right.2 first mid last
  else (base,temp)
termination_by last-first

/-- How stable_sort ends: with this array, or as the block for the scratch array does. -/
inductive Sorting (α : Type) where
  | sorted (base : Nat → α)
  | aborted
  | overrun

/-- temp is what the allocated block holds. -/
def stableSort (base temp : Nat → α) (nmemb size : Nat) : Sorting α :=
  if nmemb>1 ∧ size>1 then
    match block (BitVec.ofNat 64 (nmemb*size)) (nmemb*size) with
    | .full => .sorted (mergesortInternal cmpfun base temp 0 (nmemb-1)).1
    | .aborted => .aborted
    | .overrun => .overrun
  else .sorted base

/-- The n elements from position a on. -/
def window (f : Nat → α) (a n : Nat) : List α := (List.range' a n).map f

def le (a b : α) : Bool := cmpfun a b≤0

theorem window_succ (f : Nat → α) (a n : Nat) : window f a (n+1)=f a::window f (a+1) n := rfl

theorem window_length (f : Nat → α) (a n : Nat) : (window f a n).length=n := by
  rw [window,List.length_map,List.length_range']

theorem window_append (f : Nat → α) (a m n : Nat) :
    window f a (m+n)=window f a m++window f (a+m) n := by
  rw [window,← List.range'_append_1,List.map_append]
  rfl

theorem window_congr {f g : Nat → α} {a n : Nat} (h : ∀ p,a≤p → p < a+n → f p=g p) :
    window f a n=window g a n := by
  refine List.map_congr_left fun p hp => ?_
  obtain ⟨hlow,hhigh⟩ := List.mem_range'_1.mp hp
  exact h p hlow hhigh

theorem copyRun_spec (source : Nat → α) (count i k : Nat) (target : Nat → α) :
    (∀ p,p < k ∨ k+count≤p → copyRun source count i k target p=target p) ∧
      window (copyRun source count i k target) k count=window source i count := by
  induction count generalizing i k target with
  | zero => exact ⟨fun _ _ => rfl,rfl⟩
  | succ count ih =>
    obtain ⟨hout,hin⟩ := ih (i+1) (k+1) (Function.update target k (source i))
    refine ⟨fun p hp => ?_,?_⟩
    · rw [copyRun,hout p (by omega),Function.update_of_ne (by omega)]
    · rw [copyRun,window_succ,window_succ,hin,hout k (Or.inl (Nat.lt_succ_self k)),
        Function.update_self]

/-- What the three loops leave in the scratch array: the merge of what is left of both halves. -/
theorem merge_loops (base : Nat → α) (mid last fuel : Nat) (s : Merging α)
    (hi : s.i ≤ mid+1) (hj : s.j≤last+1) (hfuel : (mid+1-s.i)+(last+1-s.j)≤fuel) :
    (∀ p,p < s.k → mergeLoops cmpfun base mid last fuel s p=s.temp p) ∧
      window (mergeLoops cmpfun base mid last fuel s) s.k ((mid+1-s.i)+(last+1-s.j))=
        List.merge (window base s.i (mid+1-s.i)) (window base s.j (last+1-s.j)) (le cmpfun) := by
  induction fuel generalizing s with
  | zero =>
    have hi : mid+1-s.i=0 := by omega
    have hj : last+1-s.j=0 := by omega
    simp only [mergeLoops,mergeBoth,hi,hj]
    exact ⟨fun _ _ => rfl,by simp [window]⟩
  | succ fuel ih =>
    by_cases hboth : s.i ≤ mid ∧ s.j≤last
    · obtain ⟨n,hn⟩ : ∃ n,mid+1-s.i=n+1 := ⟨mid-s.i,by omega⟩
      obtain ⟨m,hm⟩ : ∃ m,last+1-s.j=m+1 := ⟨last-s.j,by omega⟩
      have hi' : mid+1-(s.i+1)=n := by omega
      have hj' : last+1-(s.j+1)=m := by omega
      by_cases hle : cmpfun (base s.i) (base s.j)≤0
      · obtain ⟨hout,hin⟩ := ih ⟨Function.update s.temp s.k (base s.i),s.i+1,s.j,s.k+1⟩
          (by simp only; omega) hj (by simp only; omega)
        dsimp only at hout hin
        have hnext : mergeLoops cmpfun base mid last (fuel+1) s=
            mergeLoops cmpfun base mid last fuel
              ⟨Function.update s.temp s.k (base s.i),s.i+1,s.j,s.k+1⟩ := by
          rw [mergeLoops,mergeBoth,if_pos hboth,if_pos hle]
          rfl
        rw [hnext]
        refine ⟨fun p hp => ?_,?_⟩
        · rw [hout p (Nat.lt_succ_of_lt hp),Function.update_of_ne (Nat.ne_of_lt hp)]
        · have hlen : mid+1-s.i+(last+1-s.j)=(mid+1-(s.i+1)+(last+1-s.j))+1 := by omega
          rw [hlen,window_succ,hin,hout s.k (Nat.lt_succ_self _),Function.update_self,hi',hn,hm,
            window_succ,window_succ,List.cons_merge_cons_pos _ _ _ (decide_eq_true hle)]
      · obtain ⟨hout,hin⟩ := ih ⟨Function.update s.temp s.k (base s.j),s.i,s.j+1,s.k+1⟩
          hi (by simp only; omega) (by simp only; omega)
        dsimp only at hout hin
        have hnext : mergeLoops cmpfun base mid last (fuel+1) s=
            mergeLoops cmpfun base mid last fuel
              ⟨Function.update s.temp s.k (base s.j),s.i,s.j+1,s.k+1⟩ := by
          rw [mergeLoops,mergeBoth,if_pos hboth,if_neg hle]
          rfl
        rw [hnext]
        refine ⟨fun p hp => ?_,?_⟩
        · rw [hout p (Nat.lt_succ_of_lt hp),Function.update_of_ne (Nat.ne_of_lt hp)]
        · have hlen : mid+1-s.i+(last+1-s.j)=(mid+1-s.i+(last+1-(s.j+1)))+1 := by omega
          rw [hlen,window_succ,hin,hout s.k (Nat.lt_succ_self _),Function.update_self,hj',hn,hm,
            window_succ,window_succ,List.cons_merge_cons_neg _ _ _ (by simpa [le] using hle)]
    · -- one half is used up, and the two copies append what is left
      rw [mergeLoops,mergeBoth,if_neg hboth]
      obtain ⟨hout1,hin1⟩ := copyRun_spec base (mid+1-s.i) s.i s.k s.temp
      obtain ⟨hout2,hin2⟩ := copyRun_spec base (last+1-s.j) s.j (s.k+(mid+1-s.i))
        (copyRun base (mid+1-s.i) s.i s.k s.temp)
      refine ⟨fun p hp => ?_,?_⟩
      · rw [hout2 p (by omega),hout1 p (Or.inl hp)]
      · rw [window_append,hin2]
        rw [window_congr (g := copyRun base (mid+1-s.i) s.i s.k s.temp)
          (fun p _ hp => hout2 p (Or.inl hp)),hin1]
        rcases Nat.eq_zero_or_pos (mid+1-s.i) with hzero|hpos
        · rw [hzero]
          exact (List.nil_merge _).symm
        · have hzero : last+1-s.j=0 := by omega
          rw [hzero]
          exact (List.append_nil _).trans (List.merge_right _).symm

theorem mergeHalves_spec (base temp : Nat → α) (first mid last : Nat) (hmid : first ≤ mid)
    (hlast : mid<last) :
    (∀ p,p < first ∨ last < p → (mergeHalves cmpfun base temp first mid last).1 p=base p) ∧
      window (mergeHalves cmpfun base temp first mid last).1 first (last+1-first)=
        List.merge (window base first (mid+1-first)) (window base (mid+1) (last-mid))
          (le cmpfun) := by
  obtain ⟨hout,hin⟩ := merge_loops cmpfun base mid last (last+1-first)
    ⟨temp,first,mid+1,first⟩ (by simp only; omega) (by simp only; omega) (by simp only; omega)
  obtain ⟨hback,hwin⟩ := copyRun_spec (mergeLoops cmpfun base mid last (last+1-first)
    ⟨temp,first,mid+1,first⟩) (last+1-first) first first base
  have hlen : mid+1-first+(last+1-(mid+1))=last+1-first := by omega
  have hright : last+1-(mid+1)=last-mid := by omega
  dsimp only at hin
  rw [hlen,hright] at hin
  exact ⟨fun p hp => hback p (by omega),hwin.trans hin⟩

/-- The library's merge sort splits a list at the same place. -/
theorem mergeSort_append (r : α → α → Bool) (xs ys : List α) (hx : 0 < xs.length)
    (hy : 0 < ys.length) (hlen : xs.length=(xs.length+ys.length+1)/2) :
    (xs++ys).mergeSort r=List.merge (xs.mergeSort r) (ys.mergeSort r) r := by
  obtain ⟨a,l,hl⟩ := List.exists_cons_of_length_pos (l := xs++ys)
    (by rw [List.length_append]; omega)
  obtain ⟨b,l,rfl⟩ := List.exists_cons_of_length_pos (l := l) (by
    have hsum := congrArg List.length hl
    rw [List.length_append,List.length_cons] at hsum
    omega)
  have hhalf : ((xs++ys).length+1)/2=xs.length := by
    rw [List.length_append]
    exact hlen.symm
  rw [hl,List.mergeSort,List.MergeSort.Internal.splitInTwo_fst,
    List.MergeSort.Internal.splitInTwo_snd]
  simp only [← hl,hhalf,List.take_left,List.drop_left]

/-- The segment comes out as the stable merge sort of it, and nothing else is touched. -/
theorem mergesortInternal_spec (base temp : Nat → α) (first last : Nat) :
    (∀ p,p < first ∨ last < p → (mergesortInternal cmpfun base temp first last).1 p=base p) ∧
      window (mergesortInternal cmpfun base temp first last).1 first (last+1-first)=
        (window base first (last+1-first)).mergeSort (le cmpfun) := by
  induction base,temp,first,last using mergesortInternal.induct cmpfun with
  | case1 base temp first last hlt mid left ihleft _ ihright =>
    let right := mergesortInternal cmpfun left.1 left.2 (mid+1) last
    have hmid : first ≤ mid ∧ mid<last := by omega
    obtain ⟨hleftout,hleftin⟩ := ihleft
    obtain ⟨hrightout,hrightin⟩ := ihright
    obtain ⟨hout,hin⟩ := mergeHalves_spec cmpfun right.1 right.2 first mid last hmid.1 hmid.2
    have hcall : mergesortInternal cmpfun base temp first last=
        mergeHalves cmpfun right.1 right.2 first mid last := by
      rw [mergesortInternal,if_pos hlt]
    rw [hcall]
    refine ⟨fun p hp => ?_,?_⟩
    · rw [hout p hp,hrightout p (by omega),hleftout p (by omega)]
    · have hkept : window right.1 first (mid+1-first)=window left.1 first (mid+1-first) :=
        window_congr fun p _ hp => hrightout p (by omega)
      have hfresh : window left.1 (mid+1) (last-mid)=window base (mid+1) (last-mid) :=
        window_congr fun p hp _ => hleftout p (by omega)
      have hsize : last+1-(mid+1)=last-mid := by omega
      have hsplit : window base first (last+1-first)=
          window base first (mid+1-first)++window base (mid+1) (last-mid) := by
        rw [show last+1-first=mid+1-first+(last-mid) by omega,window_append,
          show first+(mid+1-first)=mid+1 by omega]
      have hsorted : window right.1 (mid+1) (last-mid)=
          (window base (mid+1) (last-mid)).mergeSort (le cmpfun) := by
        rw [← hfresh,← hsize]
        exact hrightin
      have hleft : window left.1 first (mid+1-first)=
          (window base first (mid+1-first)).mergeSort (le cmpfun) := hleftin
      rw [hin,hkept,hleft,hsorted,hsplit,mergeSort_append]
      all_goals simp only [window_length]
      all_goals omega
  | case2 base temp first last hge =>
    rw [mergesortInternal,if_neg hge]
    refine ⟨fun _ _ => rfl,?_⟩
    have hshort : last+1-first=0 ∨ last+1-first=1 := by omega
    rcases hshort with hlen|hlen
    · rw [hlen]
      exact List.mergeSort_nil.symm
    · rw [hlen]
      exact (List.mergeSort_singleton _).symm

theorem stableSort_short (base temp : Nat → α) (nmemb size : Nat) (h : nmemb≤1 ∨ size≤1) :
    stableSort cmpfun base temp nmemb size=.sorted base := by
  rw [stableSort,if_neg (by omega)]

theorem stableSort_fits (base temp : Nat → α) (nmemb size : Nat) (hmany : nmemb>1)
    (hsize : size>1) (hfits : nmemb*size<2^31) :
    stableSort cmpfun base temp nmemb size=
      .sorted (mergesortInternal cmpfun base temp 0 (nmemb-1)).1 := by
  rw [stableSort,if_pos ⟨hmany,hsize⟩,(block_full_iff (nmemb*size)).mpr hfits]

/-- The call returns unless the bytes of the scratch array do not fit the int of xmalloc. -/
theorem stableSort_returns_iff (base temp : Nat → α) (nmemb size : Nat) :
    (∃ sorted,stableSort cmpfun base temp nmemb size=.sorted sorted) ↔
      nmemb≤1 ∨ size≤1 ∨ nmemb*size<2^31 := by
  constructor
  · intro hdone
    obtain ⟨sorted,hdone⟩ := hdone
    by_contra hbig
    rw [stableSort,if_pos (by omega)] at hdone
    have hblock := (block_full_iff (nmemb*size)).not.mpr (by omega)
    cases hb : block (BitVec.ofNat 64 (nmemb*size)) (nmemb*size) with
    | full => exact hblock hb
    | aborted =>
      rw [hb] at hdone
      cases hdone
    | overrun =>
      rw [hb] at hdone
      cases hdone
  · intro hfits
    by_cases hshort : nmemb≤1 ∨ size≤1
    · exact ⟨base,stableSort_short cmpfun base temp nmemb size hshort⟩
    · exact ⟨_,stableSort_fits cmpfun base temp nmemb size (by omega) (by omega) (by omega)⟩

/-- What the call returns leaves memory behind the array alone, and the array itself when its
elements are single bytes; longer elements are those of a merge sort. -/
theorem stableSort_sorted {base temp sorted : Nat → α} {nmemb size : Nat}
    (hdone : stableSort cmpfun base temp nmemb size=.sorted sorted) :
    (∀ p,nmemb≤p → sorted p=base p) ∧ (size≤1 → sorted=base) ∧
      (size>1 → window sorted 0 nmemb=(window base 0 nmemb).mergeSort (le cmpfun)) := by
  by_cases hshort : nmemb≤1 ∨ size≤1
  · rw [stableSort_short cmpfun base temp nmemb size hshort] at hdone
    cases hdone
    refine ⟨fun _ _ => rfl,fun _ => rfl,fun hsize => ?_⟩
    have hfew : nmemb=0 ∨ nmemb=1 := by omega
    rcases hfew with rfl|rfl
    · exact List.mergeSort_nil.symm
    · exact (List.mergeSort_singleton _).symm
  · have hfits : nmemb*size<2^31 := by
      have hreturns := (stableSort_returns_iff cmpfun base temp nmemb size).mp ⟨sorted,hdone⟩
      omega
    rw [stableSort_fits cmpfun base temp nmemb size (by omega) (by omega) hfits] at hdone
    cases hdone
    obtain ⟨hframe,hsort⟩ := mergesortInternal_spec cmpfun base temp 0 (nmemb-1)
    rw [show nmemb-1+1-0=nmemb by omega] at hsort
    exact ⟨fun p hp => hframe p (by omega),fun hsize => by omega,fun _ => hsort⟩

/-- The call returns just when the scratch array has fewer than 2^31 bytes or none is needed.
The array is then sorted stably, whatever the comparison is, and memory behind it is left alone;
but elements of a single byte are left as they are. With a total order the result ascends, and
what ascends already, equal elements included, keeps its order. -/
theorem stableSort_stable (base temp : Nat → α) (nmemb size : Nat) :
    ((∃ sorted,stableSort cmpfun base temp nmemb size=.sorted sorted) ↔
      nmemb≤1 ∨ size≤1 ∨ nmemb*size<2^31) ∧
    ∀ sorted,stableSort cmpfun base temp nmemb size=.sorted sorted →
      (∀ p,nmemb≤p → sorted p=base p) ∧ (size≤1 → sorted=base) ∧
      (size>1 → window sorted 0 nmemb=(window base 0 nmemb).mergeSort (le cmpfun)) ∧
      (size>1 → (∀ a b c,cmpfun a b≤0 → cmpfun b c≤0 → cmpfun a c≤0) →
        (∀ a b,cmpfun a b≤0 ∨ cmpfun b a≤0) →
        (window sorted 0 nmemb).Pairwise (fun a b => cmpfun a b≤0) ∧
          ∀ l : List α,l.Sublist (window base 0 nmemb) → l.Pairwise (fun a b => cmpfun a b≤0) →
            l.Sublist (window sorted 0 nmemb)) := by
  refine ⟨stableSort_returns_iff cmpfun base temp nmemb size,fun sorted hdone => ?_⟩
  obtain ⟨hframe,hbytes,hsort⟩ := stableSort_sorted cmpfun hdone
  refine ⟨hframe,hbytes,hsort,fun hsize htrans htotal => ?_⟩
  have htrans' : ∀ a b c,le cmpfun a b=true → le cmpfun b c=true → le cmpfun a c=true := by
    intro a b c hab hbc
    exact decide_eq_true (htrans a b c (of_decide_eq_true hab) (of_decide_eq_true hbc))
  have htotal' : ∀ a b,(le cmpfun a b || le cmpfun b a)=true := by
    intro a b
    rw [Bool.or_eq_true]
    exact (htotal a b).imp decide_eq_true decide_eq_true
  rw [hsort hsize]
  refine ⟨?_,fun l hl hpair => ?_⟩
  · exact (List.pairwise_mergeSort htrans' htotal' _).imp fun h => of_decide_eq_true h
  · exact List.sublist_mergeSort htrans' htotal' (hpair.imp fun h => decide_eq_true h) hl

end

end IdearNiu.StableSort
