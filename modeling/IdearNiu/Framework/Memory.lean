import Mathlib.Tactic

namespace IdearNiu.Memory

variable {α : Type}

/-- Overwrite the elements of a block from an offset on. -/
def splice (dst : List α) (off : Nat) (src : List α) : List α :=
  dst.take off++src++dst.drop (off+src.length)

/-- memcpy of n elements to an offset of a block; none when it leaves a block. -/
def copyTo (dst : List α) (off : Nat) (src : List α) (n : Nat) : Option (List α) :=
  if off+n≤dst.length ∧ n ≤ src.length then some (splice dst off (src.take n)) else none

/-- memcpy of n elements from an offset of a block; none when it leaves the block. -/
def copyFrom (src : List α) (off n : Nat) : Option (List α) :=
  if off+n ≤ src.length then some ((src.drop off).take n) else none

theorem splice_length (dst src : List α) (off : Nat) (h : off+src.length≤dst.length) :
    (splice dst off src).length=dst.length := by
  simp only [splice,List.length_append,List.length_take,List.length_drop]
  omega

theorem splice_get_before (dst src : List α) (off i : Nat) (h : i<off)
    (hd : off≤dst.length) : (splice dst off src)[i]?=dst[i]? := by
  rw [splice]
  rw [List.append_assoc,List.getElem?_append_left (by simp only [List.length_take]; omega),
    List.getElem?_take_of_lt h]

theorem splice_get_inside (dst src : List α) (off i : Nat) (h : i < src.length)
    (hd : off≤dst.length) : (splice dst off src)[off+i]?=src[i]? := by
  rw [splice]
  have hl : (dst.take off).length=off := by simp only [List.length_take]; omega
  rw [List.append_assoc,List.getElem?_append_right (by omega),hl,Nat.add_sub_cancel_left,
    List.getElem?_append_left h]

theorem splice_get_after (dst src : List α) (off i : Nat) (h : off+src.length ≤ i)
    (hd : off+src.length≤dst.length) : (splice dst off src)[i]?=dst[i]? := by
  rw [splice]
  have hl : (dst.take off++src).length=off+src.length := by
    simp only [List.length_append,List.length_take]; omega
  rw [List.getElem?_append_right (by omega),hl,List.getElem?_drop]
  congr 1
  omega

theorem splice_take (dst src : List α) (off : Nat) (h : off≤dst.length) :
    (splice dst off src).take (off+src.length)=dst.take off++src := by
  rw [splice]
  rw [List.take_left' (by rw [List.length_append,List.length_take]; omega)]

theorem splice_drop (dst src : List α) (off k : Nat) (h : off≤dst.length) :
    (splice dst off src).drop (off+src.length+k)=dst.drop (off+src.length+k) := by
  rw [splice]
  rw [← List.drop_drop,
    List.drop_left' (by rw [List.length_append,List.length_take]; omega),List.drop_drop]

theorem copyFrom_some (src : List α) (off n : Nat) (h : off+n ≤ src.length) :
    copyFrom src off n=some ((src.drop off).take n) := if_pos h

theorem copyTo_some (dst src : List α) (off : Nat) (h : off+src.length≤dst.length) :
    copyTo dst off src src.length=some (splice dst off src) := by
  rw [copyTo]
  rw [if_pos ⟨h,le_refl _⟩,List.take_length]

/-- Write into a ring from a position on, going on at its start past the end. -/
def ringWrite (ring : List α) (pos : Nat) (src : List α) : List α :=
  splice (splice ring pos (src.take (ring.length-pos))) 0 (src.drop (ring.length-pos))

/-- Read a number of elements of a ring from a position on. -/
def ringRead (ring : List α) (pos n : Nat) : List α :=
  (ring.drop pos).take (min n (ring.length-pos))++ring.take (n-(ring.length-pos))

theorem ring_index (n pos j : Nat) (hp : pos<n) (hj : j<n) :
    (pos+j<n ∧ (pos+j)%n=pos+j) ∨ (n≤pos+j ∧ (pos+j)%n=pos+j-n) := by
  by_cases h : pos+j<n
  · exact Or.inl ⟨h,Nat.mod_eq_of_lt h⟩
  · refine Or.inr ⟨by omega,?_⟩
    rw [Nat.mod_eq_sub_mod (by omega),Nat.mod_eq_of_lt (by omega)]

theorem ringWrite_length (ring src : List α) (pos : Nat) (hp : pos<ring.length)
    (hs : src.length≤ring.length) : (ringWrite ring pos src).length=ring.length := by
  have h1 : (splice ring pos (src.take (ring.length-pos))).length=ring.length :=
    splice_length ring _ pos (by simp only [List.length_take]; omega)
  rw [ringWrite]
  rw [splice_length _ _ 0 (by simp only [List.length_drop,h1]; omega),h1]

theorem ringWrite_inside (ring src : List α) (pos j : Nat) (hp : pos<ring.length)
    (hs : src.length≤ring.length) (hj : j < src.length) :
    (ringWrite ring pos src)[(pos+j)%ring.length]?=src[j]? := by
  have h1 : (splice ring pos (src.take (ring.length-pos))).length=ring.length :=
    splice_length ring _ pos (by simp only [List.length_take]; omega)
  rw [ringWrite]
  rcases ring_index ring.length pos j hp (by omega) with ⟨hlt,he⟩|⟨hge,he⟩
  · rw [he,splice_get_after _ _ 0 _ (by simp only [List.length_drop]; omega)
      (by simp only [List.length_drop,h1]; omega),
      splice_get_inside _ _ pos j (by simp only [List.length_take]; omega) (by omega),
      List.getElem?_take_of_lt (by omega)]
  · have h2 := splice_get_inside (splice ring pos (src.take (ring.length-pos)))
      (src.drop (ring.length-pos)) 0 (pos+j-ring.length)
      (by simp only [List.length_drop]; omega) (by omega)
    rw [Nat.zero_add] at h2
    rw [he,h2,List.getElem?_drop]
    congr 1
    omega

theorem ringWrite_outside (ring src : List α) (pos j : Nat) (hp : pos<ring.length)
    (hj : src.length ≤ j) (hjn : j<ring.length) :
    (ringWrite ring pos src)[(pos+j)%ring.length]?=ring[(pos+j)%ring.length]? := by
  have h1 : (splice ring pos (src.take (ring.length-pos))).length=ring.length :=
    splice_length ring _ pos (by simp only [List.length_take]; omega)
  have hdrop : (src.drop (ring.length-pos)).length=src.length-(ring.length-pos) :=
    List.length_drop
  have htake : (src.take (ring.length-pos)).length=min (ring.length-pos) src.length :=
    List.length_take
  rw [ringWrite]
  rcases ring_index ring.length pos j hp hjn with ⟨hlt,he⟩|⟨hge,he⟩
  · rw [he,splice_get_after _ _ 0 _ (by omega) (by omega),
      splice_get_after _ _ pos _ (by omega) (by omega)]
  · rw [he,splice_get_after _ _ 0 _ (by omega) (by omega),
      splice_get_before _ _ pos _ (by omega) (by omega)]

/-- Two copies, split at the end of the ring, write it. -/
theorem copyTo_ring (ring src : List α) (pos n : Nat) (hp : pos<ring.length)
    (hn : n≤ring.length) (hs : n ≤ src.length) :
    (copyTo ring pos src (min n (ring.length-pos))).bind
        (fun r => copyTo r 0 (src.drop (min n (ring.length-pos))) (n-min n (ring.length-pos)))=
      some (ringWrite ring pos (src.take n)) := by
  have hl : (splice ring pos (src.take (min n (ring.length-pos)))).length=ring.length :=
    splice_length ring _ pos (by simp only [List.length_take]; omega)
  have hdrop : (src.take n).drop (ring.length-pos)=
      (src.drop (min n (ring.length-pos))).take (n-min n (ring.length-pos)) := by
    rw [List.drop_take]
    by_cases h : n≤ring.length-pos
    · rw [Nat.sub_eq_zero_of_le h,min_eq_left h,Nat.sub_self,List.take_zero,List.take_zero]
    · rw [min_eq_right (by omega)]
  simp only [copyTo]
  rw [if_pos ⟨by omega,by omega⟩,Option.bind_some,
    if_pos ⟨by omega,by simp only [List.length_drop]; omega⟩]
  rw [ringWrite]
  rw [hdrop,List.take_take,min_comm]

/-- Two copies, split at the end of the ring, read it. -/
theorem copyFrom_ring (ring : List α) (pos n : Nat) (hp : pos<ring.length)
    (hn : n≤ring.length) :
    (copyFrom ring pos (min n (ring.length-pos))).bind
        (fun first => (copyFrom ring 0 (n-min n (ring.length-pos))).map (first++·))=
      some (ringRead ring pos n) := by
  have hrest : n-min n (ring.length-pos)=n-(ring.length-pos) := by omega
  simp only [copyFrom]
  rw [if_pos (by omega),Option.bind_some,if_pos (by omega),Option.map_some,hrest]
  rfl

theorem ringRead_length (ring : List α) (pos n : Nat) (hp : pos<ring.length)
    (hn : n≤ring.length) : (ringRead ring pos n).length=n := by
  simp only [ringRead,List.length_append,List.length_take,List.length_drop]
  omega

theorem ringRead_get (ring : List α) (pos n j : Nat) (hp : pos<ring.length)
    (hn : n≤ring.length) (hj : j<n) :
    (ringRead ring pos n)[j]?=ring[(pos+j)%ring.length]? := by
  have hl : ((ring.drop pos).take (min n (ring.length-pos))).length=
      min n (ring.length-pos) := by
    simp only [List.length_take,List.length_drop]; omega
  rw [ringRead]
  rcases ring_index ring.length pos j hp (by omega) with ⟨hlt,he⟩|⟨hge,he⟩
  · rw [he,List.getElem?_append_left (by omega),List.getElem?_take_of_lt (by omega),
      List.getElem?_drop]
  · rw [he,List.getElem?_append_right (by omega),hl,List.getElem?_take_of_lt (by omega)]
    congr 1
    omega

end IdearNiu.Memory
