import IdearNiu.Util.HexString

namespace IdearNiu.Hex

open Words
open IdearNiu.Cursor

/-- The text of the bytes, each followed by a space when bit 0 asks for it. -/
def hexText (digits : List Byte) (flags : Byte) (bytes : List Byte) : List Byte :=
  bytes.flatMap (fun v => [highDigit digits v,lowDigit digits v]++
    if flags&&&1≠0 then [space] else [])

/-- The characters a byte takes. -/
def cellWidth (flags : Byte) : Nat := if flags&&&1≠0 then 3 else 2

theorem hexLoop_eq (digits : List Byte) (flags : Byte) (bytes : List Byte)
    (p : Cursor Byte) : hexLoop digits flags bytes p=putAll p (hexText digits flags bytes) := by
  induction bytes generalizing p with
  | nil => rfl
  | cons v bytes ih =>
    have hc : hexText digits flags (v::bytes)=[highDigit digits v,lowDigit digits v]++
        (if flags&&&1≠0 then [space] else [])++hexText digits flags bytes :=
      List.flatMap_cons
    rw [hexLoop,ih,hc,putAll_append]
    by_cases h1 : flags&&&1≠0
    · simp only [if_pos h1]
      rfl
    · simp only [if_neg h1]
      rfl

theorem asciiLoop_eq (bytes : List Byte) (p : Cursor Byte) :
    asciiLoop bytes p=putAll p (bytes.map printable) := by
  induction bytes generalizing p with
  | nil => rfl
  | cons v bytes ih => exact ih _

@[simp] theorem hexText_length (digits : List Byte) (flags : Byte) (bytes : List Byte) :
    (hexText digits flags bytes).length=cellWidth flags*bytes.length := by
  induction bytes with
  | nil => rfl
  | cons v bytes ih =>
    rw [hexText] at ih ⊢
    rw [List.flatMap_cons,List.length_append,ih]
    simp only [cellWidth]
    split_ifs
    · simp only [List.length_append,List.length_cons,List.length_nil]; omega
    · simp only [List.length_append,List.length_cons,List.length_nil]; omega

theorem hexdigits_bounds (flags : Byte) (v : Byte) :
    highDigit (hexdigits flags) v≠space ∧ lowDigit (hexdigits flags) v≠space ∧
    highDigit (hexdigits flags) v≠0 ∧ lowDigit (hexdigits flags) v≠0 := by
  have hu : ∀ v : Byte, highDigit hexdigitsUpper v≠space ∧ lowDigit hexdigitsUpper v≠space ∧
      highDigit hexdigitsUpper v≠0 ∧ lowDigit hexdigitsUpper v≠0 := by decide
  have hl : ∀ v : Byte, highDigit hexdigitsLower v≠space ∧ lowDigit hexdigitsLower v≠space ∧
      highDigit hexdigitsLower v≠0 ∧ lowDigit hexdigitsLower v≠0 := by decide
  rw [hexdigits]
  split_ifs
  · exact hu v
  · exact hl v

/-- The last character of the text is the space when there is one, and a digit else. -/
theorem hexText_getLast (flags : Byte) (bytes : List Byte) (h : bytes≠[]) :
    (hexText (hexdigits flags) flags bytes).getLast?=some space ↔ flags&&&1≠0 := by
  obtain ⟨init,v,he⟩ := List.eq_nil_or_concat bytes |>.resolve_left h
  subst he
  have hd := hexdigits_bounds flags v
  rw [hexText,List.concat_eq_append,List.flatMap_append,List.flatMap_cons,List.flatMap_nil]
  by_cases h1 : flags&&&1≠0
  · rw [if_pos h1]
    exact iff_of_true (by simp) h1
  · rw [if_neg h1]
    exact iff_of_false (by simp [hd.2.1]) h1

/-- The cell before the pointer holds the last character written. -/
theorem last_putAll (p : Cursor Byte) (t : List Byte) (h : t≠[]) :
    t.getLast?=some (last (putAll p t)).1 := by
  have hl : 0<t.length := List.length_pos_of_ne_nil h
  simp only [last,putAll_pos]
  rw [show p.pos+(t.length : Int)-1=p.pos+((t.length-1 : Nat) : Int) by omega,
    putAll_inside p t _ (by omega),List.getLast?_eq_getElem?,List.getElem?_eq_getElem]

/-- The digits and the ellipsis. -/
def headText (bytes : List Byte) (makeEllipsis : Bool) (flags : Byte) : List Byte :=
  hexText (hexdigits flags) flags bytes++if makeEllipsis then [dot,dot] else []

theorem headText_length (bytes : List Byte) (e : Bool) (flags : Byte) :
    (headText bytes e flags).length=cellWidth flags*bytes.length+if e then 2 else 0 := by
  rw [headText,List.length_append,hexText_length]
  cases e
  · rfl
  · rfl

theorem headText_ne_nil (bytes : List Byte) (e : Bool) (flags : Byte) (h : bytes≠[] ∨ e=true) :
    headText bytes e flags≠[] := by
  apply List.ne_nil_of_length_pos
  rw [headText_length]
  have hw : 2≤cellWidth flags := by rw [cellWidth]; split_ifs <;> omega
  rcases h with h|h
  · have hl := List.length_pos_of_ne_nil h
    have := Nat.mul_le_mul hw hl
    omega
  · simp [h]

theorem headText_getLast (bytes : List Byte) (e : Bool) (flags : Byte)
    (h : bytes≠[] ∨ e=true) :
    (headText bytes e flags).getLast?=some space ↔ e=false ∧ flags&&&1≠0 := by
  cases e with
  | true =>
    apply iff_of_false
    · simp [headText,space,dot]
    · simp
  | false =>
    have hb : bytes≠[] := h.resolve_right (by simp)
    simpa [headText] using hexText_getLast flags bytes hb

/-- The printable characters and the spaces around them. -/
def asciiText (bytes : List Byte) (e : Bool) (flags : Byte) : List Byte :=
  (if e=false ∧ flags&&&1≠0 then [] else [space])++bytes.map printable++
    if flags&&&1≠0 then [space] else []

theorem appendAscii_eq (bytes : List Byte) (e : Bool) (flags : Byte) (p : Cursor Byte)
    (h : bytes≠[] ∨ e=true) :
    appendAscii flags bytes (putAll p (headText bytes e flags))=
      putAll (last (putAll p (headText bytes e flags))).2 (asciiText bytes e flags) := by
  have hl := last_putAll p _ (headText_ne_nil bytes e flags h)
  have hs := headText_getLast bytes e flags h
  rw [hl,Option.some_inj] at hs
  rw [appendAscii,asciiText,putAll_append,putAll_append]
  simp only [asciiLoop_eq]
  by_cases hd : e=false ∧ flags&&&1≠0
  · rw [if_pos hd,if_neg (not_not.mpr (hs.mpr hd)),if_pos hd.2,if_pos hd.2]
    rfl
  · rw [if_neg hd,if_pos (fun h => hd (hs.mp h))]
    by_cases h1 : flags&&&1≠0
    · rw [if_pos h1,if_pos h1]
      rfl
    · rw [if_neg h1,if_neg h1]
      rfl

/-- The pointer before the terminator is written. -/
def unterminated (bytes : List Byte) (e : Bool) (flags : Byte) (p : Cursor Byte) :
    Cursor Byte :=
  let p := putAll p (headText bytes e flags)
  let p := if flags&&&2≠0 then appendAscii flags bytes p else p
  if flags&&&1≠0 then back p else p

theorem printHex_eq (bytes : List Byte) (e : Bool) (flags : Byte) (p : Cursor Byte) :
    printHex bytes e flags p=put (unterminated bytes e flags p) 0 := by
  rw [printHex,unterminated,headText,putAll_append,← hexLoop_eq]
  cases e
  · rfl
  · rfl

theorem asciiText_length (bytes : List Byte) (e : Bool) (flags : Byte) :
    (asciiText bytes e flags).length=
      (if e=false ∧ flags&&&1≠0 then 0 else 1)+bytes.length+if flags&&&1≠0 then 1 else 0 := by
  rw [asciiText,List.length_append,List.length_append,List.length_map]
  split_ifs <;> rfl

/-- The cells that the first m bytes take in the capacity formula. -/
def cellsFor (flags : Byte) (m : Nat) : Nat :=
  if flags&&&2≠0 then (if flags&&&1≠0 then 4*m+1 else 3*m+2)
  else if flags&&&1≠0 then 3*m else 2*m+1

theorem headText_within (bytes : List Byte) (e : Bool) (flags : Byte) (cells : Int → Byte)
    (size : Nat) (h : (headText bytes e flags).length ≤ size) :
    Within size (putAll ⟨cells,0,[]⟩ (headText bytes e flags)) := by
  apply Within.putAll
  · intro i hi; cases hi
  · exact le_refl _
  · simpa using h

/-- Both parts of the text, with the read of the character before the ASCII part. -/
theorem asciiText_within (bytes : List Byte) (e : Bool) (flags : Byte) (cells : Int → Byte)
    (size : Nat) (hne : bytes≠[] ∨ e=true)
    (h : (headText bytes e flags).length+(asciiText bytes e flags).length ≤ size) :
    Within size (appendAscii flags bytes (putAll ⟨cells,0,[]⟩ (headText bytes e flags))) ∧
    (appendAscii flags bytes (putAll ⟨cells,0,[]⟩ (headText bytes e flags))).pos=
      (headText bytes e flags).length+(asciiText bytes e flags).length := by
  have hp := List.length_pos_of_ne_nil (headText_ne_nil bytes e flags hne)
  have hpos : ∀ q : Cursor Byte, (last q).2.pos=q.pos := fun _ => rfl
  rw [appendAscii_eq bytes e flags _ hne]
  constructor
  · apply Within.putAll
    · apply Within.last
      · exact headText_within bytes e flags cells size (by omega)
      · rw [putAll_pos]; simpa using hp
      · rw [putAll_pos]; simp only; omega
    · rw [hpos,putAll_pos]; simp only; omega
    · rw [hpos,putAll_pos]; simp only; omega
  · rw [putAll_pos,hpos,putAll_pos]
    simp

/-- Up to the terminator every access is in the buffer, and so is the terminator's place. -/
theorem unterminated_within (bytes : List Byte) (e : Bool) (flags : Byte) (cells : Int → Byte)
    (size m : Nat) (hs : bytes≠[] ∨ e=true ∨ (flags&&&1=0 ∧ flags&&&2=0))
    (hm : cellsFor flags m ≤ size) (hk : bytes.length+(if e then 1 else 0) ≤ m) :
    Within size (unterminated bytes e flags ⟨cells,0,[]⟩) ∧
    0≤(unterminated bytes e flags ⟨cells,0,[]⟩).pos ∧
    (unterminated bytes e flags ⟨cells,0,[]⟩).pos < size := by
  have hl := headText_length bytes e flags
  have hal := asciiText_length bytes e flags
  have hne : ¬(flags&&&1=0 ∧ flags&&&2=0) → bytes≠[] ∨ e=true := by
    intro hf
    rcases hs with h|h|h
    · exact Or.inl h
    · exact Or.inr h
    · exact absurd h hf
  have hk1 : bytes≠[] → 1≤bytes.length := List.length_pos_of_ne_nil
  rw [cellWidth] at hl
  rw [cellsFor] at hm
  rw [unterminated]
  by_cases h1 : flags&&&1≠0
  · have hb := hne (fun h => h1 h.1)
    simp only [if_pos h1] at hl hal hm ⊢
    by_cases h2 : flags&&&2≠0
    · simp only [if_pos h2] at hm ⊢
      have hlen : (headText bytes e flags).length+(asciiText bytes e flags).length ≤ size := by
        simp only [eq_true h1,and_true] at hal
        cases e <;> simp at hl hal hk <;> omega
      obtain ⟨hw,hp⟩ := asciiText_within bytes e flags cells size hb hlen
      refine ⟨hw,?_,?_⟩
      · simp only [back,hp]; omega
      · simp only [back,hp]; omega
    · simp only [if_neg h2] at hm ⊢
      have hlen : 1≤(headText bytes e flags).length ∧ (headText bytes e flags).length ≤ size := by
        cases e
        · have := hk1 (hb.resolve_right (by simp))
          simp at hl hk; omega
        · simp at hl hk; omega
      refine ⟨headText_within bytes e flags cells size hlen.2,?_,?_⟩
      · simp only [back,putAll_pos]; omega
      · simp only [back,putAll_pos]; omega
  · simp only [if_neg h1] at hl hal hm ⊢
    by_cases h2 : flags&&&2≠0
    · have hb := hne (fun h => h2 h.2)
      simp only [if_pos h2] at hm ⊢
      have hlen : (headText bytes e flags).length+(asciiText bytes e flags).length < size := by
        simp only [eq_false h1,and_false,if_false] at hal
        cases e <;> simp at hl hk <;> omega
      obtain ⟨hw,hp⟩ := asciiText_within bytes e flags cells size hb (by omega)
      exact ⟨hw,by omega,by omega⟩
    · simp only [if_neg h2] at hm ⊢
      have hlen : (headText bytes e flags).length < size := by
        cases e <;> simp at hl hk <;> omega
      refine ⟨headText_within bytes e flags cells size (by omega),?_,?_⟩
      · rw [putAll_pos]; simp only; omega
      · rw [putAll_pos]; simp only; omega

theorem maxLen_eq (size : Nat) (flags : Byte) (h3 : 3 ≤ size) (hs : size<2^31) :
    ∃ m : Nat, maxLen size flags=m ∧ cellsFor flags m ≤ size ∧ m<2^31 ∧
      (m=0 ↔ flags&&&2≠0 ∧ size<5) := by
  rw [maxLen]
  by_cases h1 : flags&&&1≠0
  all_goals by_cases h2 : flags&&&2≠0
  all_goals simp only [cellsFor,eq_true h1,eq_true h2,eq_false h1,eq_false h2,if_true,if_false,
    true_and,false_and]
  · exact ⟨(size-1)/4,int32_of_lt _ (by omega),by omega,by omega,by omega⟩
  · exact ⟨size/3,int32_of_lt _ (by omega),by omega,by omega,iff_of_false (by omega) id⟩
  · exact ⟨(size-2)/3,int32_of_lt _ (by omega),by omega,by omega,by omega⟩
  · exact ⟨(size-1)/2,int32_of_lt _ (by omega),by omega,by omega,iff_of_false (by omega) id⟩

/-- Every access is in the buffer, and a call that does not return early leaves a string. -/
def InBounds (size : Nat) : Converted → Prop
  | .early _ => True
  | .done _ p => Within size p ∧ (stringAt 0 p.cells 0 size).isSome

theorem printHex_inBounds (bytes : List Byte) (e : Bool) (flags : Byte) (cells : Int → Byte)
    (size m : Nat) (r : Int) (hs : bytes≠[] ∨ e=true ∨ (flags&&&1=0 ∧ flags&&&2=0))
    (hm : cellsFor flags m ≤ size) (hk : bytes.length+(if e then 1 else 0) ≤ m) :
    InBounds size (.done r (printHex bytes e flags ⟨cells,0,[]⟩)) := by
  obtain ⟨hw,h0,hn⟩ := unterminated_within bytes e flags cells size m hs hm hk
  obtain ⟨k,hk⟩ := Int.eq_ofNat_of_zero_le h0
  rw [printHex_eq]
  refine ⟨hw.put size _ 0 h0 hn,?_⟩
  apply stringAt_isSome 0 _ 0 size k (by omega)
  rw [zero_add,← hk]
  exact Function.update_self ..

/-- With no byte and no ellipsis the cell before the buffer is read or overwritten. -/
theorem printHex_nil_outside (flags : Byte) (cells : Int → Byte)
    (h : flags&&&1≠0 ∨ flags&&&2≠0) :
    -1∈(printHex [] false flags ⟨cells,0,[]⟩).touched := by
  by_cases h2 : flags&&&2≠0
  · simp only [printHex,hexLoop,appendAscii,asciiLoop,last,if_pos h2,Bool.false_eq_true,
      if_false]
    split_ifs <;> simp [put,back]
  · have h1 := h.resolve_right h2
    simp only [printHex,hexLoop,if_neg h2,if_pos h1]
    simp [put,back]

theorem toSize_natCast (n : Nat) (h : n<2^64) : toSize n=n := by
  rw [toSize]
  omega

/-- The accesses of to_hex_string are in its buffer exactly when it is not asked, past its
early returns, to print no byte with spaces or ASCII. -/
theorem to_hex_string_in_bounds_iff (addr : List Byte) (buf : Option (Int → Byte))
    (size : Nat) (flags : Byte) (hl : addr.length<2^31) (hs : size<2^31) :
    InBounds size (toHexString addr buf size flags) ↔
      ¬(addr=[] ∧ buf≠none ∧ (flags&&&1≠0 ∨ flags&&&2≠0) ∧ 3 ≤ size ∧
        (flags&&&2≠0 → 5 ≤ size)) := by
  cases buf with
  | none => exact iff_of_true trivial (fun h => h.2.1 rfl)
  | some cells =>
    by_cases h3 : size<3
    · simp only [toHexString,if_pos h3]
      exact iff_of_true trivial (fun h => by omega)
    obtain ⟨m,hm,hc,hlt,h0⟩ := maxLen_eq size flags (by omega) hs
    by_cases hz : m=0
    · simp only [toHexString,if_neg h3,hm,hz,Nat.cast_zero,if_true]
      obtain ⟨h2,h5⟩ := h0.mp hz
      exact iff_of_true trivial (fun h => by have := h.2.2.2.2 h2; omega)
    have hz' : (m : Int)≠0 := by omega
    have hsz : toSize (m-1)=m-1 := by
      rw [show ((m : Int)-1)=((m-1 : Nat) : Int) by omega]
      exact toSize_natCast _ (by omega)
    simp only [toHexString,if_neg h3,hm,if_neg hz',toSize_natCast m (by omega),hsz]
    by_cases he : m<addr.length
    · -- The ellipsis: two characters are there before the ASCII part.
      simp only [if_pos he,decide_eq_true he]
      apply iff_of_true
      · apply printHex_inBounds _ _ _ _ _ m _ (Or.inr (Or.inl rfl)) hc
        simp only [List.length_take,if_true]
        omega
      · intro h
        rw [h.1] at he
        exact absurd he (by simp)
    · simp only [if_neg he,decide_eq_false he,List.take_length]
      by_cases hb : addr=[] ∧ (flags&&&1≠0 ∨ flags&&&2≠0)
      · apply iff_of_false
        · intro h
          have hin := h.1 (-1) (by rw [hb.1]; exact printHex_nil_outside flags cells hb.2)
          omega
        · rw [not_not]
          refine ⟨hb.1,by simp,hb.2,by omega,?_⟩
          intro h2
          by_contra h5
          exact hz (h0.mpr ⟨h2,by omega⟩)
      · apply iff_of_true
        · apply printHex_inBounds _ _ _ _ _ m _ _ hc (by simpa using he)
          by_cases hn : addr=[]
          · right; right
            have hf : ¬(flags&&&1≠0 ∨ flags&&&2≠0) := fun h => hb ⟨hn,h⟩
            rwa [not_or,not_not,not_not] at hf
          · exact Or.inl hn
        · exact fun h => hb ⟨h.1,h.2.2.1⟩

/-- Two bytes in a buffer of five cells: printed in full. -/
theorem to_hex_string_in_bounds_two :
    InBounds 5 (toHexString [0xab,0xcd] (some (fun _ => 1)) 5 0) :=
  (to_hex_string_in_bounds_iff [0xab,0xcd] (some (fun _ => 1)) 5 0 (by decide) (by decide)).mpr
    (fun h => absurd h.1 (by decide))

/-- No byte, with spaces: the terminator is written before the buffer. -/
theorem to_hex_string_empty_outside :
    ¬∀ (addr : List Byte) (buf : Option (Int → Byte)) (size : Nat) (flags : Byte),
      addr.length<2^31 → size<2^31 → InBounds size (toHexString addr buf size flags) := by
  intro h
  have hb := h [] (some (fun _ => 0)) 8 1 (by decide) (by decide)
  have hin := hb.1 (-1) (printHex_nil_outside 1 (fun _ => 0) (Or.inl (by decide)))
  omega

end IdearNiu.Hex
