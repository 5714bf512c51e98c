import IdearNiu.Util.HexBounds
import IdearNiu.Util.HexGrammar

namespace IdearNiu.Hex

open Words
open IdearNiu.Cursor

/-- The decoder reads the two digits of a byte back, in either case. -/
theorem digits_decode (flags v : Byte) :
    ∃ hi lo, nibble (highDigit (hexdigits flags) v)=some hi ∧
      nibble (lowDigit (hexdigits flags) v)=some lo ∧ hi<<<4|||lo=v := by
  have hu : ∀ v : Byte, nibble (highDigit hexdigitsUpper v)=some (v>>>4) ∧
      nibble (lowDigit hexdigitsUpper v)=some (v&&&15) := by decide
  have hl : ∀ v : Byte, nibble (highDigit hexdigitsLower v)=some (v>>>4) ∧
      nibble (lowDigit hexdigitsLower v)=some (v&&&15) := by decide
  have hv : ∀ v : Byte, (v>>>4)<<<4|||(v&&&15)=v := by decide
  refine ⟨v>>>4,v&&&15,?_,?_,hv v⟩
  · rw [hexdigits]; split_ifs
    · exact (hu v).1
    · exact (hl v).1
  · rw [hexdigits]; split_ifs
    · exact (hu v).2
    · exact (hl v).2

theorem hexText_cons (digits : List Byte) (flags v : Byte) (bytes : List Byte) :
    hexText digits flags (v::bytes)=highDigit digits v::lowDigit digits v::
      ((if flags&&&1≠0 then [space] else [])++hexText digits flags bytes) := by
  rw [hexText,List.flatMap_cons]
  rfl

/-- The string that is left in the buffer when no ASCII is asked for: with spaces, the last
of them has made place for the terminator. -/
def leftText (flags : Byte) (bytes : List Byte) : List Byte :=
  if flags&&&1≠0 then (hexText (hexdigits flags) flags bytes).dropLast
  else hexText (hexdigits flags) flags bytes

/-- The string is a text of the pairs of the bytes. -/
theorem leftText_pairs (flags : Byte) (bytes : List Byte) (h : bytes≠[]) :
    Pairs nibble AtEnd (leftText flags bytes) bytes := by
  induction bytes with
  | nil => exact absurd rfl h
  | cons v bytes ih =>
    obtain ⟨hi,lo,hh,hl,hv⟩ := digits_decode flags v
    have hpair : ∀ s, Pairs nibble AtEnd s bytes → Pairs nibble AtEnd
        (highDigit (hexdigits flags) v::lowDigit (hexdigits flags) v::s) (v::bytes) := by
      intro s hs
      have hp := Pairs.pair _ _ hi lo s bytes hh hl hs
      rwa [hv] at hp
    rw [leftText] at ih ⊢
    rw [hexText_cons]
    by_cases h1 : flags&&&1≠0
    · simp only [if_pos h1] at ih ⊢
      cases hb : bytes with
      | nil =>
        rw [hb] at hpair
        exact hpair [] (.stop [] rfl)
      | cons w rest =>
        have hne : hexText (hexdigits flags) flags bytes≠[] := by
          rw [hb,hexText_cons]
          exact List.cons_ne_nil _ _
        rw [← hb,List.singleton_append,List.dropLast_cons_of_ne_nil (by simp),
          List.dropLast_cons_of_ne_nil (by simp),List.dropLast_cons_of_ne_nil hne]
        exact hpair _ (.blank _ _ (ih (by rw [hb]; simp)))
    · simp only [if_neg h1] at ih ⊢
      cases hb : bytes with
      | nil =>
        rw [hb] at hpair
        exact hpair [] (.stop [] rfl)
      | cons w rest =>
        rw [← hb,List.nil_append]
        exact hpair _ (ih (by rw [hb]; simp))

theorem hexText_nonzero (flags : Byte) (bytes : List Byte) :
    0∉hexText (hexdigits flags) flags bytes := by
  intro h
  obtain ⟨v,_,hv⟩ := List.mem_flatMap.mp h
  obtain ⟨_,_,hh,hl⟩ := hexdigits_bounds flags v
  rcases List.mem_append.mp hv with hm|hm
  · rcases List.mem_cons.mp hm with he|he
    · exact hh he.symm
    · exact hl (List.mem_singleton.mp he).symm
  · split_ifs at hm
    · exact absurd (List.mem_singleton.mp hm) (by decide)
    · cases hm

theorem leftText_prefix (flags : Byte) (bytes : List Byte) :
    leftText flags bytes<+:hexText (hexdigits flags) flags bytes := by
  rw [leftText]
  split_ifs
  · exact List.dropLast_prefix _
  · exact List.prefix_rfl

/-- Where the terminator goes, and the cells before it is written. -/
theorem unterminated_left (flags : Byte) (bytes : List Byte) (cells : Int → Byte)
    (hb : bytes≠[]) (h2 : flags&&&2=0) :
    (unterminated bytes false flags ⟨cells,0,[]⟩).pos=(leftText flags bytes).length ∧
    (unterminated bytes false flags ⟨cells,0,[]⟩).cells=
      (putAll ⟨cells,0,[]⟩ (hexText (hexdigits flags) flags bytes)).cells := by
  have hh : headText bytes false flags=hexText (hexdigits flags) flags bytes :=
    List.append_nil _
  have hl := List.length_pos_of_ne_nil (headText_ne_nil bytes false flags (Or.inl hb))
  rw [hh] at hl
  rw [unterminated,leftText,hh]
  simp only [h2,ne_eq,not_true_eq_false,if_false]
  by_cases h1 : flags&&&1≠0
  · rw [if_pos h1,if_pos h1]
    refine ⟨?_,rfl⟩
    simp only [back,putAll_pos,List.length_dropLast]
    omega
  · rw [if_neg h1,if_neg h1]
    refine ⟨?_,rfl⟩
    rw [putAll_pos]
    simp only [zero_add]

/-- Without ASCII and ellipsis the buffer holds the string. -/
theorem printHex_string (flags : Byte) (bytes : List Byte) (cells : Int → Byte) (size : Nat)
    (hb : bytes≠[]) (h2 : flags&&&2=0) (hs : (leftText flags bytes).length < size) :
    stringAt 0 (printHex bytes false flags ⟨cells,0,[]⟩).cells 0 size=
      some (leftText flags bytes) := by
  obtain ⟨hp,hc⟩ := unterminated_left flags bytes cells hb h2
  have hpre := leftText_prefix flags bytes
  rw [printHex_eq]
  apply stringAt_eq 0 _ 0 size _ hs
  · intro k hk
    have hk' := lt_of_lt_of_le hk hpre.length_le
    have hin := putAll_inside ⟨cells,0,[]⟩ (hexText (hexdigits flags) flags bytes) k hk'
    rw [← hpre.getElem hk] at hin
    simp only [put]
    rw [Function.update_of_ne (by rw [hp]; omega),hc]
    exact hin
  · exact fun h => hexText_nonzero flags bytes (hpre.subset h)
  · rw [zero_add,← hp]
    exact Function.update_self ..

theorem leftText_length (flags : Byte) (bytes : List Byte) :
    (leftText flags bytes).length=
      if flags&&&1≠0 then 3*bytes.length-1 else 2*bytes.length := by
  rw [leftText]
  by_cases h1 : flags&&&1≠0
  · simp only [if_pos h1,List.length_dropLast,hexText_length,cellWidth]
  · simp only [if_neg h1,hexText_length,cellWidth]

/-- A capacity that is an int and at least the number of bytes gives the string its place;
a size beyond int has it in any case. -/
theorem leftText_fits (b : List Byte) (size : Nat) (flags : Byte) (hb : b≠[])
    (hl : b.length<2^29) (h2 : flags&&&2=0) (h3 : 3 ≤ size)
    (he : b.length≤toSize (maxLen size flags)) : (leftText flags b).length < size := by
  have hpos := List.length_pos_of_ne_nil hb
  rw [leftText_length]
  by_cases hs : size<2^31
  · obtain ⟨m,hm,hc,hlt,_⟩ := maxLen_eq size flags h3 hs
    rw [hm,toSize_natCast m (by omega)] at he
    simp only [cellsFor,h2,ne_eq,not_true_eq_false,if_false] at hc
    split_ifs at hc ⊢ <;> omega
  · split_ifs <;> omega

/-- A call that returns the number of all bytes has printed all of them, and they fit. -/
theorem toHexString_all (b : List Byte) (cells : Int → Byte) (size : Nat) (flags : Byte)
    (hb : b≠[]) (hl : b.length<2^29) (h2 : flags&&&2=0)
    (h : (toHexString b (some cells) size flags).returned=b.length) :
    toHexString b (some cells) size flags=
      .done b.length (printHex b false flags ⟨cells,0,[]⟩) ∧
    (leftText flags b).length < size := by
  have hpos := List.length_pos_of_ne_nil hb
  have hr : -2^31 ≤ maxLen size flags ∧ maxLen size flags<2^31 := int32_range _
  rw [toHexString] at h ⊢
  by_cases h3 : size<3
  · simp only [if_pos h3,Converted.returned] at h
    omega
  by_cases hz : maxLen size flags=0
  · simp only [if_neg h3,hz,if_true,Converted.returned] at h
    omega
  simp only [if_neg h3,if_neg hz,Converted.returned] at h ⊢
  by_cases he : toSize (maxLen size flags)<b.length
  · -- A shortened call returns one less than the capacity.
    have hm : toSize (maxLen size flags-1)+1=toSize (maxLen size flags) := by
      simp only [toSize] at he ⊢
      omega
    rw [if_pos he,int32_of_lt _ (by omega)] at h
    omega
  · rw [if_neg he,int32_of_lt _ (by omega),decide_eq_false he,List.take_length]
    exact ⟨rfl,leftText_fits b size flags hb hl h2 (by omega) (by omega)⟩

/-- What to_hex_string has printed in full from_hex_string reads back. -/
theorem hex_string_round_trip (b : List Byte) (cells : Int → Byte) (size n : Nat)
    (flags : Byte) (hb : b≠[]) (hl : b.length<2^29) (h2 : flags&&&2=0)
    (h : (toHexString b (some cells) size flags).returned=b.length) :
    ∃ p s, toHexString b (some cells) size flags=.done b.length p ∧
      stringAt 0 p.cells 0 size=some s ∧ fromHexString s n=⟨b.length,b⟩ := by
  obtain ⟨hd,hs⟩ := toHexString_all b cells size flags hb hl h2 h
  refine ⟨_,leftText flags b,hd,printHex_string flags b cells size hb h2 hs,?_⟩
  rw [fromHexString,fromHexLoop_atEnd _ b (leftText_pairs flags b hb),
    int32_of_lt _ (by omega)]

/-- Two bytes, one above 127, in upper case with spaces. -/
theorem hex_string_round_trip_two :
    ∃ p s, toHexString [0xfe,0x07] (some (fun _ => 1)) 6 5=.done 2 p ∧
      stringAt 0 p.cells 0 6=some s ∧ fromHexString s 2=⟨2,[0xfe,0x07]⟩ :=
  hex_string_round_trip [0xfe,0x07] (fun _ => 1) 6 2 5 (by decide) (by decide) (by decide)
    (by decide)

end IdearNiu.Hex
