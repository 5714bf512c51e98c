import IdearNiu.Util.HexString

namespace IdearNiu.Hex

open Words

/-- A hexadecimal digit and its value. -/
def hexDigit (c : Byte) : Option Byte :=
  if 0x30≤c ∧ c≤0x39 then some (c-0x30)
  else if 0x41≤c ∧ c≤0x46 then some (c-0x41+10)
  else if 0x61≤c ∧ c≤0x66 then some (c-0x61+10)
  else none

/-- Spaces and pairs of digits that denote the bytes, and then a text with a property. -/
inductive Pairs (digit : Byte → Option Byte) (stop : List Byte → Prop) :
    List Byte → List Byte → Prop where
  | stop (s : List Byte) (h : stop s) : Pairs digit stop s []
  | blank (s bs : List Byte) (h : Pairs digit stop s bs) : Pairs digit stop (space::s) bs
  | pair (c d hi lo : Byte) (s bs : List Byte) (hc : digit c=some hi) (hd : digit d=some lo)
      (h : Pairs digit stop s bs) : Pairs digit stop (c::d::s) ((hi<<<4|||lo)::bs)

def AtEnd (s : List Byte) : Prop := s=[]

/-- One more character that the decoder takes for a digit, and the end. -/
def LoneDigit (s : List Byte) : Prop := ∃ c v, s=[c] ∧ nibble c=some v

/-- A character the decoder refuses, as the first or the second of a pair. -/
def BadDigit (s : List Byte) : Prop :=
  (∃ c t, s=c::t ∧ c≠space ∧ nibble c=none) ∨
  ∃ c v d t, s=c::d::t ∧ nibble c=some v ∧ nibble d=none

/-- The documented texts: pairs of digits with spaces around them. -/
abbrev HexPairs : List Byte → List Byte → Prop := Pairs hexDigit AtEnd

/-- What is asked of the decoder: the count for exactly the documented texts that fit, their
bytes written, a negative value for every other text, and never more than size bytes. -/
structure Meets (s : List Byte) (size : Nat) (d : Decoded) : Prop where
  count : ∀ n : Nat, d.returned=n ↔ ∃ bs, HexPairs s bs ∧ bs.length=n ∧ n ≤ size
  bytes : ∀ bs, HexPairs s bs → bs.length ≤ size → d.written=bs
  refused : (¬∃ bs, HexPairs s bs ∧ bs.length ≤ size) → d.returned<0
  room : d.written.length ≤ size

theorem nibble_of_hexDigit (c v : Byte) (h : hexDigit c=some v) : nibble c=some v := by
  have hall : ∀ c : Byte, (hexDigit c).isSome → nibble c=hexDigit c := by decide
  rw [hall c (by rw [h]; rfl),h]

theorem ne_space_of_nibble (c v : Byte) (h : nibble c=some v) : c≠space := by
  have hspace : nibble space=none := by decide
  intro hc
  rw [hc,hspace] at h
  cases h

theorem Pairs.mono (p q : Byte → Option Byte) (stop : List Byte → Prop)
    (hpq : ∀ c v, p c=some v → q c=some v) (s bs : List Byte) (h : Pairs p stop s bs) :
    Pairs q stop s bs := by
  induction h with
  | stop s h => exact .stop s h
  | blank s bs _ ih => exact .blank s bs ih
  | pair c d hi lo s bs hc hd _ ih => exact .pair c d hi lo s bs (hpq c hi hc) (hpq d lo hd) ih

/-- The loop takes the pairs and goes on with the text after them. -/
theorem fromHexLoop_pairs (stop : List Byte → Prop) (s bs : List Byte)
    (h : Pairs nibble stop s bs) (out : List Byte) :
    ∃ t, stop t ∧ fromHexLoop out s=fromHexLoop (out++bs) t := by
  induction h generalizing out with
  | stop s h => exact ⟨s,h,by rw [List.append_nil]⟩
  | blank s bs _ ih =>
    obtain ⟨t,ht,he⟩ := ih out
    refine ⟨t,ht,?_⟩
    rw [fromHexLoop,if_pos rfl,he]
  | pair c d hi lo s bs hc hd _ ih =>
    obtain ⟨t,ht,he⟩ := ih (out++[hi<<<4|||lo])
    refine ⟨t,ht,?_⟩
    rw [fromHexLoop,if_neg (ne_space_of_nibble c hi hc),hc]
    simp only [hd,he,List.append_assoc,List.singleton_append]

theorem fromHexLoop_atEnd (s bs : List Byte) (h : Pairs nibble AtEnd s bs) :
    fromHexLoop [] s=⟨int32 bs.length,bs⟩ := by
  obtain ⟨t,ht,he⟩ := fromHexLoop_pairs AtEnd s bs h []
  rw [he,ht,fromHexLoop,List.nil_append]

theorem fromHexLoop_loneDigit (s bs : List Byte) (h : Pairs nibble LoneDigit s bs) :
    fromHexLoop [] s=⟨int32 bs.length,bs⟩ := by
  obtain ⟨t,ht,he⟩ := fromHexLoop_pairs LoneDigit s bs h []
  obtain ⟨c,v,hc,hv⟩ := ht
  rw [he,hc,fromHexLoop,if_neg (ne_space_of_nibble c v hv),hv,List.nil_append]

theorem fromHexLoop_badDigit (s bs : List Byte) (h : Pairs nibble BadDigit s bs) :
    fromHexLoop [] s=⟨int32 (-bs.length),bs⟩ := by
  obtain ⟨t,ht,he⟩ := fromHexLoop_pairs BadDigit s bs h []
  rw [he,List.nil_append]
  rcases ht with ⟨c,t,hc,hs,hv⟩|⟨c,v,d,t,hc,hv,hd⟩
  · rw [hc,fromHexLoop,if_neg hs,hv]
  · rw [hc,fromHexLoop,if_neg (ne_space_of_nibble c v hv),hv]
    simp only [hd]

/-- Every text is pairs up to its end, to a lone digit or to a bad one. -/
theorem pairs_exists (out s : List Byte) :
    ∃ stop bs, (stop=AtEnd ∨ stop=LoneDigit ∨ stop=BadDigit) ∧ Pairs nibble stop s bs := by
  fun_induction fromHexLoop out s with
  | case1 out => exact ⟨AtEnd,[],Or.inl rfl,.stop [] rfl⟩
  | case2 out rest ih =>
    obtain ⟨stop,bs,hstop,h⟩ := ih
    exact ⟨stop,bs,hstop,.blank rest bs h⟩
  | case3 out c rest hs hc =>
    exact ⟨BadDigit,[],Or.inr (Or.inr rfl),.stop _ (Or.inl ⟨c,rest,rfl,hs,hc⟩)⟩
  | case4 out c hs msb hc =>
    exact ⟨LoneDigit,[],Or.inr (Or.inl rfl),.stop _ ⟨c,msb,rfl,hc⟩⟩
  | case5 out c hs msb hc d rest hd =>
    exact ⟨BadDigit,[],Or.inr (Or.inr rfl),.stop _ (Or.inr ⟨c,msb,d,rest,rfl,hc,hd⟩)⟩
  | case6 out c hs msb hc d rest lsb hd ih =>
    obtain ⟨stop,bs,hstop,h⟩ := ih
    exact ⟨stop,_,hstop,.pair c d msb lsb rest bs hc hd h⟩

/-- No space and no pair begins a text with the property. -/
def Stuck (stop : List Byte → Prop) : Prop :=
  ∀ t, stop t → (∀ s, t≠space::s) ∧
    ∀ c d hi lo s, nibble c=some hi → nibble d=some lo → t≠c::d::s

theorem stuck_atEnd : Stuck AtEnd := by
  intro t ht
  rw [AtEnd] at ht
  subst ht
  exact ⟨by simp,by simp⟩

theorem stuck_loneDigit : Stuck LoneDigit := by
  intro t ht
  obtain ⟨c,v,he,hv⟩ := ht
  subst he
  refine ⟨?_,by simp⟩
  intro s hs
  exact ne_space_of_nibble c v hv (List.cons.inj hs).1

theorem stuck_badDigit : Stuck BadDigit := by
  intro t ht
  rcases ht with ⟨c,r,he,hs,hv⟩|⟨c,v,d,r,he,hv,hd⟩
  · subst he
    refine ⟨fun s h => hs (List.cons.inj h).1,?_⟩
    intro c' d' hi lo s hc' _ h
    rw [(List.cons.inj h).1,hc'] at hv
    cases hv
  · subst he
    refine ⟨?_,?_⟩
    · intro s h
      exact ne_space_of_nibble c v hv (List.cons.inj h).1
    · intro c' d' hi lo s _ hd' h
      rw [(List.cons.inj (List.cons.inj h).2).1,hd'] at hd
      cases hd

/-- The pairs of a text and where they stop are determined. -/
theorem Pairs.unique (stop1 stop2 : List Byte → Prop) (h1 : Stuck stop1) (h2 : Stuck stop2)
    (s bs bs' : List Byte) (h : Pairs nibble stop1 s bs) (h' : Pairs nibble stop2 s bs') :
    bs=bs' ∧ ∃ t, stop1 t ∧ stop2 t := by
  induction h generalizing bs' with
  | stop s hs =>
    cases h' with
    | stop _ hs' => exact ⟨rfl,s,hs,hs'⟩
    | blank s' _ _ => exact absurd rfl ((h1 _ hs).1 s')
    | pair c d hi lo s' _ hc hd _ => exact absurd rfl ((h1 _ hs).2 c d hi lo s' hc hd)
  | blank s bs _ ih =>
    cases h' with
    | stop _ hs' => exact absurd rfl ((h2 _ hs').1 s)
    | blank _ _ hr => exact ih bs' hr
    | pair _ d hi lo s' _ hc _ _ => exact absurd rfl (ne_space_of_nibble space hi hc)
  | pair c d hi lo s bs hc hd _ ih =>
    cases h' with
    | stop _ hs' => exact absurd rfl ((h2 _ hs').2 c d hi lo s hc hd)
    | blank _ _ _ => exact absurd rfl (ne_space_of_nibble space hi hc)
    | pair _ _ hi' lo' _ bs'' hc' hd' hr =>
      obtain ⟨he,ht⟩ := ih bs'' hr
      rw [Option.some.inj (hc.symm.trans hc'),Option.some.inj (hd.symm.trans hd'),he]
      exact ⟨rfl,ht⟩

/-- A text does not stop in two ways that exclude each other. -/
theorem Pairs.exclude (stop1 stop2 : List Byte → Prop) (h1 : Stuck stop1) (h2 : Stuck stop2)
    (hne : ∀ t, stop1 t → ¬stop2 t) (s bs bs' : List Byte) (h : Pairs nibble stop1 s bs) :
    ¬Pairs nibble stop2 s bs' := by
  intro h'
  obtain ⟨t,ht,ht'⟩ := (Pairs.unique stop1 stop2 h1 h2 s bs bs' h h').2
  exact hne t ht ht'

theorem HexPairs.loose (s bs : List Byte) (h : HexPairs s bs) : Pairs nibble AtEnd s bs :=
  h.mono hexDigit nibble AtEnd nibble_of_hexDigit s bs

theorem HexPairs.unique (s bs bs' : List Byte) (h : HexPairs s bs)
    (h' : Pairs nibble AtEnd s bs') : bs=bs' :=
  (Pairs.unique AtEnd AtEnd stuck_atEnd stuck_atEnd s bs bs' (HexPairs.loose s bs h) h').1

/-- A text the loop leaves before its end is none of the documented ones. -/
theorem not_hexPairs (stop : List Byte → Prop) (hstop : Stuck stop)
    (hne : ∀ t, AtEnd t → ¬stop t) (s bs : List Byte) (h : Pairs nibble stop s bs) :
    ¬∃ bs, HexPairs s bs := by
  intro ⟨bs',h'⟩
  apply Pairs.exclude AtEnd stop stuck_atEnd hstop hne s bs' bs
  · exact HexPairs.loose s bs' h'
  · exact h

theorem meets_of_hexPairs (s bs : List Byte) (size : Nat) (h : HexPairs s bs) :
    Meets s size ⟨int32 bs.length,bs⟩ ↔ bs.length ≤ size ∧ bs.length<2^31 := by
  have hu : ∀ bs', HexPairs s bs' → bs'=bs := fun bs' h' =>
    HexPairs.unique s bs' bs h' (HexPairs.loose s bs h)
  have hi := (int32_natCast_iff bs.length).1
  constructor
  · intro hm
    have hr := hm.room
    have hc := (hm.count bs.length).mpr ⟨bs,h,rfl,hr⟩
    dsimp only at hc
    exact ⟨hr,hi.mp hc⟩
  · intro ⟨hr,hl⟩
    refine ⟨?_,fun bs' h' _ => (hu bs' h').symm,fun hn => absurd ⟨bs,h,hr⟩ hn,hr⟩
    intro n
    rw [hi.mpr hl,Nat.cast_inj]
    constructor
    · intro hn
      exact ⟨bs,h,hn,hn ▸ hr⟩
    · intro ⟨bs',h',hn,_⟩
      rw [← hn,hu bs' h']

theorem meets_of_not_hexPairs (s w : List Byte) (size : Nat) (r : Int)
    (h : ¬∃ bs, HexPairs s bs) : Meets s size ⟨r,w⟩ ↔ w.length ≤ size ∧ r<0 := by
  constructor
  · intro hm
    exact ⟨hm.room,hm.refused (fun ⟨bs,hb,_⟩ => h ⟨bs,hb⟩)⟩
  · intro ⟨hr,hneg⟩
    refine ⟨?_,fun bs hb => absurd ⟨bs,hb⟩ h,fun _ => hneg,hr⟩
    intro n
    apply iff_of_false
    · intro he
      have : (r : Int)=n := he
      omega
    · intro ⟨bs,hb,_⟩
      exact h ⟨bs,hb⟩

/-- A documented text that fits, with a count that is an int; or a text with a bad digit
after some bytes that fit, as long as minus their number is a negative int; or any other
text, when it has so many pairs that their number is a negative int. -/
def Handled (s : List Byte) (size : Nat) : Prop :=
  (∃ bs, HexPairs s bs ∧ bs.length ≤ size ∧ bs.length<2^31) ∨
  (∃ bs, Pairs nibble BadDigit s bs ∧ bs.length ≤ size ∧
    0<bs.length%2^32 ∧ bs.length%2^32≤2^31) ∨
  ∃ bs, (Pairs nibble LoneDigit s bs ∨
      Pairs nibble AtEnd s bs ∧ ¬∃ bs, HexPairs s bs) ∧ bs.length ≤ size ∧
    2^31≤bs.length%2^32

theorem not_loneDigit_atEnd (t : List Byte) (ht : AtEnd t) : ¬LoneDigit t := by
  intro ⟨c,v,h,_⟩
  rw [ht] at h
  cases h

theorem not_badDigit_atEnd (t : List Byte) (ht : AtEnd t) : ¬BadDigit t := by
  intro h
  rw [ht] at h
  rcases h with ⟨c,t,h,_⟩|⟨c,v,d,t,h,_⟩
  · cases h
  · cases h

theorem not_badDigit_loneDigit (t : List Byte) (h : LoneDigit t) : ¬BadDigit t := by
  obtain ⟨c,v,he,hv⟩ := h
  subst he
  intro hb
  rcases hb with ⟨c',r,he,_,hn⟩|⟨c',v',d,r,he,_,_⟩
  · rw [← (List.cons.inj he).1,hv] at hn
    cases hn
  · simp at he

theorem meets_badDigit_iff (s bs : List Byte) (size : Nat) (h : Pairs nibble BadDigit s bs) :
    Meets s size (fromHexString s size) ↔ Handled s size := by
  have hn := not_hexPairs BadDigit stuck_badDigit not_badDigit_atEnd s bs h
  rw [fromHexString,fromHexLoop_badDigit s bs h,meets_of_not_hexPairs s bs size _ hn,
    int32_neg_iff]
  constructor
  · intro ⟨hr,hi⟩
    exact Or.inr (Or.inl ⟨bs,h,hr,hi⟩)
  · intro hh
    rcases hh with ⟨bs',h',_⟩|⟨bs',h',hr,hi⟩|⟨bs',h',_⟩
    · exact absurd ⟨bs',h'⟩ hn
    · have he := (Pairs.unique BadDigit BadDigit stuck_badDigit stuck_badDigit s bs bs' h h').1
      rw [he]
      exact ⟨hr,hi⟩
    · rcases h' with h'|h'
      · exact absurd h (Pairs.exclude LoneDigit BadDigit stuck_loneDigit stuck_badDigit
          not_badDigit_loneDigit s bs' bs h')
      · exact absurd h (Pairs.exclude AtEnd BadDigit stuck_atEnd stuck_badDigit
          not_badDigit_atEnd s bs' bs h'.1)

theorem meets_loneDigit_iff (s bs : List Byte) (size : Nat) (h : Pairs nibble LoneDigit s bs) :
    Meets s size (fromHexString s size) ↔ Handled s size := by
  have hn := not_hexPairs LoneDigit stuck_loneDigit not_loneDigit_atEnd s bs h
  rw [fromHexString,fromHexLoop_loneDigit s bs h,meets_of_not_hexPairs s bs size _ hn,
    (int32_natCast_iff bs.length).2]
  constructor
  · intro ⟨hr,hi⟩
    exact Or.inr (Or.inr ⟨bs,Or.inl h,hr,hi⟩)
  · intro hh
    rcases hh with ⟨bs',h',_⟩|⟨bs',h',_⟩|⟨bs',h',hr,hi⟩
    · exact absurd ⟨bs',h'⟩ hn
    · exact absurd h' (Pairs.exclude LoneDigit BadDigit stuck_loneDigit stuck_badDigit
        not_badDigit_loneDigit s bs bs' h)
    · have he : bs=bs' := by
        rcases h' with h'|h'
        · exact (Pairs.unique LoneDigit LoneDigit stuck_loneDigit stuck_loneDigit
            s bs bs' h h').1
        · exact (Pairs.unique LoneDigit AtEnd stuck_loneDigit stuck_atEnd s bs bs' h h'.1).1
      rw [he]
      exact ⟨hr,hi⟩

theorem meets_atEnd_iff (s bs : List Byte) (size : Nat) (h : Pairs nibble AtEnd s bs) :
    Meets s size (fromHexString s size) ↔ Handled s size := by
  have hbad (bs' : List Byte) : ¬Pairs nibble BadDigit s bs' := by
    apply Pairs.exclude AtEnd BadDigit stuck_atEnd stuck_badDigit not_badDigit_atEnd s bs bs' h
  have hlone (bs' : List Byte) : ¬Pairs nibble LoneDigit s bs' := by
    apply Pairs.exclude AtEnd LoneDigit stuck_atEnd stuck_loneDigit not_loneDigit_atEnd s bs bs' h
  rw [fromHexString,fromHexLoop_atEnd s bs h]
  by_cases hg : ∃ bs, HexPairs s bs
  · obtain ⟨bs0,h0⟩ := hg
    have he := HexPairs.unique s bs0 bs h0 h
    subst he
    rw [meets_of_hexPairs s bs0 size h0]
    constructor
    · intro hr
      exact Or.inl ⟨bs0,h0,hr⟩
    · intro hh
      rcases hh with ⟨bs',h',hr⟩|⟨bs',h',_⟩|⟨bs',h',_⟩
      · rw [HexPairs.unique s bs' bs0 h' h] at hr
        exact hr
      · exact absurd h' (hbad bs')
      · rcases h' with h'|h'
        · exact absurd h' (hlone bs')
        · exact absurd ⟨bs0,h0⟩ h'.2
  · rw [meets_of_not_hexPairs s bs size _ hg,(int32_natCast_iff bs.length).2]
    constructor
    · intro ⟨hr,hi⟩
      exact Or.inr (Or.inr ⟨bs,Or.inr ⟨h,hg⟩,hr,hi⟩)
    · intro hh
      rcases hh with ⟨bs',h',_⟩|⟨bs',h',_⟩|⟨bs',h',hr,hi⟩
      · exact absurd ⟨bs',h'⟩ hg
      · exact absurd h' (hbad bs')
      · rcases h' with h'|h'
        · exact absurd h' (hlone bs')
        · rw [(Pairs.unique AtEnd AtEnd stuck_atEnd stuck_atEnd s bs bs' h h'.1).1]
          exact ⟨hr,hi⟩

/-- When the decoder does what is asked of it. -/
theorem from_hex_string_meets_iff (s : List Byte) (size : Nat) :
    Meets s size (fromHexString s size) ↔ Handled s size := by
  obtain ⟨stop,bs,hstop,h⟩ := pairs_exists [] s
  rcases hstop with he|he|he
  · subst he; exact meets_atEnd_iff s bs size h
  · subst he; exact meets_loneDigit_iff s bs size h
  · subst he; exact meets_badDigit_iff s bs size h

/-- The text "3:" is taken for the byte 0x3a. -/
theorem from_hex_string_takes_colon :
    ¬∀ (s : List Byte) (size : Nat), 0∉s → Meets s size (fromHexString s size) := by
  intro h
  have hm := h [0x33,0x3a] 4 (by decide)
  have hr : (fromHexString [0x33,0x3a] 4).returned=(1 : Nat) := by decide
  obtain ⟨bs,hb,_⟩ := (hm.count 1).mp hr
  cases hb with
  | stop _ hs => cases hs
  | pair c d hi lo s bs _ hd _ =>
    have hn : hexDigit 0x3a=none := by decide
    rw [hn] at hd
    cases hd

end IdearNiu.Hex
