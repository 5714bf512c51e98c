import IdearNiu.Dhcpc.Message

namespace IdearNiu.Dhcpc

/-- An option of a message: its code, its body and what the message holds behind it. -/
structure Opt where
  code : Byte
  body : List Byte
  tail : List Byte
  deriving DecidableEq, Repr

/-- The reference parser: the options up to END or to the first one that does not fit,
without the pads. Every option takes at least one byte, so the length is fuel enough. -/
def parseOptions : Nat → List Byte → List Opt
  | 0,_ => []
  | _+1,[] => []
  | fuel+1,code::rest =>
    if code=optPad then parseOptions fuel rest
    else if code=optEnd then []
    else match rest with
      | [] => []
      | n::rest =>
        if n.toNat≤rest.length then
          ⟨code,rest.take n.toNat,rest.drop n.toNat⟩::parseOptions fuel (rest.drop n.toNat)
        else []

/-- A field from the last option of its code that has the bytes the field needs. -/
def lastOf (opts : List Opt) (code : Byte) (need : Nat) (value : List Byte → Word) : Word :=
  ((opts.filter (fun o => o.code=code ∧ need≤o.body.length)).getLast?.map
    (fun o => value o.body)).getD 0

def firstByte (x : List Byte) : Word := (x.getD 0 0).setWidth 32

def referenceInfo (opts : List Opt) (yiaddr : Word) : DhcpInfo where
  type := lastOf opts optMessageType 1 firstByte
  ipaddr := yiaddr
  gateway := lastOf opts optGateway 4 readWord
  prefixLength := lastOf opts optSubnetMask 4 (fun x => ipv4NetmaskToPrefixLength (readWord x))
  dns1 := lastOf opts optDns 4 readWord
  dns2 := lastOf opts optDns 8 (fun x => readWord (x.drop 4))
  serveraddr := lastOf opts optServerId 4 readWord
  lease := lastOf opts optLeaseTime 4 (fun x => ntohl (readWord x))

/-- The options in the first len bytes of a message. -/
def optionsOf (msg : DhcpMsg) (len : Nat) : List Opt :=
  parseOptions (len-(fixedSize+4)) ((msg.bytes.take len).drop (fixedSize+4))

def referenceDecode (msg : DhcpMsg) (len : Nat) : Int × DhcpInfo :=
  if len<fixedSize+4 ∨ ((msg.bytes.take len).drop fixedSize).take 4≠optCookie then
    (-1,DhcpInfo.zero)
  else (0,referenceInfo (optionsOf msg len) msg.yiaddr)

section

variable (mem : List Byte)

/-- The decoder once more over a memory that ends where the message does, with every read
checked: none is a read outside of it, or a walk that has not ended. -/
def readWordAt (x : Nat) : Option Word := do
  let a ← mem[x]?
  let b ← mem[x+1]?
  let c ← mem[x+2]?
  let d ← mem[x+3]?
  return le32 a b c d

def readOption (opt : Byte) (optlen x : Nat) (info : DhcpInfo) : Option DhcpInfo :=
  if opt=optSubnetMask then
    if optlen≥4 then (readWordAt mem x).map (fun mask =>
      { info with prefixLength := ipv4NetmaskToPrefixLength mask })
    else some info
  else if opt=optGateway then
    if optlen≥4 then (readWordAt mem x).map (fun w => { info with gateway := w })
    else some info
  else if opt=optDns then
    (if optlen≥4 then (readWordAt mem x).map (fun w => { info with dns1 := w })
      else some info).bind (fun info =>
    if optlen≥8 then (readWordAt mem (x+4)).map (fun w => { info with dns2 := w })
      else some info)
  else if opt=optLeaseTime then
    if optlen≥4 then (readWordAt mem x).map (fun w => { info with lease := ntohl w })
    else some info
  else if opt=optServerId then
    if optlen≥4 then (readWordAt mem x).map (fun w => { info with serveraddr := w })
    else some info
  else if opt=optMessageType then
    mem[x]?.map (fun b => { info with type := b.setWidth 32 })
  else some info

def readOptions : Nat → Nat → Nat → DhcpInfo → Option DhcpInfo
  | 0,_,_,_ => none
  | fuel+1,x,len,info =>
    if len>2 then do
      let opt ← mem[x]?
      if opt=optPad then readOptions fuel (x+1) (len-1) info
      else if opt=optEnd then some info
      else do
        let optlen ← mem[x+1]?
        if optlen.toNat>len-2 then some info
        else do
          let info ← readOption mem opt optlen.toNat (x+2) info
          readOptions fuel (x+2+optlen.toNat) (len-2-optlen.toNat) info
    else some info

def readDhcpMsg (len : Nat) : Option (Int × DhcpInfo) :=
  if len<fixedSize+4 then some (-1,DhcpInfo.zero)
  else do
    let a ← mem[fixedSize]?
    if a≠0x63 then some (-1,DhcpInfo.zero)
    else do
      let b ← mem[fixedSize+1]?
      if b≠0x82 then some (-1,DhcpInfo.zero)
      else do
        let c ← mem[fixedSize+2]?
        if c≠0x53 then some (-1,DhcpInfo.zero)
        else do
          let d ← mem[fixedSize+3]?
          if d≠0x63 then some (-1,DhcpInfo.zero)
          else do
            let info ← readOptions mem (len-(fixedSize+4)+1) (fixedSize+4)
              (len-(fixedSize+4)) DhcpInfo.zero
            let yiaddr ← readWordAt mem 16
            return (0,{ info with ipaddr := yiaddr })

end

/-- The options that the type of a message is read from: those of code 53 with at least
one byte of the message behind their header. -/
def typeOptions (opts : List Opt) : List Opt :=
  opts.filter (fun o => o.code=optMessageType ∧ o.body++o.tail≠[])

/-- In a message whose options are looked at, the last of them has a body, or the byte
behind it is the type that the last one with a body gives. -/
def TypeHasBody (msg : DhcpMsg) (len : Nat) : Prop :=
  fixedSize+4≤len → ((msg.bytes.take len).drop fixedSize).take 4=optCookie →
  ∀ o,(typeOptions (optionsOf msg len)).getLast?=some o → o.body≠[] ∨
    firstByte o.tail=lastOf (optionsOf msg len) optMessageType 1 firstByte

theorem getElem?_eq_getD {l : List Byte} {i : Nat} (h : i<l.length) :
    l[i]?=some (l.getD i 0) := by
  rw [List.getD,List.getElem?_eq_getElem h,Option.getD_some]

theorem drop_getD (l : List Byte) (x i : Nat) : (l.drop x).getD i 0=l.getD (x+i) 0 := by
  rw [List.getD,List.getD,List.getElem?_drop]

theorem readWordAt_eq {mem : List Byte} {x : Nat} (h : x+4 ≤ mem.length) :
    readWordAt mem x=some (readWord (mem.drop x)) := by
  simp only [readWordAt,readWord,drop_getD,Nat.add_zero]
  rw [getElem?_eq_getD (by omega : x < mem.length),
    getElem?_eq_getD (by omega : x+1 < mem.length),
    getElem?_eq_getD (by omega : x+2 < mem.length),
    getElem?_eq_getD (by omega : x+3 < mem.length)]
  rfl

/-- The reads of an option stay inside its body, or at the byte behind its header. -/
theorem readOption_eq {mem : List Byte} (opt : Byte) {optlen x : Nat} (info : DhcpInfo)
    (hbody : x+optlen ≤ mem.length) (hx : x < mem.length) :
    readOption mem opt optlen x info=some (decodeOption opt optlen (mem.drop x) info) := by
  have hword : 4≤optlen → readWordAt mem x=some (readWord (mem.drop x)) :=
    fun h => readWordAt_eq (by omega)
  have hword' : 8≤optlen → readWordAt mem (x+4)=some (readWord ((mem.drop x).drop 4)) := by
    intro h
    rw [List.drop_drop]
    exact readWordAt_eq (by omega)
  have hbyte : mem[x]?=some ((mem.drop x).getD 0 0) := by
    rw [drop_getD]
    exact getElem?_eq_getD hx
  simp only [readOption,decodeOption,hbyte]
  by_cases h4 : optlen≥4 <;> by_cases h8 : optlen≥8
  · simp only [h4,h8,if_true,hword h4,hword' h8]
    split_ifs <;> rfl
  · simp only [h4,h8,if_true,if_false,hword h4]
    split_ifs <;> rfl
  · omega
  · simp only [h4,h8,if_false]
    split_ifs <;> rfl

/-- An option is decoded from the bytes of its body, or from the one behind its header. -/
theorem decodeOption_congr (opt : Byte) (optlen : Nat) (x y : List Byte) (info : DhcpInfo)
    (h : ∀ i,i<optlen ∨ i=0 → x.getD i 0=y.getD i 0) :
    decodeOption opt optlen x info=decodeOption opt optlen y info := by
  have hword : 4≤optlen → readWord x=readWord y := by
    intro h4
    simp only [readWord]
    rw [h 0 (by omega),h 1 (by omega),h 2 (by omega),h 3 (by omega)]
  have hword' : 8≤optlen → readWord (x.drop 4)=readWord (y.drop 4) := by
    intro h8
    simp only [readWord,drop_getD]
    rw [h (4+0) (by omega),h (4+1) (by omega),h (4+2) (by omega),h (4+3) (by omega)]
  simp only [decodeOption,h 0 (Or.inr rfl)]
  by_cases h4 : optlen≥4 <;> by_cases h8 : optlen≥8
  · simp only [h4,h8,if_true,hword h4,hword' h8]
  · simp only [h4,h8,if_true,if_false,hword h4]
  · omega
  · simp only [h4,h8,if_false]

theorem take_getD (l : List Byte) (n i : Nat) (h : i<n) : (l.take n).getD i 0=l.getD i 0 := by
  rw [List.getD,List.getD,List.getElem?_take_of_lt h]

/-- The walk over the whole block is the walk over its first n bytes: it ends, and it
reads nothing at or behind n. -/
theorem readOptions_eq (bytes : List Byte) (n fuel x len : Nat) (info : DhcpInfo)
    (hn : n≤bytes.length) (hx : x+len=n) (hfuel : len≤fuel) :
    readOptions (bytes.take n) (fuel+1) x len info=
      some (decodeOptions fuel (bytes.drop x) len info) := by
  have hlen : (bytes.take n).length=n := by
    rw [List.length_take]
    omega
  induction fuel generalizing x len info with
  | zero =>
    obtain rfl : len=0 := by omega
    rfl
  | succ fuel ih =>
    rw [readOptions,decodeOptions]
    by_cases hlong : len>2
    · have hget : ∀ i,x+i<n → (bytes.take n)[x+i]?=some ((bytes.drop x).getD i 0) := by
        intro i hi
        rw [getElem?_eq_getD (by omega),take_getD bytes n (x+i) hi,drop_getD]
      have hopt : (bytes.take n)[x]?=some ((bytes.drop x).getD 0 0) := hget 0 (by omega)
      simp only [hlong,if_true,hopt,hget 1 (by omega),Option.bind_eq_bind,Option.bind_some]
      by_cases hpad : (bytes.drop x).getD 0 0=optPad
      · simp only [hpad,if_true,List.drop_drop]
        exact ih (x+1) (len-1) info (by omega) (by omega)
      · by_cases hend : (bytes.drop x).getD 0 0=optEnd
        · rw [if_neg hpad,if_pos hend,if_neg hpad,if_pos hend]
        · simp only [hpad,hend,if_false]
          by_cases hfit : ((bytes.drop x).getD 1 0).toNat>len-2
          · simp only [hfit,if_true]
          · simp only [hfit,if_false]
            rw [readOption_eq _ info (by omega) (by omega),Option.bind_some,
              ih _ _ _ (by omega) (by omega),List.drop_drop,List.drop_drop,Nat.add_assoc x 2]
            refine congrArg (fun i => some (decodeOptions fuel _ _ i)) ?_
            apply decodeOption_congr
            intro i hi
            rw [drop_getD,drop_getD]
            exact take_getD bytes n _ (by omega)
    · simp only [hlong,if_false]

theorem take_four (l : List Byte) (h : 4≤l.length) :
    l.take 4=[l.getD 0 0,l.getD 1 0,l.getD 2 0,l.getD 3 0] := by
  match l,h with
  | a::b::c::d::_,_ => rfl

theorem readDhcpMsg_eq (msg : DhcpMsg) (len : Nat) (hlen : len≤dhcpMsgSize) :
    readDhcpMsg (msg.bytes.take len) len=some (decodeDhcpMsg msg len) := by
  rw [readDhcpMsg,decodeDhcpMsg]
  by_cases hshort : len<fixedSize+4
  · simp only [hshort,if_true]
  · have hmsg := msg.size
    have hfixed : fixedSize=236 := rfl
    have hget : ∀ i,fixedSize+i<len →
        (msg.bytes.take len)[fixedSize+i]?=some (msg.options.getD i 0) := by
      intro i hi
      rw [getElem?_eq_getD (by rw [List.length_take]; omega),take_getD _ _ _ hi,
        DhcpMsg.options,drop_getD]
    have hzero : (msg.bytes.take len)[fixedSize]?=some (msg.options.getD 0 0) :=
      hget 0 (by omega)
    have hcookie := take_four msg.options (by
      rw [DhcpMsg.options,List.length_drop]
      omega)
    have hwalk := readOptions_eq msg.bytes len (len-(fixedSize+4)) (fixedSize+4)
      (len-(fixedSize+4)) DhcpInfo.zero (by omega) (by omega) (Nat.le_refl _)
    have hyiaddr : readWordAt (msg.bytes.take len) 16=some msg.yiaddr := by
      rw [readWordAt_eq (by rw [List.length_take]; omega)]
      simp only [readWord,drop_getD,DhcpMsg.yiaddr,DhcpMsg.wordAt,DhcpMsg.byteAt]
      rw [take_getD _ _ _ (by omega),take_getD _ _ _ (by omega),take_getD _ _ _ (by omega),
        take_getD _ _ _ (by omega)]
    have hdrop : msg.options.drop 4=msg.bytes.drop (fixedSize+4) := by
      rw [DhcpMsg.options,List.drop_drop]
    simp only [hshort,if_false,hzero,hget 1 (by omega),hget 2 (by omega),hget 3 (by omega),
      hcookie,hwalk,hyiaddr,hdrop,Option.bind_eq_bind,Option.bind_some,optCookie]
    generalize msg.options.getD 0 0=a
    generalize msg.options.getD 1 0=b
    generalize msg.options.getD 2 0=c
    generalize msg.options.getD 3 0=d
    simp only [ne_eq,List.cons.injEq,and_true]
    by_cases ha : a=0x63
    · by_cases hb : b=0x82
      · by_cases hc : c=0x53
        · by_cases hd : d=0x63
          · simp only [ha,hb,hc,hd,and_self,not_true_eq_false,if_false]
            rfl
          · simp only [ha,hb,hc,hd,and_false,not_true_eq_false,not_false_eq_true,if_true,
              if_false]
        · simp only [ha,hb,hc,false_and,and_false,not_true_eq_false,not_false_eq_true,
            if_true,if_false]
      · simp only [ha,hb,false_and,and_false,not_true_eq_false,not_false_eq_true,if_true,
          if_false]
    · simp only [ha,false_and,not_false_eq_true,if_true]

/-- What the decoder makes of one option. -/
def decodeOpt (info : DhcpInfo) (o : Opt) : DhcpInfo :=
  if o.body++o.tail=[] then info else decodeOption o.code o.body.length (o.body++o.tail) info

theorem parseOptions_cons (fuel : Nat) (code : Byte) (rest : List Byte) :
    parseOptions (fuel+1) (code::rest)=
      if code=optPad then parseOptions fuel rest
      else if code=optEnd then []
      else match rest with
        | [] => []
        | n::rest =>
          if n.toNat≤rest.length then
            ⟨code,rest.take n.toNat,rest.drop n.toNat⟩::parseOptions fuel (rest.drop n.toNat)
          else [] := by
  cases rest <;> rfl

/-- Two bytes or fewer hold no option that leaves a trace. -/
theorem foldl_short (fuel : Nat) (l : List Byte) (info : DhcpInfo) (h : l.length≤2) :
    (parseOptions fuel l).foldl decodeOpt info=info := by
  induction fuel generalizing l with
  | zero => rfl
  | succ fuel ih =>
    match l,h with
    | [],_ => rfl
    | code::rest,h =>
      simp only [List.length_cons] at h
      rw [parseOptions_cons]
      by_cases hpad : code=optPad
      · simp only [hpad,if_true]
        exact ih rest (by omega)
      · by_cases hend : code=optEnd
        · rw [if_neg hpad,if_pos hend]
          rfl
        · match rest with
          | [] => simp only [hpad,hend,if_false,List.foldl_nil]
          | n::rest =>
            obtain rfl : rest=[] := List.eq_nil_of_length_eq_zero (by simpa using h)
            by_cases hn : n.toNat≤0
            · simp only [hpad,hend,if_false,List.length_nil,hn,if_true,List.take_nil,
                List.drop_nil,List.foldl_cons]
              rw [show decodeOpt info ⟨code,[],[]⟩=info from rfl]
              exact ih [] (by simp)
            · simp only [hpad,hend,if_false,List.length_nil,hn,List.foldl_nil]

/-- The walk decodes the options of the reference parser one after the other. -/
theorem decodeOptions_eq (fuel : Nat) (x : List Byte) (len : Nat) (info : DhcpInfo)
    (hx : len≤x.length) (hfuel : len≤fuel) :
    decodeOptions fuel x len info=(parseOptions fuel (x.take len)).foldl decodeOpt info := by
  induction fuel generalizing x len info with
  | zero => rfl
  | succ fuel ih =>
    by_cases hlong : len>2
    · obtain ⟨code,n,rest,rfl⟩ : ∃ code n rest,x=code::n::rest := by
        match x,hx with
        | code::n::rest,_ => exact ⟨code,n,rest,rfl⟩
        | [_],hx => simp at hx; omega
        | [],hx => simp at hx; omega
      obtain ⟨m,rfl⟩ : ∃ m,len=m+2 := ⟨len-2,by omega⟩
      simp only [List.length_cons] at hx
      rw [decodeOptions,List.take_succ_cons,List.take_succ_cons,parseOptions_cons]
      simp only [hlong,if_true,List.getD_cons_zero,List.getD_cons_succ,List.drop_succ_cons,
        List.drop_zero,Nat.add_sub_cancel]
      by_cases hpad : code=optPad
      · simp only [hpad,if_true]
        have hpred : m+2-1=m+1 := by omega
        rw [hpred,ih (n::rest) (m+1) info (by simp; omega) (by omega),List.take_succ_cons]
      · by_cases hend : code=optEnd
        · rw [if_neg hpad,if_pos hend,if_neg hpad,if_pos hend]
          rfl
        · have hlen : (rest.take m).length=m := by
            rw [List.length_take]
            omega
          by_cases hfit : n.toNat>m
          · have hno : ¬n.toNat≤(rest.take m).length := by omega
            simp only [hpad,hend,hfit,hno,if_true,if_false,List.foldl_nil]
          · have hyes : n.toNat≤(rest.take m).length := by omega
            simp only [hpad,hend,hfit,hyes,if_true,if_false,List.foldl_cons]
            have hbody : ((rest.take m).take n.toNat).length=n.toNat := by
              rw [List.length_take]
              omega
            have hne : rest.take m≠[] := by
              intro hnil
              rw [hnil] at hlen
              simp at hlen
              omega
            have hopt : decodeOpt info ⟨code,(rest.take m).take n.toNat,
                (rest.take m).drop n.toNat⟩=decodeOption code n.toNat rest info := by
              simp only [decodeOpt,List.take_append_drop,hne,if_false,hbody]
              apply decodeOption_congr
              intro i hi
              exact take_getD rest m i (by omega)
            rw [hopt,Nat.add_comm 2,List.drop_succ_cons,List.drop_succ_cons,
              ih _ _ _ (by rw [List.length_drop]; omega) (by omega),List.drop_take]
    · rw [decodeOptions]
      simp only [hlong,if_false]
      rw [foldl_short _ _ _ (by rw [List.length_take]; omega)]

theorem DhcpInfo.eta (i : DhcpInfo) :
    ⟨i.type,i.ipaddr,i.gateway,i.prefixLength,i.dns1,i.dns2,i.serveraddr,i.lease⟩=i := rfl

/-- The switch, field by field. -/
theorem decodeOption_fields (opt : Byte) (optlen : Nat) (x : List Byte) (info : DhcpInfo) :
    decodeOption opt optlen x info=
      { type := if opt=optMessageType then firstByte x else info.type
        ipaddr := info.ipaddr
        gateway := if opt=optGateway ∧ 4≤optlen then readWord x else info.gateway
        prefixLength := if opt=optSubnetMask ∧ 4≤optlen then
          ipv4NetmaskToPrefixLength (readWord x) else info.prefixLength
        dns1 := if opt=optDns ∧ 4≤optlen then readWord x else info.dns1
        dns2 := if opt=optDns ∧ 8≤optlen then readWord (x.drop 4) else info.dns2
        serveraddr := if opt=optServerId ∧ 4≤optlen then readWord x else info.serveraddr
        lease := if opt=optLeaseTime ∧ 4≤optlen then ntohl (readWord x) else info.lease } := by
  rw [← DhcpInfo.eta (decodeOption opt optlen x info),DhcpInfo.mk.injEq]
  simp only [decodeOption,firstByte]
  refine ⟨?_,?_,?_,?_,?_,?_,?_,?_⟩ <;>
    grind [optSubnetMask,optGateway,optDns,optLeaseTime,optServerId,optMessageType]

/-- What a fold leaves in a component that some elements overwrite: the value of the last
of them. -/
theorem foldl_last {α β γ : Type} (step : β → α → β) (f : β → γ) (p : α → Bool) (v : α → γ)
    (h : ∀ b a,f (step b a)=if p a then v a else f b) (l : List α) (b : β) :
    f (l.foldl step b)=((l.filter p).getLast?.map v).getD (f b) := by
  induction l generalizing b with
  | nil => rfl
  | cons a l ih =>
    rw [List.foldl_cons,ih,h]
    by_cases ha : p a=true
    · rw [List.filter_cons_of_pos ha]
      cases hl : l.filter p with
      | nil => simp [ha]
      | cons c cs =>
        rw [List.getLast?_cons_cons,
          List.getLast?_eq_some_getLast (List.cons_ne_nil c cs)]
        rfl
    · rw [List.filter_cons_of_neg ha]
      simp [ha]

/-- A field that the switch fills from options of one code and a minimal length. -/
theorem foldl_decodeOpt_field (f : DhcpInfo → Word) (code : Byte) (need : Nat)
    (value : List Byte → Word) (hneed : 0<need)
    (hvalue : ∀ b t,need≤b.length → value (b++t)=value b)
    (hf : ∀ opt optlen x info,f (decodeOption opt optlen x info)=
      if opt=code ∧ need≤optlen then value x else f info)
    (hzero : f DhcpInfo.zero=0) (opts : List Opt) :
    f (opts.foldl decodeOpt DhcpInfo.zero)=lastOf opts code need value := by
  rw [lastOf,← hzero]
  apply foldl_last decodeOpt f (fun o => o.code=code ∧ need≤o.body.length)
    (fun o => value o.body)
  intro info o
  rw [decodeOpt]
  by_cases hnil : o.body++o.tail=[]
  · have hshort : ¬need≤o.body.length := by
      rw [(List.append_eq_nil_iff.mp hnil).1,List.length_nil]
      omega
    simp only [hnil,if_true,hshort,and_false,decide_false,Bool.false_eq_true,if_false]
  · simp only [hnil,if_false,hf,decide_eq_true_eq]
    by_cases hopt : o.code=code ∧ need≤o.body.length
    · rw [if_pos hopt,if_pos hopt,hvalue o.body o.tail hopt.2]
    · rw [if_neg hopt,if_neg hopt]

theorem foldl_decodeOpt_type (opts : List Opt) :
    (opts.foldl decodeOpt DhcpInfo.zero).type=
      ((typeOptions opts).getLast?.map (fun o => firstByte (o.body++o.tail))).getD 0 := by
  apply foldl_last decodeOpt DhcpInfo.type
    (fun o => o.code=optMessageType ∧ o.body++o.tail≠[])
    (fun o => firstByte (o.body++o.tail))
  intro info o
  rw [decodeOpt]
  by_cases hnil : o.body++o.tail=[]
  · simp only [hnil,if_true,ne_eq,not_true_eq_false,and_false,decide_false,
      Bool.false_eq_true,if_false]
  · simp only [hnil,if_false,decodeOption_fields,ne_eq,not_false_eq_true,and_true,
      decide_eq_true_eq]

theorem append_getD (b t : List Byte) (i : Nat) (h : i<b.length) :
    (b++t).getD i 0=b.getD i 0 := by
  rw [List.getD,List.getD,List.getElem?_append_left h]

theorem readWord_append (b t : List Byte) (h : 4≤b.length) : readWord (b++t)=readWord b := by
  simp only [readWord]
  rw [append_getD b t 0 (by omega),append_getD b t 1 (by omega),append_getD b t 2 (by omega),
    append_getD b t 3 (by omega)]

theorem firstByte_append (b t : List Byte) (h : b≠[]) : firstByte (b++t)=firstByte b := by
  rw [firstByte,firstByte,append_getD b t 0 (List.length_pos_iff.mpr h)]

theorem getLast?_filter {α : Type} (l : List α) (p : α → Bool) (a : α)
    (hl : l.getLast?=some a) (ha : p a=true) : (l.filter p).getLast?=some a := by
  obtain ⟨init,rfl⟩ := List.getLast?_eq_some_iff.mp hl
  rw [List.filter_append,List.filter_cons_of_pos ha]
  exact List.getLast?_concat

theorem typed_eq_filter (opts : List Opt) :
    opts.filter (fun o => o.code=optMessageType ∧ 1≤o.body.length)=
      (typeOptions opts).filter (fun o => 1≤o.body.length) := by
  rw [typeOptions,List.filter_filter]
  apply List.filter_congr
  intro o _
  have hne : 1≤o.body.length → o.body++o.tail≠[] := by
    intro h hnil
    rw [(List.append_eq_nil_iff.mp hnil).1] at h
    simp at h
  by_cases hlen : 1≤o.body.length
  · simp [hlen,hne hlen]
  · simp [hlen]

/-- The type is right exactly when the last option it was read from has a body, or what
follows that option happens to be right. -/
theorem type_iff (opts : List Opt) :
    (opts.foldl decodeOpt DhcpInfo.zero).type=lastOf opts optMessageType 1 firstByte ↔
      ∀ o,(typeOptions opts).getLast?=some o → o.body≠[] ∨
        firstByte o.tail=lastOf opts optMessageType 1 firstByte := by
  rw [foldl_decodeOpt_type]
  cases hlast : (typeOptions opts).getLast? with
  | none =>
    have hnil := List.getLast?_eq_none_iff.mp hlast
    have href : lastOf opts optMessageType 1 firstByte=0 := by
      rw [lastOf,typed_eq_filter,hnil]
      rfl
    rw [href]
    simp
  | some o =>
    simp only [Option.map_some,Option.getD_some,Option.some.injEq,forall_eq']
    by_cases hbody : o.body=[]
    · simp only [hbody,List.nil_append,ne_eq,not_true_eq_false,false_or]
    · have hpos : 1≤o.body.length := List.length_pos_iff.mpr hbody
      have href : lastOf opts optMessageType 1 firstByte=firstByte o.body := by
        rw [lastOf,typed_eq_filter,getLast?_filter _ _ o hlast (by simpa using hpos)]
        rfl
      rw [href,firstByte_append _ _ hbody]
      simp only [ne_eq,hbody,not_false_eq_true,true_or]

/-- Every field but the type is the reference parser's. -/
theorem referenceInfo_iff (opts : List Opt) (yiaddr : Word) :
    { opts.foldl decodeOpt DhcpInfo.zero with ipaddr := yiaddr }=referenceInfo opts yiaddr ↔
      (opts.foldl decodeOpt DhcpInfo.zero).type=lastOf opts optMessageType 1 firstByte := by
  rw [referenceInfo,DhcpInfo.mk.injEq]
  have hfield := fun f code need value hneed hvalue hf hzero =>
    foldl_decodeOpt_field f code need value hneed hvalue hf hzero opts
  have hgateway := hfield DhcpInfo.gateway optGateway 4 readWord (by decide)
    readWord_append (fun _ _ _ _ => by rw [decodeOption_fields]) rfl
  have hplen := hfield DhcpInfo.prefixLength optSubnetMask 4
    (fun x => ipv4NetmaskToPrefixLength (readWord x)) (by decide)
    (fun b t h => by rw [readWord_append b t h])
    (fun _ _ _ _ => by rw [decodeOption_fields]) rfl
  have hdns1 := hfield DhcpInfo.dns1 optDns 4 readWord (by decide)
    readWord_append (fun _ _ _ _ => by rw [decodeOption_fields]) rfl
  have hdns2 := hfield DhcpInfo.dns2 optDns 8 (fun x => readWord (x.drop 4)) (by decide)
    (fun b t h => by
      rw [List.drop_append_of_le_length (by omega),
        readWord_append _ t (by rw [List.length_drop]; omega)])
    (fun _ _ _ _ => by rw [decodeOption_fields]) rfl
  have hserver := hfield DhcpInfo.serveraddr optServerId 4 readWord (by decide)
    readWord_append (fun _ _ _ _ => by rw [decodeOption_fields]) rfl
  have hlease := hfield DhcpInfo.lease optLeaseTime 4 (fun x => ntohl (readWord x)) (by decide)
    (fun b t h => by rw [readWord_append b t h])
    (fun _ _ _ _ => by rw [decodeOption_fields]) rfl
  exact ⟨fun h => h.1,
    fun h => ⟨h,rfl,hgateway,hplen,hdns1,hdns2,hserver,hlease⟩⟩

/-- Decoding ends, reads nothing at or behind the length it is given and agrees with the
reference parser, exactly when the type does not come from an option without a body. -/
theorem decode_dhcp_msg_reference_iff (msg : DhcpMsg) (len : Nat) (hlen : len≤dhcpMsgSize) :
    (readDhcpMsg (msg.bytes.take len) len=some (decodeDhcpMsg msg len) ∧
      decodeDhcpMsg msg len=referenceDecode msg len) ↔ TypeHasBody msg len := by
  simp only [readDhcpMsg_eq msg len hlen,true_and]
  rw [decodeDhcpMsg,referenceDecode,TypeHasBody]
  by_cases hshort : len<fixedSize+4
  · have hno : ¬fixedSize+4≤len := by omega
    simp only [hshort,if_true,true_or,hno,false_implies]
  · have hyes : fixedSize+4≤len := by omega
    have hmsg := msg.size
    have hcookie : ((msg.bytes.take len).drop fixedSize).take 4=msg.options.take 4 := by
      have hmin : min 4 (len-fixedSize)=4 := by omega
      rw [List.drop_take,List.take_take,hmin,DhcpMsg.options]
    simp only [hshort,if_false,false_or,hyes,forall_const,hcookie]
    by_cases hok : msg.options.take 4=optCookie
    · have hfold := decodeOptions_eq (len-(fixedSize+4)) (msg.options.drop 4)
        (len-(fixedSize+4)) DhcpInfo.zero
        (by
          rw [DhcpMsg.options,List.length_drop,List.length_drop]
          omega) (Nat.le_refl _)
      have hopts : parseOptions (len-(fixedSize+4))
          ((msg.options.drop 4).take (len-(fixedSize+4)))=optionsOf msg len := by
        rw [optionsOf,List.drop_take,DhcpMsg.options,List.drop_drop]
      simp only [hok,ne_eq,not_true_eq_false,if_false,forall_const,Prod.mk.injEq,true_and,
        hfold,hopts,referenceInfo_iff,type_iff]
    · simp only [hok,ne_eq,not_false_eq_true,if_true,false_implies]

/-- A message with the given options and nothing else. -/
def bareMsg (options : List Byte) : DhcpMsg :=
  DhcpMsg.zeroFilled (List.replicate fixedSize 0++optCookie++options)

theorem decode_dhcp_msg_reference_iff_offer :
    248≤dhcpMsgSize ∧
    readDhcpMsg ((bareMsg [optMessageType,1,2,optDns,2,8,8,optEnd]).bytes.take 248) 248=
      some (decodeDhcpMsg (bareMsg [optMessageType,1,2,optDns,2,8,8,optEnd]) 248) ∧
    decodeDhcpMsg (bareMsg [optMessageType,1,2,optDns,2,8,8,optEnd]) 248=
      referenceDecode (bareMsg [optMessageType,1,2,optDns,2,8,8,optEnd]) 248 := by
  refine ⟨by decide,(decode_dhcp_msg_reference_iff _ 248 (by decide)).mpr ?_⟩
  have hlast : (typeOptions (optionsOf (bareMsg [optMessageType,1,2,optDns,2,8,8,optEnd])
      248)).getLast?=some ⟨optMessageType,[2],[optDns,2,8,8,optEnd]⟩ := by decide
  intro _ _ o ho
  rw [hlast] at ho
  rw [← Option.some.inj ho]
  exact Or.inl (List.cons_ne_nil _ _)

/-- An offer followed by an empty type option: the type becomes the code of the option
behind it. -/
theorem decode_dhcp_msg_empty_type :
    decodeDhcpMsg (bareMsg [optMessageType,1,2,optMessageType,0,optEnd]) 246≠
      referenceDecode (bareMsg [optMessageType,1,2,optMessageType,0,optEnd]) 246 := by
  decide

end IdearNiu.Dhcpc
