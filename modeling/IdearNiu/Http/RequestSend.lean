import IdearNiu.Http.Request
import Mathlib.Data.List.TakeWhile

namespace IdearNiu.HttpRequest

open Http Allocation Words

def NoLineEnd (l : List UInt8) : Prop := newline∉l ∧ carriageReturn∉l

instance (l : List UInt8) : Decidable (NoLineEnd l) :=
  inferInstanceAs (Decidable (newline∉l ∧ carriageReturn∉l))

/-- A header that makes one line of its own and can be told apart from the others. -/
structure Fits (hdr : RequestHeader) : Prop where
  someName : hdr.name.bytes≠[]
  colon : 58∉hdr.name.bytes
  starts : continues hdr.name.bytes=false
  name : NoLineEnd hdr.name.bytes
  value : NoLineEnd hdr.value.bytes
  trimmed : trim hdr.value.bytes=hdr.value.bytes

instance (hdr : RequestHeader) : Decidable (Fits hdr) :=
  decidable_of_iff
    (hdr.name.bytes≠[] ∧ 58∉hdr.name.bytes ∧ continues hdr.name.bytes=false ∧
      NoLineEnd hdr.name.bytes ∧ NoLineEnd hdr.value.bytes ∧
      trim hdr.value.bytes=hdr.value.bytes)
    ⟨fun h => ⟨h.1,h.2.1,h.2.2.1,h.2.2.2.1,h.2.2.2.2.1,h.2.2.2.2.2⟩,
      fun h => ⟨h.someName,h.colon,h.starts,h.name,h.value,h.trimmed⟩⟩

/-- The header that a call sets. -/
def opHeader : Op → Option RequestHeader
  | .set name value policy => value.map (fun value => ⟨name,value,policy⟩)
  | .user header block => userField header block
  | .remove _ => none

/-- The size that is counted is what an int keeps of the size of the text and its NUL. -/
theorem requestSize_eq (req : Request) :
    requestSize req=int32 ((requestText req).length+1 : Nat) := by
  have hheaders : (req.headers.flatMap headerText).length=
      (req.headers.map (fun hdr => hdr.name.bytes.length+2+hdr.value.bytes.length+2)).sum := by
    rw [List.length_flatMap]
    congr 2
    funext hdr
    simp only [headerText,List.length_append,List.length_cons,List.length_nil]
  have hline : (text "HTTP/1.1").length=8 := rfl
  have htext : (requestText req).length+1=req.method.bytes.length+1+req.arg.bytes.length+1+8+2+
      (req.headers.map (fun hdr => hdr.name.bytes.length+2+hdr.value.bytes.length+2)).sum+3 := by
    simp only [requestText,List.length_append,List.length_cons,List.length_nil,hheaders,hline]
  rw [requestSize,foldl_int32 (fun hdr : RequestHeader =>
    hdr.name.bytes.length+2+hdr.value.bytes.length+2),int32_add_left,htext]
  rw [Nat.cast_add _ 3]
  rfl

/-- The text goes out whole just when an int can count it. -/
theorem requestSend_iff (req : Request) :
    requestSend req=.written (requestText req) ↔ (requestText req).length+1<2^31 := by
  unfold requestSend
  rw [requestSize_eq]
  generalize requestText req=bytes
  have hfull := block_full_iff (bytes.length+1)
  rw [← block_int32] at hfull
  simp only
  by_cases hsize : bytes.length+1<2^31
  · have htake : (((bytes.length+1 : Nat) : Int)-1).toNat=bytes.length := by omega
    rw [hfull.mpr hsize,int32_of_lt _ hsize]
    simp only [if_true,htake,List.take_length,hsize]
  · cases hblock : block (BitVec.ofInt 64 (int32 (bytes.length+1 : Nat))) (bytes.length+1) with
    | full => exact absurd (hfull.mp hblock) hsize
    | aborted => exact iff_of_false Sent.noConfusion hsize
    | overrun => exact iff_of_false Sent.noConfusion hsize

/-- A line without line ends, before one that does not continue it. -/
theorem headerLine_body (body rest : List UInt8) (hbody : NoLineEnd body)
    (hrest : continues rest=false) :
    headerLine (body++carriageReturn::newline::rest)=(body++[carriageReturn,newline],rest) := by
  induction body with
  | nil =>
    have hend : headerLine (newline::rest)=([newline],rest) := by
      rw [headerLine,if_pos rfl,hrest,if_neg Bool.false_ne_true]
    rw [List.nil_append,headerLine,if_neg (by decide),if_neg (by simp [hrest]),hend]
    rfl
  | cons b body ih =>
    obtain ⟨hn,hr⟩ := hbody
    rw [List.mem_cons,not_or] at hn hr
    rw [List.cons_append,headerLine,if_neg (Ne.symm hn.1),if_neg (fun h => hr.1 h.1.symm),
      ih ⟨hn.2,hr.2⟩]
    rfl

def lineOf (body : List UInt8) : List UInt8 := body++[carriageReturn,newline]

theorem emptyHeader_body (body rest : List UInt8) (hne : body≠[]) (hbody : NoLineEnd body) :
    emptyHeader (body++rest)=false := by
  obtain ⟨b,body,rfl⟩ := List.exists_cons_of_ne_nil hne
  obtain ⟨hn,hr⟩ := hbody
  rw [List.mem_cons,not_or] at hn hr
  simp [emptyHeader,List.isPrefixOf,hn.1,hr.1]

theorem headerLines_bodies (bodies : List (List UInt8)) (fuel : Nat)
    (hfuel : bodies.length ≤ fuel)
    (h : ∀ body∈bodies,body≠[] ∧ NoLineEnd body)
    (hstart : ∀ body∈bodies.tail,continues body=false) :
    headerLines fuel (bodies.flatMap lineOf++[carriageReturn,newline])=bodies.map lineOf := by
  induction bodies generalizing fuel with
  | nil => cases fuel <;> rfl
  | cons body bodies ih =>
    cases fuel with
    | zero => cases hfuel
    | succ fuel =>
      obtain ⟨hne,hbody⟩ := h body (by simp)
      have hnext : continues (bodies.flatMap lineOf++[carriageReturn,newline])=false := by
        cases bodies with
        | nil => rfl
        | cons next bodies =>
          obtain ⟨b,next,rfl⟩ := List.exists_cons_of_ne_nil (h next (by simp)).1
          exact hstart (b::next) (by simp)
      have hline : (body::bodies).flatMap lineOf++[carriageReturn,newline]=
          body++carriageReturn::newline::(bodies.flatMap lineOf++[carriageReturn,newline]) := by
        simp [lineOf]
      rw [hline,headerLines,emptyHeader_body _ _ hne hbody,if_neg Bool.false_ne_true,
        headerLine_body _ _ hbody hnext]
      have hrest := ih fuel (by simpa using hfuel) (fun b hb => h b (by simp [hb]))
        (fun b hb => hstart b (List.mem_of_mem_tail hb))
      rw [hrest]
      rfl

theorem bodies_length (bodies : List (List UInt8)) :
    bodies.length≤(bodies.flatMap lineOf).length := by
  induction bodies with
  | nil => exact Nat.le_refl 0
  | cons body bodies ih =>
    simp only [List.flatMap_cons,List.length_append,List.length_cons,lineOf] at ih ⊢
    omega

def bodyOf (hdr : RequestHeader) : List UInt8 := hdr.name.bytes++[58,space]++hdr.value.bytes

def requestLine (req : Request) : List UInt8 :=
  req.method.bytes++[space]++req.arg.bytes++[space]++text "HTTP/1.1"

theorem requestText_lines (req : Request) :
    requestText req=(requestLine req::req.headers.map bodyOf).flatMap lineOf++
      [carriageReturn,newline] := by
  have hheaders : req.headers.flatMap headerText=(req.headers.map bodyOf).flatMap lineOf := by
    rw [List.flatMap_map]
    rfl
  rw [requestText,hheaders,List.flatMap_cons]
  simp [lineOf,requestLine]

theorem bodyOf_fits {hdr : RequestHeader} (h : Fits hdr) :
    bodyOf hdr≠[] ∧ NoLineEnd (bodyOf hdr) ∧ continues (bodyOf hdr)=false := by
  obtain ⟨b,name,hname⟩ := List.exists_cons_of_ne_nil h.someName
  have hstarts := h.starts
  rw [hname] at hstarts
  refine ⟨by simp [bodyOf],⟨?_,?_⟩,?_⟩
  · simp only [bodyOf,List.mem_append,not_or]
    exact ⟨⟨h.name.1,by decide⟩,h.value.1⟩
  · simp only [bodyOf,List.mem_append,not_or]
    exact ⟨⟨h.name.2,by decide⟩,h.value.2⟩
  · rw [bodyOf,hname]
    exact hstarts

theorem toLower_colon (b : UInt8) (h : toLower b=58) : b=58 := by
  rw [toLower] at h
  split_ifs at h with hupper
  · obtain ⟨hlow,hhigh⟩ := hupper
    have hsum := congrArg UInt8.toNat h
    rw [UInt8.toNat_add] at hsum
    rw [UInt8.le_iff_toNat_le] at hlow hhigh
    have h32 : (32 : UInt8).toNat=32 := rfl
    have h58 : (58 : UInt8).toNat=58 := rfl
    have h65 : (65 : UInt8).toNat=65 := rfl
    have h90 : (90 : UInt8).toNat=90 := rfl
    omega
  · exact h

theorem sameText_colon {a b : List UInt8} (h : sameText a b=true) (ha : 58∈a) : 58∈b := by
  rw [sameText,beq_iff_eq] at h
  have hmem : toLower 58∈a.map toLower := List.mem_map_of_mem ha
  rw [h] at hmem
  obtain ⟨c,hc,heq⟩ := List.mem_map.mp hmem
  rw [← toLower_colon c heq]
  exact hc

/-- A line is the one that is asked for exactly if its name is. -/
theorem line_named {hdr : RequestHeader} (h : Fits hdr) (name : List UInt8) (hname : 58∉name) :
    ((lineOf (bodyOf hdr)).length>name.length ∧
      ((lineOf (bodyOf hdr)).drop name.length).head?=some 58 ∧
        sameText ((lineOf (bodyOf hdr)).take name.length) name=true) ↔
      sameText hdr.name.bytes name=true := by
  have hline : lineOf (bodyOf hdr)=hdr.name.bytes++58::(space::hdr.value.bytes++
      [carriageReturn,newline]) := by simp [lineOf,bodyOf]
  rw [hline]
  constructor
  · rintro ⟨_,hcolon,hsame⟩
    rcases Nat.lt_trichotomy name.length hdr.name.bytes.length with hlt|heq|hgt
    · rw [List.drop_append_of_le_length hlt.le,List.head?_append] at hcolon
      obtain ⟨b,hb⟩ : ∃ b,(hdr.name.bytes.drop name.length).head?=some b :=
        ⟨hdr.name.bytes[name.length],by rw [List.head?_drop,List.getElem?_eq_getElem hlt]⟩
      rw [hb] at hcolon
      obtain rfl := Option.some.inj hcolon
      exact absurd (List.mem_of_mem_drop (List.mem_of_head? hb)) h.colon
    · rwa [heq,List.take_left] at hsame
    · have hmem : 58∈(hdr.name.bytes++58::(space::hdr.value.bytes++
          [carriageReturn,newline])).take name.length := by
        rw [List.take_append]
        obtain ⟨k,hk⟩ := Nat.exists_eq_succ_of_ne_zero (Nat.sub_ne_zero_of_lt hgt)
        rw [hk,List.take_succ_cons]
        simp
      exact absurd (sameText_colon hsame hmem) hname
  · intro hsame
    have hlen : hdr.name.bytes.length=name.length := by
      rw [sameText,beq_iff_eq] at hsame
      simpa using congrArg List.length hsame
    refine ⟨by simp [hlen],?_,?_⟩
    · rw [← hlen,List.drop_left]
      rfl
    · rwa [← hlen,List.take_left]

theorem trim_line {hdr : RequestHeader} (h : Fits hdr) :
    trim ((lineOf (bodyOf hdr)).drop (hdr.name.bytes.length+1))=hdr.value.bytes := by
  have hline : (lineOf (bodyOf hdr)).drop (hdr.name.bytes.length+1)=
      space::hdr.value.bytes++[carriageReturn,newline] := by
    rw [lineOf,bodyOf]
    simp
  have htrimmed := h.trimmed
  generalize hdr.value.bytes=v at hline htrimmed ⊢
  have hshort : (trim v).length≤(v.dropWhile isSpace).length := by
    rw [trim,List.length_reverse]
    exact (List.dropWhile_suffix _).length_le.trans_eq List.length_reverse
  have hfirst : v.dropWhile isSpace=v :=
    (List.dropWhile_suffix _).eq_of_length_le (by rwa [htrimmed] at hshort)
  rw [trim,hfirst] at htrimmed
  rw [hline,trim,List.cons_append,List.dropWhile_cons_of_pos rfl,List.dropWhile_append,hfirst]
  by_cases hv : v=[]
  · subst hv
    rfl
  · rw [if_neg (by simpa using hv),List.reverse_append]
    change ((newline::carriageReturn::v.reverse).dropWhile isSpace).reverse=v
    rw [List.dropWhile_cons_of_pos rfl,List.dropWhile_cons_of_pos rfl,htrimmed]

/-- Among headers the first line of a name is the header of that name. -/
theorem findSome_line (hdrs : List RequestHeader) (hfits : ∀ hdr∈hdrs,Fits hdr) (name : CStr)
    (hname : 58∉name.bytes) :
    hdrs.findSome? (fun hdr =>
        if (lineOf (bodyOf hdr)).length>name.bytes.length ∧
            ((lineOf (bodyOf hdr)).drop name.bytes.length).head?=some 58 ∧
              sameText ((lineOf (bodyOf hdr)).take name.bytes.length) name.bytes=true
        then some (trim ((lineOf (bodyOf hdr)).drop (name.bytes.length+1))) else none)=
      (hdrs.find? (fun hdr => nameClass hdr.name=nameClass name)).map
        (fun hdr => hdr.value.bytes) := by
  induction hdrs with
  | nil => rfl
  | cons hdr hdrs ih =>
    have hfit := hfits hdr (by simp)
    rw [List.findSome?_cons,List.find?_cons,ih (fun h hh => hfits h (by simp [hh]))]
    simp only [line_named hfit name.bytes hname]
    have hclass := sameName_classified hdr.name name
    rw [sameName] at hclass
    by_cases hsame : sameText hdr.name.bytes name.bytes=true
    · have hlen : hdr.name.bytes.length=name.bytes.length := by
        rw [sameText,beq_iff_eq] at hsame
        simpa using congrArg List.length hsame
      rw [if_pos hsame,decide_eq_true (hclass.mp hsame),← hlen,trim_line hfit]
      rfl
    · rw [if_neg hsame,decide_eq_false (fun h => hsame (hclass.mpr h))]

theorem requestText_noNul (req : Request) : 0∉requestText req := by
  have htext : (0 : UInt8)∉text "HTTP/1.1" := by decide
  simp only [requestText,List.mem_append,List.mem_flatMap,headerText,not_or,not_exists,not_and]
  refine ⟨⟨⟨⟨⟨⟨⟨req.method.noNul,by decide⟩,req.arg.noNul⟩,by decide⟩,htext⟩,by decide⟩,?_⟩,
    by decide⟩
  intro hdr _
  exact ⟨⟨⟨hdr.name.noNul,by decide⟩,hdr.value.noNul⟩,by decide⟩

/-- The lines of a request are its request line and its headers. -/
theorem respNew_requestText (req : Request) (hmethod : NoLineEnd req.method.bytes)
    (harg : NoLineEnd req.arg.bytes) (hfits : ∀ hdr∈req.headers,Fits hdr) :
    respNew (requestText req)=
      some ((requestLine req::req.headers.map bodyOf).map lineOf) := by
  have hc : cString (requestText req)=requestText req := by
    rw [cString,List.takeWhile_eq_self_iff]
    intro b hb
    exact decide_eq_true (fun h => requestText_noNul req (h ▸ hb))
  have hline : requestLine req≠[] ∧ NoLineEnd (requestLine req) := by
    refine ⟨by simp [requestLine],?_,?_⟩
    · simp only [requestLine,List.mem_append,not_or]
      exact ⟨⟨⟨⟨hmethod.1,by decide⟩,harg.1⟩,by decide⟩,by decide⟩
    · simp only [requestLine,List.mem_append,not_or]
      exact ⟨⟨⟨⟨hmethod.2,by decide⟩,harg.2⟩,by decide⟩,by decide⟩
  have hne : requestText req≠[] := by simp [requestText]
  have hbodies : ∀ body∈requestLine req::req.headers.map bodyOf,body≠[] ∧ NoLineEnd body := by
    intro body hbody
    rcases List.mem_cons.mp hbody with rfl|hbody
    · exact hline
    · obtain ⟨hdr,hhdr,rfl⟩ := List.mem_map.mp hbody
      exact ⟨(bodyOf_fits (hfits hdr hhdr)).1,(bodyOf_fits (hfits hdr hhdr)).2.1⟩
  rw [respNew,hc]
  simp only [if_neg hne]
  have hfuel : (requestLine req::req.headers.map bodyOf).length≤(requestText req).length := by
    rw [requestText_lines,List.length_append]
    exact Nat.le_add_right_of_le (bodies_length _)
  have hlines := headerLines_bodies _ _ hfuel hbodies (by
    intro body hbody
    obtain ⟨hdr,hhdr,rfl⟩ := List.mem_map.mp hbody
    exact (bodyOf_fits (hfits hdr hhdr)).2.2)
  rw [← requestText_lines] at hlines
  rw [hlines]

theorem setHeader_fits (req : Request) (name value : CStr) (policy : ReleasePolicy)
    (hreq : ∀ hdr∈req.headers,Fits hdr) (hnew : Fits ⟨name,value,policy⟩) :
    ∀ hdr∈(requestSetHeader req name (some value) policy).1.headers,Fits hdr := by
  intro hdr hhdr
  rw [requestSetHeader] at hhdr
  cases hplace : findHeader req name with
  | some i =>
    simp only [hplace] at hhdr
    rcases List.mem_or_eq_of_mem_set hhdr with hold|rfl
    · exact hreq hdr hold
    · exact hnew
  | none =>
    simp only [hplace,List.mem_append,List.mem_singleton] at hhdr
    rcases hhdr with hold|rfl
    · exact hreq hdr hold
    · exact hnew

/-- The headers of a request come from the calls. -/
theorem run_fits (req : Request) (ops : List Op) (hreq : ∀ hdr∈req.headers,Fits hdr)
    (hops : ∀ hdr∈ops.filterMap opHeader,Fits hdr) : ∀ hdr∈(run req ops).1.headers,Fits hdr := by
  induction ops generalizing req with
  | nil => exact hreq
  | cons op ops ih =>
    have hop : ∀ hdr,opHeader op=some hdr → Fits hdr := fun hdr h =>
      hops hdr (List.mem_filterMap.mpr ⟨op,by simp,h⟩)
    refine ih (step req op).1 ?_ (fun hdr hhdr => hops hdr ?_)
    · cases op with
      | set name value policy =>
        cases value with
        | none => exact hreq
        | some value => exact setHeader_fits req name value policy hreq (hop _ rfl)
      | user header block =>
        rw [step,requestSetUserHeader]
        cases hfield : userField header block with
        | none => exact hreq
        | some hdr => exact setHeader_fits req _ _ _ hreq (hop hdr hfield)
      | remove name =>
        intro hdr hhdr
        rw [step,requestRemoveHeader] at hhdr
        cases hplace : findHeader req name with
        | none =>
          simp only [hplace] at hhdr
          exact hreq hdr hhdr
        | some i =>
          simp only [hplace] at hhdr
          exact hreq hdr (List.mem_of_mem_eraseIdx hhdr)
    · obtain ⟨op',hop',heq⟩ := List.mem_filterMap.mp hhdr
      exact List.mem_filterMap.mpr ⟨op',by simp [hop'],heq⟩

/-- The reader of heads finds in the text of a request the header of a name. -/
theorem respHeaderGet_requestText (req : Request) (hmethod : NoLineEnd req.method.bytes)
    (harg : NoLineEnd req.arg.bytes) (hfits : ∀ hdr∈req.headers,Fits hdr) (name : CStr)
    (hname : 58∉name.bytes) :
    respHeaderGet (respNew (requestText req)) name.bytes=
      (ClassMap.denote RequestHeader.name nameClass req.headers (nameClass name)).map
        (fun hdr => hdr.value.bytes) := by
  rw [respNew_requestText req hmethod harg hfits,respHeaderGet]
  simp only [List.map_cons,List.tail_cons,List.map_map,List.findSome?_map]
  exact findSome_line req.headers hfits name hname

/-- The text of a request goes out just when an int can count it, and the reader of heads reads
it back as the fields it stands for. -/
theorem request_text_read_back (method arg : CStr) (ops : List Op)
    (hmethod : NoLineEnd method.bytes) (harg : NoLineEnd arg.bytes)
    (hops : ∀ hdr∈ops.filterMap opHeader,Fits hdr) (name : CStr) (hname : 58∉name.bytes) :
    (requestSend (run (requestNew method arg) ops).1=
        .written (requestText (run (requestNew method arg) ops).1) ↔
      (requestText (run (requestNew method arg) ops).1).length+1<2^31) ∧
    respHeaderGet (respNew (requestText (run (requestNew method arg) ops).1)) name.bytes=
      ((ops.foldl fieldsStep .empty).field (nameClass name)).map
        (fun hdr => hdr.value.bytes) := by
  obtain ⟨hmethod',harg'⟩ := run_line (requestNew method arg) ops
  obtain ⟨⟨_,hfield,_⟩,_,_⟩ := run_spec (requestNew method arg) .empty ops
    OrderedMap.denotes_empty ⟨Nat.zero_le _,0,rfl⟩
  refine ⟨requestSend_iff _,?_⟩
  rw [respHeaderGet_requestText _ (hmethod' ▸ hmethod) (harg' ▸ harg)
    (run_fits (requestNew method arg) ops (fun _ h => absurd h List.not_mem_nil) hops) name hname,
    hfield]

def cstr (block : Nat) (s : String) (h : 0∉text s) : CStr := ⟨block,text s,h⟩

def rangeOps : List Op :=
  [.set (cstr 1 "Host" (by decide)) (some (cstr 2 "example.com" (by decide))) .relValue,
    .set (cstr 3 "Accept" (by decide)) (some (cstr 4 "*/*" (by decide))) .relNone,
    .user (cstr 5 "range:  bytes=5-" (by decide)) 6,
    .set (cstr 7 "Range" (by decide)) (some (cstr 8 "bytes=9-" (by decide))) .relValue,
    .remove (cstr 9 "ACCEPT" (by decide))]

def rangeRequest : Request :=
  (run (requestNew (cstr 10 "GET" (by decide)) (cstr 11 "/file" (by decide))) rangeOps).1

/-- The last range that was set is the one that is sent. -/
theorem request_range_read_back :
    requestSend rangeRequest=.written (requestText rangeRequest) ∧
      respHeaderGet (respNew (requestText rangeRequest)) (text "RANGE")=
        some (text "bytes=9-") := by
  obtain ⟨hsent,hread⟩ := request_text_read_back (cstr 10 "GET" (by decide))
    (cstr 11 "/file" (by decide)) rangeOps (by decide) (by decide) (by decide)
    (cstr 12 "RANGE" (by decide)) (by decide)
  constructor
  · apply hsent.mpr
    decide
  · apply hread.trans
    decide

end IdearNiu.HttpRequest
