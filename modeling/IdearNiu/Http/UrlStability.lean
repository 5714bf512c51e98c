import IdearNiu.Http.Url

namespace IdearNiu.Url

open Words
open Cutting (before onward Stops cut_append stops_cons stops_nil)

/-- The characters url_string escapes. -/
def unsafeChar (c : Byte) : Bool := urlchrTest c unsafeMask

section Characters

theorem escaped_mem (c x : Byte) (h : x∈escaped c) : x=percent ∨ isHexDigit x=true := by
  have hdigit : ∀ n<16,isHexDigit (numToDigit n)=true := by decide
  have hc := c.isLt
  simp only [escaped,List.mem_cons,List.not_mem_nil,or_false] at h
  rcases h with rfl|rfl|rfl
  · exact Or.inl rfl
  · exact Or.inr (hdigit _ (by omega))
  · exact Or.inr (hdigit _ (by omega))

theorem safe_facts : ∀ c : Byte,(c=percent || isHexDigit c)=true →
    c∉[atSign,slash,question,hash,semicolon] ∧ c∉[colon,slash,semicolon,question,hash] := by
  decide

theorem unsafe_facts : unsafeChar atSign=true ∧ unsafeChar percent=true := by
  decide

theorem toLower_facts : ∀ c : Byte,unsafeChar (toLower c)=unsafeChar c ∧
    toLower (toLower c)=toLower c ∧ (toLower c=openBracket ↔ c=openBracket) ∧
    (toLower c∈[colon,slash,semicolon,question,hash] →
      c∈[colon,slash,semicolon,question,hash] ∧ toLower c=c) := by
  decide

theorem escape_mem (text : List Byte) (c : Byte) (h : c∈urlEscapeAllowPassthrough text) :
    c∈text ∧ unsafeChar c=false ∨ (c=percent || isHexDigit c)=true := by
  obtain ⟨x,hx,hc⟩ := List.mem_flatMap.mp h
  split at hc
  · refine Or.inr ?_
    rcases escaped_mem x c hc with rfl|h
    · decide
    · rw [h,Bool.or_true]
  next hsafe =>
    rw [List.mem_singleton] at hc
    subst hc
    exact Or.inl ⟨hx,by simpa [unsafeChar] using hsafe⟩

theorem escape_cons (c : Byte) (text : List Byte) : urlEscapeAllowPassthrough (c::text)=
    (if unsafeChar c then escaped c else [c])++urlEscapeAllowPassthrough text := rfl

theorem escape_head (c : Byte) (text : List Byte) :
    (urlEscapeAllowPassthrough (c::text)).head?=some (if unsafeChar c then percent else c) := by
  rw [escape_cons]
  split <;> rfl

theorem escape_colon (text : List Byte) (h : colon∉text) :
    colon∉urlEscapeAllowPassthrough text := by
  intro hc
  rcases escape_mem text colon hc with ⟨hmem,_⟩|hhex
  · exact h hmem
  · exact absurd hhex (by decide)

/-- Every escaped character makes the text longer by two. -/
theorem escape_length (text : List Byte) :
    (urlEscapeAllowPassthrough text).length=text.length+2*text.countP unsafeChar := by
  induction text with
  | nil => rfl
  | cons c text ih =>
    rw [escape_cons,List.length_append,ih,List.countP_cons,List.length_cons]
    split
    · simp only [escaped,List.length_cons,List.length_nil]
      omega
    · simp only [List.length_singleton]
      omega

theorem escape_eq (text : List Byte) (h : ∀ c∈text,unsafeChar c=false) :
    urlEscapeAllowPassthrough text=text := by
  induction text with
  | nil => rfl
  | cons c text ih =>
    rw [List.forall_mem_cons] at h
    rw [escape_cons,h.1,ih h.2]
    rfl

/-- A text that escaping does not make longer has nothing to escape. -/
theorem safe_of_length (text : List Byte)
    (h : (urlEscapeAllowPassthrough text).length=text.length) :
    ∀ c∈text,unsafeChar c=false := by
  rw [escape_length] at h
  have hcount : text.countP unsafeChar=0 := by omega
  intro c hc
  simpa using List.countP_eq_zero.mp hcount c hc

theorem digit_facts : ∀ c : Byte,numToDigit (c.toNat/16)≠percent ∧
    numToDigit (c.toNat%16)≠percent ∧ (c≠colon → ¬(numToDigit (c.toNat/16)=numToDigit
      (colon.toNat/16) ∧ numToDigit (c.toNat%16)=numToDigit (colon.toNat%16))) := by
  decide

theorem unescapeSingleChar_char (chr c : Byte) (text : List Byte) (h : c≠percent) :
    unescapeSingleChar chr (c::text)=c::unescapeSingleChar chr text := by
  match text with
  | [] => rfl
  | [_] => rfl
  | _::_::_ => rw [unescapeSingleChar,if_neg (fun hc => h hc.1)]

/-- Where there is no colon, there is none to take the escaping back from. -/
theorem unescapeSingleChar_escape (text : List Byte) (h : colon∉text) :
    unescapeSingleChar colon (urlEscapeAllowPassthrough text)=urlEscapeAllowPassthrough text := by
  induction text with
  | nil => rfl
  | cons c text ih =>
    rw [List.mem_cons,not_or] at h
    obtain ⟨hhigh,hlow,hne⟩ := digit_facts c
    rw [escape_cons]
    split
    · simp only [escaped,List.cons_append,List.nil_append]
      rw [unescapeSingleChar,if_neg (fun hc => hne (Ne.symm h.1) hc.2),
        unescapeSingleChar_char _ _ _ hhigh,unescapeSingleChar_char _ _ _ hlow,ih h.2]
    next hsafe =>
      have hpercent : c≠percent := by
        intro heq
        subst heq
        exact hsafe unsafe_facts.2
      rw [List.singleton_append,unescapeSingleChar_char _ _ _ hpercent,ih h.2]

end Characters

section Texts

def credentialText : Option (List Byte) → Option (List Byte) → Option (List Byte)
  | none,_ => none
  | some user,none => some user
  | some user,some passwd => some (user++colon::passwd)

def portText (scheme : Scheme) (port : Nat) : Option (List Byte) :=
  if port=(schemeData scheme).defaultPort then none else some (numberToString port)

def marked (chr : Byte) : Option (List Byte) → List Byte
  | none => []
  | some text => chr::text

def credentialPrefix : Option (List Byte) → List Byte
  | none => []
  | some region => region++[atSign]

/-- The text that the parts are cut from, without a fragment and with a path in any case. -/
def compose (parts : Parts) : List Byte :=
  credentialPrefix parts.credentials++parts.host++marked colon parts.port++
    slash::(parts.path.getD [])++marked semicolon parts.params++marked question parts.query

/-- The parts of the URL that url_string writes. -/
def written (u : Url) : Parts where
  credentials := credentialText (u.user.map urlEscapeAllowPassthrough)
    (u.passwd.map urlEscapeAllowPassthrough)
  host := urlEscapeAllowPassthrough u.host
  port := portText u.scheme u.port
  path := some u.path
  params := u.params
  query := u.query
  fragment := none

theorem fullPath_eq (u : Url) :
    fullPath u=slash::u.path++marked semicolon u.params++marked question u.query := by
  cases hparams : u.params <;> cases hquery : u.query <;> simp [fullPath,marked,hparams,hquery]

/-- What url_string writes, where the host has no colon. -/
theorem urlString_eq (u : Url) (hcolon : colon∉u.host) :
    urlString u .show=(schemeData u.scheme).leadingString++compose (written u) := by
  have hquoted : (if u.host.any (urlchrTest · unsafeMask) then
      unescapeSingleChar colon (urlEscapeAllowPassthrough u.host)
        else urlEscapeAllowPassthrough u.host)=urlEscapeAllowPassthrough u.host := by
    rw [unescapeSingleChar_escape u.host hcolon,ite_self]
  have hbrackets := escape_colon u.host hcolon
  have hport : (if u.port≠(schemeData u.scheme).defaultPort then colon::numberToString u.port
      else [])=marked colon (portText u.scheme u.port) := by
    rw [portText]
    by_cases h : u.port=(schemeData u.scheme).defaultPort
    · rw [if_pos h,if_neg (not_not.mpr h)]
      rfl
    · rw [if_neg h,if_pos h]
      rfl
  rw [urlString]
  simp only [hquoted,hbrackets,if_false,hport]
  cases huser : u.user with
  | none => simp [compose,written,credentialText,huser,fullPath_eq,credentialPrefix]
  | some user =>
    cases hpasswd : u.passwd with
    | none => simp [compose,written,credentialText,huser,hpasswd,fullPath_eq,credentialPrefix]
    | some passwd => simp [compose,written,credentialText,huser,hpasswd,fullPath_eq,credentialPrefix]

end Texts

section Cutting

/-- The two kinds of schemes: those with a query and those with params. -/
theorem scheme_cases (scheme : Scheme) :
    (initSeps scheme=[colon,slash,question,hash] ∧ (schemeData scheme).hasParams=false ∧
      (schemeData scheme).hasQuery=true ∧ (schemeData scheme).hasFragment=true) ∨
    (initSeps scheme=[colon,slash,semicolon,hash] ∧ (schemeData scheme).hasParams=true ∧
      (schemeData scheme).hasQuery=false ∧ (schemeData scheme).hasFragment=true) := by
  cases scheme
  case http | https => exact Or.inl ⟨rfl,rfl,rfl,rfl⟩
  case ftp | ftps => exact Or.inr ⟨rfl,rfl,rfl,rfl⟩

theorem initSeps_facts (scheme : Scheme) : colon∈initSeps scheme ∧ slash∈initSeps scheme ∧
    ∀ c∈initSeps scheme,c∈[colon,slash,semicolon,question,hash] := by
  rcases scheme_cases scheme with ⟨hseps,_⟩|⟨hseps,_⟩ <;> rw [hseps] <;> decide

theorem urlSkipCredentials_region (region rest : List Byte)
    (h : ∀ c∈region,c∉[atSign,slash,question,hash,semicolon]) :
    urlSkipCredentials (region++atSign::rest)=(some region,rest) := by
  obtain ⟨hbefore,honward⟩ := cut_append [atSign,slash,question,hash,semicolon] region
    (atSign::rest) h (stops_cons _ _ _ (by decide))
  rw [urlSkipCredentials]
  simp only [hbefore,honward,if_true]

/-- No at sign before the first slash: there are no credentials. -/
theorem urlSkipCredentials_none (text rest : List Byte) (h : atSign∉text) :
    urlSkipCredentials (text++slash::rest)=(none,text++slash::rest) := by
  have hfirst : ∃ c more,onward [atSign,slash,question,hash,semicolon] (text++slash::rest)=
      c::more ∧ c≠atSign := by
    induction text with
    | nil => exact ⟨slash,rest,Cutting.onward_of_stops _ _ (stops_cons _ _ _ (by decide)),
        by decide⟩
    | cons c text ih =>
      rw [List.mem_cons,not_or] at h
      by_cases hc : c∈[atSign,slash,question,hash,semicolon]
      · exact ⟨c,text++slash::rest,Cutting.onward_of_stops _ _ (stops_cons _ _ _ hc),Ne.symm h.1⟩
      · obtain ⟨d,more,hd,hne⟩ := ih h.2
        refine ⟨d,more,?_,hne⟩
        rw [List.cons_append,Cutting.onward_cons _ _ _ hc]
        exact hd
  obtain ⟨c,more,hc,hne⟩ := hfirst
  rw [urlSkipCredentials]
  simp only [hc,if_neg hne]

theorem getUrlPart_cons (sepchar : Byte) (seps text rest : List Byte)
    (h : ∀ c∈text,c∉seps) (hrest : Stops seps rest) :
    getUrlPart sepchar seps (sepchar::(text++rest))=(some text,rest) := by
  obtain ⟨hbefore,honward⟩ := cut_append seps text rest h hrest
  simp only [getUrlPart,if_true,hbefore,honward]

theorem getUrlPart_ne (sepchar c : Byte) (seps rest : List Byte) (h : c≠sepchar) :
    getUrlPart sepchar seps (c::rest)=(none,c::rest) := by
  simp only [getUrlPart,if_neg h]

/-- An optional last part. -/
theorem getUrlPart_marked (sepchar : Byte) (seps : List Byte) (text : Option (List Byte))
    (h : ∀ t,text=some t → ∀ c∈t,c∉seps) :
    getUrlPart sepchar seps (marked sepchar text)=(text,[]) := by
  cases text with
  | none => rfl
  | some t =>
    have hpart := getUrlPart_cons sepchar seps t [] (h t rfl) (stops_nil seps)
    rw [List.append_nil] at hpart
    exact hpart

theorem hexDigit_facts : ∀ c : Byte,isHexDigit c=true →
    c≠atSign ∧ c∉[slash,question,hash] ∧ c∉[slash,semicolon,hash] := by
  decide

theorem urlSkipCredentials_compose (credentials : Option (List Byte)) (host : List Byte)
    (port : Option (List Byte)) (rest : List Byte)
    (hcredentials : ∀ region,credentials=some region →
      ∀ c∈region,c∉[atSign,slash,question,hash,semicolon])
    (hhost : atSign∉host) (hport : ∀ text,port=some text → ∀ c∈text,isHexDigit c=true) :
    urlSkipCredentials (credentialPrefix credentials++(host++(marked colon port++slash::rest)))=
      (credentials,host++(marked colon port++slash::rest)) := by
  cases credentials with
  | none =>
    have hat : atSign∉host++marked colon port := by
      rw [List.mem_append,not_or]
      refine ⟨hhost,?_⟩
      cases port with
      | none => exact List.not_mem_nil
      | some text =>
        intro hc
        rcases List.mem_cons.mp hc with hc|hc
        · exact absurd hc (by decide)
        · exact (hexDigit_facts _ (hport text rfl _ hc)).1 rfl
    have hskip := urlSkipCredentials_none (host++marked colon port) rest hat
    rw [List.append_assoc] at hskip
    exact hskip
  | some region =>
    have hskip := urlSkipCredentials_region region (host++(marked colon port++slash::rest))
      (hcredentials region rfl)
    rw [credentialPrefix,List.append_assoc]
    exact hskip

theorem stops_port (seps : List Byte) (port : Option (List Byte)) (rest : List Byte)
    (hcolon : colon∈seps) (hslash : slash∈seps) :
    Stops seps (marked colon port++slash::rest) := by
  cases port with
  | none => exact stops_cons seps slash rest hslash
  | some text => exact stops_cons seps colon (text++slash::rest) hcolon

/-- The port, or none where a slash follows the host. -/
theorem getUrlPart_port (seps rest : List Byte) (port : Option (List Byte))
    (hslash : slash∈seps) (hport : ∀ text,port=some text → ∀ c∈text,c∉seps) :
    getUrlPart colon seps (marked colon port++slash::rest)=(port,slash::rest) := by
  cases port with
  | none => exact getUrlPart_ne colon slash seps rest (by decide)
  | some text =>
    exact getUrlPart_cons colon seps text (slash::rest) (hport text rfl)
      (stops_cons seps slash rest hslash)

theorem stops_marked (seps : List Byte) (chr : Byte) (text : Option (List Byte)) (h : chr∈seps) :
    Stops seps (marked chr text) := by
  cases text with
  | none => exact stops_nil seps
  | some t => exact stops_cons seps chr t h

/-- Parts that can be told apart again when they are written one after the other. -/
structure Separable (scheme : Scheme) (parts : Parts) : Prop where
  credentials : ∀ region,parts.credentials=some region →
    ∀ c∈region,c∉[atSign,slash,question,hash,semicolon]
  host : ∀ c∈parts.host,c∉initSeps scheme
  hostAt : atSign∉parts.host
  port : ∀ text,parts.port=some text → ∀ c∈text,isHexDigit c=true
  path : ∃ path,parts.path=some path ∧ ∀ c∈path,c∉(initSeps scheme).drop 2
  params : ∀ text,parts.params=some text →
    (schemeData scheme).hasParams=true ∧ ∀ c∈text,c∉[hash]
  query : ∀ text,parts.query=some text → (schemeData scheme).hasQuery=true ∧ ∀ c∈text,c∉[hash]
  fragment : parts.fragment=none

theorem cutUrl_compose (scheme : Scheme) (parts : Parts) (h : Separable scheme parts) :
    cutUrl scheme (compose parts)=parts := by
  obtain ⟨hcredentials,hhost,hat,hport,⟨path,hpath,hpathfree⟩,hparams,hquery,hfragment⟩ := h
  obtain ⟨credentials,host,port,path,params,query,fragment⟩ := parts
  simp only at hcredentials hhost hat hport hpath hparams hquery hfragment
  subst hpath hfragment
  have hskip := urlSkipCredentials_compose credentials host port
    (path++(marked semicolon params++marked question query)) hcredentials hat hport
  obtain ⟨hcolon,hslash,_⟩ := initSeps_facts scheme
  have hcut := cut_append (initSeps scheme) host
    (marked colon port++slash::(path++(marked semicolon params++marked question query))) hhost
    (stops_port (initSeps scheme) port _ hcolon hslash)
  have hcompose : compose ⟨credentials,host,port,some path,params,query,none⟩=
      credentialPrefix credentials++(host++(marked colon port++
        slash::(path++(marked semicolon params++marked question query)))) := by
    simp [compose]
  have hend : getUrlPart hash [] []=(none,[]) := rfl
  rw [cutUrl,cutAll,hcompose]
  simp only [hskip,hcut.1,hcut.2]
  rcases scheme_cases scheme with ⟨hseps,hp,hq,hf⟩|⟨hseps,hp,hq,hf⟩
  · have hnone : params=none := by
      cases params with
      | none => rfl
      | some text => simp [hp] at hparams
    subst hnone
    rw [hseps] at hpathfree
    have h1 := getUrlPart_port [slash,question,hash] (path++marked question query) port (by decide)
      (fun text htext c hc => (hexDigit_facts c (hport text htext c hc)).2.1)
    have h2 := getUrlPart_cons slash [question,hash] path (marked question query) hpathfree
      (stops_marked _ _ _ (by decide))
    have h3 := getUrlPart_marked question [hash] query (fun t ht => (hquery t ht).2)
    have hnil : marked semicolon none++marked question query=marked question query := rfl
    simp only [hseps,hp,hq,hf,List.tail_cons,hnil,h1,h2,h3,hend,Bool.false_eq_true,if_false,
      if_true]
  · have hnone : query=none := by
      cases query with
      | none => rfl
      | some text => simp [hq] at hquery
    subst hnone
    rw [hseps] at hpathfree
    have h1 := getUrlPart_port [slash,semicolon,hash] (path++marked semicolon params) port
      (by decide) (fun text htext c hc => (hexDigit_facts c (hport text htext c hc)).2.2)
    have h2 := getUrlPart_cons slash [semicolon,hash] path (marked semicolon params) hpathfree
      (stops_marked _ _ _ (by decide))
    have h3 := getUrlPart_marked semicolon [hash] params (fun t ht => (hparams t ht).2)
    have hnil : marked semicolon params++marked question none=marked semicolon params :=
      List.append_nil _
    simp only [hseps,hp,hq,hf,List.tail_cons,hnil,h1,h2,h3,hend,Bool.false_eq_true,if_false,
      if_true]

/-- What the cuts leave out of each part. -/
structure Cut (scheme : Scheme) (parts : Parts) : Prop where
  credentials : ∀ region,parts.credentials=some region →
    ∀ c∈region,c∉[atSign,slash,question,hash,semicolon]
  host : ∀ c∈parts.host,c∉initSeps scheme
  path : ∀ path,parts.path=some path → ∀ c∈path,c∉(initSeps scheme).drop 2
  params : ∀ text,parts.params=some text →
    (schemeData scheme).hasParams=true ∧ ∀ c∈text,c∉[hash]
  query : ∀ text,parts.query=some text → (schemeData scheme).hasQuery=true ∧ ∀ c∈text,c∉[hash]

theorem getUrlPart_free (sepchar : Byte) (seps p text : List Byte)
    (h : (getUrlPart sepchar seps p).1=some text) : ∀ c∈text,c∉seps := by
  cases p with
  | nil => cases h
  | cons c rest =>
    rw [getUrlPart] at h
    split at h
    · cases h
      exact Cutting.before_free seps rest
    · cases h

theorem urlSkipCredentials_free (text region : List Byte)
    (h : (urlSkipCredentials text).1=some region) :
    ∀ c∈region,c∉[atSign,slash,question,hash,semicolon] := by
  rw [urlSkipCredentials] at h
  split at h
  · cases h
  · split at h
    · cases h
      exact Cutting.before_free _ text
    · cases h

theorem cutUrl_cut (scheme : Scheme) (text : List Byte) : Cut scheme (cutUrl scheme text) := by
  rcases scheme_cases scheme with ⟨hseps,hp,hq,hf⟩|⟨hseps,hp,hq,hf⟩
  · refine ⟨fun region h => urlSkipCredentials_free text region h,
      Cutting.before_free (initSeps scheme) _,?_,?_,?_⟩
    · intro path h
      simp only [cutUrl,cutAll,hseps,List.tail_cons] at h
      rw [hseps]
      exact getUrlPart_free _ _ _ _ h
    · intro params h
      simp [cutUrl,cutAll,hp] at h
    · intro query h
      simp only [cutUrl,cutAll,hseps,hp,hq,List.tail_cons,Bool.false_eq_true,if_false,if_true] at h
      exact ⟨hq,getUrlPart_free _ _ _ _ h⟩
  · refine ⟨fun region h => urlSkipCredentials_free text region h,
      Cutting.before_free (initSeps scheme) _,?_,?_,?_⟩
    · intro path h
      simp only [cutUrl,cutAll,hseps,List.tail_cons] at h
      rw [hseps]
      exact getUrlPart_free _ _ _ _ h
    · intro params h
      simp only [cutUrl,cutAll,hseps,hp,List.tail_cons,if_true] at h
      exact ⟨hp,getUrlPart_free _ _ _ _ h⟩
    · intro query h
      simp [cutUrl,cutAll,hq] at h

end Cutting

section Credentials

/-- The user name and the password are the parts before and after the first colon. -/
theorem credentialsOf_cases (credentials : Option (List Byte))
    (user passwd : Option (List Byte)) (h : credentialsOf credentials=some (user,passwd)) :
    (credentials=none ∧ user=none ∧ passwd=none) ∨
      ∃ region name,credentials=some region ∧ user=some name ∧ name=before [colon] region ∧
        name≠[] ∧ (onward [colon] region=[] ∧ passwd=none ∨
          ∃ word,onward [colon] region=colon::word ∧ passwd=some word) := by
  cases credentials with
  | none =>
    cases h
    exact Or.inl ⟨rfl,rfl,rfl⟩
  | some region =>
    obtain ⟨c,hc,heq⟩ := Option.map_eq_some_iff.mp h
    cases heq
    by_cases hname : before [colon] region=[]
    · simp [parseCredentials,hname] at hc
    · have hregion : region≠[] := by
        intro hsame
        subst hsame
        exact hname rfl
      have hstops := Cutting.onward_stops [colon] region
      cases hword : onward [colon] region with
      | nil =>
        simp only [parseCredentials,hregion,hname,hword,if_false,Option.some.injEq] at hc
        subst hc
        exact Or.inr ⟨region,_,rfl,rfl,rfl,hname,Or.inl ⟨hword,rfl⟩⟩
      | cons d word =>
        simp only [parseCredentials,hregion,hname,hword,if_false,Option.some.injEq] at hc
        subst hc
        rw [hword] at hstops
        have hd : d=colon := List.mem_singleton.mp (hstops d rfl)
        rw [hd] at hword
        exact Or.inr ⟨region,_,rfl,rfl,rfl,hname,Or.inr ⟨word,hword,rfl⟩⟩

theorem credentialsOf_text (user passwd : Option (List Byte))
    (huser : ∀ name,user=some name → name≠[] ∧ colon∉name)
    (hpasswd : user=none → passwd=none) :
    credentialsOf (credentialText user passwd)=some (user,passwd) := by
  cases user with
  | none =>
    rw [hpasswd rfl]
    rfl
  | some name =>
    obtain ⟨hne,hcolon⟩ := huser name rfl
    have hfree : ∀ c∈name,c∉[colon] := by
      intro c hc h
      rw [List.mem_singleton] at h
      exact hcolon (h ▸ hc)
    cases passwd with
    | none =>
      obtain ⟨hbefore,honward⟩ := cut_append [colon] name [] hfree (stops_nil _)
      rw [List.append_nil] at hbefore honward
      simp only [credentialsOf,credentialText,parseCredentials,hbefore,honward,hne,if_false,
        Option.map_some,urlUnescape]
    | some word =>
      obtain ⟨hbefore,honward⟩ := cut_append [colon] name (colon::word) hfree
        (stops_cons _ _ _ (by decide))
      simp only [credentialsOf,credentialText,parseCredentials,hbefore,honward,hne,if_false,
        Option.map_some,urlUnescape,List.append_eq_nil_iff,false_and]

end Credentials

section Ports

theorem numberToString_hex (n : Nat) : ∀ c∈numberToString n,isHexDigit c=true := by
  have hdigit : ∀ d<10,isHexDigit (BitVec.ofNat 8 (0x30+d))=true := by decide
  intro c hc
  obtain ⟨d,hd,rfl⟩ := List.mem_map.mp hc
  exact hdigit d (Decimal.digits_lt n d hd)

theorem parsePort_digits (n : Nat) (ds : List Nat) (hds : ∀ d∈ds,d<10)
    (hmax : Decimal.value n ds≤0xffff) :
    parsePort n (ds.map (fun d => BitVec.ofNat 8 (0x30+d)))=some (Decimal.value n ds) := by
  have hdigit : ∀ d<10,(0x30:Byte)≤BitVec.ofNat 8 (0x30+d) ∧ BitVec.ofNat 8 (0x30+d)≤(0x39:Byte) ∧
      (BitVec.ofNat 8 (0x30+d)).toNat-0x30=d := by decide
  induction ds generalizing n with
  | nil => rfl
  | cons d ds ih =>
    rw [List.forall_mem_cons] at hds
    obtain ⟨hmin,hnine,hd⟩ := hdigit d hds.1
    rw [Decimal.value_cons] at hmax ⊢
    have hle := Decimal.le_value (n*10+d) ds
    rw [List.map_cons,parsePort,if_pos ⟨hmin,hnine⟩]
    simp only [hd,mul_comm 10 n]
    rw [if_neg (by omega),ih (n*10+d) hds.2 hmax]

theorem parsePort_le (n m : Nat) (text : List Byte) (hn : n≤0xffff)
    (h : parsePort n text=some m) : m≤0xffff := by
  induction text generalizing n with
  | nil =>
    cases h
    exact hn
  | cons c text ih =>
    rw [parsePort] at h
    split at h
    · simp only at h
      split at h
      · cases h
      · exact ih _ (by omega) h
    · cases h

theorem portOf_le (scheme : Scheme) (text : Option (List Byte)) (port : Nat)
    (h : portOf scheme text=some port) : port≤0xffff := by
  have hdefault : (schemeData scheme).defaultPort≤0xffff := by cases scheme <;> decide
  rw [portOf.eq_def] at h
  split at h
  · cases h
    exact hdefault
  · cases h
    exact hdefault
  · exact parsePort_le 0 port _ (by decide) h

theorem portOf_text (scheme : Scheme) (port : Nat) (h : port≤0xffff) :
    portOf scheme (portText scheme port)=some port := by
  rw [portText]
  split
  next hdefault => rw [hdefault,portOf]
  next =>
    have hvalue := Decimal.value_digits port
    have hne := Decimal.digits_ne_nil port
    have hparse := parsePort_digits 0 (Decimal.digits port) (Decimal.digits_lt port)
      (by rw [hvalue]; exact h)
    rw [hvalue,← Decimal.text,← numberToString] at hparse
    have htext : numberToString port≠[] := by simpa [numberToString,Decimal.text] using hne
    rw [portOf.eq_def]
    split
    next heq => cases heq
    next heq =>
      injection heq with heq
      exact absurd heq htext
    next heq =>
      injection heq with heq
      rw [← heq]
      exact hparse

end Ports

section Parses

variable (haveSsl : Bool) (disabled : Scheme → Bool)

/-- Whether url_parse rebuilds the text. -/
def rebuilt (parts : Parts) : Bool :=
  parts.fragment.isSome || (parts.host.any isUpper || parts.host.contains percent) ||
    decide (parts.path.getD []=[])

/-- What a parse makes of the parts, the text apart. -/
def fieldsOf (scheme : Scheme) (parts : Parts) (port : Nat)
    (credentials : Option (List Byte) × Option (List Byte)) : Url :=
  let path := parts.path.getD []
  ⟨[],scheme,parts.host.map toLower,port,path,parts.params,parts.query,parts.fragment,
    (splitPath path).1,(splitPath path).2,credentials.1,credentials.2⟩

theorem finishUrl_eq (scheme : Scheme) (parts : Parts) (port : Nat)
    (credentials : Option (List Byte) × Option (List Byte)) (text : List Byte) :
    finishUrl scheme parts port credentials text=
      let u := fieldsOf scheme parts port credentials
      if u.host.contains percent && u.host.any isCntrl then none
      else some {u with url := if rebuilt parts then urlString u .show else text} := by
  obtain ⟨user,passwd⟩ := credentials
  by_cases hcontrol : ((parts.host.map toLower).contains percent &&
      (parts.host.map toLower).any isCntrl)=true
  · exact (if_pos hcontrol).trans (if_pos hcontrol).symm
  · refine (if_neg hcontrol).trans (Eq.trans ?_ (if_neg hcontrol).symm)
    by_cases hrebuilt : rebuilt parts=true
    · refine (if_pos hrebuilt).trans ?_
      rw [if_pos hrebuilt]
      rfl
    · refine (if_neg hrebuilt).trans ?_
      rw [if_neg hrebuilt]
      rfl

/-- A parse that gives a URL, step by step. -/
theorem urlParse_cases (url : List Byte) (p : Url)
    (h : urlParse haveSsl disabled url false=some p) :
    ∃ scheme parts port credentials,urlScheme haveSsl disabled url=some scheme ∧
      parts=cutUrl scheme (url.drop (schemeData scheme).leadingString.length) ∧
      hostInvalid parts=false ∧ portOf scheme parts.port=some port ∧
      credentialsOf parts.credentials=some credentials ∧
      p={fieldsOf scheme parts port credentials with
        url := if rebuilt parts then urlString (fieldsOf scheme parts port credentials) .show
          else url} := by
  rw [urlParse] at h
  obtain ⟨scheme,hscheme,h⟩ := Option.bind_eq_some_iff.mp h
  simp only [Bool.false_eq_true,if_false] at h
  split at h
  · cases h
  next hhost =>
    obtain ⟨port,hport,h⟩ := Option.bind_eq_some_iff.mp h
    obtain ⟨credentials,hcredentials,h⟩ := Option.bind_eq_some_iff.mp h
    rw [finishUrl_eq] at h
    simp only at h
    split at h
    · cases h
    · exact ⟨scheme,_,port,credentials,hscheme,rfl,by simpa using hhost,hport,hcredentials,
        (Option.some.inj h).symm⟩

theorem startsWith_leading (s t : Scheme) (rest : List Byte) :
    startsWith (schemeData s).leadingString ((schemeData t).leadingString++rest)=decide (s=t) := by
  cases s <;> cases t <;> rfl

/-- A text with the leading string of a scheme that was found before has that scheme. -/
theorem urlScheme_leading (url rest : List Byte) (scheme : Scheme)
    (h : urlScheme haveSsl disabled url=some scheme) :
    urlScheme haveSsl disabled ((schemeData scheme).leadingString++rest)=some scheme := by
  rw [urlScheme] at h ⊢
  split at h
  next s hfind =>
    split at h
    · cases h
    next hdisabled =>
      cases h
      have hmem := List.mem_of_find?_eq_some hfind
      simp only [startsWith_leading]
      cases haveSsl <;> cases scheme <;> simp_all [supportedSchemes]
  next => cases h

/-- What is known of a URL that a parse made of its parts. -/
structure ReadFrom (scheme : Scheme) (parts : Parts) (p : Url) : Prop where
  cut : Cut scheme parts
  scheme : p.scheme=scheme
  host : p.host=parts.host.map toLower
  hostValid : hostInvalid parts=false
  port : p.port≤0xffff
  path : p.path=parts.path.getD []
  split : (p.dir,p.file)=splitPath p.path
  params : p.params=parts.params
  query : p.query=parts.query
  credentials : credentialsOf parts.credentials=some (p.user,p.passwd)

/-- The credentials of a URL have none of the characters that end them. -/
theorem ReadFrom.credential_free (scheme : Scheme) (parts : Parts) (p : Url)
    (h : ReadFrom scheme parts p) :
    (∀ name,p.user=some name → name≠[] ∧ colon∉name ∧
      ∀ c∈name,c∉[atSign,slash,question,hash,semicolon]) ∧
    (∀ word,p.passwd=some word → p.user≠none ∧
      ∀ c∈word,c∉[atSign,slash,question,hash,semicolon]) := by
  rcases credentialsOf_cases _ _ _ h.credentials with ⟨_,huser,hpasswd⟩|
    ⟨region,name,hregion,huser,hname,hne,hpasswd⟩
  · rw [huser,hpasswd]
    constructor <;>
    · intro _ hnone
      cases hnone
  · have hfree := h.cut.credentials region hregion
    have hwhole := Cutting.before_append_onward [colon] region
    have hcolon := Cutting.before_free [colon] region
    refine ⟨?_,?_⟩
    · intro other hother
      rw [huser] at hother
      cases hother
      refine ⟨hne,fun hc => ?_,fun c hc => hfree c ?_⟩
      · rw [hname] at hc
        exact hcolon colon hc (by decide)
      · rw [← hwhole,← hname]
        exact List.mem_append_left _ hc
    · intro word hword
      refine ⟨by rw [huser]; exact Option.some_ne_none _,?_⟩
      rcases hpasswd with ⟨_,hnone⟩|⟨other,honward,hsome⟩
      · rw [hnone] at hword
        cases hword
      · rw [hsome] at hword
        cases hword
        intro c hc
        refine hfree c ?_
        rw [← hwhole,honward]
        exact List.mem_append_right _ (List.mem_cons_of_mem _ hc)

/-- Escaping brings in no character that ends a part. -/
theorem escape_free (text banned : List Byte)
    (hbanned : ∀ c : Byte,(c=percent || isHexDigit c)=true → c∉banned)
    (h : ∀ c∈text,c∉banned) : ∀ c∈urlEscapeAllowPassthrough text,c∉banned := by
  intro c hc
  rcases escape_mem text c hc with ⟨hmem,_⟩|hhex
  · exact h c hmem
  · exact hbanned c hhex

theorem ReadFrom.host_free (scheme : Scheme) (parts : Parts) (p : Url)
    (h : ReadFrom scheme parts p) :
    (∀ c∈p.host,c∉initSeps scheme) ∧ colon∉p.host ∧ p.host≠[] ∧
      p.host.head?≠some openBracket := by
  obtain ⟨hcolon,_,hseps⟩ := initSeps_facts scheme
  have hfree : ∀ c∈p.host,c∉initSeps scheme := by
    intro c hc hsep
    rw [h.host] at hc
    obtain ⟨d,hd,rfl⟩ := List.mem_map.mp hc
    obtain ⟨_,_,_,hlower⟩ := toLower_facts d
    rw [(hlower (hseps _ hsep)).2] at hsep
    exact h.cut.host d hd hsep
  have hvalid := h.hostValid
  rw [hostInvalid,Bool.or_eq_false_iff] at hvalid
  refine ⟨hfree,fun hc => hfree colon hc hcolon,?_,?_⟩
  · rw [h.host]
    simpa using hvalid.2
  · rw [h.host]
    intro hhead
    rw [List.head?_map,Option.map_eq_some_iff] at hhead
    obtain ⟨d,hd,hbracket⟩ := hhead
    obtain ⟨_,_,hopen,_⟩ := toLower_facts d
    rw [hopen.mp hbracket] at hd
    simp [hd] at hvalid

/-- What url_string writes of a parsed URL can be told apart again. -/
theorem written_separable (scheme : Scheme) (parts : Parts) (p : Url)
    (h : ReadFrom scheme parts p) : Separable scheme (written p) := by
  obtain ⟨huser,hpasswd⟩ := h.credential_free
  obtain ⟨hhost,_,_,_⟩ := h.host_free
  have haccept : ∀ c : Byte,(c=percent || isHexDigit c)=true →
    c∉[atSign,slash,question,hash,semicolon] := fun c hc => (safe_facts c hc).1
  refine ⟨?_,?_,?_,?_,⟨p.path,rfl,?_⟩,?_,?_,rfl⟩
  · intro region hregion
    cases hname : p.user with
    | none =>
      simp only [written,hname,Option.map_none,credentialText] at hregion
      cases hregion
    | some name =>
      have hfree := escape_free name _ haccept (huser name hname).2.2
      cases hword : p.passwd with
      | none =>
        simp only [written,hname,hword,Option.map_none,Option.map_some,credentialText] at hregion
        cases hregion
        exact hfree
      | some word =>
        simp only [written,hname,hword,Option.map_some,credentialText] at hregion
        cases hregion
        intro c hc
        rcases List.mem_append.mp hc with hc|hc
        · exact hfree c hc
        · rcases List.mem_cons.mp hc with rfl|hc
          · decide
          · exact escape_free word _ haccept (hpasswd word hword).2 c hc
  · refine escape_free p.host _ ?_ hhost
    intro c hc hsep
    exact (safe_facts c hc).2 ((initSeps_facts scheme).2.2 c hsep)
  · intro hat
    rcases escape_mem p.host atSign hat with ⟨_,hsafe⟩|hhex
    · exact absurd (hsafe.symm.trans unsafe_facts.1) (by decide)
    · exact absurd hhex (by decide)
  · intro text htext
    rw [written,portText] at htext
    simp only at htext
    split at htext
    · cases htext
    · cases htext
      exact numberToString_hex p.port
  · rw [h.path]
    cases hpath : parts.path with
    | none => exact fun c hc => by cases hc
    | some path => exact h.cut.path path hpath
  · intro text htext
    exact h.cut.params text (h.params.symm.trans htext)
  · intro text htext
    exact h.cut.query text (h.query.symm.trans htext)

/-- The parse of what url_string writes: the parts written, with user name and password as they
were escaped. -/
theorem urlParse_written (url : List Byte) (scheme : Scheme) (parts : Parts) (p : Url)
    (hscheme : urlScheme haveSsl disabled url=some scheme) (h : ReadFrom scheme parts p) :
    urlParse haveSsl disabled (urlString p .show) false=
      finishUrl scheme (written p) p.port (p.user.map urlEscapeAllowPassthrough,
        p.passwd.map urlEscapeAllowPassthrough) (urlString p .show) := by
  obtain ⟨huser,hpasswd⟩ := h.credential_free
  obtain ⟨_,hcolon,hne,hbracket⟩ := h.host_free
  have hstring := urlString_eq p hcolon
  rw [h.scheme] at hstring
  have hparts : cutUrl scheme ((urlString p .show).drop (schemeData scheme).leadingString.length)=
      written p := by
    rw [hstring,List.drop_left]
    exact cutUrl_compose scheme (written p) (written_separable scheme parts p h)
  have hvalid : hostInvalid (written p)=false := by
    obtain ⟨c,text,hhost⟩ := List.exists_cons_of_ne_nil hne
    have hhead := escape_head c text
    rw [hhost,List.head?_cons,ne_eq,Option.some.injEq] at hbracket
    rw [hostInvalid,written,Bool.or_eq_false_iff]
    simp only [hhost,hhead,decide_eq_false_iff_not,Option.some.injEq]
    refine ⟨?_,?_⟩
    · split
      · decide
      · exact hbracket
    · intro hnil
      rw [hnil] at hhead
      cases hhead
  have hport : portOf scheme (written p).port=some p.port := by
    rw [written,h.scheme]
    exact portOf_text scheme p.port h.port
  have hcredentials : credentialsOf (written p).credentials=
      some (p.user.map urlEscapeAllowPassthrough,p.passwd.map urlEscapeAllowPassthrough) := by
    refine credentialsOf_text _ _ ?_ ?_
    · intro quoted hquoted
      obtain ⟨name,hname,rfl⟩ := Option.map_eq_some_iff.mp hquoted
      obtain ⟨hnonempty,hfree,_⟩ := huser name hname
      refine ⟨?_,escape_colon name hfree⟩
      obtain ⟨c,text,rfl⟩ := List.exists_cons_of_ne_nil hnonempty
      intro hnil
      have hhead := escape_head c text
      rw [hnil] at hhead
      cases hhead
    · intro hnone
      rw [Option.map_eq_none_iff] at hnone ⊢
      cases hword : p.passwd with
      | none => rfl
      | some word => exact absurd hnone (hpasswd word hword).1
  rw [urlParse,hstring,urlScheme_leading haveSsl disabled url _ scheme hscheme,← hstring]
  simp only [Option.bind_eq_bind,Option.bind_some,Bool.false_eq_true,if_false,hparts,hvalid,
    hport,hcredentials]

/-- The text is kept as it is: no fragment, a path that is not empty, and a host that is not
changed by url_parse. -/
def Kept (parts : Parts) : Prop :=
  parts.fragment=none ∧ parts.path.getD []≠[] ∧ ∀ c∈parts.host,isUpper c=false ∧ c≠percent

/-- Nothing in the host, the user name and the password is escaped by url_string. -/
def Plain (parts : Parts) : Prop :=
  (∀ c∈parts.host,unsafeChar c=false) ∧ ∀ region,parts.credentials=some region →
    (∀ c∈before [colon] region,unsafeChar c=false) ∧
      ∀ c∈(onward [colon] region).tail,unsafeChar c=false

theorem kept_iff (parts : Parts) : Kept parts ↔ rebuilt parts=false := by
  have hhost : (parts.host.any isUpper || parts.host.contains percent)=false ↔
      ∀ c∈parts.host,isUpper c=false ∧ c≠percent := by
    rw [Bool.or_eq_false_iff,List.any_eq_false,forall₂_and]
    refine and_congr ?_ ?_
    · simp
    · rw [List.contains_eq_mem,decide_eq_false_iff_not]
      exact ⟨fun h c hc he => h (he ▸ hc),fun h hc => h percent hc rfl⟩
  rw [Kept,rebuilt,Bool.or_eq_false_iff,Bool.or_eq_false_iff,hhost,decide_eq_false_iff_not,
    Option.isSome_eq_false_iff,Option.isNone_iff_eq_none]
  constructor
  · intro hgiven
    obtain ⟨hfragment,hpath,hchars⟩ := hgiven
    exact ⟨⟨hfragment,hchars⟩,hpath⟩
  · intro hgiven
    obtain ⟨⟨hfragment,hchars⟩,hpath⟩ := hgiven
    exact ⟨hfragment,hpath,hchars⟩

/-- All that a URL is cut into but its fragment, and its text, are the same. -/
structure SameUrl (p q : Url) : Prop where
  scheme : q.scheme=p.scheme
  host : q.host=p.host
  port : q.port=p.port
  user : q.user=p.user
  passwd : q.passwd=p.passwd
  path : q.path=p.path
  params : q.params=p.params
  query : q.query=p.query
  dir : q.dir=p.dir
  file : q.file=p.file
  url : q.url=p.url

/-- The text of a URL is parsed to the same URL again. -/
def Stable (p : Url) : Prop :=
  ∃ q,urlParse haveSsl disabled p.url false=some q ∧ SameUrl p q

/-- In terms of the URL that was parsed. -/
theorem ReadFrom.plain_iff (scheme : Scheme) (parts : Parts) (p : Url)
    (h : ReadFrom scheme parts p) : Plain parts ↔
      (∀ c∈p.host,unsafeChar c=false) ∧ (∀ name,p.user=some name → ∀ c∈name,unsafeChar c=false) ∧
        ∀ word,p.passwd=some word → ∀ c∈word,unsafeChar c=false := by
  have hhost : (∀ c∈parts.host,unsafeChar c=false) ↔ ∀ c∈p.host,unsafeChar c=false := by
    rw [h.host,List.forall_mem_map]
    refine forall₂_congr (fun c _ => ?_)
    rw [(toLower_facts c).1]
  rw [Plain,hhost]
  refine and_congr_right (fun _ => ?_)
  rcases credentialsOf_cases _ _ _ h.credentials with ⟨hnone,huser,hpasswd⟩|
    ⟨region,name,hregion,huser,hname,_,hpasswd⟩
  · simp [hnone,huser,hpasswd]
  · rcases hpasswd with ⟨honward,hpasswd⟩|⟨word,honward,hpasswd⟩
    · simp [hregion,huser,hpasswd,hname,honward]
    · simp [hregion,huser,hpasswd,hname,honward]

theorem map_escape_eq (text : Option (List Byte))
    (h : ∀ t,text=some t → ∀ c∈t,unsafeChar c=false) :
    text.map urlEscapeAllowPassthrough=text := by
  cases text with
  | none => rfl
  | some t => rw [Option.map_some,escape_eq t (h t rfl)]

theorem safe_of_map_escape (text : Option (List Byte))
    (h : text.map urlEscapeAllowPassthrough=text) :
    ∀ t,text=some t → ∀ c∈t,unsafeChar c=false := by
  intro t heq
  subst heq
  rw [Option.map_some,Option.some.injEq] at h
  exact safe_of_length t (by rw [h])

/-- A rebuilt text is stable when url_string had nothing to escape. -/
theorem stable_of_plain (url : List Byte) (scheme : Scheme) (parts : Parts) (p : Url)
    (hscheme : urlScheme haveSsl disabled url=some scheme) (h : ReadFrom scheme parts p)
    (hurl : p.url=urlString p .show) (hplain : Plain parts) : Stable haveSsl disabled p := by
  obtain ⟨hhost,huser,hpasswd⟩ := h.plain_iff.mp hplain
  have hlower : p.host.map toLower=p.host := by
    rw [h.host,List.map_map]
    exact List.map_congr_left (fun c _ => (toLower_facts c).2.1)
  have hpercent : p.host.contains percent=false := by
    rw [List.contains_eq_mem,decide_eq_false_iff_not]
    intro hc
    exact absurd ((hhost percent hc).symm.trans unsafe_facts.2) (by decide)
  have hparse := urlParse_written haveSsl disabled url scheme parts p hscheme h
  rw [map_escape_eq p.user huser,map_escape_eq p.passwd hpasswd,finishUrl_eq] at hparse
  have hwritten : (written p).host=p.host := escape_eq p.host hhost
  have hfields : fieldsOf scheme (written p) p.port (p.user,p.passwd)=
      {p with url := [],fragment := none} := by
    rw [fieldsOf,hwritten,hlower,← h.scheme]
    simp only [written,Option.getD_some,← h.split]
  rw [hfields] at hparse
  simp only [hpercent,Bool.false_and,Bool.false_eq_true,if_false] at hparse
  rw [← hurl] at hparse
  refine ⟨_,hparse,⟨rfl,rfl,rfl,rfl,rfl,rfl,rfl,rfl,rfl,rfl,?_⟩⟩
  simp only
  split
  · exact hurl.symm
  · rfl

/-- A rebuilt text that is stable had nothing to escape in it. -/
theorem plain_of_stable (url : List Byte) (scheme : Scheme) (parts : Parts) (p : Url)
    (hscheme : urlScheme haveSsl disabled url=some scheme) (h : ReadFrom scheme parts p)
    (hurl : p.url=urlString p .show) (hstable : Stable haveSsl disabled p) : Plain parts := by
  obtain ⟨q,hparse,hsame⟩ := hstable
  rw [hurl,urlParse_written haveSsl disabled url scheme parts p hscheme h,finishUrl_eq] at hparse
  simp only at hparse
  split at hparse
  · cases hparse
  · have hq := Option.some.inj hparse
    refine h.plain_iff.mpr ⟨?_,?_,?_⟩
    · have hhost := hsame.host
      rw [← hq] at hhost
      refine safe_of_length p.host ?_
      have hlength := congrArg List.length hhost
      simpa [fieldsOf,written] using hlength
    · have huser := hsame.user
      rw [← hq] at huser
      exact safe_of_map_escape p.user huser
    · have hpasswd := hsame.passwd
      rw [← hq] at hpasswd
      exact safe_of_map_escape p.passwd hpasswd

/-- The text of a parsed URL is parsed to the same URL again just when it is the text that was
parsed first, or url_string had nothing to escape in the host and the credentials. -/
theorem url_parse_stable_iff (s : List Byte) (p : Url)
    (h : urlParse haveSsl disabled s false=some p) :
    Stable haveSsl disabled p ↔ ∀ scheme,urlScheme haveSsl disabled s=some scheme →
      Kept (cutUrl scheme (s.drop (schemeData scheme).leadingString.length)) ∨
        Plain (cutUrl scheme (s.drop (schemeData scheme).leadingString.length)) := by
  obtain ⟨scheme,parts,port,⟨user,passwd⟩,hscheme,hparts,hvalid,hport,hcredentials,hp⟩ :=
    urlParse_cases haveSsl disabled s p h
  have hread : ReadFrom scheme parts p := by
    subst hp
    refine ⟨?_,rfl,rfl,hvalid,portOf_le scheme _ port hport,rfl,rfl,rfl,rfl,hcredentials⟩
    rw [hparts]
    exact cutUrl_cut scheme _
  have hcondition : (∀ scheme,urlScheme haveSsl disabled s=some scheme →
      Kept (cutUrl scheme (s.drop (schemeData scheme).leadingString.length)) ∨
        Plain (cutUrl scheme (s.drop (schemeData scheme).leadingString.length))) ↔
          Kept parts ∨ Plain parts := by
    rw [hscheme,hparts]
    simp
  rw [hcondition,kept_iff]
  cases hrebuilt : rebuilt parts with
  | false =>
    have hurl : p.url=s := by
      rw [hp]
      simp [hrebuilt]
    refine iff_of_true ⟨p,by rw [hurl]; exact h,?_⟩ (Or.inl rfl)
    exact ⟨rfl,rfl,rfl,rfl,rfl,rfl,rfl,rfl,rfl,rfl,rfl⟩
  | true =>
    have hurl : p.url=urlString p .show := by
      rw [hp]
      simp only [hrebuilt,if_true]
      rfl
    constructor
    · intro hstable
      exact Or.inr (plain_of_stable haveSsl disabled s scheme parts p hscheme hread hurl hstable)
    · intro hcase
      rcases hcase with hfalse|hplain
      · cases hfalse
      · exact stable_of_plain haveSsl disabled s scheme parts p hscheme hread hurl hplain

end Parses

/-- A user name with an escaped space, and no path. -/
def escapedUser : List Byte := letters "http://a%20b@host"

theorem url_parse_unstable : ¬∀ s p,urlParse true (fun _ => false) s false=some p →
    Stable true (fun _ => false) p := by
  intro hall
  have hfirst : (urlParse true (fun _ => false) escapedUser false).map (fun p => (p.user,p.url))=
      some (some (letters "a%20b"),letters "http://a%2520b@host/") := by decide
  have hsecond : (urlParse true (fun _ => false) (letters "http://a%2520b@host/") false).map
      Url.user=some (some (letters "a%2520b")) := by decide
  obtain ⟨p,hp,hfields⟩ := Option.map_eq_some_iff.mp hfirst
  rw [Prod.mk.injEq] at hfields
  obtain ⟨q,hq,hsame⟩ := hall escapedUser p hp
  rw [hfields.2] at hq
  rw [hq,Option.map_some,hsame.user,hfields.1] at hsecond
  exact absurd hsecond (by decide)

theorem url_parse_stable_iff_kept :
    let s := letters "HTTP://u:p@Host:8080/a/b?q#f"
    ∃ p,urlParse true (fun _ => false) s false=some p ∧
      (Stable true (fun _ => false) p ↔ ∀ scheme,urlScheme true (fun _ => false) s=some scheme →
        Kept (cutUrl scheme (s.drop (schemeData scheme).leadingString.length)) ∨
          Plain (cutUrl scheme (s.drop (schemeData scheme).leadingString.length))) := by
  have hparse : (urlParse true (fun _ => false)
      (letters "HTTP://u:p@Host:8080/a/b?q#f") false).isSome=true := by decide
  exact ⟨_,(Option.some_get hparse).symm,
    url_parse_stable_iff true (fun _ => false) _ _ (Option.some_get hparse).symm⟩

end IdearNiu.Url
