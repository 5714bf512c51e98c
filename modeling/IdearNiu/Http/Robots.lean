import IdearNiu.Http.Response

namespace IdearNiu.Robots

open Http

def hash : UInt8 := 35
def star : UInt8 := 42
def percent : UInt8 := 37
def slash : UInt8 := 47
def colon : UInt8 := 58
def hyphen : UInt8 := 45

structure PathInfo where
  path : List UInt8
  allowedp : Bool
  userAgentExactP : Bool
  deriving DecidableEq

/-- count is the number of paths, size the number there is memory for. -/
structure RobotSpecs where
  size : Nat
  paths : List PathInfo
  deriving DecidableEq

def RobotSpecs.count (specs : RobotSpecs) : Nat := specs.paths.length

/-- BOUNDED_EQUAL_NO_CASE. -/
def boundedEqualNoCase (field : List UInt8) (literal : String) : Bool :=
  field.length==literal.length && sameText field (text literal)

/-- Whether the agent matches, and whether it does so exactly. -/
def matchUserAgent (agent : List UInt8) : Bool × Bool :=
  if agent=[star] then (true,false)
  else if boundedEqualNoCase agent "wget" then (true,true)
  else (false,false)

/-- The paths are kept without a leading slash. -/
def dropSlash (path : List UInt8) : List UInt8 :=
  if path.head?=some slash then path.tail else path

/-- The doubling ends at 2^26 paths: from there on the bytes do not fit the int that xrealloc
takes, and it aborts. -/
def addPath (specs : RobotSpecs) (path : List UInt8) (allowedp exactp : Bool) : RobotSpecs :=
  { size := if specs.count+1>specs.size then (if specs.size=0 then 1 else specs.size*2)
      else specs.size
    paths := specs.paths++[⟨dropSlash path,allowedp,exactp⟩] }

def pruneNonExact (specs : RobotSpecs) : RobotSpecs :=
  let newpaths := specs.paths.filter PathInfo.userAgentExactP
  ⟨newpaths.length,newpaths⟩

def isAlnum (b : UInt8) : Bool := isDigit b || (97≤toLower b && toLower b≤122)

/-- The line up to a comment sign that stands at its start or behind white space; open says
whether the next byte does. -/
def cutComment : Bool → List UInt8 → List UInt8
  | _,[] => []
  | opens,c::l => if opens && c==hash then [] else c::cutComment (isSpace c) l

def trimEnd (l : List UInt8) : List UInt8 := (l.reverse.dropWhile isSpace).reverse

/-- The field and the value of a line; none for an empty line, a comment and a malformed line. -/
def parseLine (line : List UInt8) : Option (List UInt8 × List UInt8) :=
  let p := line.dropWhile isSpace
  if p=[] ∨ p.head?=some hash then none
  else
    let p := trimEnd (cutComment true p)
    let field := p.takeWhile (fun b => isAlnum b || b==hyphen)
    let p := (p.dropWhile (fun b => isAlnum b || b==hyphen)).dropWhile isSpace
    if field=[] ∨ p.head?≠some colon then none
    else some (field,p.tail.dropWhile isSpace)

/-- The local variables of res_parse. -/
structure Parser where
  userAgentApplies : Bool
  userAgentExact : Bool
  foundExact : Bool
  recordCount : Nat
  specs : RobotSpecs
  deriving DecidableEq

def Parser.initial : Parser := ⟨false,false,false,0,⟨0,[]⟩⟩

def Parser.userAgent (s : Parser) (value : List UInt8) : Parser :=
  let s := if s.recordCount≠0 ∨ s.userAgentApplies=false then
    { s with
      userAgentApplies := (matchUserAgent value).1
      userAgentExact := (matchUserAgent value).2 } else s
  { s with foundExact := s.foundExact || s.userAgentExact, recordCount := 0 }

/-- The lines allow and disallow. -/
def Parser.rule (s : Parser) (value : List UInt8) (allowed : Bool) : Parser :=
  { s with
    specs := if s.userAgentApplies then addPath s.specs value allowed s.userAgentExact
      else s.specs
    recordCount := s.recordCount+1 }

def Parser.field (s : Parser) (field value : List UInt8) : Parser :=
  if boundedEqualNoCase field "user-agent" then s.userAgent value
  else if boundedEqualNoCase field "allow" then s.rule value true
  -- an empty disallow line allows everything
  else if boundedEqualNoCase field "disallow" then s.rule value (value=[])
  else s

def Parser.line (s : Parser) (line : List UInt8) : Parser :=
  match parseLine line with
  | none => s
  | some (field,value) => s.field field value

/-- The loop over the lines; each takes at least one byte. -/
def resLoop : Nat → List UInt8 → Parser → Parser
  | 0,_,s => s
  | fuel+1,source,s =>
    if source=[] then s
    else
      resLoop fuel (source.dropWhile (·≠newline)).tail
        (s.line (source.takeWhile (·≠newline)++
          (source.dropWhile (·≠newline)).take 1))

def resParse (source : List UInt8) : RobotSpecs :=
  let s := resLoop source.length source Parser.initial
  if s.foundExact then pruneNonExact s.specs
  else if s.specs.size>s.specs.count then ⟨s.specs.count,s.specs.paths⟩
  else s.specs

/-- The macro XDIGIT_TO_NUM on a hexadecimal digit. -/
def xdigitToNum (b : UInt8) : UInt8 := if b<65 then b-48 else toLower b-97+10

def isXdigit (b : UInt8) : Bool := isDigit b || (97≤toLower b && toLower b≤102)

/-- The macro DECODE_MAYBE: the character, and what is left behind it. -/
def decodeMaybe (c : UInt8) (rest : List UInt8) : UInt8 × List UInt8 :=
  match rest with
  | a::b::rest' =>
    if c=percent ∧ isXdigit a ∧ isXdigit b then
      let decoded := (xdigitToNum a<<<4)+xdigitToNum b
      if decoded≠slash then (decoded,rest') else (c,rest)
    else (c,rest)
  | _ => (c,rest)

/-- The matching engine; each turn takes a byte off the record path. -/
def matchesFrom : Nat → List UInt8 → List UInt8 → Bool
  | 0,_,_ => true
  | _+1,[],_ => true
  | fuel+1,rc::rp,url =>
    if rc=0 then true
    else match url with
      | [] => false
      | uc::up =>
        if uc=0 then false
        else
          let r := decodeMaybe rc rp
          let u := decodeMaybe uc up
          if r.1≠u.1 then false else matchesFrom fuel r.2 u.2

def matchesPath (recordPath urlPath : List UInt8) : Bool :=
  matchesFrom recordPath.length recordPath urlPath

/-- A null pointer for the specs is none. -/
def resMatchPath (specs : Option RobotSpecs) (path : List UInt8) : Bool :=
  match specs with
  | none => true
  | some specs =>
    match specs.paths.find? (fun p => matchesPath p.path path) with
    | some p => p.allowedp
    | none => true

/-- A path as the matching sees it: every escape but that of the slash is decoded. -/
def decodedFrom : Nat → List UInt8 → List UInt8
  | 0,_ => []
  | _+1,[] => []
  | fuel+1,c::rest =>
    if c=0 then []
    else (decodeMaybe c rest).1::decodedFrom fuel (decodeMaybe c rest).2

def decoded (path : List UInt8) : List UInt8 := decodedFrom path.length path

/-- A line that means something: an agent, or a path that is allowed or not. -/
inductive Directive where
  | agent (name : List UInt8)
  | rule (path : List UInt8) (allowed : Bool)
  deriving DecidableEq

def directiveOf (field value : List UInt8) : Option Directive :=
  if boundedEqualNoCase field "user-agent" then some (.agent value)
  else if boundedEqualNoCase field "allow" then some (.rule value true)
  else if boundedEqualNoCase field "disallow" then some (.rule value (value=[]))
  else none

/-- The lines of a text, each with its newline. -/
def linesOf : Nat → List UInt8 → List (List UInt8)
  | 0,_ => []
  | fuel+1,source =>
    if source=[] then []
    else (source.takeWhile (·≠newline)++(source.dropWhile (·≠newline)).take 1)::
      linesOf fuel (source.dropWhile (·≠newline)).tail

def directives (source : List UInt8) : List Directive :=
  (linesOf source.length source).filterMap
    (fun line => (parseLine line).bind (fun r => directiveOf r.1 r.2))

/-- A record: the agents it is for and its rules. -/
structure Record where
  agents : List (List UInt8)
  rules : List (List UInt8 × Bool)
  deriving DecidableEq

/-- The rules before the first agent, and the records: an agent behind a rule starts one. -/
def grouped : List Directive → List (List UInt8 × Bool) × List Record
  | [] => ([],[])
  | .rule path allowed::ds => ((path,allowed)::(grouped ds).1,(grouped ds).2)
  | .agent name::ds =>
    match grouped ds with
    | ([],⟨agents,rules⟩::more) => ([],⟨name::agents,rules⟩::more)
    | (rules,more) => ([],⟨[name],rules⟩::more)

def records (source : List UInt8) : List Record := (grouped (directives source)).2

/-- Whether a name is ours: exactly, by the star, or not at all. -/
def agentClass (name : List UInt8) : Option Bool :=
  if name=[star] then some false
  else if boundedEqualNoCase name "wget" then some true
  else none

/-- A record is for us by the first of its agents that is ours. -/
def Record.class (r : Record) : Option Bool := r.agents.findSome? agentClass

/-- The rules that count: of the records for our own name, or of those for the star when there
is none for our own name. -/
def governing (rs : List Record) : List (List UInt8 × Bool) :=
  let exact := rs.any (fun r => r.class==some true)
  (rs.filter (fun r => r.class==some exact)).flatMap Record.rules

def Parser.step (s : Parser) : Directive → Parser
  | .agent name => s.userAgent name
  | .rule path allowed => s.rule path allowed

theorem resLoop_eq (fuel : Nat) (source : List UInt8) (s : Parser) :
    resLoop fuel source s=(linesOf fuel source).foldl Parser.line s := by
  induction fuel generalizing source s with
  | zero => rfl
  | succ fuel ih =>
    rw [resLoop,linesOf]
    by_cases h : source=[]
    · rw [if_pos h,if_pos h,List.foldl_nil]
    · rw [if_neg h,if_neg h,List.foldl_cons,ih]

theorem Parser.line_eq (s : Parser) (line : List UInt8) :
    s.line line=(((parseLine line).bind (fun r => directiveOf r.1 r.2)).map s.step).getD s := by
  rw [Parser.line]
  cases parseLine line with
  | none => rfl
  | some r =>
    simp only [Parser.field,Option.bind_some,directiveOf]
    split_ifs <;> rfl

/-- The loop acts on the lines that mean something, one after the other. -/
theorem resLoop_directives (source : List UInt8) :
    resLoop source.length source Parser.initial=
      (directives source).foldl Parser.step Parser.initial := by
  rw [resLoop_eq,directives,List.foldl_filterMap]
  congr 1
  funext s line
  rw [Parser.line_eq]
  cases (parseLine line).bind (fun r => directiveOf r.1 r.2) <;> rfl

def Record.directives (r : Record) : List Directive :=
  r.agents.map Directive.agent++r.rules.map (fun r => Directive.rule r.1 r.2)

/-- Each record has an agent, and a rule unless it is the last. -/
def WellGrouped : List Record → Prop
  | [] => True
  | r::rs => r.agents≠[] ∧ (r.rules=[] → rs=[]) ∧ WellGrouped rs

theorem grouped_spec (ds : List Directive) :
    ds=(grouped ds).1.map (fun r => Directive.rule r.1 r.2)++
        (grouped ds).2.flatMap Record.directives ∧
      WellGrouped (grouped ds).2 := by
  induction ds with
  | nil => exact ⟨rfl,trivial⟩
  | cons d ds ih =>
    obtain ⟨heq,hwell⟩ := ih
    cases d with
    | rule path allowed => exact ⟨by rw [grouped,List.map_cons,List.cons_append,← heq],hwell⟩
    | agent name =>
      rw [grouped]
      generalize grouped ds=g at heq hwell
      obtain ⟨lead,rs⟩ := g
      cases lead with
      | nil =>
        cases rs with
        | nil => exact ⟨by simpa [Record.directives] using heq,by simp [WellGrouped]⟩
        | cons r rs =>
          refine ⟨by simpa [Record.directives] using heq,?_,hwell.2.1,hwell.2.2⟩
          exact List.cons_ne_nil _ _
      | cons rule lead =>
        refine ⟨by simpa [Record.directives] using heq,List.cons_ne_nil _ _,?_,hwell⟩
        intro h
        cases h

theorem matchUserAgent_eq (name : List UInt8) :
    matchUserAgent name=((agentClass name).isSome,agentClass name==some true) := by
  rw [matchUserAgent,agentClass]
  split_ifs <;> rfl

/-- The next agent line is looked at. -/
def Parser.Fresh (s : Parser) : Prop := s.recordCount≠0 ∨ s.userAgentApplies=false

/-- The state after the agents of a record. -/
def Parser.entered (s : Parser) (c : Option Bool) : Parser :=
  { s with
    userAgentApplies := c.isSome
    userAgentExact := c==some true
    foundExact := s.foundExact || c==some true
    recordCount := 0 }

theorem Parser.userAgent_fresh {s : Parser} (h : s.Fresh) (name : List UInt8) :
    s.userAgent name=s.entered (agentClass name) := by
  have hlook : s.recordCount≠0 ∨ s.userAgentApplies=false := h
  simp only [Parser.userAgent,if_pos hlook,matchUserAgent_eq,Parser.entered]

/-- Once an agent is ours, the other agents of the record are not looked at. -/
theorem Parser.userAgent_entered (s : Parser) (e : Bool) (name : List UInt8) :
    (s.entered (some e)).userAgent name=s.entered (some e) := by
  simp [Parser.userAgent,Parser.entered]

theorem Parser.agents_entered (s : Parser) (e : Bool) (names : List (List UInt8)) :
    names.foldl Parser.userAgent (s.entered (some e))=s.entered (some e) := by
  induction names with
  | nil => rfl
  | cons name names ih => rw [List.foldl_cons,Parser.userAgent_entered,ih]

theorem Parser.agents_fresh {s : Parser} (h : s.Fresh) (name : List UInt8)
    (names : List (List UInt8)) :
    (name::names).foldl Parser.userAgent s=
      s.entered ((name::names).findSome? agentClass) := by
  induction names generalizing s name with
  | nil =>
    rw [List.foldl_cons,List.foldl_nil,Parser.userAgent_fresh h,List.findSome?_cons]
    cases agentClass name <;> rfl
  | cons name2 names ih =>
    rw [List.foldl_cons,Parser.userAgent_fresh h,List.findSome?_cons]
    cases agentClass name with
    | some e => exact Parser.agents_entered s e (name2::names)
    | none =>
      rw [ih (Or.inr rfl)]
      simp [Parser.entered]

/-- What rules leave behind. -/
theorem Parser.rules_fold (rules : List (List UInt8 × Bool)) (s : Parser) :
    let s' := rules.foldl (fun s r => s.rule r.1 r.2) s
    s'.userAgentApplies=s.userAgentApplies ∧ s'.userAgentExact=s.userAgentExact ∧
      s'.foundExact=s.foundExact ∧ s'.recordCount=s.recordCount+rules.length ∧
      s'.specs.paths=s.specs.paths++if s.userAgentApplies then
        rules.map (fun r => ⟨dropSlash r.1,r.2,s.userAgentExact⟩) else [] := by
  induction rules generalizing s with
  | nil => simp
  | cons r rules ih =>
    obtain ⟨happlies,hexact,hfound,hcount,hpaths⟩ := ih (s.rule r.1 r.2)
    refine ⟨happlies,hexact,hfound,?_,?_⟩
    · rw [List.foldl_cons,hcount]
      simp only [Parser.rule,List.length_cons]
      omega
    · rw [List.foldl_cons,hpaths]
      by_cases ha : s.userAgentApplies=true
      · simp [Parser.rule,ha,addPath]
      · simp [Parser.rule,ha]

/-- What a record adds to the paths. -/
def Record.paths (r : Record) : List PathInfo :=
  match r.class with
  | some e => r.rules.map (fun rule => ⟨dropSlash rule.1,rule.2,e⟩)
  | none => []

theorem Parser.record_fold {s : Parser} (h : s.Fresh) (r : Record) (hr : r.agents≠[]) :
    let s' := r.directives.foldl Parser.step s
    s'.foundExact=(s.foundExact || r.class==some true) ∧
      s'.recordCount=r.rules.length ∧ s'.specs.paths=s.specs.paths++r.paths := by
  obtain ⟨name,names,hnames⟩ := List.exists_cons_of_ne_nil hr
  have hagents : (r.agents.map Directive.agent).foldl Parser.step s=s.entered r.class := by
    rw [List.foldl_map,Record.class,hnames]
    exact Parser.agents_fresh h name names
  have hsplit : r.directives.foldl Parser.step s=
      r.rules.foldl (fun s rule => s.rule rule.1 rule.2) (s.entered r.class) := by
    rw [Record.directives,List.foldl_append,hagents,List.foldl_map]
    rfl
  obtain ⟨_,_,hfound,hcount,hpaths⟩ := Parser.rules_fold r.rules (s.entered r.class)
  simp only [hsplit,hfound,hcount,hpaths,Record.paths]
  refine ⟨rfl,by simp [Parser.entered],?_⟩
  cases r.class with
  | none => rfl
  | some e => cases e <;> rfl

theorem Parser.records_fold (rs : List Record) (hrs : WellGrouped rs) (s : Parser)
    (h : s.Fresh) :
    let s' := (rs.flatMap Record.directives).foldl Parser.step s
    s'.foundExact=(s.foundExact || rs.any (fun r => r.class==some true)) ∧
      s'.specs.paths=s.specs.paths++rs.flatMap Record.paths := by
  induction rs generalizing s with
  | nil => simp
  | cons r rs ih =>
    obtain ⟨hagents,hlast,hwell⟩ := hrs
    obtain ⟨hfound,hcount,hpaths⟩ := Parser.record_fold h r hagents
    simp only [List.flatMap_cons,List.foldl_append,List.any_cons]
    by_cases hr : r.rules=[]
    · obtain rfl := hlast hr
      simp only [List.flatMap_nil,List.foldl_nil,hfound,hpaths,List.any_nil,Bool.or_false,
        List.append_nil]
      exact ⟨trivial,trivial⟩
    · have hfresh : (r.directives.foldl Parser.step s).Fresh := by
        left
        rw [hcount]
        simpa using hr
      obtain ⟨hfound',hpaths'⟩ := ih hwell _ hfresh
      simp only [hfound',hpaths',hfound,hpaths,Bool.or_assoc,List.append_assoc]
      exact ⟨trivial,trivial⟩

theorem Parser.step_room (s : Parser) (d : Directive) (h : s.specs.count ≤ s.specs.size) :
    (s.step d).specs.count ≤ (s.step d).specs.size := by
  cases d with
  | agent name =>
    rw [Parser.step,Parser.userAgent]
    split_ifs <;> exact h
  | rule path allowed =>
    have hadd : (addPath s.specs path allowed s.userAgentExact).count≤
        (addPath s.specs path allowed s.userAgentExact).size := by
      have hlen : (addPath s.specs path allowed s.userAgentExact).count=s.specs.count+1 :=
        List.length_append
      rw [hlen]
      simp only [addPath]
      split_ifs <;> omega
    rw [Parser.step,Parser.rule]
    split_ifs
    · exact hadd
    · exact h

/-- There is memory for every path that is written. -/
theorem Parser.steps_room (ds : List Directive) (s : Parser)
    (h : s.specs.count ≤ s.specs.size) :
    (ds.foldl Parser.step s).specs.count ≤ (ds.foldl Parser.step s).specs.size := by
  induction ds generalizing s with
  | nil => exact h
  | cons d ds ih => exact ih (s.step d) (s.step_room d h)

/-- The paths of the records that count, with the flag they all share. -/
theorem paths_governing (rs : List Record) :
    (if rs.any (fun r => r.class==some true) then
        (rs.flatMap Record.paths).filter PathInfo.userAgentExactP
      else rs.flatMap Record.paths)=
    (governing rs).map (fun r =>
      (⟨dropSlash r.1,r.2,rs.any (fun r => r.class==some true)⟩ : PathInfo)) := by
  rw [governing]
  by_cases hany : rs.any (fun r => r.class==some true)=true
  · rw [if_pos hany]
    simp only [hany]
    clear hany
    induction rs with
    | nil => rfl
    | cons r rs ih =>
      rw [List.flatMap_cons,List.filter_append,ih,List.filter_cons,Record.paths]
      cases hc : r.class with
      | none => rfl
      | some e =>
        cases e with
        | false =>
          have hall : ∀ p∈r.rules.map (fun rule => (⟨dropSlash rule.1,rule.2,false⟩ : PathInfo)),
              ¬p.userAgentExactP=true := by
            intro p hp
            obtain ⟨rule,_,rfl⟩ := List.mem_map.mp hp
            exact Bool.false_ne_true
          rw [List.filter_eq_nil_iff.mpr hall]
          rfl
        | true =>
          have hall : ∀ p∈r.rules.map (fun rule => (⟨dropSlash rule.1,rule.2,true⟩ : PathInfo)),
              p.userAgentExactP=true := by
            intro p hp
            obtain ⟨rule,_,rfl⟩ := List.mem_map.mp hp
            rfl
          rw [List.filter_eq_self.mpr hall]
          simp
  · have hnone : ∀ r∈rs,r.class≠some true := by
      simpa using hany
    rw [if_neg hany]
    simp only [Bool.eq_false_iff.mpr hany]
    clear hany
    induction rs with
    | nil => rfl
    | cons r rs ih =>
      rw [List.flatMap_cons,ih (fun r' h' => hnone r' (by simp [h'])),List.filter_cons,
        Record.paths]
      have hr := hnone r (by simp)
      cases hc : r.class with
      | none => rfl
      | some e =>
        cases e with
        | false => simp
        | true => exact absurd hc hr

/-- The specs of a text are the rules that count among its records. -/
theorem resParse_eq (source : List UInt8) :
    resParse source=⟨(governing (records source)).length,
      (governing (records source)).map (fun r =>
        ⟨dropSlash r.1,r.2,(records source).any (fun r => r.class==some true)⟩)⟩ := by
  obtain ⟨hds,hwell⟩ := grouped_spec (directives source)
  have hroom := Parser.steps_room (directives source) Parser.initial (Nat.le_refl 0)
  have hlead : (((grouped (directives source)).1.map
      (fun r => Directive.rule r.1 r.2)).foldl Parser.step Parser.initial).Fresh ∧
      (((grouped (directives source)).1.map
        (fun r => Directive.rule r.1 r.2)).foldl Parser.step Parser.initial).foundExact=false ∧
      (((grouped (directives source)).1.map
        (fun r => Directive.rule r.1 r.2)).foldl Parser.step Parser.initial).specs.paths=[] := by
    rw [List.foldl_map]
    obtain ⟨happlies,_,hfound,_,hpaths⟩ :=
      Parser.rules_fold (grouped (directives source)).1 Parser.initial
    exact ⟨Or.inr happlies,hfound,hpaths⟩
  obtain ⟨hfound,hpaths⟩ := Parser.records_fold _ hwell _ hlead.1
  rw [← List.foldl_append,← hds] at hfound hpaths
  rw [hlead.2.1,Bool.false_or] at hfound
  rw [hlead.2.2,List.nil_append] at hpaths
  have hgov := paths_governing (records source)
  rw [resParse,resLoop_directives]
  rw [show (grouped (directives source)).2=records source from rfl] at hfound hpaths
  generalize (directives source).foldl Parser.step Parser.initial=last at *
  rw [hfound]
  rw [← hpaths] at hgov
  by_cases hany : (records source).any (fun r => r.class==some true)=true
  · rw [if_pos hany] at hgov ⊢
    rw [pruneNonExact,hgov,List.length_map]
  · rw [if_neg hany] at hgov ⊢
    rw [← hgov]
    have hlen : last.specs.paths.length=(governing (records source)).length := by
      rw [hgov,List.length_map]
    rw [RobotSpecs.count] at hroom ⊢
    by_cases hsize : last.specs.size>last.specs.paths.length
    · rw [if_pos hsize,hlen]
    · rw [if_neg hsize,← hlen,show last.specs.paths.length=last.specs.size by omega]

theorem decodeMaybe_length (c : UInt8) (rest : List UInt8) :
    (decodeMaybe c rest).2.length≤rest.length := by
  match rest with
  | [] => exact Nat.le_refl _
  | [_] => exact Nat.le_refl _
  | a::b::rest' =>
    rw [decodeMaybe]
    split_ifs
    · simp only []
      split_ifs
      · exact Nat.le_add_right _ 2
      · exact Nat.le_refl _
    · exact Nat.le_refl _

theorem decodedFrom_enough (fuel : Nat) (path : List UInt8) (h : path.length ≤ fuel) :
    decodedFrom fuel path=decoded path := by
  rw [decoded]
  induction fuel using Nat.strongRecOn generalizing path with
  | _ fuel ih =>
    cases path with
    | nil => cases fuel <;> rfl
    | cons c rest =>
      cases fuel with
      | zero => cases h
      | succ fuel =>
        have hrest := decodeMaybe_length c rest
        rw [List.length_cons,decodedFrom,decodedFrom]
        by_cases hc : c=0
        · rw [if_pos hc,if_pos hc]
        · rw [if_neg hc,if_neg hc,ih fuel (Nat.lt_succ_self fuel) _
            (by rw [List.length_cons] at h; omega)]
          by_cases hlen : rest.length=fuel
          · rw [hlen,ih fuel (Nat.lt_succ_self fuel) _ (by omega)]
          · rw [ih rest.length (by rw [List.length_cons] at h; omega) _ hrest]

theorem decoded_cons (c : UInt8) (rest : List UInt8) (hc : c≠0) :
    decoded (c::rest)=(decodeMaybe c rest).1::decoded (decodeMaybe c rest).2 := by
  rw [decoded,List.length_cons,decodedFrom,if_neg hc,
    decodedFrom_enough _ _ (decodeMaybe_length c rest)]

theorem matchesFrom_eq (fuel : Nat) (rp up : List UInt8) (h : rp.length ≤ fuel) :
    matchesFrom fuel rp up=(decoded rp).isPrefixOf (decoded up) := by
  induction fuel generalizing rp up with
  | zero =>
    obtain rfl := List.length_eq_zero_iff.mp (Nat.le_zero.mp h)
    rfl
  | succ fuel ih =>
    cases rp with
    | nil => rfl
    | cons rc rp =>
      by_cases hrc : rc=0
      · subst hrc
        rfl
      · rw [matchesFrom.eq_def]
        simp only [if_neg hrc]
        rw [decoded_cons rc rp hrc]
        cases up with
        | nil => rfl
        | cons uc up =>
          by_cases huc : uc=0
          · subst huc
            rfl
          · simp only [if_neg huc]
            have hrest := decodeMaybe_length rc rp
            rw [decoded_cons uc up huc,List.isPrefixOf_cons_cons,
              ih _ _ (by rw [List.length_cons] at h; omega)]
            by_cases heq : (decodeMaybe rc rp).1=(decodeMaybe uc up).1
            · rw [if_neg (not_not_intro heq),heq,beq_self_eq_true,Bool.true_and]
            · rw [if_pos heq,beq_eq_false_iff_ne.mpr heq,Bool.false_and]

/-- What the rules say of a path: the first one that is a prefix of it decides. -/
def ruling (rules : List (List UInt8 × Bool)) (path : List UInt8) : Bool :=
  match rules.find? (fun r => (decoded (dropSlash r.1)).isPrefixOf (decoded path)) with
  | some r => r.2
  | none => true

/-- A path is judged by the rules that count among the records of the text. -/
theorem resParse_rules_decide (source path : List UInt8) :
    resMatchPath (some (resParse source)) path=ruling (governing (records source)) path := by
  rw [resMatchPath,resParse_eq,ruling]
  simp only [List.find?_map,matchesPath,Function.comp_def]
  have hpred : (fun r : List UInt8 × Bool =>
      matchesFrom (dropSlash r.1).length (dropSlash r.1) path)=
      fun r => (decoded (dropSlash r.1)).isPrefixOf (decoded path) :=
    funext fun r => matchesFrom_eq _ _ _ (Nat.le_refl _)
  rw [hpred]
  cases (governing (records source)).find?
    (fun r => (decoded (dropSlash r.1)).isPrefixOf (decoded path)) <;> rfl

end IdearNiu.Robots
