import IdearNiu.Http.Robots

namespace IdearNiu.Robots

open Http

/-- A value that a line can carry: no line ending, nothing to trim, no comment. -/
structure Clean (value : List UInt8) : Prop where
  line : newline∉value
  first : value.dropWhile isSpace=value
  last : trimEnd value=value
  comment : cutComment true value=value

instance (value : List UInt8) : Decidable (Clean value) :=
  decidable_of_iff
    (newline∉value ∧ value.dropWhile isSpace=value ∧ trimEnd value=value ∧
      cutComment true value=value)
    ⟨fun h => ⟨h.1,h.2.1,h.2.2.1,h.2.2.2⟩,fun h => ⟨h.line,h.first,h.last,h.comment⟩⟩

def fieldLine (field : String) (value : List UInt8) : List UInt8 :=
  text field++[colon,space]++value++[newline]

def Directive.line : Directive → List UInt8
  | .agent name => fieldLine "User-agent" name
  | .rule path true => fieldLine "Allow" path
  | .rule path false => fieldLine "Disallow" path

/-- An empty path can only be allowed. -/
def Directive.Printable : Directive → Prop
  | .agent name => Clean name
  | .rule path allowed => Clean path ∧ (path=[] → allowed=true)

instance (d : Directive) : Decidable d.Printable :=
  match d with
  | .agent name => inferInstanceAs (Decidable (Clean name))
  | .rule path allowed => inferInstanceAs (Decidable (Clean path ∧ (path=[] → allowed=true)))

def Record.Printable (r : Record) : Prop :=
  r.agents≠[] ∧ r.rules≠[] ∧ ∀ d∈r.directives,d.Printable

instance (r : Record) : Decidable r.Printable :=
  inferInstanceAs (Decidable (r.agents≠[] ∧ r.rules≠[] ∧ ∀ d∈r.directives,d.Printable))

def printed (rs : List Record) : List UInt8 :=
  ((rs.flatMap Record.directives).map Directive.line).flatten

def isFieldByte (b : UInt8) : Bool := isAlnum b || b==hyphen

theorem isFieldByte_space (b : UInt8) (h : isFieldByte b=true) : isSpace b=false ∧ b≠hash := by
  constructor
  · by_contra hs
    rw [Bool.not_eq_false,isSpace,Bool.or_eq_true,Bool.and_eq_true] at hs
    simp only [decide_eq_true_eq,UInt8.le_iff_toNat_le] at hs
    simp only [isFieldByte,isAlnum,isDigit,toLower,Bool.or_eq_true,Bool.and_eq_true,
      decide_eq_true_eq,UInt8.le_iff_toNat_le,beq_iff_eq] at h
    rcases hs with hs|hs
    · rw [beq_iff_eq] at hs
      subst hs
      revert h
      decide
    · have h9 : (9 : UInt8).toNat=9 := rfl
      have h13 : (13 : UInt8).toNat=13 := rfl
      rcases h with (h|h)|h
      · have h48 : (48 : UInt8).toNat=48 := rfl
        omega
      · have h65 : (65 : UInt8).toNat=65 := rfl
        have h97 : (97 : UInt8).toNat=97 := rfl
        rw [if_neg (by rintro ⟨hb,_⟩; omega)] at h
        omega
      · subst h
        revert hs
        decide
  · rintro rfl
    revert h
    decide

theorem cutComment_field (f l : List UInt8) (o : Bool) (hf : ∀ b∈f,isFieldByte b=true) :
    cutComment o (f++colon::l)=f++colon::cutComment false l := by
  induction f generalizing o with
  | nil => cases o <;> rfl
  | cons b f ih =>
    obtain ⟨hspace,hhash⟩ := isFieldByte_space b (hf b (by simp))
    rw [List.cons_append,cutComment,beq_eq_false_iff_ne.mpr hhash,Bool.and_false,
      if_neg Bool.false_ne_true,hspace,ih false (fun c hc => hf c (by simp [hc]))]
    rfl

theorem cutComment_concat (o : Bool) (l : List UInt8) (c : UInt8) (hc : c≠hash)
    (hl : cutComment o l=l) : cutComment o (l++[c])=l++[c] := by
  induction l generalizing o with
  | nil =>
    rw [List.nil_append,cutComment,beq_eq_false_iff_ne.mpr hc,Bool.and_false]
    rfl
  | cons b l ih =>
    rw [cutComment] at hl
    rw [List.cons_append,cutComment]
    by_cases hb : (o && b==hash)=true
    · rw [if_pos hb] at hl
      cases hl
    · rw [if_neg hb] at hl ⊢
      rw [ih _ (List.cons.inj hl).2]

theorem trimEnd_space (l : List UInt8) (c : UInt8) (hc : isSpace c=true) :
    trimEnd (l++[c])=trimEnd l := by
  rw [trimEnd,List.reverse_append,List.reverse_singleton,List.singleton_append,
    List.dropWhile_cons_of_pos hc,trimEnd]

theorem trimEnd_solid (l : List UInt8) (c : UInt8) (hc : isSpace c=false) :
    trimEnd (l++[c])=l++[c] := by
  rw [trimEnd,List.reverse_append,List.reverse_singleton,List.singleton_append,
    List.dropWhile_cons_of_neg (by rw [hc]; exact Bool.false_ne_true),← List.singleton_append,
    List.reverse_append,List.reverse_reverse,List.reverse_singleton]

theorem trimEnd_length (l : List UInt8) : (trimEnd l).length≤l.length := by
  rw [trimEnd,List.length_reverse]
  exact (List.dropWhile_suffix _).length_le.trans_eq List.length_reverse

theorem trimEnd_append (l value : List UInt8) (hne : value≠[]) (hv : trimEnd value=value) :
    trimEnd (l++value)=l++value := by
  rcases List.eq_nil_or_concat' value with rfl|⟨v,c,rfl⟩
  · exact absurd rfl hne
  · rw [← List.append_assoc]
    refine trimEnd_solid _ c ?_
    by_contra hc
    rw [trimEnd_space v c (by simpa using hc)] at hv
    have hlen := trimEnd_length v
    rw [hv,List.length_append,List.length_singleton] at hlen
    omega

/-- A line of a field and a clean value is read as they are. -/
theorem parseLine_fieldLine (field : String) (value : List UInt8) (hne : text field≠[])
    (hall : (text field).all isFieldByte=true) (hv : Clean value) :
    parseLine (fieldLine field value)=some (text field,value) := by
  have hfield := List.all_eq_true.mp hall
  obtain ⟨b,f,hbf⟩ := List.exists_cons_of_ne_nil hne
  obtain ⟨hbs,hbh⟩ := isFieldByte_space b (hfield b (by simp [hbf]))
  have hstart : (fieldLine field value).dropWhile isSpace=fieldLine field value := by
    rw [fieldLine,hbf]
    exact List.dropWhile_cons_of_neg (by rw [hbs]; exact Bool.false_ne_true)
  have hsome : ¬(fieldLine field value=[] ∨ (fieldLine field value).head?=some hash) := by
    rw [fieldLine,hbf]
    rintro (h|h)
    · cases h
    · exact hbh (Option.some.inj h)
  have hcut : cutComment true (fieldLine field value)=fieldLine field value := by
    rw [fieldLine,List.append_assoc,List.append_assoc,List.cons_append,
      cutComment_field _ _ _ hfield]
    rw [show [space]++(value++[newline])=space::(value++[newline]) from rfl,cutComment]
    rw [show isSpace space=true from rfl,cutComment_concat true value newline (by decide)
      hv.comment]
    rfl
  have htrim : ∃ blank,trimEnd (fieldLine field value)=text field++colon::blank ∧
      blank.dropWhile isSpace=value := by
    rw [fieldLine,trimEnd_space _ _ rfl]
    by_cases hempty : value=[]
    · subst hempty
      refine ⟨[],?_,rfl⟩
      rw [List.append_nil,show [colon,space]=[colon]++[space] from rfl,← List.append_assoc,
        trimEnd_space _ _ rfl,trimEnd_solid _ _ rfl]
    · refine ⟨space::value,?_,?_⟩
      · rw [trimEnd_append _ value hempty hv.last]
        simp
      · rw [List.dropWhile_cons_of_pos rfl,hv.first]
  obtain ⟨blank,htrim,hblank⟩ := htrim
  rw [parseLine]
  have htake : (text field++colon::blank).takeWhile isFieldByte=text field := by
    rw [List.takeWhile_append_of_pos hfield,List.takeWhile_cons_of_neg (by decide),
      List.append_nil]
  have hdrop : (text field++colon::blank).dropWhile isFieldByte=colon::blank := by
    rw [List.dropWhile_append_of_pos hfield,List.dropWhile_cons_of_neg (by decide)]
  rw [show isFieldByte=fun b => isAlnum b || b==hyphen from rfl] at htake hdrop
  simp only [hstart,if_neg hsome,hcut,htrim,htake,hdrop]
  rw [List.dropWhile_cons_of_neg (by decide)]
  simp [hne,hblank]

theorem directiveOf_line (d : Directive) (h : d.Printable) :
    (parseLine d.line).bind (fun r => directiveOf r.1 r.2)=some d := by
  cases d with
  | agent name =>
    rw [Directive.line,parseLine_fieldLine _ _ (by decide) (by decide) h]
    rfl
  | rule path allowed =>
    cases allowed with
    | true =>
      rw [Directive.line,parseLine_fieldLine _ _ (by decide) (by decide) h.1]
      rfl
    | false =>
      rw [Directive.line,parseLine_fieldLine _ _ (by decide) (by decide) h.1]
      have hpath : path≠[] := fun hp => Bool.false_ne_true (h.2 hp)
      rw [← decide_eq_false hpath]
      rfl

/-- A printed line is one line. -/
theorem Directive.line_ends (d : Directive) (h : d.Printable) :
    ∃ body,d.line=body++[newline] ∧ newline∉body := by
  cases d with
  | agent name =>
    refine ⟨text "User-agent"++[colon,space]++name,rfl,?_⟩
    simp only [List.mem_append,not_or]
    exact ⟨⟨by decide,by decide⟩,h.line⟩
  | rule path allowed =>
    cases allowed with
    | true =>
      refine ⟨text "Allow"++[colon,space]++path,rfl,?_⟩
      simp only [List.mem_append,not_or]
      exact ⟨⟨by decide,by decide⟩,h.1.line⟩
    | false =>
      refine ⟨text "Disallow"++[colon,space]++path,rfl,?_⟩
      simp only [List.mem_append,not_or]
      exact ⟨⟨by decide,by decide⟩,h.1.line⟩

theorem linesOf_flatten (lines : List (List UInt8)) (fuel : Nat)
    (hfuel : lines.flatten.length ≤ fuel)
    (h : ∀ l∈lines,∃ body,l=body++[newline] ∧ newline∉body) :
    linesOf fuel lines.flatten=lines := by
  induction lines generalizing fuel with
  | nil => cases fuel <;> rfl
  | cons l lines ih =>
    obtain ⟨body,rfl,hbody⟩ := h l (by simp)
    cases fuel with
    | zero => simp at hfuel
    | succ fuel =>
      have hbody' : ∀ b∈body,decide (b≠newline)=true := fun b hb =>
        decide_eq_true (fun h => hbody (h ▸ hb))
      have hne : ((body++[newline])::lines).flatten≠[] := by simp
      have hlen : lines.flatten.length ≤ fuel := by
        rw [List.flatten_cons,List.length_append,List.length_append,List.length_singleton] at hfuel
        omega
      rw [linesOf,if_neg hne,List.flatten_cons,List.append_assoc,
        List.takeWhile_append_of_pos hbody',List.dropWhile_append_of_pos hbody',
        List.singleton_append,List.takeWhile_cons_of_neg (by decide),
        List.dropWhile_cons_of_neg (by decide),List.append_nil,List.tail_cons,
        ih fuel hlen (fun l' h' => h l' (by simp [h']))]
      rfl

theorem directives_lines (ds : List Directive) (h : ∀ d∈ds,d.Printable) :
    directives (ds.map Directive.line).flatten=ds := by
  rw [directives,linesOf_flatten _ _ (Nat.le_refl _),List.filterMap_map]
  · induction ds with
    | nil => rfl
    | cons d ds ih =>
      have hd : ((fun line => (parseLine line).bind (fun r => directiveOf r.1 r.2))∘
          Directive.line) d=some d := directiveOf_line d (h d (by simp))
      rw [List.filterMap_cons_some hd,
        ih (fun d' h' => h d' (by simp [h']))]
  · intro l hl
    obtain ⟨d,hd,rfl⟩ := List.mem_map.mp hl
    exact d.line_ends (h d hd)

theorem grouped_rules (rules : List (List UInt8 × Bool)) (ds : List Directive) :
    grouped (rules.map (fun r => Directive.rule r.1 r.2)++ds)=
      (rules++(grouped ds).1,(grouped ds).2) := by
  induction rules with
  | nil => rfl
  | cons r rules ih => rw [List.map_cons,List.cons_append,grouped,ih]; rfl

theorem grouped_agents (agents : List (List UInt8)) (ds : List Directive) (hne : agents≠[])
    (hrule : (grouped ds).1≠[]) :
    grouped (agents.map Directive.agent++ds)=([],⟨agents,(grouped ds).1⟩::(grouped ds).2) := by
  induction agents with
  | nil => exact absurd rfl hne
  | cons a agents ih =>
    rw [List.map_cons,List.cons_append,grouped]
    by_cases h : agents=[]
    · subst h
      rw [List.map_nil,List.nil_append]
      obtain ⟨r,rules,hr⟩ := List.exists_cons_of_ne_nil hrule
      rw [show grouped ds=(r::rules,(grouped ds).2) from Prod.ext hr rfl]
    · rw [ih h]

theorem grouped_records (rs : List Record) (h : ∀ r∈rs,r.Printable) :
    grouped (rs.flatMap Record.directives)=([],rs) := by
  induction rs with
  | nil => rfl
  | cons r rs ih =>
    obtain ⟨hagents,hrules,_⟩ := h r (by simp)
    have ih := ih (fun r' h' => h r' (by simp [h']))
    rw [List.flatMap_cons,Record.directives,List.append_assoc,grouped_agents _ _ hagents,
      grouped_rules,ih,List.append_nil]
    rw [grouped_rules,ih,List.append_nil]
    exact hrules

theorem records_printed (rs : List Record) (h : ∀ r∈rs,r.Printable) :
    records (printed rs)=rs := by
  rw [records,printed,directives_lines,grouped_records rs h]
  intro d hd
  obtain ⟨r,hr,hd⟩ := List.mem_flatMap.mp hd
  exact (h r hr).2.2 d hd

theorem any_class (rs : List Record) :
    rs.any (fun r => r.class==some true)=
      (rs.filter (fun r => r.class==some true)).any (fun r => r.class==some true) := by
  rw [List.any_filter]
  simp only [Bool.and_self]

/-- Only the records of a class count, in their own order. -/
theorem resParse_classes (source source' : List UInt8)
    (h : ∀ e,(records source).filter (fun r => r.class==some e)=
      (records source').filter (fun r => r.class==some e)) :
    resParse source=resParse source' := by
  have hany : (records source).any (fun r => r.class==some true)=
      (records source').any (fun r => r.class==some true) := by
    rw [any_class,h true,← any_class]
  have hgov : governing (records source)=governing (records source') := by
    rw [governing,governing,hany]
    simp only [h]
  rw [resParse_eq,resParse_eq,hgov,hany]

/-- A printed text is read back as its records, and where the records of the other class stand
does not matter. -/
theorem printed_records_read_back (rs : List Record) (h : ∀ r∈rs,r.Printable) :
    records (printed rs)=rs ∧
      ∀ rs',(∀ r∈rs',r.Printable) →
        (∀ e,rs'.filter (fun r => r.class==some e)=rs.filter (fun r => r.class==some e)) →
        resParse (printed rs')=resParse (printed rs) := by
  refine ⟨records_printed rs h,fun rs' h' hclass => resParse_classes _ _ fun e => ?_⟩
  rw [records_printed rs h,records_printed rs' h']
  exact hclass e

def crawlers : List Record :=
  [⟨[[star]],[(text "/",false)]⟩,
    ⟨[text "google",text "Wget"],[(text "/cgi-bin",false),([],true)]⟩]

theorem crawlers_printable : ∀ r∈crawlers,r.Printable := by
  decide

/-- The record of the star may stand behind the one for our own name. -/
theorem crawlers_read_back :
    records (printed crawlers)=crawlers ∧
      resParse (printed crawlers.reverse)=resParse (printed crawlers) :=
  ⟨(printed_records_read_back crawlers crawlers_printable).1,
    (printed_records_read_back crawlers crawlers_printable).2 crawlers.reverse
      (fun r hr => crawlers_printable r (List.mem_reverse.mp hr)) (by decide)⟩

end IdearNiu.Robots
