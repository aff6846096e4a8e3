import HakoDB.Query.RowMatch

/-! What a row has to meet, said over the decoded document, and where the workers decide otherwise. Two ways of
deciding the filters differ on a row exactly if the row passes one of them and a filter on which the two may
differ keeps it from passing the other. -/
namespace HakoDB
open ByteCodec ReadAll

namespace Worker

section passes
variable {plan : QueryPlan} {a a' o o' : Filter → Bool}

/-- The filters are met by the first test, and one alternative by the second, if there are any. -/
def passes (plan : QueryPlan) (a o : Filter → Bool) : Bool :=
  plan.filters.all a && (plan.orGroups.isEmpty || plan.orGroups.any fun group => group.any o)

/-- The row passes by the one pair of tests. In the other an odd filter is not met, or no alternative is, where an
odd one is met here. -/
def PassesOddly (plan : QueryPlan) (odd oddOr : Filter → Prop) (a o a' o' : Filter → Bool) : Prop :=
  passes plan a o = true ∧ ((∃ f ∈ plan.filters,odd f ∧ a' f = false) ∨
    ((∃ group ∈ plan.orGroups,∃ f ∈ group,oddOr f ∧ o f = true) ∧ ∀ group ∈ plan.orGroups,∀ f ∈ group,o' f = false))

theorem passes_iff : passes plan a o = true ↔ (∀ f ∈ plan.filters,a f = true) ∧
    (plan.orGroups = [] ∨ ∃ group ∈ plan.orGroups,∃ f ∈ group,o f = true) := by
  simp [passes]

theorem passesOddly_iff {odd oddOr : Filter → Prop} (hand : ∀ f ∈ plan.filters,¬odd f → a f = a' f)
    (hor : ∀ group ∈ plan.orGroups,∀ f ∈ group,¬oddOr f → o f = o' f) :
    PassesOddly plan odd oddOr a o a' o' ↔ passes plan a o = true ∧ passes plan a' o' = false := by
  refine and_congr_right fun hpass => ?_
  obtain ⟨hall,hany⟩ := passes_iff.mp hpass
  rw [← Bool.not_eq_true,passes_iff]
  constructor
  · rintro (⟨f,hf,-,hmiss⟩ | ⟨⟨group,hgroup,f,hf,-,hhit⟩,hmiss⟩) ⟨hall',hany'⟩
    · rw [hall' f hf] at hmiss
      cases hmiss
    · rcases hany' with hnil | ⟨group',hgroup',f',hf',hhit'⟩
      · rw [hnil] at hgroup
        cases hgroup
      · rw [hmiss group' hgroup' f' hf'] at hhit'
        cases hhit'
  · intro hnot
    by_contra hodd
    obtain ⟨hnoand,hnoor⟩ := not_or.mp hodd
    have hall' : ∀ f ∈ plan.filters,a' f = true := by
      intro f hf
      by_contra hmiss
      rw [Bool.not_eq_true] at hmiss
      have heven : ¬odd f := fun h => hnoand ⟨f,hf,h,hmiss⟩
      rw [← hand f hf heven,hall f hf] at hmiss
      cases hmiss
    refine hnot ⟨hall',?_⟩
    rcases hany with hnil | ⟨group,hgroup,f,hf,hhit⟩
    · exact .inl hnil
    · right
      by_contra hnone
      have hmiss : ∀ g ∈ plan.orGroups,∀ f ∈ g,o' f = false := by
        intro g hg f hf
        by_contra hhit'
        exact hnone ⟨g,hg,f,hf,by simpa using hhit'⟩
      refine hnoor ⟨⟨group,hgroup,f,hf,?_,hhit⟩,hmiss⟩
      by_contra heven
      rw [hor group hgroup f hf heven,hmiss group hgroup f hf] at hhit
      cases hhit

end passes

/-- The value at the end of a path, in the first field and the first entries of each name. -/
def pathValue (doc : HakoDoc) (path : String) : Option Value :=
  match pathSegments path with
  | [] => none
  | first::segs =>
    if first = "" then none else (doc.fields.find? fun kv => kv.1 = first).bind fun kv => kv.2.descend segs

theorem getPath_eq_pathValue {view : HakoDocView} {doc : HakoDoc}
    (hfields : decodeEntries decodeValue view.fieldsCount view.body = some (doc.fields,[])) (path : String) :
    view.getPath path = pathValue doc path := by
  rw [HakoDocView.getPath_eq]
  unfold DocView.getPath DocView.getPathSpan pathValue
  cases pathSegments path with
  | nil => rfl
  | cons first segs =>
    dsimp only
    split_ifs
    · rfl
    obtain ⟨hfind,hsome⟩ := findField_decoded first hfields
    cases hhit : findField first view.fieldsCount view.body with
    | none =>
      rw [hhit] at hfind
      have hnone : (doc.fields.find? fun kv => kv.1 = first) = none := by simpa using hfind.symm
      rw [hnone]
      rfl
    | some s =>
      rw [hhit] at hfind
      obtain ⟨w,hw⟩ := Option.isSome_iff_exists.1 (hsome s hhit)
      obtain ⟨kv,hkv,hvalue⟩ : ∃ kv,(doc.fields.find? fun kv => kv.1 = first) = some kv ∧ kv.2 = w := by
        simpa [hw] using hfind.symm
      rw [hkv]
      simp only [Option.bind_eq_bind,Option.bind_some]
      rw [descendSpan_decoded hw segs,hvalue]

section spec
variable (text : TextOps) (docId : String) (doc : HakoDoc)

/-- The filter holds: on the id or the time if it names one of them, else on a field of its name or at the end of
a dotted path. -/
def holds (f : Filter) : Bool :=
  if f.field = "id" then matchesIdFlexible text docId f.op f.value
  else if f.field = "_time" then compareValues text (.int doc.time) f.op f.value
  else bodyMatch text doc.fields f || dotted f.field && (pathValue doc f.field).any fun v => compareValues text v f.op f.value

/-- Some element of the array meets all the conditions of the clause. -/
def clauseHolds (clause : ElemMatch) : Bool :=
  match pathValue doc clause.field with
  | some (.array items) => items.any fun item => clause.filters.all fun f =>
      (valuePath item f.field).any fun v => compareValues text v f.op f.value
  | _ => false

/-- What a plan asks of a row. -/
def rowMeets (plan : QueryPlan) : Bool :=
  passes plan (holds text docId doc) (holds text docId doc) && plan.elemMatch.all (clauseHolds text doc)

end spec

/-- Of the filters on the id and the time only what these say counts, where every filter has to be met. -/
def behindMetadata (text : TextOps) (docId : String) (time : Int64) (hit : Filter → Bool) (f : Filter) : Bool :=
  (!onMetadata f || metadataMatch text docId time f) && hit f

/-- What the worker for whole documents takes for met. -/
def decodedHit (text : TextOps) (docId : String) (view : HakoDocView) (fields : List (String × Value)) (plan : QueryPlan)
    (f : Filter) : Bool := met text docId view fields f || fastPlan plan && byBytes view f

section sides
variable {text : TextOps} {docId : String} {view : HakoDocView} {doc : HakoDoc} (htime : view.time = doc.time)
  (hpath : ∀ path,view.getPath path = pathValue doc path)

include hpath in
theorem elemMatchPass_eq_clauseHolds (plan : QueryPlan) :
    elemMatchPass text view plan = plan.elemMatch.all (clauseHolds text doc) := by
  refine congrArg plan.elemMatch.all (funext fun clause => ?_)
  unfold elemMatches clauseHolds
  have hfound := hpath clause.field
  generalize view.getPath clause.field = found at hfound
  subst hfound
  rfl

/-- The flags behind the check of the id and the time, as two tests of the filters. -/
theorem metadata_validate_eq (plan : QueryPlan) (hit : Filter → Bool) (time : Int64) :
    (metadataPass text docId time plan && validateFinalMatch plan (flags plan hit)) =
      passes plan (behindMetadata text docId time hit) hit := by
  rw [validate_flags,metadataPass,passes,← Bool.and_assoc,← all_and]
  rfl

include htime hpath in
theorem met_eq_holds (f : Filter) : met text docId view doc.fields f =
    (holds text docId doc f || onMetadata f && bodyMatch text doc.fields f) := by
  unfold met holds metadataMatch dottedMatch onMetadata
  rw [hpath,htime]
  by_cases hid : f.field = "id"
  · have hplain : dotted "id" = false := by decide
    simp [hid,hplain]
  by_cases htimed : f.field = "_time"
  · have hplain : dotted "_time" = false := by decide
    simp [htimed,hplain]
  simp [hid,htimed]

include htime hpath in
theorem and_met_eq_holds (f : Filter) :
    behindMetadata text docId view.time (met text docId view doc.fields) f = holds text docId doc f := by
  rw [behindMetadata,met_eq_holds htime hpath]
  unfold holds onMetadata metadataMatch
  rw [htime]
  by_cases hid : f.field = "id"
  · cases matchesIdFlexible text docId f.op f.value <;> simp [hid]
  by_cases htimed : f.field = "_time"
  · cases compareValues text (.int doc.time) f.op f.value <;> simp [htimed]
  simp [hid,htimed]

end sides

theorem unifiedMatchDecode_passes (text : TextOps) (docId : String) {bytes : Bytes} {plan : QueryPlan} {view : HakoDocView}
    {entries : List (String × UInt8 × Bytes)} {fields : List (String × Value)} (hview : HakoDocView.new bytes = some view)
    (hwalk : walkEntries view.fieldsCount view.body = some entries) (hfields : entries.mapM decodeEntry = some fields) :
    unifiedMatchDecode text docId bytes plan =
      if passes plan (behindMetadata text docId view.time (decodedHit text docId view fields plan))
          (decodedHit text docId view fields plan) && elemMatchPass text view plan then some ⟨fields,view.time⟩
      else none := by
  rw [unifiedMatchDecode_eq text docId hview hwalk hfields,← Bool.and_assoc]
  change (if metadataPass text docId view.time plan &&
    validateFinalMatch plan (flags plan (decodedHit text docId view fields plan)) && _ then _ else _) = _
  rw [metadata_validate_eq]

section verdict
variable (text : TextOps) (docId : String) (view : HakoDocView) (doc : HakoDoc)

/-- A stored field has the bytes of the filter's value, which is a reference with a part that is longer than the
length byte in its encoding can tell. -/
def TruncatedEqual (f : Filter) : Prop := longReference f.value = true ∧ onMetadata f = false ∧ byBytes view f = true

/-- The row passes although a filter does not hold whose value a field has in its bytes only; or although no
alternative holds, where a field of the body that has the name of the id or the time meets one. -/
def Misjudged (plan : QueryPlan) : Prop :=
  plan.elemMatch.all (clauseHolds text doc) = true ∧
  (fastPlan plan = true ∧ (∀ f ∈ plan.filters,holds text docId doc f = true ∨ TruncatedEqual view f) ∧
      (∃ f ∈ plan.filters,holds text docId doc f = false) ∨
    (∀ f ∈ plan.filters,holds text docId doc f = true) ∧
      (∀ group ∈ plan.orGroups,∀ f ∈ group,holds text docId doc f = false) ∧
      ∃ group ∈ plan.orGroups,∃ f ∈ group,onMetadata f = true ∧ bodyMatch text doc.fields f = true)

end verdict

section decode
variable {text : TextOps} {docId : String} {view : HakoDocView} {doc : HakoDoc} {entries : List (String × UInt8 × Bytes)}
  {plan : QueryPlan} (hwalk : walkEntries view.fieldsCount view.body = some entries)
  (hfields : entries.mapM decodeEntry = some doc.fields) (htime : view.time = doc.time)
  (hpath : ∀ path,view.getPath path = pathValue doc path)
include hwalk hfields htime hpath

/-- On the fast path a filter that does not hold is met only by truncated bytes. -/
theorem fast_hit_iff (hfast : fastPlan plan = true) {f : Filter} (hf : f ∈ plan.filters) :
    behindMetadata text docId view.time (decodedHit text docId view doc.fields plan) f = true ↔
      holds text docId doc f = true ∨ TruncatedEqual view f := by
  rw [← and_met_eq_holds htime hpath,behindMetadata,behindMetadata,Bool.and_eq_true,Bool.and_eq_true,decodedHit,hfast,
    Bool.true_and,Bool.or_eq_true (met text docId view doc.fields f)]
  constructor
  · rintro ⟨hpass,hmet | hbytes⟩
    · exact .inl ⟨hpass,hmet⟩
    · by_cases hmet : met text docId view doc.fields f = true
      · exact .inl ⟨hpass,hmet⟩
      · obtain ⟨hlong,hplain⟩ := longReference_of_byBytes hwalk hfields hfast hf hpass hbytes (by simpa using hmet)
        exact .inr ⟨hlong,hplain,hbytes⟩
  · rintro (⟨hpass,hmet⟩ | ⟨-,hplain,hbytes⟩)
    · exact ⟨hpass,.inl hmet⟩
    · exact ⟨by rw [hplain]; rfl,.inr hbytes⟩

omit hwalk hfields in
theorem passes_of_meets (h : passes plan (holds text docId doc) (holds text docId doc) = true) :
    passes plan (behindMetadata text docId view.time (decodedHit text docId view doc.fields plan))
      (decodedHit text docId view doc.fields plan) = true := by
  rw [passes_iff] at h ⊢
  refine ⟨fun f hf => ?_,h.2.imp_right ?_⟩
  · have hhold := h.1 f hf
    rw [← and_met_eq_holds htime hpath,behindMetadata,Bool.and_eq_true] at hhold
    rw [behindMetadata,decodedHit,hhold.1,hhold.2,Bool.true_or,Bool.and_true]
  · rintro ⟨group,hgroup,f,hf,hhold⟩
    refine ⟨group,hgroup,f,hf,?_⟩
    rw [decodedHit,met_eq_holds htime hpath,hhold,Bool.true_or,Bool.true_or]

theorem passes_not_meets_iff :
    (passes plan (behindMetadata text docId view.time (decodedHit text docId view doc.fields plan))
        (decodedHit text docId view doc.fields plan) = true ∧
      passes plan (holds text docId doc) (holds text docId doc) = false) ∧
      plan.elemMatch.all (clauseHolds text doc) = true ↔ Misjudged text docId view doc plan := by
  rw [and_comm]
  refine and_congr_right fun _ => ?_
  rw [← Bool.not_eq_true,passes_iff,passes_iff]
  cases hfast : fastPlan plan with
  | true =>
    have hgroups : plan.orGroups = [] := by simpa using (Bool.and_eq_true_iff.1 hfast).1
    have hhit : (∀ f ∈ plan.filters,
          behindMetadata text docId view.time (decodedHit text docId view doc.fields plan) f = true) ↔
        ∀ f ∈ plan.filters,holds text docId doc f = true ∨ TruncatedEqual view f :=
      forall₂_congr fun f hf => fast_hit_iff hwalk hfields htime hpath hfast hf
    rw [hhit,hgroups]
    simp
  | false =>
    have hslow : decodedHit text docId view doc.fields plan = met text docId view doc.fields := by
      funext f
      rw [decodedHit,hfast,Bool.false_and,Bool.or_false]
    simp only [hslow,and_met_eq_holds htime hpath,met_eq_holds htime hpath,Bool.false_eq_true,false_and,false_or,Bool.or_eq_true,Bool.and_eq_true]
    constructor
    · rintro ⟨⟨hall,hany⟩,hnot⟩
      have hnone : ∀ group ∈ plan.orGroups,∀ f ∈ group,holds text docId doc f = false := by
        intro group hgroup f hf
        by_contra hhit
        exact hnot ⟨hall,.inr ⟨group,hgroup,f,hf,by simpa using hhit⟩⟩
      obtain hnil | ⟨group,hgroup,f,hf,hhit⟩ := hany
      · exact absurd ⟨hall,.inl hnil⟩ hnot
      · rw [hnone group hgroup f hf] at hhit
        exact ⟨hall,hnone,group,hgroup,f,hf,hhit.resolve_left Bool.false_ne_true⟩
    · rintro ⟨hall,hnone,group,hgroup,f,hf,hbody⟩
      refine ⟨⟨hall,.inr ⟨group,hgroup,f,hf,.inr hbody⟩⟩,?_⟩
      rintro ⟨-,hnil | ⟨group',hgroup',f',hf',hhit⟩⟩
      · rw [hnil] at hgroup
        cases hgroup
      · rw [hnone group' hgroup' f' hf'] at hhit
        cases hhit

end decode

section worker
variable (text : TextOps) (docId : String)

/-- The worker returns the document of exactly the rows that meet the plan, but for the misjudged ones. -/
theorem unifiedMatchDecode_meets_iff {bytes : Bytes} {doc : HakoDoc} (hdecode : HakoDoc.decode bytes = some doc)
    (plan : QueryPlan) : (unifiedMatchDecode text docId bytes plan = some doc ↔ rowMeets text docId doc plan = true) ↔
      ∀ view,HakoDocView.new bytes = some view → ¬Misjudged text docId view doc plan := by
  obtain ⟨view,hview,htime,hentries⟩ := HakoDoc.view_of_decode hdecode
  have hpath := getPath_eq_pathValue hentries
  obtain ⟨entries,hwalk,hfields⟩ := walk_of_decodeEntries hentries
  simp only [hview,Option.some.injEq,forall_eq']
  rw [unifiedMatchDecode_passes text docId hview hwalk hfields,elemMatchPass_eq_clauseHolds hpath,← passes_not_meets_iff hwalk hfields htime hpath,rowMeets]
  have hmono : passes plan (holds text docId doc) (holds text docId doc) = true → _ := passes_of_meets htime hpath
  generalize passes plan _ (decodedHit text docId view doc.fields plan) = c at *
  generalize passes plan (holds text docId doc) (holds text docId doc) = m at *
  generalize plan.elemMatch.all (clauseHolds text doc) = e at *
  cases c <;> cases m <;> cases e <;> simp [htime] at hmono ⊢

end worker

theorem unifiedMatchDecode_meets_plainRow :
    HakoDoc.decode (HakoDoc.encode ⟨[("r",.int 300)],7⟩) = some ⟨[("r",.int 300)],7⟩ ∧
    (unifiedMatchDecode asciiText "d" (HakoDoc.encode ⟨[("r",.int 300)],7⟩) (askFor (.int 300)) = some ⟨[("r",.int 300)],7⟩ ↔
      rowMeets asciiText "d" ⟨[("r",.int 300)],7⟩ (askFor (.int 300)) = true) := by
  have hdecode : HakoDoc.decode (HakoDoc.encode ⟨[("r",.int 300)],7⟩) = some ⟨[("r",.int 300)],7⟩ := by decide +kernel
  refine ⟨hdecode,(unifiedMatchDecode_meets_iff asciiText "d" hdecode (askFor (.int 300))).mpr fun view _ hodd => ?_⟩
  rcases hodd.2 with ⟨-,hall,f,hf,hmiss⟩ | ⟨-,-,group,hgroup,-⟩
  · rcases hall f hf with hhold | htruncated
    · rw [hhold] at hmiss
      cases hmiss
    · obtain rfl := List.mem_singleton.1 hf
      exact absurd htruncated.1 (by decide)
  · cases hgroup

/-- A plan that asks for the rows where the id is the text, as the one alternative. -/
def orId (s : String) : QueryPlan := {askFor .null with filters := [],orGroups := [[⟨"id",.eq,.string s⟩]]}

/-- The row of another id passes by a field of the body with the name of the id. -/
theorem unifiedMatchDecode_fieldNamedId :
    HakoDoc.decode (HakoDoc.encode ⟨[("id",.string "x")],0⟩) = some ⟨[("id",.string "x")],0⟩ ∧
    unifiedMatchDecode asciiText "k" (HakoDoc.encode ⟨[("id",.string "x")],0⟩) (orId "x") = some ⟨[("id",.string "x")],0⟩ ∧
    rowMeets asciiText "k" ⟨[("id",.string "x")],0⟩ (orId "x") = false := by
  decide +kernel

end Worker

end HakoDB
