import HakoDB.Document.Projection
import HakoDB.Query.Matcher

/-! How the worker matches a stored row: flags per filter and per group of alternatives, raised by the id and the time,
by the fields of the body, by dotted paths, and on the whole-document path first by the bytes of a field. -/
namespace HakoDB
open ByteCodec ReadAll

namespace Worker

/-- Which filters are met, and which groups of alternatives. -/
structure MatchBufs where
  ands : List Bool
  ors : List Bool

section rows
variable (text : TextOps) (docId : String)

/-- Raise the flags that one more piece of the row meets; none is lowered. -/
def raise (plan : QueryPlan) (hit : Filter → Bool) (bufs : MatchBufs) : MatchBufs where
  ands := List.zipWith (fun met f => met || hit f) bufs.ands plan.filters
  ors := List.zipWith (fun met group => met || group.any hit) bufs.ors plan.orGroups

def metadataMatch (time : Int64) (f : Filter) : Bool :=
  if f.field = "id" then matchesIdFlexible text docId f.op f.value
  else if f.field = "_time" then compareValues text (.int time) f.op f.value
  else false

/-- A filter on the id or the time that is not met ends the row at once. -/
def checkMetadataFilters (time : Int64) (plan : QueryPlan) : Option MatchBufs :=
  if plan.filters.all fun f => !(f.field = "id" || f.field = "_time") || metadataMatch text docId time f then
    some ⟨plan.filters.map (metadataMatch text docId time),plan.orGroups.map fun group => group.any (metadataMatch text docId time)⟩
  else none

def fieldMatch (key : String) (v : Value) (f : Filter) : Bool := key = f.field && compareValues text v f.op f.value

def applyFilterLogic (key : String) (v : Value) (plan : QueryPlan) (bufs : MatchBufs) : MatchBufs :=
  raise plan (fieldMatch text key v) bufs

def dottedMatch (view : HakoDocView) (f : Filter) : Bool :=
  dotted f.field && (view.getPath f.field).any fun v => compareValues text v f.op f.value

def applyDottedFilters (view : HakoDocView) (plan : QueryPlan) (bufs : MatchBufs) : MatchBufs :=
  if plan.filters.any (fun f => dotted f.field) || plan.orGroups.any fun group => group.any fun f => dotted f.field then
    raise plan (dottedMatch text view) bufs
  else bufs

def validateFinalMatch (plan : QueryPlan) (bufs : MatchBufs) : Bool :=
  (plan.filters.isEmpty || bufs.ands.all id) && (plan.orGroups.isEmpty || bufs.ors.any id)

/-- Some element of the array at the end of the path meets all the conditions of the clause. -/
def elemMatches (view : HakoDocView) (clause : ElemMatch) : Bool :=
  match view.getPath clause.field with
  | some (.array items) => items.any fun item => clause.filters.all fun f =>
      (valuePath item f.field).any fun v => compareValues text v f.op f.value
  | _ => false

def elemMatchPass (view : HakoDocView) (plan : QueryPlan) : Bool := plan.elemMatch.all (elemMatches text view)

/-- Values with one encoding each. -/
def byteSafe : Value → Bool
  | .float _ | .map _ | .array _ => false
  | _ => true

/-- Only equality with such values is left to decide. -/
def fastEligible (plan : QueryPlan) (bufs : MatchBufs) : Bool :=
  plan.orGroups.isEmpty && (bufs.ands.zip plan.filters).all fun p =>
    p.1 || p.2.field = "id" || p.2.field = "_time" || p.2.op = .eq && byteSafe p.2.value

def nextRaw (bs : Bytes) : Option ((Bytes × UInt8 × Bytes) × Bytes) := do
  let (l,bs) ← readByte bs
  let (key,bs) ← take? l.toNat bs
  let (tag,bs) ← readByte bs
  let (data,bs) ← skipValue tag bs
  return ((key,tag,data),bs)

def iterRaw : ℕ → Bytes → List (Bytes × UInt8 × Bytes)
  | 0,_ => []
  | n+1,bs =>
    match nextRaw bs with
    | none => []
    | some (e,bs) => e::iterRaw n bs

/-- The stored field is the encoding of the filter's value, byte for byte. -/
def bytesMatch (e : Bytes × UInt8 × Bytes) (f : Filter) : Bool :=
  e.1 = asBytes f.field && encodeValue f.value = e.2.1::e.2.2 && f.op = .eq

def matchBytes (plan : QueryPlan) (e : Bytes × UInt8 × Bytes) (bufs : MatchBufs) : MatchBufs :=
  {bufs with ands := List.zipWith (fun met f => met || bytesMatch e f) bufs.ands plan.filters}

/-- The first pass, over the bytes; what it leaves open the dotted paths may decide. -/
def bytePass (view : HakoDocView) (plan : QueryPlan) (bufs : MatchBufs) : Bool × MatchBufs :=
  let bufs := (iterRaw view.fieldsCount view.body).foldl (fun bufs e => matchBytes plan e bufs) bufs
  if validateFinalMatch plan bufs then (true,bufs)
  else
    let bufs := applyDottedFilters text view plan bufs
    (validateFinalMatch plan bufs,bufs)

/-- The pass over the body: every field is decoded, and compared unless the row is settled. -/
def scanBody (verified : Bool) (plan : QueryPlan) : List (String × UInt8 × Bytes) → MatchBufs →
    Option (List (String × Value) × MatchBufs)
  | [],bufs => some ([],bufs)
  | (key,tag,data)::entries,bufs => do
    let v ← decodeValue tag data
    let (fields,bufs) ← scanBody verified plan entries (if verified then bufs else applyFilterLogic text key v plan bufs)
    return ((key,v)::fields,bufs)

def unifiedMatchDecode (bytes : Bytes) (plan : QueryPlan) : Option HakoDoc := do
  let view ← HakoDocView.new bytes
  let bufs ← checkMetadataFilters text docId view.time plan
  let (verified,bufs) := if fastEligible plan bufs then bytePass text view plan bufs else (false,bufs)
  let (fields,bufs) ← scanBody text verified plan view.iter bufs
  if (verified || validateFinalMatch plan (applyDottedFilters text view plan bufs)) && elemMatchPass text view plan then
    some ⟨fields,view.time⟩
  else none

/-- The pass over the body for a projection: only the fields that a filter or a path names are decoded. -/
def scanProjected (plan : QueryPlan) : List (String × UInt8 × Bytes) → MatchBufs → Option (List (String × Value) × MatchBufs)
  | [],bufs => some ([],bufs)
  | (key,tag,data)::entries,bufs =>
    let forFilter := plan.filters.any (fun f => f.field = key) || plan.orGroups.any fun group => group.any fun f => f.field = key
    let forProjection := (projectionPrefixes plan.projection).contains key
    if forFilter || forProjection then do
      let v ← decodeValue tag data
      let (fields,bufs) ← scanProjected plan entries (applyFilterLogic text key v plan bufs)
      return (if forProjection then ((pruneFieldValue v plan.projection key).map fun v => (key,v)).toList++fields else fields,bufs)
    else scanProjected plan entries bufs

def unifiedMatchProjected (bytes : Bytes) (plan : QueryPlan) : Option (List (String × Value)) := do
  let view ← HakoDocView.new bytes
  let bufs ← checkMetadataFilters text docId view.time plan
  let (extracted,bufs) ← scanProjected text plan view.iter bufs
  if validateFinalMatch plan (applyDottedFilters text view plan bufs) && elemMatchPass text view plan then some extracted
  else none

end rows

/-- The flags that a test of the filters sets. -/
def flags (plan : QueryPlan) (met : Filter → Bool) : MatchBufs :=
  ⟨plan.filters.map met,plan.orGroups.map fun group => group.any met⟩

section flags
variable {plan : QueryPlan}
variable {α : Type} {met met' : Filter → Bool}

theorem zipWith_map_self {β γ : Type} (p : α → β) (h : β → α → γ) (xs : List α) :
    List.zipWith h (xs.map p) xs = xs.map fun x => h (p x) x := by
  induction xs with
  | nil => rfl
  | cons x xs ih => rw [List.map_cons,List.zipWith_cons_cons,ih,List.map_cons]

theorem any_or (p q : α → Bool) (xs : List α) : (xs.any fun x => p x || q x) = (xs.any p || xs.any q) := by
  induction xs with
  | nil => rfl
  | cons x xs ih =>
    rw [List.any_cons,List.any_cons,List.any_cons,ih]
    cases p x <;> cases q x <;> cases xs.any p <;> rfl

theorem all_and (p q : α → Bool) (xs : List α) : (xs.all fun x => p x && q x) = (xs.all p && xs.all q) := by
  induction xs with
  | nil => rfl
  | cons x xs ih =>
    rw [List.all_cons,List.all_cons,List.all_cons,ih]
    cases p x <;> cases q x <;> cases xs.all p <;> rfl

theorem raise_flags (met hit : Filter → Bool) : raise plan hit (flags plan met) = flags plan fun f => met f || hit f := by
  simp only [raise,flags,zipWith_map_self,any_or]

theorem any_congr_of_mem {p q : α → Bool} {xs : List α} (h : ∀ x ∈ xs,p x = q x) : xs.any p = xs.any q := by
  induction xs with
  | nil => rfl
  | cons x xs ih =>
    rw [List.any_cons,List.any_cons,h x List.mem_cons_self,ih fun y hy => h y (List.mem_cons_of_mem x hy)]

/-- Only the filters of the plan count. -/
theorem flags_congr (hand : ∀ f ∈ plan.filters,met f = met' f)
    (hor : ∀ group ∈ plan.orGroups,∀ f ∈ group,met f = met' f) : flags plan met = flags plan met' := by
  unfold flags
  rw [List.map_congr_left hand,List.map_congr_left fun group hgroup => any_congr_of_mem (hor group hgroup)]

theorem validate_flags (met : Filter → Bool) : validateFinalMatch plan (flags plan met) =
    (plan.filters.all met && (plan.orGroups.isEmpty || plan.orGroups.any fun group => group.any met)) := by
  unfold validateFinalMatch flags
  rw [List.all_map,List.any_map]
  cases plan.filters <;> rfl

theorem validate_mono (h : ∀ f,met f = true → met' f = true) (hv : validateFinalMatch plan (flags plan met) = true) :
    validateFinalMatch plan (flags plan met') = true := by
  rw [validate_flags,Bool.and_eq_true,List.all_eq_true,Bool.or_eq_true,List.any_eq_true] at hv ⊢
  refine ⟨fun f hf => h f (hv.1 f hf),hv.2.imp_right ?_⟩
  rintro ⟨group,hgroup,hany⟩
  obtain ⟨f,hf,hmet⟩ := List.any_eq_true.1 hany
  exact ⟨group,hgroup,List.any_eq_true.2 ⟨f,hf,h f hmet⟩⟩

end flags

section passes
variable (text : TextOps) {plan : QueryPlan}

theorem applyDottedFilters_flags (view : HakoDocView) (met : Filter → Bool) :
    applyDottedFilters text view plan (flags plan met) = flags plan fun f => met f || dottedMatch text view f := by
  unfold applyDottedFilters
  split_ifs with h
  · exact raise_flags met _
  · have hnone : ∀ f,dotted f.field = false → met f = (met f || dottedMatch text view f) := fun f hf => by
      simp [dottedMatch,hf]
    simp only [Bool.or_eq_true,List.any_eq_true,not_or,not_exists,not_and,Bool.not_eq_true] at h
    exact flags_congr (fun f hf => hnone f (h.1 f hf)) fun group hgroup f hf => hnone f (h.2 group hgroup f hf)

/-- Some field of the body meets the filter. -/
def bodyMatch (fields : List (String × Value)) (f : Filter) : Bool := fields.any fun kv => fieldMatch text kv.1 kv.2 f

variable {entries : List (String × UInt8 × Bytes)} {fields : List (String × Value)}

theorem scanBody_verified (h : entries.mapM decodeEntry = some fields) (bufs : MatchBufs) :
    scanBody text true plan entries bufs = some (fields,bufs) := by
  induction entries generalizing fields with
  | nil =>
    cases h
    rfl
  | cons e entries ih =>
    obtain ⟨f,fs,hf,hfs,rfl⟩ := mapM_cons_eq_some h
    obtain ⟨v,hv,rfl⟩ := Option.map_eq_some_iff.1 hf
    obtain ⟨key,tag,data⟩ := e
    simp [scanBody,hv,ih hfs]

theorem scanBody_flags (h : entries.mapM decodeEntry = some fields) (met : Filter → Bool) :
    scanBody text false plan entries (flags plan met) = some (fields,flags plan fun f => met f || bodyMatch text fields f) := by
  induction entries generalizing fields met with
  | nil =>
    cases h
    simp [scanBody,bodyMatch]
  | cons e entries ih =>
    obtain ⟨f,fs,hf,hfs,rfl⟩ := mapM_cons_eq_some h
    obtain ⟨v,hv,rfl⟩ := Option.map_eq_some_iff.1 hf
    obtain ⟨key,tag,data⟩ := e
    dsimp only at hv
    simp only [scanBody,hv,applyFilterLogic,raise_flags,ih hfs,bodyMatch,List.any_cons,Bool.or_assoc,Option.bind_eq_bind,
      Option.bind_some,Bool.false_eq_true,if_false,Option.pure_def]

theorem scanProjected_flags (hfirst : ∀ p ∈ plan.projection,(pathSegments p).head? ≠ some "")
    (h : entries.mapM decodeEntry = some fields) (met : Filter → Bool) :
    scanProjected text plan entries (flags plan met) =
      some (fields.filterMap fun f => (pruneFieldValue f.2 plan.projection f.1).map fun v => (f.1,v),
        flags plan fun f => met f || bodyMatch text fields f) := by
  induction entries generalizing fields met with
  | nil =>
    cases h
    simp [scanProjected,bodyMatch]
  | cons e entries ih =>
    obtain ⟨f,fs,hf,hfs,rfl⟩ := mapM_cons_eq_some h
    obtain ⟨v,hv,rfl⟩ := Option.map_eq_some_iff.1 hf
    obtain ⟨key,tag,data⟩ := e
    dsimp only at hv
    have hbody : ∀ g,(met g || bodyMatch text ((key,v)::fs) g) = ((met g || fieldMatch text key v g) || bodyMatch text fs g) :=
      fun g => (Bool.or_assoc _ _ _).symm
    have hskip : key ∉ projectionPrefixes plan.projection → pruneFieldValue v plan.projection key = none :=
      fun hnot => pruneFieldValue_of_not_mem hfirst hnot v
    simp only [hbody,scanProjected,hv,applyFilterLogic,raise_flags,ih hfs,Option.bind_eq_bind,Option.bind_some,Option.pure_def]
    split_ifs with hneed hproj
    · cases hprune : pruneFieldValue v plan.projection key <;> simp [hprune]
    · rw [List.filterMap_cons,hskip (by simpa using hproj)]
      rfl
    · -- no filter names the key, so none is met by its value
      simp only [Bool.or_eq_true,List.any_eq_true,decide_eq_true_eq,List.contains_iff_mem,not_or,not_exists,not_and] at hneed
      obtain ⟨⟨hand,hor⟩,hproj⟩ := hneed
      have hmiss : ∀ g : Filter,g.field ≠ key → (met g || bodyMatch text fs g) =
          ((met g || fieldMatch text key v g) || bodyMatch text fs g) := fun g hg => by
        simp [fieldMatch,Ne.symm hg]
      rw [List.filterMap_cons,hskip hproj,flags_congr (fun g hg => hmiss g (hand g hg))
        fun group hgroup g hg => hmiss g (hor group hgroup g hg)]
      rfl

end passes

section verdict
variable (text : TextOps) (docId : String)

/-- The filters on the id and the time. -/
def onMetadata (f : Filter) : Bool := f.field = "id" || f.field = "_time"

def metadataPass (time : Int64) (plan : QueryPlan) : Bool :=
  plan.filters.all fun f => !onMetadata f || metadataMatch text docId time f

/-- What the id, the time, the fields or a dotted path say about a filter. -/
def met (view : HakoDocView) (fields : List (String × Value)) (f : Filter) : Bool :=
  metadataMatch text docId view.time f || bodyMatch text fields f || dottedMatch text view f

theorem checkMetadataFilters_eq (time : Int64) (plan : QueryPlan) : checkMetadataFilters text docId time plan =
    if metadataPass text docId time plan then some (flags plan (metadataMatch text docId time)) else none := rfl

variable {bytes : Bytes} {plan : QueryPlan} {view : HakoDocView} {entries : List (String × UInt8 × Bytes)}
    {fields : List (String × Value)}

theorem unifiedMatchProjected_eq (hview : HakoDocView.new bytes = some view)
    (hwalk : walkEntries view.fieldsCount view.body = some entries) (hfields : entries.mapM decodeEntry = some fields)
    (hfirst : ∀ p ∈ plan.projection,(pathSegments p).head? ≠ some "") :
    unifiedMatchProjected text docId bytes plan =
      if metadataPass text docId view.time plan && (validateFinalMatch plan (flags plan (met text docId view fields)) &&
        elemMatchPass text view plan) then
        some (fields.filterMap fun f => (pruneFieldValue f.2 plan.projection f.1).map fun v => (f.1,v))
      else none := by
  have hiter : view.iter = entries := iterFields_of_walk hwalk
  rw [unifiedMatchProjected,hview]
  simp only [Option.bind_eq_bind,Option.bind_some,checkMetadataFilters_eq,hiter]
  cases metadataPass text docId view.time plan with
  | false => rfl
  | true =>
    simp only [if_true,Option.bind_some,scanProjected_flags text hfirst hfields,applyDottedFilters_flags,Bool.true_and]
    rfl

/-- No group of alternatives, and beside the id and the time only equality with values of one encoding. -/
def fastPlan (plan : QueryPlan) : Bool :=
  plan.orGroups.isEmpty && plan.filters.all fun f => onMetadata f || f.op = .eq && byteSafe f.value

theorem fastEligible_flags (time : Int64) (plan : QueryPlan) :
    fastEligible plan (flags plan (metadataMatch text docId time)) = fastPlan plan := by
  unfold fastEligible fastPlan flags
  rw [List.zip_eq_zipWith,zipWith_map_self,List.all_map]
  congr 1
  refine congrArg plan.filters.all (funext fun f => ?_)
  by_cases hid : f.field = "id"
  · simp [onMetadata,hid]
  by_cases htime : f.field = "_time"
  · simp [onMetadata,htime]
  simp [onMetadata,metadataMatch,hid,htime]

def byBytes (view : HakoDocView) (f : Filter) : Bool := (iterRaw view.fieldsCount view.body).any fun e => bytesMatch e f

theorem foldl_matchBytes (hor : plan.orGroups = []) (raws : List (Bytes × UInt8 × Bytes)) (met : Filter → Bool) :
    raws.foldl (fun bufs e => matchBytes plan e bufs) (flags plan met) =
      flags plan fun f => met f || raws.any fun e => bytesMatch e f := by
  induction raws generalizing met with
  | nil => simp
  | cons e raws ih =>
    have hstep : matchBytes plan e (flags plan met) = flags plan fun f => met f || bytesMatch e f := by
      simp only [matchBytes,flags,zipWith_map_self,hor,List.map_nil]
    rw [List.foldl_cons,hstep,ih]
    simp only [List.any_cons,Bool.or_assoc]

theorem bytePass_flags (hor : plan.orGroups = []) (view : HakoDocView) (met : Filter → Bool) :
    bytePass text view plan (flags plan met) =
      if validateFinalMatch plan (flags plan fun f => met f || byBytes view f) then
        (true,flags plan fun f => met f || byBytes view f)
      else (validateFinalMatch plan (flags plan fun f => (met f || byBytes view f) || dottedMatch text view f),
        flags plan fun f => (met f || byBytes view f) || dottedMatch text view f) := by
  simp only [bytePass,foldl_matchBytes hor,applyDottedFilters_flags]
  rfl

/-- The flags when the body is scanned after the bytes, and those of the scan alone with the bytes added. -/
theorem flags_rearranged (a b c d : Filter → Bool) :
    flags plan (fun f => ((((a f || b f) || c f) || d f) || c f)) = flags plan fun f => ((a f || d f) || c f) || b f :=
  flags_congr (fun f _ => by cases a f <;> cases b f <;> cases c f <;> cases d f <;> rfl)
    fun _ _ f _ => by cases a f <;> cases b f <;> cases c f <;> cases d f <;> rfl

theorem unifiedMatchDecode_eq (hview : HakoDocView.new bytes = some view)
    (hwalk : walkEntries view.fieldsCount view.body = some entries) (hfields : entries.mapM decodeEntry = some fields) :
    unifiedMatchDecode text docId bytes plan =
      if metadataPass text docId view.time plan && (validateFinalMatch plan
          (flags plan fun f => met text docId view fields f || fastPlan plan && byBytes view f) && elemMatchPass text view plan) then
        some ⟨fields,view.time⟩
      else none := by
  have hiter : view.iter = entries := iterFields_of_walk hwalk
  rw [unifiedMatchDecode,hview]
  simp only [Option.bind_eq_bind,Option.bind_some,checkMetadataFilters_eq,hiter]
  cases metadataPass text docId view.time plan with
  | false => rfl
  | true =>
    simp only [if_true,Option.bind_some,fastEligible_flags,Bool.true_and]
    cases hfast : fastPlan plan with
    | false =>
      simp only [Bool.false_eq_true,if_false,scanBody_flags text hfields,Option.bind_some,applyDottedFilters_flags,
        Bool.false_or,Bool.false_and,Bool.or_false]
      rfl
    | true =>
      have hor : plan.orGroups = [] := by
        simpa using (Bool.and_eq_true_iff.1 hfast).1
      simp only [if_true,bytePass_flags text hor,Bool.true_and]
      -- the row is settled by the bytes, by the dotted paths behind them, or by the scan of the body
      by_cases hbytes : validateFinalMatch plan (flags plan fun f => metadataMatch text docId view.time f || byBytes view f) = true
      · have hall : validateFinalMatch plan (flags plan fun f => met text docId view fields f || byBytes view f) = true :=
          validate_mono (fun f => by unfold met; grind) hbytes
        simp only [hbytes,if_true,scanBody_verified text hfields,Option.bind_some,Bool.true_or,hall,Bool.true_and]
      · by_cases hdotted : validateFinalMatch plan
            (flags plan fun f => (metadataMatch text docId view.time f || byBytes view f) || dottedMatch text view f) = true
        · have hall : validateFinalMatch plan (flags plan fun f => met text docId view fields f || byBytes view f) = true :=
            validate_mono (fun f => by unfold met; grind) hdotted
          simp only [if_neg hbytes,hdotted,scanBody_verified text hfields,Option.bind_some,Bool.true_or,hall,Bool.true_and]
        · have hflags := @flags_rearranged plan (metadataMatch text docId view.time) (byBytes view)
            (dottedMatch text view) (bodyMatch text fields)
          rw [Bool.not_eq_true] at hdotted
          simp only [if_neg hbytes,hdotted,scanBody_flags text hfields,Option.bind_some,Bool.false_or,applyDottedFilters_flags,
            hflags,met]
          rfl

end verdict

section bytes

/-- The length byte of such a part does not tell its length. -/
def longReference : Value → Bool
  | .reference collection docId => 255 < (asBytes collection).length || 255 < (asBytes docId).length
  | _ => false

variable {n : ℕ} {bs : Bytes} {entries : List (String × UInt8 × Bytes)} {tag : UInt8} {data : Bytes} {v : Value}

theorem iterRaw_of_walk (h : walkEntries n bs = some entries) :
    iterRaw n bs = entries.map fun e => (asBytes e.1,e.2) := by
  induction n generalizing bs entries with
  | zero =>
    rw [walkEntries] at h
    split_ifs at h
    cases h
    rfl
  | succ n ih =>
    rw [walkEntries] at h
    obtain ⟨⟨key,bs1⟩,hkey,h⟩ := Option.bind_eq_some_iff.1 h
    obtain ⟨⟨tag,bs2⟩,htag,h⟩ := Option.bind_eq_some_iff.1 h
    obtain ⟨⟨data,bs3⟩,hskip,h⟩ := Option.bind_eq_some_iff.1 h
    obtain ⟨rest,hrest,h⟩ := Option.bind_eq_some_iff.1 h
    cases h
    obtain ⟨⟨l,more⟩,hl,hkey⟩ := Option.bind_eq_some_iff.1 hkey
    obtain ⟨⟨name,more'⟩,hname,hkey⟩ := Option.bind_eq_some_iff.1 hkey
    obtain ⟨s,hs,hkey⟩ := Option.bind_eq_some_iff.1 hkey
    cases hkey
    have hnext : nextRaw bs = some ((asBytes key,tag,data),bs3) := by
      rw [asBytes_of_fromUtf8 hs]
      simp [nextRaw,hl,hname,htag,hskip]
    rw [iterRaw,hnext]
    exact congrArg ((asBytes key,tag,data)::·) (ih hrest)

theorem skipValue_length {rest : Bytes} (h : skipValue tag bs = some (data,rest)) :
    data.length < 4+2^32 := by
  unfold skipValue at h
  split_ifs at h
  · cases h
    simp
  · cases h
    simp
  · rw [(take?_eq_some h).2]
    omega
  · obtain ⟨⟨l,more⟩,hl,h⟩ := Option.bind_eq_some_iff.1 h
    have hlt := leNat_lt l
    rw [(take?_eq_some hl).2] at hlt
    rw [(take?_eq_some h).2]
    omega

theorem skipped_of_walk (h : walkEntries n bs = some entries) :
    ∀ e ∈ entries,∃ front rest,skipValue e.2.1 front = some (e.2.2,rest) := by
  induction n generalizing bs entries with
  | zero =>
    rw [walkEntries] at h
    split_ifs at h
    cases h
    exact fun e he => absurd he List.not_mem_nil
  | succ n ih =>
    rw [walkEntries] at h
    obtain ⟨⟨key,bs1⟩,-,h⟩ := Option.bind_eq_some_iff.1 h
    obtain ⟨⟨tag,bs2⟩,-,h⟩ := Option.bind_eq_some_iff.1 h
    obtain ⟨⟨data,bs3⟩,hskip,h⟩ := Option.bind_eq_some_iff.1 h
    obtain ⟨rest,hrest,h⟩ := Option.bind_eq_some_iff.1 h
    cases h
    exact List.forall_mem_cons.2 ⟨⟨bs2,bs3,hskip⟩,ih hrest⟩

theorem data_length_of_walk (h : walkEntries n bs = some entries) :
    ∀ e ∈ entries,e.2.2.length < 4+2^32 := by
  intro e he
  obtain ⟨front,rest,hskip⟩ := skipped_of_walk h e he
  exact skipValue_length hskip

/-- Bytes of the length a field can have are the encoding of a value within the limits. -/
theorem encodable_of_byteSafe (hsafe : byteSafe v) (hshort : longReference v = false)
    (henc : encodeValue v = tag::data) (hlen : data.length < 4+2^32) : v.Encodable := by
  have hdata := congrArg List.length henc
  cases v with
  | float f => cases hsafe
  | map fields => cases hsafe
  | array items => cases hsafe
  | string s =>
    rw [encodeValue] at hdata
    rw [Value.Encodable]
    split_ifs at hdata
    · omega
    · simp only [List.length_cons,lenPrefixed_length] at hdata
      omega
  | binary bs =>
    simp only [encodeValue,List.length_cons,lenPrefixed_length] at hdata
    rw [Value.Encodable]
    omega
  | reference collection docId =>
    simp only [longReference,Bool.or_eq_false_iff,decide_eq_false_iff_not] at hshort
    rw [Value.Encodable]
    omega
  | _ => trivial

theorem compareValues_self (text : TextOps) (hsafe : byteSafe v) : compareValues text v .eq v = true := by
  have heq : v.eq v = true := by
    cases v with
    | float f => cases hsafe
    | map fields => cases hsafe
    | array items => cases hsafe
    | null => rfl
    | serverTimestamp => rfl
    | bool b => exact beq_self_eq_true b
    | int n => exact beq_self_eq_true n
    | timestamp n => exact beq_self_eq_true n
    | string s => exact beq_self_eq_true s
    | binary bs => exact beq_self_eq_true bs
    | reference c d => exact Bool.and_eq_true_iff.2 ⟨beq_self_eq_true c,beq_self_eq_true d⟩
    | blobLink o l => exact Bool.and_eq_true_iff.2 ⟨beq_self_eq_true o,beq_self_eq_true l⟩
  change compareScalars text v v .eq = true
  unfold compareScalars
  exact if_pos ⟨rfl,heq⟩

/-- A field of these bytes meets the filter, unless the filter's value is longer than its encoding can tell. -/
theorem bodyMatch_of_byBytes (text : TextOps) {view : HakoDocView} {fields : List (String × Value)}
    (hwalk : walkEntries view.fieldsCount view.body = some entries) (hfields : entries.mapM decodeEntry = some fields)
    {f : Filter} (hsafe : byteSafe f.value) (hshort : longReference f.value = false) (h : byBytes view f) :
    bodyMatch text fields f = true := by
  rw [byBytes,iterRaw_of_walk hwalk,List.any_map,List.any_eq_true] at h
  obtain ⟨e,he,hmatch⟩ := h
  simp only [Function.comp_apply,bytesMatch,Bool.and_eq_true,decide_eq_true_eq] at hmatch
  obtain ⟨⟨hkey,henc⟩,hop⟩ := hmatch
  have hdecode : decodeValue e.2.1 e.2.2 = some f.value := by
    obtain ⟨tag,data,hr⟩ := readsAs_of_encodable f.value (encodable_of_byteSafe hsafe hshort henc (data_length_of_walk hwalk e he))
    have hsame := hr.encode.symm.trans henc
    cases List.cons.inj hsame with
    | intro htag hdata =>
      rw [← htag,← hdata]
      exact hr.decode _ (Nat.lt_succ_self _)
  have hmem : (e.1,f.value) ∈ fields := mem_mapM_of_mem hfields he (by rw [decodeEntry,hdecode]; rfl)
  rw [bodyMatch,List.any_eq_true]
  refine ⟨_,hmem,?_⟩
  rw [fieldMatch,hop,compareValues_self text hsafe,asBytes_injective hkey]
  simp

end bytes

section agreement
variable (text : TextOps) (docId : String)

/-- The row passes, but one filter is met by the bytes alone: its value is a reference with a part that is longer than
the length byte in its encoding can tell. -/
def TruncatedMatch (view : HakoDocView) (fields : List (String × Value)) (plan : QueryPlan) : Prop :=
  fastPlan plan = true ∧ metadataPass text docId view.time plan = true ∧ elemMatchPass text view plan = true ∧
    (∀ f ∈ plan.filters,met text docId view fields f = true ∨ byBytes view f = true) ∧
    ∃ f ∈ plan.filters,longReference f.value = true ∧ byBytes view f = true ∧ met text docId view fields f = false

variable {plan : QueryPlan} {view : HakoDocView} {entries : List (String × UInt8 × Bytes)}
    {fields : List (String × Value)}

theorem validate_fast (hfast : fastPlan plan = true) (met : Filter → Bool) :
    validateFinalMatch plan (flags plan met) = true ↔ ∀ f ∈ plan.filters,met f = true := by
  rw [validate_flags,(Bool.and_eq_true_iff.1 hfast).1,Bool.true_or,Bool.and_true,List.all_eq_true]

variable {text docId} in
/-- On the fast path a filter that only the bytes meet has a value whose encoding is truncated. -/
theorem longReference_of_byBytes (hwalk : walkEntries view.fieldsCount view.body = some entries)
    (hfields : entries.mapM decodeEntry = some fields) (hfast : fastPlan plan = true) {f : Filter}
    (hf : f ∈ plan.filters) (hpass : (!onMetadata f || metadataMatch text docId view.time f) = true)
    (hbytes : byBytes view f = true) (hmet : met text docId view fields f = false) :
    longReference f.value = true ∧ onMetadata f = false := by
  simp only [met,Bool.or_eq_false_iff] at hmet
  rw [hmet.1.1,Bool.or_false,Bool.not_eq_true'] at hpass
  refine ⟨?_,hpass⟩
  have hkind := List.all_eq_true.1 (Bool.and_eq_true_iff.1 hfast).2 f hf
  rw [hpass,Bool.false_or,Bool.and_eq_true] at hkind
  by_contra hshort
  rw [bodyMatch_of_byBytes text hwalk hfields hkind.2 (by simpa using hshort) hbytes] at hmet
  cases hmet.1.2

theorem validate_differs_iff (hwalk : walkEntries view.fieldsCount view.body = some entries)
    (hfields : entries.mapM decodeEntry = some fields) : TruncatedMatch text docId view fields plan ↔
      metadataPass text docId view.time plan = true ∧ elemMatchPass text view plan = true ∧
        validateFinalMatch plan (flags plan fun f => met text docId view fields f || fastPlan plan && byBytes view f) = true ∧
        validateFinalMatch plan (flags plan (met text docId view fields)) = false := by
  cases hfast : fastPlan plan with
  | false =>
    simp only [TruncatedMatch,hfast,Bool.false_eq_true,false_and,Bool.false_and,Bool.or_false,false_iff,not_and,
      Bool.not_eq_false]
    exact fun _ _ h => h
  | true =>
    simp only [Bool.true_and]
    rw [validate_fast hfast,← Bool.not_eq_true,validate_fast hfast]
    simp only [Bool.or_eq_true]
    constructor
    · rintro ⟨-,hmeta,helem,hall,f,hf,-,-,hmet⟩
      exact ⟨hmeta,helem,hall,fun h => by rw [h f hf] at hmet; cases hmet⟩
    · rintro ⟨hmeta,helem,hall,hnot⟩
      obtain ⟨f,hf,hmet⟩ : ∃ f ∈ plan.filters,met text docId view fields f = false := by
        by_contra hne
        exact hnot fun f hf => by
          by_contra hmet
          exact hne ⟨f,hf,by simpa using hmet⟩
      have hbytes := (hall f hf).resolve_left (by rw [hmet]; decide)
      have hlong := (longReference_of_byBytes hwalk hfields hfast hf (List.all_eq_true.1 hmeta f hf) hbytes hmet).1
      exact ⟨hfast,hmeta,helem,hall,f,hf,hlong,hbytes,hmet⟩

/-- The worker for projections selects from the rows that the worker for whole documents returns, unless a row passes
there by the bytes of a truncated reference. -/
theorem unifiedMatchProjected_iff {bytes : Bytes} {doc : HakoDoc} (hdecode : HakoDoc.decode bytes = some doc) {plan : QueryPlan}
    (hne : plan.projection ≠ []) (hfirst : ∀ p ∈ plan.projection,(pathSegments p).head? ≠ some "") :
    ((HakoDoc.decodeProjected bytes plan.projection).map HakoDoc.fields = some (doc.projectFields plan.projection) ∧
      unifiedMatchProjected text docId bytes plan =
        (unifiedMatchDecode text docId bytes plan).map fun _ => doc.projectFields plan.projection) ↔
      ∀ view,HakoDocView.new bytes = some view → ¬TruncatedMatch text docId view doc.fields plan := by
  rw [HakoDoc.decodeProjected_eq hne hfirst hdecode,Option.map_some,eq_self_iff_true,true_and]
  rw [HakoDoc.decode_eq_walk] at hdecode
  obtain ⟨view,hview,hdecode⟩ := Option.bind_eq_some_iff.1 hdecode
  obtain ⟨entries,hwalk,hdecode⟩ := Option.bind_eq_some_iff.1 hdecode
  obtain ⟨fields,hfields,rfl⟩ := Option.map_eq_some_iff.1 hdecode
  have hempty : plan.projection.isEmpty = false := by simpa using hne
  simp only [hview,Option.some.injEq,forall_eq']
  rw [unifiedMatchProjected_eq text docId hview hwalk hfields hfirst,unifiedMatchDecode_eq text docId hview hwalk hfields,
    HakoDoc.projectFields,hempty,validate_differs_iff text docId hwalk hfields]
  have hmono : validateFinalMatch plan (flags plan (met text docId view fields)) = true → validateFinalMatch plan
      (flags plan fun f => met text docId view fields f || fastPlan plan && byBytes view f) = true :=
    validate_mono fun f hf => by rw [hf,Bool.true_or]
  generalize metadataPass text docId view.time plan = a at *
  generalize elemMatchPass text view plan = e at *
  generalize validateFinalMatch plan (flags plan (met text docId view fields)) = v at *
  generalize validateFinalMatch plan (flags plan fun f => met text docId view fields f || fastPlan plan && byBytes view f) = w at *
  cases a <;> cases e <;> cases v <;> cases w <;> simp at hmono ⊢

/-- A plan that asks for the field `r` of the rows where it equals a value. -/
def askFor (v : Value) : QueryPlan where
  collection := "c"
  scan := .fullCollection
  filters := [⟨"r",.eq,v⟩]
  orGroups := []
  elemMatch := []
  orderBy := []
  limit := none
  offset := none
  projection := ["r"]
  scanLimit := none
  orderBySatisfied := false
  filtersSatisfiedByIndex := false
  deferBlobs := false
  raw := false
  hasCursorBounds := false

theorem unifiedMatchProjected_soundRow : HakoDoc.decode (HakoDoc.encode ⟨[("r",.reference "a" "b"),("s",.int 300)],7⟩) =
      some ⟨[("r",.reference "a" "b"),("s",.int 300)],7⟩ ∧ (askFor (.reference "a" "b")).projection ≠ [] ∧
    (∀ p ∈ (askFor (.reference "a" "b")).projection,(pathSegments p).head? ≠ some "") ∧
    ((HakoDoc.decodeProjected (HakoDoc.encode ⟨[("r",.reference "a" "b"),("s",.int 300)],7⟩) ["r"]).map HakoDoc.fields =
        some [("r",.reference "a" "b")] ∧
      unifiedMatchProjected asciiText "d" (HakoDoc.encode ⟨[("r",.reference "a" "b"),("s",.int 300)],7⟩)
        (askFor (.reference "a" "b")) = some [("r",.reference "a" "b")]) := by
  have hdecode : HakoDoc.decode (HakoDoc.encode ⟨[("r",.reference "a" "b"),("s",.int 300)],7⟩) =
      some ⟨[("r",.reference "a" "b"),("s",.int 300)],7⟩ := by decide +kernel
  have hne : (askFor (.reference "a" "b")).projection ≠ [] := by decide
  have hfirst : ∀ p ∈ (askFor (.reference "a" "b")).projection,(pathSegments p).head? ≠ some "" := by decide
  have hmatch : unifiedMatchDecode asciiText "d" (HakoDoc.encode ⟨[("r",.reference "a" "b"),("s",.int 300)],7⟩)
      (askFor (.reference "a" "b")) = some ⟨[("r",.reference "a" "b"),("s",.int 300)],7⟩ := by decide +kernel
  have hboth := (unifiedMatchProjected_iff asciiText "d" hdecode hne hfirst).2 fun view _ htruncated => by
    obtain ⟨-,-,-,-,f,hf,hlong,-⟩ := htruncated
    rw [List.mem_singleton.1 hf] at hlong
    exact absurd hlong (by decide)
  rw [hmatch] at hboth
  exact ⟨hdecode,hne,hfirst,hboth.1,hboth.2⟩

/-- 256 bytes: the length byte in front of them is zero. -/
def longName : String := .ofList ('\x01'::List.replicate 255 'a')

/-- The reference that such a name leaves in a document is another one. The whole-document worker takes the row for the
name, the worker for projections does not. -/
theorem unifiedMatchProjected_longName :
    HakoDoc.decode (HakoDoc.encode ⟨[("r",.reference longName "d")],0⟩) = some ⟨[("r",.reference "" "a")],0⟩ ∧
    unifiedMatchDecode asciiText "d" (HakoDoc.encode ⟨[("r",.reference longName "d")],0⟩) (askFor (.reference longName "d")) =
      some ⟨[("r",.reference "" "a")],0⟩ ∧
    unifiedMatchProjected asciiText "d" (HakoDoc.encode ⟨[("r",.reference longName "d")],0⟩) (askFor (.reference longName "d")) =
      none := by
  decide +kernel

end agreement

end Worker

end HakoDB
