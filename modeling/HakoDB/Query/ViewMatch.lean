import HakoDB.Query.RowVerdict

/-! How the lane for the first rows of an order matches a row: on the stored bytes, with the filters as the query
has them. The ordinary lane has the numbers in filters on the id written out and compares decoded values. -/
namespace HakoDB
open ByteCodec Varint ReadAll

namespace Worker

section view
variable (text : TextOps) (docId : String)

/-- The value behind a tag, as the lane reads it where it is not a short one. -/
def physicalValue (tag : UInt8) (data : Bytes) : Option Value :=
  match tag.toNat with
  | 3 => (decodeVarint (data.drop 4)).map fun n => .int (zigzagDecode n)
  | 7 => (decodeVarint (data.drop 4)).map fun n => .timestamp (zigzagDecode n)
  | 4 => (take? 8 (data.drop 4)).map fun r => .float ⟨.ofNat (leNat r.1)⟩
  | 5 => (take? (leNat (data.take 4)) (data.drop 4)).bind fun r => (fromUtf8 r.1).map .string
  | 6 => (take? (leNat (data.take 4)) (data.drop 4)).map fun r => .binary r.1
  | _ => decodeValue tag data

def compareRawBytes (tag : UInt8) (data : Bytes) (op : Operator) (b : Value) : Bool :=
  if tag = 0xC0 then compareValues text .null op b
  else if tag = 0xC2 then compareValues text (.bool true) op b
  else if tag = 0xC3 then compareValues text (.bool false) op b
  else if tag.toNat/16 = 1 then compareValues text (.int (Int64.ofInt (tag.toNat % 16 : ℕ))) op b
  else if tag.toNat/8 = 8 then (fromUtf8 (data.take (tag.toNat % 8))).any fun s => compareValues text (.string s) op b
  else if data.length < 4 then false
  else (physicalValue tag data).any fun v => compareValues text v op b

def rawMatch (e : String × UInt8 × Bytes) (f : Filter) : Bool :=
  e.1 = f.field && compareRawBytes text e.2.1 e.2.2 f.op f.value

def matchesFiltersView (bytes : Bytes) (plan : QueryPlan) : Bool :=
  match checkMetadataFilters text docId (bytesI64 ((bytes.drop 2).take 8)) plan with
  | none => false
  | some bufs =>
    match HakoDocView.new bytes with
    | none => false
    | some view =>
      let bufs := view.iter.foldl (fun bufs e => raise plan (rawMatch text e) bufs) bufs
      validateFinalMatch plan (applyDottedFilters text view plan bufs) && elemMatchPass text view plan

end view

section raw
variable (text : TextOps)
variable {tag : UInt8} {data bs rest : Bytes} {entries : List (String × UInt8 × Bytes)}

theorem tag_of_serverTimestamp (h : decodeValue tag data = some .serverTimestamp) : tag = 0xC1 := by
  by_contra htag
  rw [decodeValue,decodeNested] at h
  simp only [Option.bind_eq_bind,Option.pure_def] at h
  split_ifs at h
  all_goals first | cases h | skip
  · obtain ⟨r,-,h⟩ := Option.bind_eq_some_iff.1 h
    obtain ⟨s,-,h⟩ := Option.bind_eq_some_iff.1 h
    cases h
  · split at h <;> simp [Option.bind_eq_some_iff,Option.map_eq_some_iff] at h

/-- The tags that a walk over a row gets past, and the length of what is behind them. -/
theorem skipValue_cases (h : skipValue tag bs = some (data,rest)) :
    tag = 0xC0 ∨ tag = 0xC1 ∧ data = [] ∨ tag = 0xC2 ∨ tag = 0xC3 ∨ tag.toNat/16 = 1 ∨ tag.toNat/8 = 8 ∨
      (3 ≤ tag.toNat ∧ tag.toNat ≤ 11 ∧ 4 ≤ data.length) := by
  unfold skipValue at h
  split_ifs at h with hshort hint htext hlong
  · cases h
    have hcases : tag.toNat = 0xC0 ∨ tag.toNat = 0xC1 ∨ tag.toNat = 0xC2 ∨ tag.toNat = 0xC3 := by omega
    rcases hcases with h | h | h | h
    · exact .inl (UInt8.toNat_inj.1 h)
    · exact .inr (.inl ⟨UInt8.toNat_inj.1 h,rfl⟩)
    · exact .inr (.inr (.inl (UInt8.toNat_inj.1 h)))
    · exact .inr (.inr (.inr (.inl (UInt8.toNat_inj.1 h))))
  · tauto
  · tauto
  · obtain ⟨⟨l,more⟩,-,h⟩ := Option.bind_eq_some_iff.1 h
    have hlen := (take?_eq_some h).2
    exact .inr (.inr (.inr (.inr (.inr (.inr ⟨hlong.1,hlong.2,by omega⟩)))))

theorem physicalValue_eq (hlow : 3 ≤ tag.toNat) (hhigh : tag.toNat ≤ 11) (hlen : 4 ≤ data.length) :
    physicalValue tag data = decodeValue tag data := by
  have htake : take? 4 data = some (data.take 4,data.drop 4) := by simp [take?,hlen]
  have hcases : tag.toNat = 3 ∨ tag.toNat = 4 ∨ tag.toNat = 5 ∨ tag.toNat = 6 ∨ tag.toNat = 7 ∨ 8 ≤ tag.toNat := by omega
  rcases hcases with h | h | h | h | h | h
  · obtain rfl : tag = 3 := UInt8.toNat_inj.1 h
    rfl
  · obtain rfl : tag = 4 := UInt8.toNat_inj.1 h
    change (take? 8 (data.drop 4)).map _ = (take? 8 (data.drop 4)).bind _
    cases take? 8 (data.drop 4) <;> rfl
  · obtain rfl : tag = 5 := UInt8.toNat_inj.1 h
    change (take? (leNat (data.take 4)) (data.drop 4)).bind _ = (take? 4 data).bind _
    rw [htake,Option.bind_some]
    refine Option.bind_congr ?_
    rintro ⟨s,more⟩ -
    change (fromUtf8 s).map _ = (fromUtf8 s).bind _
    cases fromUtf8 s <;> rfl
  · obtain rfl : tag = 6 := UInt8.toNat_inj.1 h
    change (take? (leNat (data.take 4)) (data.drop 4)).map _ = (take? 4 data).bind _
    rw [htake,Option.bind_some]
    change _ = (take? (leNat (data.take 4)) (data.drop 4)).bind _
    cases take? (leNat (data.take 4)) (data.drop 4) <;> rfl
  · obtain rfl : tag = 7 := UInt8.toNat_inj.1 h
    rfl
  · unfold physicalValue
    split <;> first | rfl | omega

/-- Stored values compare by their bytes as they do decoded, but for the placeholder of a server time, which is
never met. -/
theorem compareRawBytes_eq (hskip : skipValue tag bs = some (data,rest)) {v : Value}
    (h : decodeValue tag data = some v) (op : Operator) (b : Value) :
    compareRawBytes text tag data op b = (!(v = .serverTimestamp : Bool) && compareValues text v op b) := by
  have hother : tag ≠ 0xC1 → (v = .serverTimestamp : Bool) = false := fun htag =>
    decide_eq_false fun hv => htag (tag_of_serverTimestamp (hv ▸ h))
  rcases skipValue_cases hskip with rfl | ⟨rfl,rfl⟩ | rfl | rfl | hint | htext | ⟨hlow,hhigh,hlen⟩
  · obtain rfl := Option.some.inj h
    rfl
  · obtain rfl := Option.some.inj h
    rfl
  · obtain rfl := Option.some.inj h
    rfl
  · obtain rfl := Option.some.inj h
    rfl
  · have hne : ∀ c : UInt8,c.toNat/16 ≠ 1 → tag ≠ c := by
      rintro c hc rfl
      exact hc hint
    rw [decodeValue,decodeNested,if_neg (hne _ (by decide)),if_neg (hne _ (by decide)),if_neg (hne _ (by decide)),
      if_neg (hne _ (by decide)),if_pos hint] at h
    rw [hother (hne _ (by decide)),compareRawBytes,if_neg (hne _ (by decide)),if_neg (hne _ (by decide)),
      if_neg (hne _ (by decide)),if_pos hint,← Option.some.inj h]
    rfl
  · have hne : ∀ c : UInt8,c.toNat/8 ≠ 8 → tag ≠ c := by
      rintro c hc rfl
      exact hc htext
    have hint : ¬tag.toNat/16 = 1 := by omega
    rw [decodeValue,decodeNested,if_neg (hne _ (by decide)),if_neg (hne _ (by decide)),if_neg (hne _ (by decide)),
      if_neg (hne _ (by decide)),if_neg hint,if_pos htext] at h
    obtain ⟨⟨s,more⟩,hs,h⟩ := Option.bind_eq_some_iff.1 h
    obtain ⟨t,ht,h⟩ := Option.bind_eq_some_iff.1 h
    have hfront : data.take (tag.toNat % 8) = s := by
      obtain ⟨rfl,hlen⟩ := take?_eq_some hs
      rw [← hlen,List.take_left]
    rw [hother (hne _ (by decide)),compareRawBytes,if_neg (hne _ (by decide)),if_neg (hne _ (by decide)),
      if_neg (hne _ (by decide)),if_neg hint,if_pos htext,hfront,ht,← Option.some.inj h]
    rfl
  · have hne : ∀ c : UInt8,11 < c.toNat → tag ≠ c := by
      rintro c hc rfl
      omega
    rw [hother (hne _ (by decide)),compareRawBytes,if_neg (hne _ (by decide)),if_neg (hne _ (by decide)),
      if_neg (hne _ (by decide)),if_neg (by omega),if_neg (by omega),if_neg (by omega),physicalValue_eq hlow hhigh hlen,h]
    rfl

/-- Some field of the body meets the filter, where the placeholder of a server time meets none. -/
def storedMatch (fields : List (String × Value)) (f : Filter) : Bool :=
  fields.any fun kv => kv.1 = f.field && (!(kv.2 = .serverTimestamp : Bool) && compareValues text kv.2 f.op f.value)

theorem any_rawMatch {fields : List (String × Value)}
    (hskips : ∀ e ∈ entries,∃ front rest,skipValue e.2.1 front = some (e.2.2,rest))
    (hfields : entries.mapM decodeEntry = some fields) (f : Filter) :
    (entries.any fun e => rawMatch text e f) = storedMatch text fields f := by
  induction entries generalizing fields with
  | nil =>
    cases hfields
    rfl
  | cons e entries ih =>
    obtain ⟨kv,kvs,hkv,hkvs,rfl⟩ := mapM_cons_eq_some hfields
    obtain ⟨v,hv,rfl⟩ := Option.map_eq_some_iff.1 hkv
    obtain ⟨front,rest,hskip⟩ := hskips e List.mem_cons_self
    rw [List.any_cons,ih (fun x hx => hskips x (List.mem_cons_of_mem e hx)) hkvs,rawMatch,
      compareRawBytes_eq text hskip hv]
    rfl

theorem foldl_rawMatch {plan : QueryPlan} (entries : List (String × UInt8 × Bytes)) (met : Filter → Bool) :
    entries.foldl (fun bufs e => raise plan (rawMatch text e) bufs) (flags plan met) =
      flags plan fun f => met f || entries.any fun e => rawMatch text e f := by
  induction entries generalizing met with
  | nil => simp
  | cons e entries ih =>
    rw [List.foldl_cons,raise_flags,ih]
    simp only [List.any_cons,Bool.or_assoc]

theorem time_of_view {bytes : Bytes} {view : HakoDocView} (h : HakoDocView.new bytes = some view) :
    bytesI64 ((bytes.drop 2).take 8) = view.time := by
  obtain ⟨⟨m,bs1⟩,hm,h⟩ := Option.bind_eq_some_iff.mp h
  obtain ⟨⟨v,bs2⟩,hv,h⟩ := Option.bind_eq_some_iff.mp h
  obtain ⟨⟨t,bs3⟩,ht,h⟩ := Option.bind_eq_some_iff.mp h
  obtain ⟨⟨n,body⟩,hn,h⟩ := Option.bind_eq_some_iff.mp h
  dsimp only at h
  split_ifs at h
  obtain rfl := Option.some.inj h
  obtain rfl := readByte_eq_some hm
  obtain rfl := readByte_eq_some hv
  obtain ⟨rfl,hlen⟩ := take?_eq_some ht
  rw [List.drop_succ_cons,List.drop_succ_cons,List.drop_zero,← hlen,List.take_left]

end raw

section lanes
variable (text : TextOps) (docId : String)

/-- What the lane over the stored bytes takes for met. -/
def viewHit (view : HakoDocView) (fields : List (String × Value)) (f : Filter) : Bool :=
  metadataMatch text docId view.time f || storedMatch text fields f || dottedMatch text view f

theorem matchesFiltersView_passes {bytes : Bytes} {plan : QueryPlan} {view : HakoDocView}
    {entries : List (String × UInt8 × Bytes)} {fields : List (String × Value)} (hview : HakoDocView.new bytes = some view)
    (hwalk : walkEntries view.fieldsCount view.body = some entries) (hfields : entries.mapM decodeEntry = some fields) :
    matchesFiltersView text docId bytes plan =
      (passes plan (behindMetadata text docId view.time (viewHit text docId view fields)) (viewHit text docId view fields) &&
        elemMatchPass text view plan) := by
  have hiter : view.iter = entries := iterFields_of_walk hwalk
  have hraw := any_rawMatch text (skipped_of_walk hwalk) hfields
  rw [← metadata_validate_eq,matchesFiltersView,time_of_view hview,hview,checkMetadataFilters_eq]
  cases metadataPass text docId view.time plan with
  | false => rfl
  | true =>
    simp only [if_true,Bool.true_and,hiter,foldl_rawMatch,applyDottedFilters_flags,hraw]
    rfl

/-- A number that the id is compared with. -/
def numericId (f : Filter) : Bool :=
  f.field = "id" && match f.value with
    | .int _ | .float _ => true
    | _ => false

/-- A field of the filter's name holds the placeholder of a server time. -/
def awaitsTime (fields : List (String × Value)) (f : Filter) : Prop :=
  ∃ kv ∈ fields,kv.1 = f.field ∧ kv.2 = .serverTimestamp

variable (formatFloat : F64 → String)

/-- What the ordinary lane takes for met, of the filters as the query has them. -/
def preparedHit (view : HakoDocView) (fields : List (String × Value)) (plan : QueryPlan) (f : Filter) : Bool :=
  decodedHit text docId view fields (plan.prepareOptimized formatFloat) (QueryPlan.stringifyId formatFloat f)

def preparedAnd (view : HakoDocView) (fields : List (String × Value)) (plan : QueryPlan) (f : Filter) : Bool :=
  behindMetadata text docId view.time (decodedHit text docId view fields (plan.prepareOptimized formatFloat))
    (QueryPlan.stringifyId formatFloat f)

/-- The row passes in one lane, and what keeps it from passing in the other is a number that the id is compared
with, the placeholder of a server time, or a reference with a part of more than 255 bytes. -/
def LanesPart (view : HakoDocView) (doc : HakoDoc) (plan : QueryPlan) : Prop :=
  let odd : Filter → Prop := fun f => numericId f = true ∨ awaitsTime doc.fields f ∨ longReference f.value = true
  let oddOr : Filter → Prop := fun f => numericId f = true ∨ awaitsTime doc.fields f
  plan.elemMatch.all (clauseHolds text doc) = true ∧
    (PassesOddly plan odd oddOr (behindMetadata text docId view.time (viewHit text docId view doc.fields))
        (viewHit text docId view doc.fields) (preparedAnd text docId formatFloat view doc.fields plan)
        (preparedHit text docId formatFloat view doc.fields plan) ∨
      PassesOddly plan odd oddOr (preparedAnd text docId formatFloat view doc.fields plan)
        (preparedHit text docId formatFloat view doc.fields plan)
        (behindMetadata text docId view.time (viewHit text docId view doc.fields)) (viewHit text docId view doc.fields))

end lanes

section agreement
variable {text : TextOps} {docId : String} {formatFloat : F64 → String} {view : HakoDocView} {fields : List (String × Value)}
  {entries : List (String × UInt8 × Bytes)} {plan : QueryPlan}
variable {f : Filter}

theorem stringifyId_of_not_numericId (h : numericId f = false) : QueryPlan.stringifyId formatFloat f = f := by
  obtain ⟨field,op,value⟩ := f
  unfold numericId at h
  unfold QueryPlan.stringifyId
  split_ifs with hid
  · cases value <;> simp_all
  · rfl

theorem storedMatch_eq (h : ¬awaitsTime fields f) : storedMatch text fields f = bodyMatch text fields f := by
  refine any_congr_of_mem fun kv hkv => ?_
  unfold fieldMatch
  by_cases hkey : kv.1 = f.field
  · have hvalue : kv.2 ≠ .serverTimestamp := fun hv => h ⟨kv,hkv,hkey,hv⟩
    simp [hvalue]
  · simp [hkey]

theorem viewHit_eq_met (h : ¬awaitsTime fields f) :
    viewHit text docId view fields f = met text docId view fields f := by
  rw [viewHit,met,storedMatch_eq h]

theorem preparedHit_eq_viewHit {group : List Filter} (hgroup : group ∈ plan.orGroups)
    (h : ¬(numericId f = true ∨ awaitsTime fields f)) :
    preparedHit text docId formatFloat view fields plan f = viewHit text docId view fields f := by
  obtain ⟨hnumeric,hawaits⟩ := not_or.mp h
  have hslow : fastPlan (plan.prepareOptimized formatFloat) = false := by
    cases hgroups : plan.orGroups with
    | nil =>
      rw [hgroups] at hgroup
      cases hgroup
    | cons g gs => simp [fastPlan,QueryPlan.prepareOptimized,hgroups]
  rw [preparedHit,stringifyId_of_not_numericId (by simpa using hnumeric),decodedHit,hslow,viewHit_eq_met hawaits]
  simp

theorem preparedAnd_eq_viewAnd (hwalk : walkEntries view.fieldsCount view.body = some entries)
    (hfields : entries.mapM decodeEntry = some fields) (hf : f ∈ plan.filters)
    (h : ¬(numericId f = true ∨ awaitsTime fields f ∨ longReference f.value = true)) :
    preparedAnd text docId formatFloat view fields plan f =
      behindMetadata text docId view.time (viewHit text docId view fields) f := by
  obtain ⟨hnumeric,hawaits,hshort⟩ : numericId f = false ∧ ¬awaitsTime fields f ∧ longReference f.value = false := by
    simpa [not_or] using h
  have hsame : QueryPlan.stringifyId formatFloat f = f := stringifyId_of_not_numericId hnumeric
  have hmem : f ∈ (plan.prepareOptimized formatFloat).filters := List.mem_map.mpr ⟨f,hf,hsame⟩
  rw [preparedAnd,hsame,behindMetadata,behindMetadata,decodedHit,viewHit_eq_met hawaits]
  cases hpass : (!onMetadata f || metadataMatch text docId view.time f) with
  | false => rfl
  | true =>
    cases hmet : met text docId view fields f with
    | true => rfl
    | false =>
      rw [Bool.true_and,Bool.true_and,Bool.false_or]
      by_contra hhit
      obtain ⟨hfast,hbytes⟩ : fastPlan (plan.prepareOptimized formatFloat) = true ∧ byBytes view f = true := by
        simpa using hhit
      have hlong := (longReference_of_byBytes hwalk hfields hfast hmem hpass hbytes hmet).1
      rw [hshort] at hlong
      cases hlong

theorem passes_prepareOptimized (a o : Filter → Bool) : passes (plan.prepareOptimized formatFloat) a o =
    passes plan (fun f => a (QueryPlan.stringifyId formatFloat f)) fun f => o (QueryPlan.stringifyId formatFloat f) := by
  simp [passes,QueryPlan.prepareOptimized,Function.comp_def]

theorem passes_prepared (view : HakoDocView) (fields : List (String × Value)) :
    passes (plan.prepareOptimized formatFloat) (behindMetadata text docId view.time
        (decodedHit text docId view fields (plan.prepareOptimized formatFloat)))
      (decodedHit text docId view fields (plan.prepareOptimized formatFloat)) =
      passes plan (preparedAnd text docId formatFloat view fields plan) (preparedHit text docId formatFloat view fields plan) := by
  rw [passes_prepareOptimized]
  rfl

end agreement

/-- The two lanes select the same rows, but for those where they part over one of three kinds of filters. -/
theorem matchesFiltersView_eq_iff (text : TextOps) (formatFloat : F64 → String) (docId : String) {bytes : Bytes}
    {doc : HakoDoc} (hdecode : HakoDoc.decode bytes = some doc) (plan : QueryPlan) :
    matchesFiltersView text docId bytes plan =
      (unifiedMatchDecode text docId bytes (plan.prepareOptimized formatFloat)).isSome ↔
      ∀ view,HakoDocView.new bytes = some view → ¬LanesPart text docId formatFloat view doc plan := by
  obtain ⟨view,hview,htime,hentries⟩ := HakoDoc.view_of_decode hdecode
  have hpath := getPath_eq_pathValue hentries
  obtain ⟨entries,hwalk,hfields⟩ := walk_of_decodeEntries hentries
  have hand : ∀ f ∈ plan.filters,¬(numericId f = true ∨ awaitsTime doc.fields f ∨ longReference f.value = true) →
      preparedAnd text docId formatFloat view doc.fields plan f =
        behindMetadata text docId view.time (viewHit text docId view doc.fields) f :=
    fun f hf h => preparedAnd_eq_viewAnd hwalk hfields hf h
  have hor : ∀ group ∈ plan.orGroups,∀ f ∈ group,¬(numericId f = true ∨ awaitsTime doc.fields f) →
      preparedHit text docId formatFloat view doc.fields plan f = viewHit text docId view doc.fields f :=
    fun group hgroup f _ h => preparedHit_eq_viewHit hgroup h
  simp only [hview,Option.some.injEq,forall_eq',LanesPart]
  rw [matchesFiltersView_passes text docId hview hwalk hfields,unifiedMatchDecode_passes text docId hview hwalk hfields,
    passes_prepared,passesOddly_iff (fun f hf h => (hand f hf h).symm) fun g hg f hf h => (hor g hg f hf h).symm,
    passesOddly_iff hand hor]
  have helem : elemMatchPass text view (plan.prepareOptimized formatFloat) = elemMatchPass text view plan := rfl
  rw [helem,elemMatchPass_eq_clauseHolds hpath]
  generalize passes plan _ (viewHit text docId view doc.fields) = v
  generalize passes plan _ (preparedHit text docId formatFloat view doc.fields plan) = d
  generalize plan.elemMatch.all (clauseHolds text doc) = e
  cases v <;> cases d <;> cases e <;> simp

theorem matchesFiltersView_plainRow :
    HakoDoc.decode (HakoDoc.encode ⟨[("r",.int 300)],7⟩) = some ⟨[("r",.int 300)],7⟩ ∧
    matchesFiltersView asciiText "d" (HakoDoc.encode ⟨[("r",.int 300)],7⟩) (askFor (.int 300)) =
      (unifiedMatchDecode asciiText "d" (HakoDoc.encode ⟨[("r",.int 300)],7⟩)
        ((askFor (.int 300)).prepareOptimized fun _ => "")).isSome := by
  have hdecode : HakoDoc.decode (HakoDoc.encode ⟨[("r",.int 300)],7⟩) = some ⟨[("r",.int 300)],7⟩ := by decide +kernel
  have heven : ∀ f ∈ (askFor (.int 300)).filters,
      ¬(numericId f = true ∨ awaitsTime [("r",.int 300)] f ∨ longReference f.value = true) := by
    intro f hf hodd
    obtain rfl := List.mem_singleton.1 hf
    rcases hodd with hnumeric | ⟨kv,hkv,-,hvalue⟩ | hlong
    · cases hnumeric
    · rw [List.mem_singleton.1 hkv] at hvalue
      cases hvalue
    · cases hlong
  refine ⟨hdecode,(matchesFiltersView_eq_iff asciiText (fun _ => "") "d" hdecode (askFor (.int 300))).mpr ?_⟩
  rintro view - ⟨-,⟨-,⟨f,hf,hodd,-⟩ | ⟨⟨group,hgroup,-⟩,-⟩⟩ | ⟨-,⟨f,hf,hodd,-⟩ | ⟨⟨group,hgroup,-⟩,-⟩⟩⟩
  · exact heven f hf hodd
  · cases hgroup
  · exact heven f hf hodd
  · cases hgroup

/-- A plan that asks for the rows with the id of a number. -/
def askId (n : Int64) : QueryPlan := {askFor .null with filters := [⟨"id",.eq,.int n⟩]}

/-- The text of the id spells the number, but is not the number written out. -/
theorem matchesFiltersView_leadingZeros :
    matchesFiltersView asciiText "007" (HakoDoc.encode ⟨[("r",.int 300)],7⟩) (askId 7) = true ∧
    unifiedMatchDecode asciiText "007" (HakoDoc.encode ⟨[("r",.int 300)],7⟩) ((askId 7).prepareOptimized fun _ => "") =
      none := by
  decide +kernel

end Worker

end HakoDB
