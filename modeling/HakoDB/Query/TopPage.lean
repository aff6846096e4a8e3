import HakoDB.Query.Executor
import HakoDB.Query.ValueOrder

/-! The page of an order that the scan does not have: the heap gives what a stable sort of all matching rows gives, but for
a part of the order that has the empty name. The keys of the heap take it for a field, the sort for a path to nothing. -/
namespace HakoDB
open ByteCodec TopItems ThreeWay

/-- The values of which one is before the other as their kinds and contents say. -/
def Value.plain : Value → Bool
  | .null | .bool _ | .int _ | .string _ | .timestamp _ => true
  | _ => false

theorem Value.cmp_fits_plain {a b c : Value} (ha : a.plain) (hb : b.plain) (hc : c.plain) :
    Fits (a.cmp b) (b.cmp c) (a.cmp c) := by
  have built : ∀ {v : Value},v.plain → BuiltFrom {v | v.plain} v := fun {v} hv =>
    .leaf (by cases v <;> simp_all [plain,isScalar]) (by cases v <;> simp_all [plain,Persisted.floatFree]) hv
  exact cmp_fits (fun offset len h => absurd h Bool.false_ne_true) (built ha) (built hb) (built hc)

section compare

theorem compareOptional_swap (a b : Option Value) : compareOptional b a = (compareOptional a b).swap := by
  cases a with
  | none => cases b <;> rfl
  | some v =>
    cases b with
    | none => rfl
    | some w => exact Value.cmp_swap w v

theorem compareOptional_fits {a b c : Option Value} (ha : ∀ v ∈ a,v.plain) (hb : ∀ v ∈ b,v.plain) (hc : ∀ v ∈ c,v.plain) :
    Fits (compareOptional a b) (compareOptional b c) (compareOptional a c) := by
  cases a <;> cases b <;> cases c
  case some.some.some v w x => exact Value.cmp_fits_plain (ha v rfl) (hb w rfl) (hc x rfl)
  all_goals constructor <;> simp +contextual [compareOptional,eq_comm]

variable (read : HakoDoc → String → Option Value)

/-- The comparison of rows by one part of an order, with the values read in a given way. -/
def comparePart (o : OrderBy) (a b : String × HakoDoc) : Ordering :=
  let ord :=
    if o.field = "id" then compare a.1 b.1
    else if o.field = "_time" then compare a.2.time.toInt b.2.time.toInt
    else compareOptional (read a.2 o.field) (read b.2 o.field)
  if o.ascending then ord else ord.swap

def compareReading (orders : List OrderBy) (a b : String × HakoDoc) : Ordering :=
  orders.foldr (fun o later => (comparePart read o a b).then later) .eq

/-- What an order reads of a document is of a plain kind. -/
def Sortable (orders : List OrderBy) (doc : HakoDoc) : Prop :=
  ∀ o ∈ orders,o.field ≠ "id" → o.field ≠ "_time" → ∀ v ∈ read doc o.field,v.plain

variable {read}

theorem comparePart_swap (o : OrderBy) (a b : String × HakoDoc) : comparePart read o b a = (comparePart read o a b).swap := by
  unfold comparePart
  dsimp only
  split_ifs <;> simp [compareOptional_swap (read a.2 o.field),Std.OrientedCmp.eq_swap (a := b.1),
    Std.OrientedCmp.eq_swap (a := b.2.time.toInt)]

theorem comparePart_fits {o : OrderBy} {a b c : String × HakoDoc} (ha : Sortable read [o] a.2) (hb : Sortable read [o] b.2)
    (hc : Sortable read [o] c.2) : Fits (comparePart read o a b) (comparePart read o b c) (comparePart read o a c) := by
  have hplain : ∀ {doc},Sortable read [o] doc → o.field ≠ "id" → o.field ≠ "_time" → ∀ v ∈ read doc o.field,v.plain :=
    fun h => h o List.mem_cons_self
  unfold comparePart
  by_cases hid : o.field = "id"
  · simp only [hid,if_true]
    split_ifs
    · exact fits_compare _ _ _
    · exact (fits_compare _ _ _).swap
  · by_cases htime : o.field = "_time"
    · simp only [htime,if_true,if_neg (by decide : ¬"_time" = "id")]
      split_ifs
      · exact fits_compare _ _ _
      · exact (fits_compare _ _ _).swap
    · have hfits := compareOptional_fits (hplain ha hid htime) (hplain hb hid htime) (hplain hc hid htime)
      simp only [if_neg hid,if_neg htime]
      split_ifs
      · exact hfits
      · exact hfits.swap

theorem ordered_compareReading {orders : List OrderBy} {rows : Docs} (h : ∀ row ∈ rows,Sortable read orders row.2) :
    Ordered (compareReading read orders) rows := by
  induction orders with
  | nil => exact ⟨fun _ _ _ _ => rfl,fun _ _ _ _ _ _ => .refl⟩
  | cons o orders ih =>
    have hlater := ih fun row hrow o' ho' => h row hrow o' (List.mem_cons_of_mem o ho')
    have hfirst : ∀ row ∈ rows,Sortable read [o] row.2 := fun row hrow o' ho' =>
      h row hrow o' (List.mem_cons.2 (.inl (List.mem_singleton.1 ho')))
    constructor
    · intro a ha b hb
      change (comparePart read o b a).then _ = ((comparePart read o a b).then _).swap
      rw [comparePart_swap,Ordering.swap_then]
      exact congrArg _ (hlater.swap a ha b hb)
    · exact fun a ha b hb c hc =>
        (comparePart_fits (hfirst a ha) (hfirst b hb) (hfirst c hc)).then fun _ _ => hlater.fits a ha b hb c hc

end compare

/-- The value that the heap reads for a part of an order: a name without a dot is that of a field, also the empty one. -/
def HakoDoc.namedValue (doc : HakoDoc) (field : String) : Option Value :=
  if '.' ∈ field.toList then doc.getPath field else doc.get field

theorem HakoDoc.getPath_of_ne {field : String} (h : field ≠ "") (doc : HakoDoc) : doc.getPath field = doc.namedValue field := by
  unfold namedValue
  split_ifs with hdot
  · rfl
  · have hsplit : ∀ cs : List Char,'.' ∉ cs → cs.splitOn '.' = [cs] := by
      intro cs hcs
      induction cs with
      | nil => rfl
      | cons c cs ih =>
        rw [List.mem_cons,not_or] at hcs
        rw [List.splitOn,List.splitOnP_cons_eq_if_modifyHead,if_neg (by simpa using Ne.symm hcs.1)]
        exact congrArg (List.modifyHead _) (ih hcs.2)
    have hsegments : pathSegments field = [field] := by
      rw [pathSegments,hsplit _ hdot]
      simp
    rw [getPath,hsegments]
    simp [h,Value.descend]

theorem sortable_getPath {orders : List OrderBy} {doc : HakoDoc} (h : Sortable HakoDoc.namedValue orders doc) :
    Sortable HakoDoc.getPath orders doc := by
  intro o ho hid htime v hv
  by_cases hempty : o.field = ""
  · rw [hempty] at hv
    cases hv
  · rw [HakoDoc.getPath_of_ne hempty] at hv
    exact h o ho hid htime v hv

/-- The key of a document. -/
def keyOf (doc : HakoDoc) (field : String) : TopKey :=
  if field = "id" then .id else if field = "_time" then .time doc.time else .field (doc.namedValue field)

theorem find?_entries {entries : List (String × UInt8 × Bytes)} {fields : List (String × Value)}
    (h : entries.mapM decodeEntry = some fields) (field : String) :
    ((entries.find? fun e => e.1 = field).bind fun e => decodeValue e.2.1 e.2.2) =
      (fields.find? fun f => f.1 = field).map Prod.snd := by
  induction entries generalizing fields with
  | nil =>
    cases h
    rfl
  | cons e entries ih =>
    rw [List.mapM_cons] at h
    obtain ⟨f,hf,h⟩ := Option.bind_eq_some_iff.1 h
    obtain ⟨more,hmore,h⟩ := Option.bind_eq_some_iff.1 h
    obtain rfl := Option.some.inj h
    obtain ⟨v,hv,rfl⟩ := Option.map_eq_some_iff.1 hf
    by_cases he : e.1 = field <;> simp [he,hv,ih hmore]

theorem topKey_eq {bytes : Bytes} {doc : HakoDoc} {view : HakoDocView} (hdecode : HakoDoc.decode bytes = some doc)
    (hasc : doc.Ascending) (hview : HakoDocView.new bytes = some view) (field : String) : topKey view field = keyOf doc field := by
  obtain ⟨view',hview',htime,hentries⟩ := HakoDoc.view_of_decode hdecode
  obtain rfl := Option.some.inj (hview.symm.trans hview')
  have hpath : view.getPath field = doc.getPath field := by
    rw [HakoDocView.getPath_eq,DocView.getPath_decoded hentries hasc]
  obtain ⟨entries,hwalk,hfields⟩ := walk_of_decodeEntries hentries
  have hget : ((view.iter.find? fun e => e.1 = field).bind fun e => decodeValue e.2.1 e.2.2) = doc.get field := by
    have hiter : view.iter = entries := iterFields_of_walk hwalk
    rw [hiter,HakoDoc.get_eq_find? hasc,find?_entries hfields]
  rw [topKey,keyOf,HakoDoc.namedValue,hpath,hget,htime]
  split_ifs <;> rfl

theorem cmpTop_eq (orders : List OrderBy) {a b : TopEntry} {x y : HakoDoc} (ha : a.keys = orders.map fun o => keyOf x o.field)
    (hb : b.keys = orders.map fun o => keyOf y o.field) :
    cmpTop orders a b = (compareReading HakoDoc.namedValue orders (a.id,x) (b.id,y)).then (compare a.seq b.seq) := by
  rw [cmpTop,ha,hb]
  clear ha hb
  generalize compare a.seq b.seq = tie
  induction orders with
  | nil => rfl
  | cons o orders ih =>
    have hkey : (if o.ascending then cmpKey o a b (keyOf x o.field) (keyOf y o.field)
        else (cmpKey o a b (keyOf x o.field) (keyOf y o.field)).swap) = comparePart HakoDoc.namedValue o (a.id,x) (b.id,y) := by
      unfold cmpKey keyOf comparePart
      split_ifs <;> simp_all
    simp only [List.map_cons,List.zip_cons_cons,List.foldr_cons]
    rw [ih,hkey]
    exact (Ordering.then_assoc ..).symm

section lane
variable (env : QueryEnv) (s : StorageEngine) (p : QueryPlan)

/-- The row has no bytes, or those of a document that the order can be told from. -/
def Orderable (row : String × Pointer) : Prop :=
  s.readPointer env.zstd row.2 = .ok none ∨
    ∃ bytes doc,s.readPointer env.zstd row.2 = .ok (some bytes) ∧ HakoDoc.decode bytes = some doc ∧ doc.Ascending ∧
      Sortable HakoDoc.namedValue p.orderBy doc

/-- The rows that the filters accept, in the order of the scan. -/
def acceptedRow (row : String × Pointer) : Option (String × HakoDoc) :=
  (rowBytes env s row).bind fun r =>
    if p.filtersSatisfiedByIndex || Worker.matchesFiltersView env.text.toTextOps r.1 r.2 p then
      (HakoDoc.decode r.2).map fun doc => (r.1,doc)
    else none

def accepted (rows : Rows) : Docs := rows.filterMap (acceptedRow env s p)

/-- The entry that a row gives. -/
def entryOf (row : (String × Pointer) × ℕ) : Option TopEntry := (rowBytes env s row.1).bind fun r => topEntry env p row r.2

/-- The row that an entry stands for. -/
def rowOf (e : TopEntry) : String × HakoDoc :=
  (e.id,((rowBytes env s (e.id,e.ptr)).bind fun r => HakoDoc.decode r.2).getD .empty)

/-- The entry has the place of its row and the keys of its document, which can be read again. -/
structure Stands (row : (String × Pointer) × ℕ) (e : TopEntry) : Prop where
  seq : e.seq = row.2
  keys : e.keys = p.orderBy.map fun o => keyOf (rowOf env s e).2 o.field
  sortable : Sortable HakoDoc.namedValue p.orderBy (rowOf env s e).2
  reads : ∃ bytes,s.readPointer env.zstd e.ptr = .ok (some bytes) ∧ HakoDoc.decode bytes = some (rowOf env s e).2

variable {env s p}

theorem matchesFiltersView_of_isEmpty (text : TextOps) (id : String) {bytes : Bytes} {doc : HakoDoc}
    (hdecode : HakoDoc.decode bytes = some doc) (hfilters : p.filters = []) (hgroups : p.orGroups = [])
    (helem : p.elemMatch = []) : Worker.matchesFiltersView text id bytes p = true := by
  obtain ⟨view,hview,-,hentries⟩ := HakoDoc.view_of_decode hdecode
  obtain ⟨entries,hwalk,hfields⟩ := walk_of_decodeEntries hentries
  rw [Worker.matchesFiltersView_passes text id hview hwalk hfields]
  simp [Worker.passes,Worker.elemMatchPass,hfilters,hgroups,helem]

theorem entryOf_spec (helem : p.elemMatch = []) {row : (String × Pointer) × ℕ} (h : Orderable env s p row.1) :
    acceptedRow env s p row.1 = (entryOf env s p row).map (rowOf env s) ∧ ∀ e ∈ entryOf env s p row,Stands env s p row e := by
  rcases h with hnone | ⟨bytes,doc,hread,hdecode,hasc,hsortable⟩
  · simp [acceptedRow,entryOf,rowBytes,hnone]
  · obtain ⟨view,hview,-,-⟩ := HakoDoc.view_of_decode hdecode
    have hbytes : ∀ id,rowBytes env s (id,row.1.2) = some (id,bytes) := fun id => by simp [rowBytes,hread]
    have hrow : ∀ keys,rowOf env s ⟨keys,row.2,row.1.1,row.1.2⟩ = (row.1.1,doc) := fun keys => by
      simp [rowOf,hbytes,hdecode]
    have hkeys : topKeys view p.orderBy = p.orderBy.map fun o => keyOf doc o.field :=
      List.map_congr_left fun o _ => topKey_eq hdecode hasc hview o.field
    have hcheck : (p.filtersSatisfiedByIndex || Worker.matchesFiltersView env.text.toTextOps row.1.1 bytes p) =
        !((!p.filters.isEmpty || !p.orGroups.isEmpty) && !p.filtersSatisfiedByIndex &&
          !Worker.matchesFiltersView env.text.toTextOps row.1.1 bytes p) := by
      cases hneed : (!p.filters.isEmpty || !p.orGroups.isEmpty) with
      | true => simp
      | false =>
        simp only [Bool.or_eq_false_iff,Bool.not_eq_false',List.isEmpty_iff] at hneed
        simp [matchesFiltersView_of_isEmpty env.text.toTextOps row.1.1 hdecode hneed.1 hneed.2 helem]
    have hentry : entryOf env s p row = if (p.filtersSatisfiedByIndex ||
        Worker.matchesFiltersView env.text.toTextOps row.1.1 bytes p) then
          some ⟨topKeys view p.orderBy,row.2,row.1.1,row.1.2⟩ else none := by
      have hhere := hbytes row.1.1
      rw [Prod.mk.eta] at hhere
      rw [entryOf,hhere,Option.bind_some,topEntry,hview,Option.bind_some,hcheck]
      generalize ((!p.filters.isEmpty || !p.orGroups.isEmpty) && _ && _) = c
      cases c <;> rfl
    have haccepted : acceptedRow env s p row.1 = if (p.filtersSatisfiedByIndex ||
        Worker.matchesFiltersView env.text.toTextOps row.1.1 bytes p) then some (row.1.1,doc) else none := by
      simp [acceptedRow,rowBytes,hread,hdecode]
    rw [hentry,haccepted]
    split_ifs
    · refine ⟨by rw [Option.map_some,hrow],fun e he => ?_⟩
      obtain rfl := Option.some.inj he
      constructor
      · rfl
      · rw [hrow]
        exact hkeys
      · rw [hrow]
        exact hsortable
      · rw [hrow]
        exact ⟨bytes,hread,hdecode⟩
    · simp

/-- The heap meets the entries of the rows. -/
theorem foldlM_topStep (k : ℕ) {rows : List ((String × Pointer) × ℕ)} (h : ∀ row ∈ rows,Orderable env s p row.1)
    (heap : List TopEntry) : rows.foldlM (topStep env s p k) heap =
      .ok ((rows.filterMap (entryOf env s p)).foldl ((env.heap p.orderBy).offer k) heap) := by
  induction rows generalizing heap with
  | nil => rfl
  | cons row rows ih =>
    have hstep : topStep env s p k heap row =
        .ok (((entryOf env s p row).map ((env.heap p.orderBy).offer k heap)).getD heap) := by
      rcases h row List.mem_cons_self with hnone | ⟨bytes,-,hread,-⟩
      · simp [topStep,entryOf,rowBytes,hnone,Bind.bind,Except.bind,Pure.pure,Except.pure]
      · simp [topStep,entryOf,rowBytes,hread,Bind.bind,Except.bind,Pure.pure,Except.pure]
    have hrest := ih fun r hr => h r (List.mem_cons_of_mem row hr)
    rw [List.foldlM_cons,hstep]
    refine (hrest _).trans ?_
    cases hentry : entryOf env s p row <;> simp [hentry]

theorem fillPage_eq {offset limit : ℕ} {entries : List TopEntry}
    (h : ∀ e ∈ entries,∃ bytes,s.readPointer env.zstd e.ptr = .ok (some bytes) ∧ HakoDoc.decode bytes = some (rowOf env s e).2)
    (skipped : ℕ) (out : Docs) : fillPage env s offset limit entries skipped out =
      .ok (out++(((entries.map (rowOf env s)).drop (offset-skipped)).take (limit-out.length))) := by
  induction entries generalizing skipped out with
  | nil => simp [fillPage]
  | cons e entries ih =>
    obtain ⟨bytes,hread,hdecode⟩ := h e List.mem_cons_self
    have hrest := ih fun e' he' => h e' (List.mem_cons_of_mem e he')
    have hstep : fillPage env s offset limit (e::entries) skipped out =
        if skipped < offset then fillPage env s offset limit entries (skipped+1) out
        else if limit ≤ out.length then .ok out
        else fillPage env s offset limit entries skipped (out++[rowOf env s e]) := by
      rw [fillPage,hread]
      simp only [Bind.bind,Except.bind,Option.bind_some,hdecode]
      rfl
    rw [hstep]
    split_ifs with hskip hfull
    · rw [hrest,List.map_cons]
      obtain ⟨n,hn⟩ : ∃ n,offset-skipped = n+1 := ⟨offset-skipped-1,by omega⟩
      rw [hn,List.drop_succ_cons,show offset-(skipped+1) = n by omega]
    · rw [Nat.sub_eq_zero_of_le hfull]
      simp
    · rw [hrest,List.map_cons,Nat.sub_eq_zero_of_le (not_lt.1 hskip),List.drop_zero,List.drop_zero]
      obtain ⟨n,hn⟩ : ∃ n,limit-out.length = n+1 := ⟨limit-out.length-1,by omega⟩
      rw [hn,List.take_succ_cons,List.length_append,List.length_singleton,show limit-(out.length+1) = n by omega]
      simp

variable {rows : Rows}

theorem map_entries (helem : p.elemMatch = []) (h : ∀ row ∈ rows,Orderable env s p row) :
    (rows.zipIdx.filterMap (entryOf env s p)).map (rowOf env s) = accepted env s p rows := by
  have hrow : ∀ row ∈ rows.zipIdx,(entryOf env s p row).map (rowOf env s) = acceptedRow env s p row.1 := fun row hrow =>
    (entryOf_spec helem (h row.1 (List.fst_mem_of_mem_zipIdx hrow))).1.symm
  have hrows : accepted env s p rows = rows.zipIdx.filterMap (acceptedRow env s p ∘ Prod.fst) := by
    rw [← List.filterMap_map,List.zipIdx_map_fst]
    rfl
  rw [List.map_filterMap,List.filterMap_congr hrow,hrows]
  rfl

theorem stands_of_mem (helem : p.elemMatch = []) (h : ∀ row ∈ rows,Orderable env s p row) {e : TopEntry}
    (he : e ∈ rows.zipIdx.filterMap (entryOf env s p)) : ∃ row,Stands env s p row e := by
  obtain ⟨row,hrow,hentry⟩ := List.mem_filterMap.1 he
  exact ⟨row,(entryOf_spec helem (h row.1 (List.fst_mem_of_mem_zipIdx hrow))).2 e hentry⟩

theorem pairwise_entries (helem : p.elemMatch = []) (h : ∀ row ∈ rows,Orderable env s p row) :
    (rows.zipIdx.filterMap (entryOf env s p)).Pairwise fun a b => a.seq < b.seq := by
  have hidx : rows.zipIdx.Pairwise fun a b => (a ∈ rows.zipIdx ∧ b ∈ rows.zipIdx) ∧ a.2 < b.2 := by
    have hmap : (rows.zipIdx.map Prod.snd).Pairwise (· < ·) := by
      rw [List.zipIdx_map_snd]
      exact List.pairwise_lt_range'
    exact (List.pairwise_map.1 hmap).imp_of_mem fun ha hb hlt => ⟨⟨ha,hb⟩,hlt⟩
  refine hidx.filterMap _ fun a b hab e he e' he' => ?_
  have hspec : ∀ row ∈ rows.zipIdx,∀ e ∈ entryOf env s p row,e.seq = row.2 := fun row hrow e he =>
    ((entryOf_spec helem (h row.1 (List.fst_mem_of_mem_zipIdx hrow))).2 e he).seq
  rw [hspec a hab.1.1 e he,hspec b hab.1.2 e' he']
  exact hab.2

theorem cmpTop_of_stands {row row' : (String × Pointer) × ℕ} {a b : TopEntry} (ha : Stands env s p row a)
    (hb : Stands env s p row' b) : cmpTop p.orderBy a b =
      (compareReading HakoDoc.namedValue p.orderBy (rowOf env s a) (rowOf env s b)).then (compare a.seq b.seq) :=
  cmpTop_eq p.orderBy ha.keys hb.keys

/-- The places in the scan make an order of the entries out of the one of their rows. -/
theorem ordered_cmpTop {entries : List TopEntry} (h : ∀ e ∈ entries,∃ row,Stands env s p row e) :
    Ordered (cmpTop p.orderBy) entries := by
  have hrows : Ordered (compareReading HakoDoc.namedValue p.orderBy) (entries.map (rowOf env s)) := by
    refine ordered_compareReading fun row hrow => ?_
    obtain ⟨e,he,rfl⟩ := List.mem_map.1 hrow
    obtain ⟨_,hstands⟩ := h e he
    exact hstands.sortable
  constructor
  · intro a ha b hb
    obtain ⟨_,ha'⟩ := h a ha
    obtain ⟨_,hb'⟩ := h b hb
    have hseq : compare b.seq a.seq = (compare a.seq b.seq).swap := Std.OrientedCmp.eq_swap
    rw [cmpTop_of_stands ha' hb',cmpTop_of_stands hb' ha',Ordering.swap_then,
      hrows.swap _ (List.mem_map_of_mem ha) _ (List.mem_map_of_mem hb),hseq]
  · intro a ha b hb c hc
    obtain ⟨_,ha'⟩ := h a ha
    obtain ⟨_,hb'⟩ := h b hb
    obtain ⟨_,hc'⟩ := h c hc
    rw [cmpTop_of_stands ha' hb',cmpTop_of_stands hb' hc',cmpTop_of_stands ha' hc']
    exact (hrows.fits _ (List.mem_map_of_mem ha) _ (List.mem_map_of_mem hb) _ (List.mem_map_of_mem hc)).then
      fun _ _ => fits_compare _ _ _

theorem map_sortBy_cmpTop {entries : List TopEntry} (h : ∀ e ∈ entries,∃ row,Stands env s p row e)
    (hseq : entries.Pairwise fun a b => a.seq < b.seq) : (sortBy (cmpTop p.orderBy) entries).map (rowOf env s) =
      sortBy (compareReading HakoDoc.namedValue p.orderBy) (entries.map (rowOf env s)) := by
  have hties : sortBy (cmpTop p.orderBy) entries =
      sortBy (fun a b => compareReading HakoDoc.namedValue p.orderBy (rowOf env s a) (rowOf env s b)) entries := by
    refine sortBy_congr (hseq.imp_of_mem fun {a b} ha hb hlt => ?_)
    obtain ⟨_,ha'⟩ := h a ha
    obtain ⟨_,hb'⟩ := h b hb
    rw [cmpTop_of_stands ha' hb',compare_lt_iff_lt.2 hlt]
    cases compareReading HakoDoc.namedValue p.orderBy (rowOf env s a) (rowOf env s b) <;> simp
  rw [hties]
  exact List.map_insertionSort _ _ _ _ fun a _ b _ => Iff.rfl

theorem cut_topn {α : Type} {xs : List α} (h : xs.length < 2^64) (limit : Option UInt64) (offset : ℕ) :
    ((xs.take (min ((limit.map UInt64.toNat).getD (2^64-1)+offset) (2^64-1))).drop offset).take
      ((limit.map UInt64.toNat).getD (2^64-1)) = takeUpTo limit (xs.drop offset) := by
  have hdrop : (xs.drop offset).length = xs.length-offset := List.length_drop
  rw [List.drop_take,List.take_take]
  cases limit with
  | none => exact List.take_of_length_le (by rw [hdrop,Option.map_none,Option.getD_none]; omega)
  | some l =>
    simp only [Option.map_some,Option.getD_some,takeUpTo]
    by_cases hsum : l.toNat+offset ≤ 2^64-1
    · rw [min_eq_left hsum,Nat.add_sub_cancel,min_self]
    · rw [List.take_of_length_le (by rw [hdrop]; omega),List.take_of_length_le (by rw [hdrop]; omega)]

theorem executeTopn_eq (helem : p.elemMatch = []) (hlen : rows.length < 2^64) (h : ∀ row ∈ rows,Orderable env s p row) :
    executeTopn env s p rows = .ok (showRows s p (takeUpTo p.limit
      ((sortBy (compareReading HakoDoc.namedValue p.orderBy) (accepted env s p rows)).drop (p.offset.getD 0).toNat))) := by
  have hseq := pairwise_entries helem h
  have hmap := map_entries helem h
  have hstands : ∀ e ∈ rows.zipIdx.filterMap (entryOf env s p),∃ row,Stands env s p row e := fun e he =>
    stands_of_mem helem h he
  generalize hentries : rows.zipIdx.filterMap (entryOf env s p) = entries at hseq hmap hstands
  have hsorted := map_sortBy_cmpTop hstands hseq
  rw [hmap] at hsorted
  have hdistinct : ∀ a ∈ entries,∀ b ∈ entries,cmpTop p.orderBy a b = .eq → a = b := by
    intro a ha b hb heq
    obtain ⟨_,ha'⟩ := hstands a ha
    obtain ⟨_,hb'⟩ := hstands b hb
    rw [cmpTop_of_stands ha' hb',Ordering.then_eq_eq,compare_eq_iff_eq] at heq
    have hnodup : (entries.map TopEntry.seq).Nodup := List.pairwise_map.2 (hseq.imp ne_of_lt)
    exact List.inj_on_of_nodup_map hnodup ha hb heq.2
  have hshort : (sortBy (compareReading HakoDoc.namedValue p.orderBy) (accepted env s p rows)).length < 2^64 := by
    rw [(perm_sortBy _ _).length_eq]
    exact (List.length_filterMap_le ..).trans_lt hlen
  rw [← cut_topn hshort,← hsorted]
  unfold executeTopn
  dsimp only
  generalize (p.limit.map UInt64.toNat).getD (2^64-1) = limit
  generalize (p.offset.getD 0).toNat = offset
  split_ifs with hk
  · rw [hk]
    simp [showRows]
    rfl
  · generalize min (limit+offset) (2^64-1) = k
    have hbest := (env.heap p.orderBy).sortBy_offerAll k (ordered_cmpTop hstands) hdistinct
    have hrows : ∀ row ∈ rows.zipIdx,Orderable env s p row.1 := fun row hrow => h row.1 (List.fst_mem_of_mem_zipIdx hrow)
    have hheap := foldlM_topStep k hrows []
    rw [hentries] at hheap
    rw [hheap]
    change (fillPage env s offset limit (sortBy (cmpTop p.orderBy) _) 0 []).bind _ = _
    rw [hbest,fillPage_eq fun e he => ?_]
    · rw [List.map_take]
      rfl
    · obtain ⟨_,he'⟩ := hstands e ((perm_sortBy _ _).mem_iff.1 (List.mem_of_mem_take he))
      exact he'.reads

end lane

/-- For every limit and offset the heap gives the page of the stable sort, exactly if no two accepted rows stand the other
way round where the empty name is that of a field. -/
theorem executeTopn_iff (env : QueryEnv) (s : StorageEngine) (p : QueryPlan) (helem : p.elemMatch = []) {rows : Rows}
    (hlen : rows.length < 2^64) (h : ∀ row ∈ rows,Orderable env s p row) :
    (∀ (limit offset : Option UInt64) (defer : Bool),
      executeTopn env s {p with limit := limit,offset := offset,deferBlobs := defer} rows =
        .ok (showRows s {p with deferBlobs := defer}
          (takeUpTo limit ((sortRows p.orderBy (accepted env s p rows)).drop (offset.getD 0).toNat)))) ↔
      (accepted env s p rows).Pairwise fun a b =>
        compareRows p.orderBy a b = .gt ↔ compareReading HakoDoc.namedValue p.orderBy a b = .gt := by
  have htop : ∀ (limit offset : Option UInt64) (defer : Bool),
      executeTopn env s {p with limit := limit,offset := offset,deferBlobs := defer} rows =
        .ok (showRows s {p with deferBlobs := defer} (takeUpTo limit
          ((sortBy (compareReading HakoDoc.namedValue p.orderBy) (accepted env s p rows)).drop (offset.getD 0).toNat))) :=
    fun limit offset defer => executeTopn_eq (p := {p with limit := limit,offset := offset,deferBlobs := defer}) helem hlen h
  have hsortable : ∀ row ∈ accepted env s p rows,Sortable HakoDoc.namedValue p.orderBy row.2 := by
    intro row hrow
    rw [← map_entries helem h] at hrow
    obtain ⟨e,he,rfl⟩ := List.mem_map.1 hrow
    obtain ⟨_,hstands⟩ := stands_of_mem helem h he
    exact hstands.sortable
  have hiff := sortBy_eq_iff (ordered_compareReading fun row hrow => sortable_getPath (hsortable row hrow))
    (ordered_compareReading hsortable)
  have hpairs : ((accepted env s p rows).Pairwise fun a b =>
      compareRows p.orderBy a b = .gt ↔ compareReading HakoDoc.namedValue p.orderBy a b = .gt) ↔
      sortRows p.orderBy (accepted env s p rows) =
        sortBy (compareReading HakoDoc.namedValue p.orderBy) (accepted env s p rows) := by
    refine Iff.trans ?_ hiff.symm
    simp only [ne_eq,not_iff_not]
    rfl
  rw [hpairs]
  constructor
  · intro hall
    have hwhole := (hall none none true).symm.trans (htop none none true)
    simpa [showRows,showRow,takeUpTo] using hwhole
  · intro hsame limit offset defer
    rw [htop,hsame]

def oneField (field : String) (n : Int64) : HakoDoc := ⟨[(field,.int n)],1⟩

def twoRows (field : String) : Rows := [("a",.inlined (oneField field 2).encode),("b",.inlined (oneField field 1).encode)]

def smallestFirst (field : String) : QueryPlan :=
  QueryPlanner.plan QueryEnv.ascii.text {collection := "c",orderBy := [⟨field,true⟩],limit := some 1} .bare 2 2 true true

theorem orderable_twoRows (s : StorageEngine) :
    ∀ row ∈ twoRows "n",Orderable .ascii s (smallestFirst "n") row := by
  have hplain : ∀ n,(oneField "n" n).namedValue "n" = some (.int n) →
      Sortable HakoDoc.namedValue (smallestFirst "n").orderBy (oneField "n" n) := by
    intro n hget o ho _ _ v hv
    obtain rfl := List.mem_singleton.1 ho
    obtain rfl := Option.some.inj (hget.symm.trans hv)
    rfl
  intro row hrow
  simp only [twoRows,List.mem_cons,List.not_mem_nil,or_false] at hrow
  rcases hrow with rfl | rfl
  · exact .inr ⟨_,oneField "n" 2,rfl,by decide +kernel,by decide,hplain 2 (by decide +kernel)⟩
  · exact .inr ⟨_,oneField "n" 1,rfl,by decide +kernel,by decide,hplain 1 (by decide +kernel)⟩

theorem executeTopn_twoRows :
    (accepted .ascii (.holding []) (smallestFirst "n") (twoRows "n")).length = 2 ∧
      executeTopn .ascii (.holding []) {smallestFirst "n" with limit := some 1,offset := none,deferBlobs := false} (twoRows "n") =
        .ok (showRows (.holding []) {smallestFirst "n" with deferBlobs := false} (takeUpTo (some 1)
          ((sortRows (smallestFirst "n").orderBy (accepted .ascii (.holding []) (smallestFirst "n") (twoRows "n"))).drop 0))) :=
  ⟨by decide +kernel,(executeTopn_iff .ascii (.holding []) (smallestFirst "n") rfl (by decide)
    (orderable_twoRows _)).2 (by decide +kernel) (some 1) none false⟩

/-- Both documents have a field of the empty name. The heap orders them by it, the sort does not. -/
theorem executeTopn_emptyName :
    ((executeTopn .ascii (.holding []) (smallestFirst "") (twoRows "")).toOption.map fun out => out.map Prod.fst) = some ["b"] ∧
      (takeUpTo (some 1) (sortRows (smallestFirst "").orderBy
        (accepted .ascii (.holding []) (smallestFirst "") (twoRows "")))).map Prod.fst = ["a"] := by
  decide +kernel

end HakoDB
