import HakoDB.Query.Lanes

/-! Walking through a collection page by page. Every page asks for the ids after the last one of the page
before; without writes in between the pages together are the collection. -/
namespace HakoDB
open ByteCodec HashMap

/-- What the planner knows besides the query. -/
structure PlanContext where
  indexes : IndexManager
  collectionRows : ℕ
  workerCount : ℕ
  indexReady : Bool
  vectorReady : Bool

def PlanContext.plan (ctx : PlanContext) (text : QueryText) (q : Query) : QueryPlan :=
  QueryPlanner.plan text q ctx.indexes ctx.collectionRows ctx.workerCount ctx.indexReady ctx.vectorReady

/-- The query for one page of ids. -/
def pageQuery (collection : String) (ascending : Bool) (k : UInt64) (after : Option String) : Query where
  collection := collection
  orderBy := [⟨"id",ascending⟩]
  limit := some k
  startAfter := after.map fun id => [.string id]

/-- The pages up to the first empty one; the planner may meet each of them with other indexes. -/
def pageWalk (env : QueryEnv) (s : StorageEngine) (ctx : ℕ → PlanContext) (collection : String) (ascending : Bool)
    (k : UInt64) : ℕ → ℕ → Option String → Res (List Docs)
  | 0,_,_ => .ok []
  | fuel+1,n,after => do
    let page ← execute env s (ctx n).indexes ((ctx n).plan env.text (pageQuery collection ascending k after))
    match page.getLast? with
    | none => return [page]
    | some last => return page::(← pageWalk env s ctx collection ascending k fuel (n+1) (some last.1))

/-- The sorted keys are the live ones, and their documents can be read. A vector has room for less than half the
numbers that count its elements. -/
structure Pageable (zstd : Option Zstd) (s : StorageEngine) : Prop where
  sorted : s.sortedKeys.Pairwise (· < ·)
  live : ∀ key,key ∈ s.sortedKeys ↔ s.isLive key = true
  readable : ∀ key ∈ s.sortedKeys,∃ doc,s.inflated zstd key = .ok (some doc)
  room : s.sortedKeys.length < 2^63

section plan

theorem plan_pageQuery (text : QueryText) (ctx : PlanContext) (collection : String) (ascending : Bool) (k : UInt64)
    (after : Option String) : ctx.plan text (pageQuery collection ascending k after) =
      QueryPlanner.makePlan (pageQuery collection ascending k after)
        ⟨.sortedKeys after after.isSome !ascending,some k,true,true,none⟩ := by
  have hscan : QueryPlanner.planById (pageQuery collection ascending k after) =
      some ⟨.sortedKeys after after.isSome !ascending,some k,true,true,none⟩ := by
    cases after <;> rfl
  have hvector : QueryPlanner.tryPlanVector (pageQuery collection ascending k after) ctx.indexes = none := rfl
  refine congrArg (QueryPlanner.makePlan (pageQuery collection ascending k after)) ?_
  unfold QueryPlanner.choose
  split
  · have hordered : QueryPlanner.planOrdered (pageQuery collection ascending k after) ctx.indexes =
        some ⟨.sortedKeys after after.isSome !ascending,some k,true,true,none⟩ := by
      simp only [QueryPlanner.planOrdered,hscan]
      rfl
    rw [QueryPlanner.chooseReady,hordered,hvector]
    simp [pageQuery,QueryPlanner.planFullText,QueryPlanner.tryPlanTraverse,QueryPlanner.tryPlanCompositeEq]
  · rw [hscan,hvector]
    simp

end plan

section page
variable {env : QueryEnv} {s : StorageEngine}
variable {done rest : List String} {k : UInt64} {ascending : Bool} {p : QueryPlan}

theorem startPosition_after (hs : s.sortedKeys.Pairwise (· < ·)) (hroom : s.sortedKeys.length < 2^63)
    (horder : s.sortedKeys = done++rest) :
    s.startPosition done.getLast? done.getLast?.isSome 0 = done.length := by
  cases hlast : done.getLast? with
  | none => rw [List.getLast?_eq_none_iff.1 hlast]; rfl
  | some key =>
    obtain ⟨init,rfl⟩ := List.getLast?_eq_some_iff.1 hlast
    have hat : s.sortedKeys[init.length]? = some key := by rw [horder]; simp
    have hsmall : init.length+1 < 2^64 := by
      rw [horder] at hroom
      simp only [List.length_append,List.length_singleton] at hroom
      omega
    simp only [StorageEngine.startPosition,SortedList.search_eq_ok hs hat,Option.isSome_some,if_true,
      StorageEngine.addUsize,Nat.add_zero,Nat.mod_eq_of_lt hsmall,List.length_append,List.length_singleton]

theorem topPosition_after (hs : s.sortedKeys.Pairwise (· < ·)) (horder : s.sortedKeys.reverse = done++rest) :
    s.topPosition done.getLast? done.getLast?.isSome = rest.length := by
  have hkeys : s.sortedKeys = rest.reverse++done.reverse := by
    rw [← List.reverse_reverse s.sortedKeys,horder,List.reverse_append]
  cases hlast : done.getLast? with
  | none =>
    obtain rfl := List.getLast?_eq_none_iff.1 hlast
    simp [StorageEngine.topPosition,hkeys]
  | some key =>
    obtain ⟨init,rfl⟩ := List.getLast?_eq_some_iff.1 hlast
    have hat : s.sortedKeys[rest.length]? = some key := by rw [hkeys]; simp
    simp only [StorageEngine.topPosition,SortedList.search_eq_ok hs hat,Option.isSome_some,if_true]

/-- The keys of a page are the next ones after those that the pages before it had. The sum of position and limit
wraps around only where no keys are left. -/
theorem range_after (hs : s.sortedKeys.Pairwise (· < ·)) (hroom : s.sortedKeys.length < 2^63)
    (horder : s.sortedKeys = done++rest) (hfits : rest = [] ∨ done = [] ∨ k.toNat ≤ done.length) :
    ∃ first stop,s.sortedKeyRange done.getLast? done.getLast?.isSome none (some k) = (first,stop) ∧ first ≤ stop ∧
      (s.sortedKeys.take stop).drop first = rest.take k.toNat := by
  have hk := k.toNat_lt
  have hlen : s.sortedKeys.length = done.length+rest.length := by rw [horder,List.length_append]
  have hstart : s.startPosition done.getLast? done.getLast?.isSome (((none : Option UInt64).getD 0).toNat) = done.length :=
    startPosition_after hs hroom horder
  simp only [StorageEngine.sortedKeyRange,hstart,Option.map_some,Option.getD_some]
  split_ifs with hend
  · have hrest : rest = [] := List.eq_nil_of_length_eq_zero (by omega)
    exact ⟨_,_,rfl,le_rfl,by simp [hrest]⟩
  · have hadd : StorageEngine.addUsize done.length k.toNat = done.length+k.toNat := by
      refine Nat.mod_eq_of_lt ?_
      rcases hfits with rfl | rfl | hle
      · exact absurd (by simp [hlen]) hend
      · simpa using hk
      · omega
    refine ⟨_,_,rfl,by omega,?_⟩
    rw [hadd,horder,List.length_append]
    rcases Nat.le_total k.toNat rest.length with hle | hle
    · rw [Nat.min_eq_left (by omega),List.take_append,List.drop_append]
      simp
    · rw [Nat.min_eq_right (by omega),List.take_of_length_le (by simp),List.drop_left,List.take_of_length_le hle]

theorem rangeReverse_after (hs : s.sortedKeys.Pairwise (· < ·)) (horder : s.sortedKeys.reverse = done++rest)
    (k : UInt64) :
    ∃ first stop,s.sortedKeyRangeReverse done.getLast? done.getLast?.isSome none (some k) = (first,stop) ∧ first ≤ stop ∧
      ((s.sortedKeys.take stop).drop first).reverse = rest.take k.toNat := by
  have hkeys : s.sortedKeys = rest.reverse++done.reverse := by
    rw [← List.reverse_reverse s.sortedKeys,horder,List.reverse_append]
  have htake : s.sortedKeys.take rest.length = rest.reverse := by
    rw [hkeys,← List.length_reverse,List.take_left]
  have hzero : ((none : Option UInt64).getD 0).toNat = 0 := rfl
  refine ⟨_,_,rfl,Nat.min_le_right _ _,?_⟩
  simp only [topPosition_after hs horder,Option.map_some,Option.getD_some,hzero,Nat.sub_zero,htake,
    Nat.min_eq_left (Nat.sub_le _ _)]
  rw [← List.reverse_take,List.reverse_reverse]

theorem scanSortedKeys_after (h : Pageable env.zstd s) (horder : inDirection (!ascending) s.sortedKeys = done++rest)
    (hk : k ≠ 0) (hfits : rest = [] ∨ done = [] ∨ k.toNat ≤ done.length) :
    scanSortedKeys s done.getLast? done.getLast?.isSome (!ascending) (some k) none =
      .ok ((rest.take k.toNat).filterMap s.liveAt) := by
  have hpos : ([] : Rows).length < k.toNat := by
    have := UInt64.toNat_inj.not.2 hk
    simpa [Nat.pos_iff_ne_zero] using this
  have hall : ((rest.take k.toNat).filterMap s.liveAt).take k.toNat = (rest.take k.toNat).filterMap s.liveAt :=
    List.take_of_length_le ((List.length_filterMap_le _ _).trans (List.length_take_le _ _))
  unfold scanSortedKeys
  cases ascending with
  | true =>
    obtain ⟨first,stop,hrange,hle,hkeys⟩ := range_after h.sorted h.room horder hfits
    simp only [Bool.not_true,Bool.false_eq_true,if_false,inDirection,hrange,if_neg (Nat.not_lt.2 hle)]
    rw [hkeys,pushLive_some s _ hpos,List.nil_append,hall]
  | false =>
    obtain ⟨first,stop,hrange,hle,hkeys⟩ := rangeReverse_after h.sorted horder k
    simp only [Bool.not_false,if_true,inDirection,hrange,if_neg (Nat.not_lt.2 hle)]
    rw [hkeys,pushLive_some s _ hpos,List.nil_append,hall]

/-- A live key and its document, as a row of a query. -/
theorem Pageable.row (h : Pageable env.zstd s) (hdefer : p.deferBlobs = false)
    (hsat : p.filtersSatisfiedByIndex = true) {key : String} (hkey : key ∈ s.sortedKeys) :
    ∃ pointer doc,s.liveAt key = some (key,pointer) ∧ Readable env s (key,pointer) ∧
      decodeRow env s p (key,pointer) = some (key,doc) ∧ s.inflated env.zstd key = .ok (some (showRow s p doc)) := by
  have hlive := (h.live key).1 hkey
  obtain ⟨pointer,hpointer,hpl⟩ := (Option.any_eq_true _ _).1 hlive
  obtain ⟨shown,hshown⟩ := h.readable key hkey
  obtain ⟨bytes,hget,hmap⟩ := bind_eq_ok.1 hshown
  have hread : s.readPointer env.zstd pointer = .ok bytes := by
    rw [StorageEngine.get,hpointer] at hget
    exact hget
  obtain ⟨doc,hdecode,hdoc⟩ := Option.map_eq_some_iff.1 (Except.ok.inj hmap)
  obtain ⟨raw,rfl,hraw⟩ := Option.bind_eq_some_iff.1 hdecode
  refine ⟨pointer,doc,?_,⟨raw,doc,hread,hraw⟩,?_,?_⟩
  · simp [StorageEngine.liveAt,hpointer,hpl]
  · simp [decodeRow,rowBytes,hread,hsat,hraw]
  · rw [hshown,← hdoc,showRow,hdefer]
    rfl

/-- The rows of a list of live keys are their documents. -/
theorem Pageable.runTask (h : Pageable env.zstd s) (hdefer : p.deferBlobs = false)
    (hsat : p.filtersSatisfiedByIndex = true) {keys : List String} (hkeys : ∀ key ∈ keys,key ∈ s.sortedKeys) :
    (∀ row ∈ keys.filterMap s.liveAt,Readable env s row) ∧
    (runTask env s p (keys.filterMap s.liveAt)).map Prod.fst = keys ∧
    ∀ row ∈ HakoDB.runTask env s p (keys.filterMap s.liveAt),s.inflated env.zstd row.1 = .ok (some row.2) := by
  induction keys with
  | nil => exact ⟨by simp,rfl,by simp [HakoDB.runTask,showRows]⟩
  | cons key keys ih =>
    obtain ⟨hread,hids,hdocs⟩ := ih fun k hk => hkeys k (List.mem_cons_of_mem key hk)
    obtain ⟨pointer,doc,hlive,hreadable,hrow,hinflated⟩ := h.row hdefer hsat (hkeys key List.mem_cons_self)
    have htask : HakoDB.runTask env s p ((key::keys).filterMap s.liveAt) =
        (key,showRow s p doc)::HakoDB.runTask env s p (keys.filterMap s.liveAt) := by
      simp [HakoDB.runTask,showRows,hlive,hrow]
    rw [htask]
    refine ⟨fun row hmem => ?_,by simp [hids],fun row hmem => ?_⟩
    · rw [List.filterMap_cons_some hlive] at hmem
      rcases List.mem_cons.1 hmem with rfl | hmem
      · exact hreadable
      · exact hread row hmem
    · rcases List.mem_cons.1 hmem with rfl | hmem
      · exact hinflated
      · exact hdocs row hmem

/-- One page: the next keys with their documents. -/
theorem execute_page (h : Pageable env.zstd s) (ctx : PlanContext) (collection : String)
    (horder : inDirection (!ascending) s.sortedKeys = done++rest) (hk : k ≠ 0)
    (hfits : rest = [] ∨ done = [] ∨ k.toNat ≤ done.length) :
    ∃ page,execute env s ctx.indexes (ctx.plan env.text (pageQuery collection ascending k done.getLast?)) = .ok page ∧
      page.map Prod.fst = rest.take k.toNat ∧ ∀ row ∈ page,s.inflated env.zstd row.1 = .ok (some row.2) := by
  rw [plan_pageQuery]
  generalize hplan : QueryPlanner.makePlan (pageQuery collection ascending k done.getLast?)
    ⟨.sortedKeys done.getLast? done.getLast?.isSome !ascending,some k,true,true,none⟩ = p
  have hmem : ∀ key ∈ rest.take k.toNat,key ∈ s.sortedKeys := by
    intro key hkey
    have hin : key ∈ inDirection (!ascending) s.sortedKeys :=
      horder ▸ List.mem_append_right done (List.mem_of_mem_take hkey)
    cases ascending <;> simpa [inDirection] using hin
  have hdefer : p.deferBlobs = false := by rw [← hplan]; rfl
  have hfil : p.filtersSatisfiedByIndex = true := by rw [← hplan]; rfl
  have hsat : p.satisfied = true := by rw [← hplan]; rfl
  have hpage : p.PageFits := by
    subst hplan
    intro l hl
    obtain rfl := Option.some.inj hl
    exact k.toNat_lt
  obtain ⟨hread,hids,hdocs⟩ := h.runTask hdefer hfil hmem
  have hscan : scanPhase env s ctx.indexes p = .ok (p,(rest.take k.toNat).filterMap s.liveAt) := by
    subst hplan
    have hrows := scanSortedKeys_after h horder hk hfits
    unfold scanPhase
    rw [show executeSingleScan env s ctx.indexes _ _ _ _ = scanSortedKeys s done.getLast? done.getLast?.isSome
      (!ascending) (some k) none from rfl,hrows]
    simp [bind,Except.bind,pure,Except.pure,indexMayHideXtype,QueryPlanner.makePlan]
  have hcut : p.cut (runTask env s p ((rest.take k.toNat).filterMap s.liveAt)) =
      runTask env s p ((rest.take k.toNat).filterMap s.liveAt) := by
    have hlen := congrArg List.length hids
    rw [List.length_map] at hlen
    have hall : (runTask env s p ((rest.take k.toNat).filterMap s.liveAt)).length ≤ k.toNat :=
      hlen ▸ List.length_take_le _ _
    subst hplan
    exact List.take_of_length_le hall
  refine ⟨_,?_,hids,hdocs⟩
  unfold execute
  rw [hscan]
  exact (executeLanes_of_satisfied hsat hpage hread).trans (congrArg Except.ok hcut)

end page

/-- The walk over the keys that are left. -/
theorem pageWalk_rest {env : QueryEnv} {s : StorageEngine} (h : Pageable env.zstd s) (ctx : ℕ → PlanContext)
    (collection : String) {ascending : Bool} {k : UInt64} (hk : k ≠ 0) {fuel : ℕ} {done rest : List String}
    (horder : inDirection (!ascending) s.sortedKeys = done++rest) (hfits : rest = [] ∨ done = [] ∨ k.toNat ≤ done.length)
    (hfuel : rest.length < fuel) (n : ℕ) :
    ∃ pages,pageWalk env s ctx collection ascending k fuel n done.getLast? = .ok (pages++[[]]) ∧
      pages.flatten.map Prod.fst = rest ∧ (∀ page ∈ pages,page ≠ [] ∧ page.length ≤ k.toNat) ∧
      ∀ row ∈ pages.flatten,s.inflated env.zstd row.1 = .ok (some row.2) := by
  induction fuel generalizing done rest n with
  | zero => omega
  | succ fuel ih =>
    obtain ⟨page,hpage,hids,hdocs⟩ := execute_page h (ctx n) collection horder hk hfits
    have hlen : page.length = min k.toNat rest.length := by
      rw [← List.length_map (f := Prod.fst),hids,List.length_take]
    have hpos : 0 < k.toNat := Nat.pos_iff_ne_zero.2 fun h0 => hk (UInt64.toNat_inj.1 h0)
    rw [pageWalk,hpage]
    cases hlast : page.getLast? with
    | none =>
      have hempty := List.getLast?_eq_none_iff.1 hlast
      subst hempty
      have hrest : rest = [] := List.eq_nil_of_length_eq_zero (by simp at hlen; omega)
      subst hrest
      exact ⟨[],rfl,rfl,by simp,by simp⟩
    | some last =>
      obtain ⟨front,rfl⟩ := List.getLast?_eq_some_iff.1 hlast
      have hnext : some last.1 = (done++rest.take k.toNat).getLast? := by
        rw [← hids]
        simp
      have horder' : inDirection (!ascending) s.sortedKeys = (done++rest.take k.toNat)++rest.drop k.toNat := by
        rw [List.append_assoc,List.take_append_drop,horder]
      have hfits' : rest.drop k.toNat = [] ∨ done++rest.take k.toNat = [] ∨ k.toNat ≤ (done++rest.take k.toNat).length := by
        rcases Nat.le_total rest.length k.toNat with hle | hle
        · exact .inl (List.drop_of_length_le hle)
        · exact .inr (.inr (by rw [List.length_append,List.length_take,Nat.min_eq_left hle]; omega))
      have hfuel' : (rest.drop k.toNat).length < fuel := by
        rw [List.length_drop]
        simp only [List.length_append,List.length_singleton] at hlen
        omega
      obtain ⟨pages,hwalk,hflat,hpages,hrows⟩ := ih horder' hfits' hfuel' (n+1)
      refine ⟨(front++[last])::pages,?_,?_,?_,?_⟩
      · simp only [bind,Except.bind,hlast,hnext,hwalk]
        rfl
      · rw [List.flatten_cons,List.map_append,hids,hflat,List.take_append_drop]
      · intro page hmem
        rcases List.mem_cons.1 hmem with rfl | hmem
        · exact ⟨by simp,hlen ▸ Nat.min_le_left _ _⟩
        · exact hpages page hmem
      · intro row hmem
        rw [List.flatten_cons,List.mem_append] at hmem
        rcases hmem with hmem | hmem
        · exact hdocs row hmem
        · exact hrows row hmem

/-- The pages of a walk hold every live document once, by increasing or decreasing id, and an empty page ends it. -/
theorem pageWalk_complete (env : QueryEnv) {s : StorageEngine} (h : Pageable env.zstd s) (ctx : ℕ → PlanContext)
    (collection : String) (ascending : Bool) {k : UInt64} (hk : 1 ≤ k) {fuel : ℕ} (hfuel : s.sortedKeys.length < fuel) :
    ∃ pages,pageWalk env s ctx collection ascending k fuel 0 none = .ok (pages++[[]]) ∧
      pages.flatten.map Prod.fst = inDirection (!ascending) s.sortedKeys ∧
      (∀ page ∈ pages,page ≠ [] ∧ page.length ≤ k.toNat) ∧
      ∀ row ∈ pages.flatten,s.inflated env.zstd row.1 = .ok (some row.2) := by
  have hne : k ≠ 0 := by
    rintro rfl
    exact absurd hk (by decide)
  have hlen : (inDirection (!ascending) s.sortedKeys).length < fuel := by
    cases ascending <;> simpa [inDirection] using hfuel
  exact pageWalk_rest h ctx collection hne (List.nil_append _).symm (.inr (.inl rfl)) hlen 0

/-- Two documents that are held in memory. -/
def twoDocs : StorageEngine :=
  let stored : String → Pointer := fun key => .inlined (HakoDoc.encode ⟨[("name",.string key)],1⟩)
  {StorageEngine.fresh .default "c" none 0 with
    index := ((∅ : HMap String Pointer).insert "b" (stored "b")).insert "a" (stored "a")
    sortedKeys := ["a","b"]}

/-- No indexes. -/
def bareContext : PlanContext where
  indexes := ⟨⟨0,fun _ => none,fun _ => none⟩,fun _ => none,fun _ => none,fun _ _ => none,fun _ => false⟩
  collectionRows := 2
  workerCount := 2
  indexReady := true
  vectorReady := true

theorem twoDocs_pageable : Pageable none twoDocs where
  sorted := by decide
  live key := by
    by_cases ha : key = "a"
    · subst ha
      decide
    · by_cases hb : key = "b"
      · subst hb
        decide
      · simp [twoDocs,StorageEngine.isLive,ha,hb]
  readable key hkey := by
    rcases List.mem_cons.1 hkey with rfl | hkey
    · exact ⟨_,rfl⟩
    · rw [List.mem_singleton.1 hkey]
      exact ⟨_,rfl⟩
  room := by decide

/-- Two documents are two pages of one and an empty one. -/
theorem pageWalk_complete_twoDocs : 1 ≤ (1 : UInt64) ∧ twoDocs.sortedKeys.length < 3 ∧
    ∃ pages,pageWalk .ascii twoDocs (fun _ => bareContext) "c" false 1 3 0 none = .ok (pages++[[]]) ∧
      pages.flatten.map Prod.fst = ["b","a"] := by
  obtain ⟨pages,hwalk,hids,-,-⟩ := pageWalk_complete .ascii twoDocs_pageable (fun _ => bareContext) "c" false
    (show 1 ≤ (1 : UInt64) by decide) (show twoDocs.sortedKeys.length < 3 by decide)
  exact ⟨by decide,by decide,pages,hwalk,hids⟩

end HakoDB
