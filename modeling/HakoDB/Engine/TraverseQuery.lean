import HakoDB.Engine.FindPaths
import HakoDB.Engine.WeightedPaths
import HakoDB.Index.Words
import HakoDB.Query.TopPage

/-! Graph queries. The walk is stopped at as many hits as the page and the rows before it need, and only then are the hits of
other collections and those that the filters refuse left out and the rest put in order. -/
namespace HakoDB
open TopItems

/-- A document by its collection and its id. -/
abbrev DocNode := String ×ₗ String

/-- The stored documents, and the references that a walk follows from each. -/
structure DocGraph where
  read : DocNode → Option HakoDoc
  expandNeighbors : TraverseDir → Option String → Option String → Option String → DocNode → List (Neighbor DocNode)
  nodes : Finset DocNode
  closed : ∀ dir edge via weight u,∀ nb ∈ expandNeighbors dir edge via weight u,nb.node ∈ nodes

def maxTraverseDepthCap : ℕ := 256

namespace TraverseSpec

def validate (spec : TraverseSpec) : Res Unit :=
  if spec.maxDepth = 0 ∨ maxTraverseDepthCap < spec.maxDepth then
    corrupt ("traverse depth "++toString spec.maxDepth++" out of range 1..=256 (guidance: 32)")
  else if spec.limit = 0 then corrupt "traverse limit must be >= 1"
  else .ok ()

/-- The largest limit there is. -/
def unlimited (spec : TraverseSpec) : TraverseSpec := {spec with limit := .ofNat (2^64-1)}

theorem limit_le (spec : TraverseSpec) (limit : UInt64) : limit ≤ spec.unlimited.limit := by
  have hmax : spec.unlimited.limit.toNat = 2^64-1 := UInt64.toNat_ofNat_of_lt' (by decide)
  have hlt := limit.toNat_lt
  rw [UInt64.le_iff_toNat_le]
  omega

end TraverseSpec

namespace DocGraph
variable (text : QueryText) (im : IndexManager) (g : DocGraph)

def ensureIncomingState (collection : String) (spec : TraverseSpec) : Res Unit :=
  if QueryPlanner.incomingOk im collection spec.viaEdge spec.direction then .ok ()
  else corrupt ("traverse incoming needs reverse state: create_traverse_index("++collection++
    ") or create_edge_index(<edges>) first")

def hops (spec : TraverseSpec) : DocNode → List (Neighbor DocNode) :=
  g.expandNeighbors spec.direction spec.edgeField spec.viaEdge spec.weightField

def refGraph (spec : TraverseSpec) : RefGraph DocNode := ⟨g.hops spec,fun v => (g.read v).isSome⟩

def weighted (spec : TraverseSpec) : Graph DocNode :=
  ⟨fun u => (g.hops spec u).map fun nb => (nb.node,nb.weight),fun v => (g.read v).isSome⟩

/-- The nodes that a walk hits, in its order, if it ends within so many rounds. -/
def walk (start : DocNode) (spec : TraverseSpec) (fuel : ℕ) : Option (List DocNode) :=
  if spec.weightField.isSome then
    ((g.weighted spec).findPathsWeighted start spec fuel).map fun hits => hits.map TraverseHit.node
  else ((g.refGraph spec).findPaths start ⟨spec.maxDepth,spec.limit.toNat,false,false⟩ fuel).map fun hits => hits.map PathHit.node

def findPaths (collection id : String) (spec : TraverseSpec) (fuel : ℕ) : Res (Option (List DocNode)) := do
  spec.validate
  ensureIncomingState im collection spec
  return g.walk (toLex (collection,id)) spec fuel

/-- Every filter finds its field, and the value there passes. -/
def passes (extra : List Filter) (doc : HakoDoc) : Bool :=
  extra.all fun f => (doc.get f.field).any fun v => compareValues text.toTextOps v f.op f.value

def rowOf (collection : String) (extra : List Filter) (v : DocNode) : Option (String × HakoDoc) :=
  if (ofLex v).1 = collection then ((g.read v).filter (passes text extra)).map fun doc => ((ofLex v).2,doc) else none

def sortHits (orders : List OrderBy) (rows : Docs) : Docs :=
  if orders.isEmpty then rows else sortBy (compareReading HakoDoc.get orders) rows

def executeTraverseQuery (plan : QueryPlan) (fuel : ℕ) : Res (Option Docs) :=
  match plan.scan with
  | .traverse startCol startId spec extra => do
    let hits ← g.findPaths im startCol startId {spec with limit := plan.scanLimit.getD spec.limit} fuel
    return hits.map fun hits =>
      let results := sortHits plan.orderBy (hits.filterMap (g.rowOf text plan.collection extra))
      takeUpTo plan.limit (results.drop (plan.offset.getD 0).toNat)
  | _ => corrupt "traverse executor reached without a Traverse plan"

end DocGraph

namespace Query

def others (q : Query) : List Filter := q.filters.filter fun f => f.op ≠ .traverse

def skipped (q : Query) : ℕ := (q.offset.getD 0).toNat

/-- So many hits are fetched; the sum wraps around. -/
def fetch (q : Query) : UInt64 := q.pageNeed.getD 100

/-- The rows of the page and those before it. -/
def upToPage {α : Type} (q : Query) (rows : List α) : List α :=
  match q.limit with
  | some l => rows.take (q.skipped+l.toNat)
  | none => rows

end Query

namespace DocGraph
variable (text : QueryText) (g : DocGraph) (q : Query)

/-- The rows of the queried collection that pass the other filters. -/
def matching (hits : List DocNode) : Docs := hits.filterMap (g.rowOf text q.collection q.others)

def sorted (hits : List DocNode) : Docs := sortHits q.orderBy (g.matching text q hits)

/-- The page of all hits of a walk. -/
def page (hits : List DocNode) : Docs := takeUpTo q.limit ((g.sorted text q hits).drop q.skipped)

/-- Some hits are fetched, and among them are all rows up to the end of the page, unless the page is empty. -/
def FetchSuffices (hits : List DocNode) : Prop :=
  q.fetch ≠ 0 ∧ (q.limit = some 0 ∨ (g.matching text q hits).length ≤ q.skipped ∨
    ∀ row ∈ q.upToPage (g.sorted text q hits),row ∈ g.matching text q (hits.take q.fetch.toNat))

end DocGraph

/-- Enough rounds give this result. -/
def Settles {α : Type} (run : ℕ → α) (result : α) : Prop := ∃ rounds,∀ fuel,rounds ≤ fuel → run fuel = result

theorem Settles.unique {α : Type} {run : ℕ → α} {a b : α} (ha : Settles run a) (hb : Settles run b) : a = b := by
  obtain ⟨n,hn⟩ := ha
  obtain ⟨m,hm⟩ := hb
  exact (hn _ (le_max_left n m)).symm.trans (hm _ (le_max_right n m))

theorem Settles.map {α β : Type} {run : ℕ → α} {a : α} (h : Settles run a) (f : α → β) : Settles (fun fuel => f (run fuel)) (f a) := by
  obtain ⟨n,hn⟩ := h
  exact ⟨n,fun fuel hfuel => congrArg f (hn fuel hfuel)⟩

namespace DocGraph
variable {text : QueryText} {im : IndexManager} {g : DocGraph} {q : Query} {spec : TraverseSpec} {start : DocNode}

theorem refGraph_limit (g : DocGraph) (spec : TraverseSpec) (limit : UInt64) :
    g.refGraph {spec with limit := limit} = g.refGraph spec := rfl

theorem weighted_limit (g : DocGraph) (spec : TraverseSpec) (limit : UInt64) :
    g.weighted {spec with limit := limit} = g.weighted spec := rfl

theorem walk_unweighted (hdepth : 0 < spec.maxDepth) (hlive : (g.read start).isSome = true) (hweight : spec.weightField = none) :
    ∃ found : List DocNode,found.Nodup ∧
      ∀ limit : UInt64,Settles (g.walk start {spec with limit := limit}) (some (found.take limit.toNat)) := by
  obtain ⟨seen,rounds,hfair,hloop⟩ := Walk.loop_init (g.refGraph spec) start hdepth
  refine ⟨(Walk.hitsAmong (g.refGraph spec) seen).map Prod.fst,hfair.nodup.sublist (List.filter_sublist.map _),
    fun limit => ⟨rounds,fun fuel hfuel => ?_⟩⟩
  obtain ⟨hits,hhits,hkeys⟩ := hloop ⟨spec.maxDepth,limit.toNat,false,false⟩ rfl fuel hfuel
  have hnodes := congrArg (List.map Prod.fst) hkeys
  rw [List.map_map,List.map_take] at hnodes
  have hpaths : (g.refGraph spec).findPaths start ⟨spec.maxDepth,limit.toNat,false,false⟩ fuel = some hits :=
    (if_pos hlive).trans hhits
  have hplain : ¬{spec with limit := limit}.weightField.isSome = true := by simp [hweight]
  rw [walk,if_neg hplain,refGraph_limit]
  exact (congrArg (Option.map _) hpaths).trans (congrArg some hnodes)

theorem walk_weighted (hlive : (g.read start).isSome = true) (hweight : spec.weightField.isSome = true) :
    ∃ found : List DocNode,found.Nodup ∧
      ∀ limit : UInt64,Settles (g.walk start {spec with limit := limit}) (some (found.take limit.toNat)) := by
  have hV : ∀ u,∀ hop ∈ (g.weighted spec).expandNeighbors u,hop.1 ∈ g.nodes := by
    intro u hop hhop
    obtain ⟨nb,hnb,rfl⟩ := List.mem_map.1 hhop
    exact g.closed _ _ _ _ u nb hnb
  obtain ⟨rounds,out,hout⟩ := Search.loop_returns hV spec.unlimited (Search.init start)
  obtain ⟨done,s,hinv,-,rfl,-⟩ := Search.loop_settles (Search.inv_init (g.weighted spec) start spec.unlimited.maxDepth)
    (by simp [Search.Relaxed]) rfl (hout rounds le_rfl)
  refine ⟨_,hinv.nodup_reported,fun limit => ⟨rounds,fun fuel hfuel => ?_⟩⟩
  have htake := Search.loop_take (spec.limit_le limit) (Nat.zero_le _) (hout fuel hfuel)
  have hpaths : (g.weighted spec).findPathsWeighted start {spec with limit := limit} fuel =
      some ((Search.reported (g.weighted spec) done).take limit.toNat) := (if_pos hlive).trans htake
  have hby : {spec with limit := limit}.weightField.isSome = true := hweight
  rw [walk,if_pos hby,weighted_limit,hpaths,Option.map_some,List.map_take]

/-- A limit cuts the hits of the walk without one. -/
theorem walk_settles (g : DocGraph) (start : DocNode) (hdepth : 0 < spec.maxDepth) : ∃ found : List DocNode,
    found.Nodup ∧ ∀ limit : UInt64,Settles (g.walk start {spec with limit := limit}) (some (found.take limit.toNat)) := by
  by_cases hlive : (g.read start).isSome
  · by_cases hweight : spec.weightField.isSome
    · exact walk_weighted hlive hweight
    · exact walk_unweighted hdepth hlive (Option.not_isSome_iff_eq_none.1 hweight)
  · refine ⟨[],List.nodup_nil,fun limit => ⟨0,fun fuel _ => ?_⟩⟩
    have hpaths : ∀ spec',(g.refGraph spec).findPaths start spec' fuel = some [] := fun spec' => if_neg hlive
    have hweighted : ∀ spec',(g.weighted spec).findPathsWeighted start spec' fuel = some [] := fun spec' => if_neg hlive
    rw [walk,refGraph_limit,weighted_limit,hpaths,hweighted]
    split_ifs <;> simp

theorem rowOf_eq_some {collection : String} {extra : List Filter} {v : DocNode} {row : String × HakoDoc}
    (h : g.rowOf text collection extra v = some row) : v = toLex (collection,row.1) := by
  unfold rowOf at h
  split_ifs at h with hcol
  obtain ⟨doc,-,rfl⟩ := Option.map_eq_some_iff.1 h
  rw [← hcol]
  rfl

theorem nodup_matching {hits : List DocNode} (h : hits.Nodup) : (g.matching text q hits).Nodup :=
  h.filterMap fun _ _ _ ha hb => (rowOf_eq_some ha).trans (rowOf_eq_some hb).symm

theorem sortHits_eq (orders : List OrderBy) (rows : Docs) :
    sortHits orders rows = sortBy (compareReading HakoDoc.get orders) rows := by
  unfold sortHits
  split_ifs with h
  · rw [List.isEmpty_iff.1 h]
    exact (List.Pairwise.insertionSort_eq (List.pairwise_of_forall fun _ _ => by simp [compareReading])).symm
  · rfl

open Classical in
theorem matching_take {hits : List DocNode} (h : hits.Nodup) (n : ℕ) : g.matching text q (hits.take n) =
    (g.matching text q hits).filter fun row => row ∈ g.matching text q (hits.take n) := by
  have hsplit : g.matching text q hits = g.matching text q (hits.take n)++g.matching text q (hits.drop n) := by
    unfold matching
    rw [← List.filterMap_append,List.take_append_drop]
  have hnd : (g.matching text q hits).Nodup := nodup_matching h
  rw [hsplit] at hnd
  have hrest : ∀ row ∈ g.matching text q (hits.drop n),¬decide (row ∈ g.matching text q (hits.take n)) = true :=
    fun row hrow hmem => List.disjoint_of_nodup_append hnd (of_decide_eq_true hmem) hrow
  rw [hsplit,List.filter_append,List.filter_eq_self.2 fun row hrow => decide_eq_true hrow,List.filter_eq_nil_iff.2 hrest,
    List.append_nil]

/-- The page of the first hits is that of all. -/
theorem page_take_iff {hits : List DocNode} (hnd : hits.Nodup)
    (hord : Ordered (compareReading HakoDoc.get q.orderBy) (g.matching text q hits)) (n : ℕ) :
    g.page text q (hits.take n) = g.page text q hits ↔ q.limit = some 0 ∨ (g.matching text q hits).length ≤ q.skipped ∨
      ∀ row ∈ q.upToPage (g.sorted text q hits),row ∈ g.matching text q (hits.take n) := by
  classical
  have hperm : (g.sorted text q hits).Perm (g.matching text q hits) := by
    rw [sorted,sortHits_eq]
    exact perm_sortBy _ _
  have hsorted : g.sorted text q (hits.take n) =
      (g.sorted text q hits).filter fun row => row ∈ g.matching text q (hits.take n) := by
    rw [sorted,sorted,sortHits_eq,sortHits_eq,← hord.sortBy_filter,← matching_take hnd]
  have hpage := page_filter_iff (hperm.nodup_iff.2 (nodup_matching hnd))
    (fun row => row ∈ g.matching text q (hits.take n)) q.skipped
  simp only [hperm.length_eq,decide_eq_true_eq] at hpage
  rw [page,page,hsorted,Query.upToPage]
  cases hlimit : q.limit with
  | some l =>
    have hzero : l.toNat = 0 ↔ some l = some 0 := by rw [Option.some.injEq,← UInt64.toNat_inj]; rfl
    rw [← hzero]
    exact hpage l.toNat
  | none =>
    have hlong : ∀ rows : Docs,rows.length ≤ (g.matching text q hits).length →
        (rows.drop q.skipped).take ((g.matching text q hits).length+1) = rows.drop q.skipped := by
      intro rows hrows
      refine List.take_of_length_le ?_
      rw [List.length_drop]
      omega
    have hwhole : (g.sorted text q hits).take (q.skipped+((g.matching text q hits).length+1)) = g.sorted text q hits :=
      List.take_of_length_le (by rw [hperm.length_eq]; omega)
    have hall := hpage ((g.matching text q hits).length+1)
    rw [hlong _ ((List.length_filter_le _ _).trans hperm.length_eq.le),hlong _ hperm.length_eq.le,hwhole,
      or_iff_right (Nat.succ_ne_zero _)] at hall
    rw [or_iff_right (by simp)]
    exact hall

end DocGraph

theorem QueryPlanner.tryPlanTraverse_eq {q : Query} {im : IndexManager} {c : Choice} (h : tryPlanTraverse q im = some c) :
    ∃ startCol startId spec,c.scan = .traverse startCol startId spec q.others ∧ c.scanLimit = q.pageNeed ∧
      0 < spec.maxDepth ∧ spec.maxDepth ≤ maxTraverseDepthCap ∧ spec.limit = q.limit.getD 100 ∧
      incomingOk im startCol spec.viaEdge spec.direction = true := by
  unfold tryPlanTraverse at h
  split at h
  · split at h
    · split at h
      · cases h
      obtain ⟨startId,-,h⟩ := Option.bind_eq_some_iff.1 h
      obtain ⟨depth,-,h⟩ := Option.bind_eq_some_iff.1 h
      split at h
      · cases h
      · rename_i hdepth
        obtain ⟨direction,-,h⟩ := Option.bind_eq_some_iff.1 h
        dsimp only at h
        split at h
        · cases h
        · rename_i hincoming
          obtain rfl := Option.some.inj h
          obtain ⟨hlow,hhigh⟩ := not_not.1 hdepth
          have hcap : maxTraverseDepth = 32 := rfl
          refine ⟨_,startId,_,rfl,rfl,?_,?_,rfl,by simpa using hincoming⟩
          · dsimp only
            omega
          · rw [maxTraverseDepthCap]
            dsimp only
            omega
    · cases h
  · cases h

namespace DocGraph

/-- From `s` of the collection `c` there are references to a document of another collection and to `b` and `d`. -/
def star : DocGraph where
  read v := if v ∈ [toLex ("c","s"),toLex ("a","x"),toLex ("c","b"),toLex ("c","d")] then some ⟨[],0⟩ else none
  expandNeighbors _ _ _ _ u :=
    if u = toLex ("c","s") then [⟨toLex ("a","x"),1,none⟩,⟨toLex ("c","b"),1,none⟩,⟨toLex ("c","d"),1,none⟩] else []
  nodes := {toLex ("a","x"),toLex ("c","b"),toLex ("c","d")}
  closed dir edge via weight u nb hnb := by
    by_cases hu : u = toLex ("c","s")
    · rw [if_pos hu] at hnb
      simp only [List.mem_cons,List.not_mem_nil,or_false] at hnb
      rcases hnb with rfl | rfl | rfl <;> simp
    · rw [if_neg hu] at hnb
      cases hnb

/-- The documents one reference from `s`. -/
def starQuery (orderBy : List OrderBy) (limit : UInt64) : Query where
  collection := "c"
  filters := [⟨"c",.traverse,.map [("id",.string "s"),("depth",.int 1)]⟩]
  orderBy := orderBy
  limit := some limit

def noIndexes : IndexManager := ⟨⟨0,fun _ => none,fun _ => none⟩,fun _ => none,fun _ => none,fun _ _ => none,fun _ => false⟩

def starChoice (limit : UInt64) : QueryPlanner.Choice :=
  ⟨.traverse "c" "s" ⟨.outgoing,none,1,limit,none,none⟩ [],some limit,false,true,some .traverse⟩

end DocGraph

end HakoDB
