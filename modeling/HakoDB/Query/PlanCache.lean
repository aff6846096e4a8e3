import HakoDB.Lib.HashMap
import HakoDB.Lib.TextOrder
import HakoDB.Query.Executor

/-! Plans are kept for a while under a hash of the query. The hasher sees a stream of bytes, and two queries
that write the same stream share the plan of the first. -/
namespace HakoDB
open ByteCodec HashMap

namespace HashStream

/-- A text ends with a byte that no text has. -/
def text (s : String) : Bytes := asBytes s++[0xFF]

def flag (b : Bool) : Bytes := [if b then 1 else 0]

def u64 (n : UInt64) : Bytes := leBytes 8 n.toNat

def optional : Option UInt64 → Bytes
  | none => leBytes 8 0
  | some n => leBytes 8 1++u64 n

end HashStream

def Operator.discriminant : Operator → UInt8
  | .eq => 0
  | .ne => 1
  | .gt => 2
  | .gte => 3
  | .lt => 4
  | .lte => 5
  | .matchWords => 6
  | .matchPrefix => 7
  | .contains => 8
  | .startsWith => 9
  | .within => 10
  | .arrayContains => 11
  | .arrayContainsAny => 12
  | .arrayAllEq => 13
  | .notIn => 14
  | .near => 15
  | .traverse => 16

/-- Of bytes only the length is written, of arrays and maps nothing. -/
def hashValue : Value → Bytes
  | .null => [0]
  | .bool b => 1::HashStream.flag b
  | .int n => 2::i64Bytes n
  | .float f => 3::HashStream.u64 f.bits
  | .string s => 4::HashStream.text s
  | .binary bs => 5::leBytes 8 bs.length
  | .timestamp t => 6::i64Bytes t
  | .reference collection docId => 7::(HashStream.text collection++HashStream.text docId)
  | .blobLink offset len => 8::(HashStream.u64 offset++leBytes 4 len.toNat)
  | .array _ => [9]
  | .map _ => [10]
  | .serverTimestamp => [11]

section hash
variable (debug : Value → String)

/-- The entries of a walk, in the order of their names and texts. -/
def hashEntries (pairs : List (String × Value)) : Bytes :=
  let entries := (pairs.map fun kv => (kv.1,debug kv.2)).insertionSort fun a b => a.1 < b.1 ∨ a.1 = b.1 ∧ a.2 ≤ b.2
  leBytes 8 entries.length++entries.flatMap fun kv => HashStream.text kv.1++HashStream.text kv.2

/-- The vector of a search and the walk of a traversal are written whole. -/
def hashFilterValue : Operator → Value → Bytes
  | .near,.binary bs => 5::(leBytes 8 bs.length++bs)
  | .traverse,.map pairs => 12::hashEntries debug pairs
  | _,v => hashValue v

def hashFilter (f : Filter) : Bytes := HashStream.text f.field++f.op.discriminant::hashFilterValue debug f.op f.value

def hashElem (c : ElemMatch) : Bytes := HashStream.text c.field++c.filters.flatMap (hashFilter debug)

def hashOrder (o : OrderBy) : Bytes := HashStream.text o.field++HashStream.flag o.ascending

def hashAgg : AggregateOp → Bytes
  | .count => [0]
  | .sum f => 1::HashStream.text f
  | .avg f => 2::HashStream.text f
  | .min f => 3::HashStream.text f
  | .max f => 4::HashStream.text f

/-- A bound writes which of the four it is. -/
def hashCursor (tag : UInt8) : Option (List Value) → Bytes
  | none => []
  | some vs => tag::vs.flatMap hashValue

/-- What the hasher is given of a query. -/
def hashQuery (q : Query) : Bytes :=
  HashStream.text q.collection++
    (q.filters.flatMap (hashFilter debug)++(q.orGroups.flatMap (fun g => g.flatMap (hashFilter debug))++
    (q.elemMatch.flatMap (hashElem debug)++(q.orderBy.flatMap hashOrder++
    (HashStream.optional q.limit++(HashStream.optional q.offset++
    (HashStream.flag q.deferBlobs++(HashStream.flag q.raw++
    (q.projection.flatMap HashStream.text++(q.aggregations.flatMap hashAgg++
    (hashCursor 0 q.startAt++(hashCursor 1 q.startAfter++
    (hashCursor 2 q.endAt++hashCursor 3 q.endBefore)))))))))))))

end hash

structure PlanCache where
  map : HMap UInt64 (QueryPlan × ℕ)
  ttl : ℕ

namespace PlanCache

def new (ttl : ℕ) : PlanCache := ⟨∅,ttl⟩

section cache
variable (hasher : Bytes → UInt64) (debug : Value → String) (text : QueryText) (im : IndexManager)
  (collectionRows workerCount : ℕ)

/-- While the indexes are not ready nothing is looked up and nothing is kept. -/
def getOrCompute (cache : PlanCache) (now : ℕ) (q : Query) (indexReady vectorReady : Bool) : QueryPlan × PlanCache :=
  if !indexReady then (QueryPlanner.plan text q im collectionRows workerCount false vectorReady,cache)
  else
    let key := hasher (hashQuery debug q)
    match (cache.map.lookup key).filter fun e => now-e.2 < cache.ttl with
    | some e => (e.1,cache)
    | none =>
      let plan := QueryPlanner.plan text q im collectionRows workerCount indexReady true
      (plan,⟨cache.map.insert key (plan,now),cache.ttl⟩)

/-- The plan without the cache, for indexes that are ready. -/
def fresh (q : Query) : QueryPlan := QueryPlanner.plan text q im collectionRows workerCount true true

/-- The plans of the queries, each issued at its instant. -/
def run (cache : PlanCache) : List (ℕ × Query) → List QueryPlan
  | [] => []
  | (now,q)::calls =>
    let r := getOrCompute hasher debug text im collectionRows workerCount cache now q true true
    r.1::run r.2 calls

end cache

section run
variable {hasher : Bytes → UInt64} {debug : Value → String} {text : QueryText} {im : IndexManager}
  {collectionRows workerCount : ℕ} {cache : PlanCache}

/-- Two queries that write one stream are planned alike. -/
def Agree (debug : Value → String) (text : QueryText) (im : IndexManager) (collectionRows workerCount : ℕ)
    (q q' : Query) : Prop :=
  hashQuery debug q = hashQuery debug q' →
    fresh text im collectionRows workerCount q = fresh text im collectionRows workerCount q'

instance : Std.Symm fun b b' : ℕ × Query => Agree debug text im collectionRows workerCount b.2 b'.2 :=
  ⟨fun _ _ h heq => (h heq.symm).symm⟩

/-- Under a key stands the plan of the first query that was issued with it. -/
def Keeps (hasher : Bytes → UInt64) (debug : Value → String) (text : QueryText) (im : IndexManager)
    (collectionRows workerCount : ℕ) (cache : PlanCache) (seen : List (ℕ × Query)) : Prop :=
  ∀ key,cache.map.lookup key = (seen.find? fun c => hasher (hashQuery debug c.2) = key).map fun c =>
    (fresh text im collectionRows workerCount c.2,c.1)

variable {seen : List (ℕ × Query)} {c : ℕ × Query}

theorem Keeps.getOrCompute (h : Keeps hasher debug text im collectionRows workerCount cache seen)
    (httl : ∀ b ∈ seen,c.1-b.1 < cache.ttl) :
    (getOrCompute hasher debug text im collectionRows workerCount cache c.1 c.2 true true).1 =
        fresh text im collectionRows workerCount
          ((seen.find? fun b => hasher (hashQuery debug b.2) = hasher (hashQuery debug c.2)).getD c).2 ∧
      (getOrCompute hasher debug text im collectionRows workerCount cache c.1 c.2 true true).2.ttl = cache.ttl ∧
      Keeps hasher debug text im collectionRows workerCount
        (getOrCompute hasher debug text im collectionRows workerCount cache c.1 c.2 true true).2 (seen++[c]) := by
  have hlookup := h (hasher (hashQuery debug c.2))
  rcases hfind : seen.find? fun b => hasher (hashQuery debug b.2) = hasher (hashQuery debug c.2) with _ | b
  · rw [hfind] at hlookup
    have heq : PlanCache.getOrCompute hasher debug text im collectionRows workerCount cache c.1 c.2 true true =
        (fresh text im collectionRows workerCount c.2,⟨cache.map.insert (hasher (hashQuery debug c.2))
          (fresh text im collectionRows workerCount c.2,c.1),cache.ttl⟩) := by
      simp [PlanCache.getOrCompute,hlookup,fresh]
    rw [heq,hfind]
    refine ⟨rfl,rfl,fun key => ?_⟩
    rw [lookup_insert_ite,List.find?_append]
    by_cases hkey : hasher (hashQuery debug c.2) = key
    · subst hkey
      simp [hfind]
    · rw [if_neg fun hk => hkey hk.symm,h key]
      simp [hkey]
  · rw [hfind] at hlookup
    have hold : c.1-b.1 < cache.ttl := httl b (List.mem_of_find?_eq_some hfind)
    have heq : PlanCache.getOrCompute hasher debug text im collectionRows workerCount cache c.1 c.2 true true =
        (fresh text im collectionRows workerCount b.2,cache) := by
      simp [PlanCache.getOrCompute,hlookup,Option.filter,hold]
    rw [heq,hfind]
    refine ⟨rfl,rfl,fun key => ?_⟩
    rw [h key,List.find?_append]
    by_cases hkey : hasher (hashQuery debug c.2) = key
    · subst hkey
      simp [hfind]
    · simp [hkey]

/-- The plan of a call is its own exactly if it agrees with every call before it. -/
theorem first_agrees_iff (hinj : ∀ b ∈ seen,hasher (hashQuery debug b.2) = hasher (hashQuery debug c.2) →
      hashQuery debug b.2 = hashQuery debug c.2)
    (hseen : seen.Pairwise fun b b' => Agree debug text im collectionRows workerCount b.2 b'.2) :
    fresh text im collectionRows workerCount
        ((seen.find? fun b => hasher (hashQuery debug b.2) = hasher (hashQuery debug c.2)).getD c).2 =
        fresh text im collectionRows workerCount c.2 ↔
      ∀ b ∈ seen,Agree debug text im collectionRows workerCount b.2 c.2 := by
  rcases hfind : seen.find? fun b => hasher (hashQuery debug b.2) = hasher (hashQuery debug c.2) with _ | f
  · rw [hfind]
    refine iff_of_true rfl fun b hb heq => ?_
    have hnot := List.find?_eq_none.1 hfind b hb
    exact absurd (by rw [heq]) (of_decide_eq_false (Bool.eq_false_iff.2 hnot))
  · have hf := List.mem_of_find?_eq_some hfind
    have hkey : hasher (hashQuery debug f.2) = hasher (hashQuery debug c.2) := by simpa using List.find?_some hfind
    have hstream := hinj f hf hkey
    rw [hfind]
    refine ⟨fun hplan b hb heq => ?_,fun hagree => hagree f hf hstream⟩
    -- the first call with the stream stands for every later one
    have hagree := hseen.forall_of_forall (fun _ _ _ => rfl) hb hf
    exact (hagree (heq.trans hstream.symm)).trans hplan

theorem run_iff_of_keeps {calls : List (ℕ × Query)}
    (h : Keeps hasher debug text im collectionRows workerCount cache seen)
    (hinj : ∀ a ∈ seen++calls,∀ b ∈ seen++calls,hasher (hashQuery debug a.2) = hasher (hashQuery debug b.2) →
      hashQuery debug a.2 = hashQuery debug b.2) (httl : (seen++calls).Pairwise fun a b => b.1-a.1 < cache.ttl)
    (hseen : seen.Pairwise fun b b' => Agree debug text im collectionRows workerCount b.2 b'.2) :
    run hasher debug text im collectionRows workerCount cache calls =
        calls.map (fun c => fresh text im collectionRows workerCount c.2) ↔
      (seen++calls).Pairwise fun b b' => Agree debug text im collectionRows workerCount b.2 b'.2 := by
  induction calls generalizing seen cache with
  | nil => simpa [run] using hseen
  | cons c calls ih =>
    have hmove : seen++c::calls = (seen++[c])++calls := by simp
    obtain ⟨hplan,hkept,hkeeps⟩ := h.getOrCompute (c := c) fun b hb =>
      (List.pairwise_append.1 httl).2.2 b hb c List.mem_cons_self
    have hknown : ∀ b ∈ seen,hasher (hashQuery debug b.2) = hasher (hashQuery debug c.2) →
        hashQuery debug b.2 = hashQuery debug c.2 := fun b hb => hinj b (List.mem_append_left _ hb) c (by simp)
    rw [run,List.map_cons,List.cons_eq_cons,hplan,first_agrees_iff hknown hseen]
    by_cases hagree : ∀ b ∈ seen,Agree debug text im collectionRows workerCount b.2 c.2
    · rw [hmove] at hinj httl ⊢
      rw [ih hkeeps hinj (by rwa [hkept]) (List.pairwise_append.2 ⟨hseen,List.pairwise_singleton _ _,fun b hb b' hb' => by
        rw [List.mem_singleton.1 hb']; exact hagree b hb⟩)]
      exact and_iff_right hagree
    · refine iff_of_false (fun hboth => hagree hboth.1) fun hall => hagree fun b hb => ?_
      exact (List.pairwise_append.1 hall).2.2 b hb c List.mem_cons_self

theorem keeps_new (ttl : ℕ) : Keeps hasher debug text im collectionRows workerCount (new ttl) [] := fun key => by
  simp [new]

end run

/-- Membership in a list of one number, and in another. -/
def memberQuery (n : Int64) : Query where
  collection := "c"
  filters := [⟨"f",.within,.array [.int n]⟩]

def equalQuery (n : Int64) : Query where
  collection := "c"
  filters := [⟨"f",.eq,.int n⟩]

end PlanCache

end HakoDB
