import HakoDB.Document.HakoDoc
import HakoDB.Lib.HashMap
import Mathlib.Data.Prod.Lex
import Mathlib.Data.String.Basic

/-! Queries for the documents with the nearest vectors. A deleted document keeps its node in the graph, and the window of
candidates is cut before such nodes are left out. -/
namespace HakoDB
open ByteCodec HashMap

/-- The bits of the numbers, of four bytes each. -/
def decodeF32s (bytes : Bytes) : Option (List UInt32) :=
  if bytes.length%4 = 0 then
    some ((List.range (bytes.length/4)).map fun i => UInt32.ofNat (leNat ((bytes.drop (4*i)).take 4)))
  else none

/-- What a query reads of the definition of its index. -/
structure KnnIndex where
  field : String
  dim : ℕ
  efSearch : Option UInt64
  validDim : 0 < dim ∧ dim ≤ 4096

/-- The search of the graph: all nodes from the nearest on, of which a search takes the first. -/
structure GraphSearch (D : Type) [LinearOrder D] where
  near : List UInt32 → List UInt32 → D
  rank : List UInt32 → List (String × List UInt32) → List (String × List UInt32)
  perm : ∀ q nodes,(rank q nodes).Perm nodes
  nearest : ∀ q nodes,(rank q nodes).Pairwise fun a b => near q a.2 ≤ near q b.2

/-- A search that sorts all nodes. -/
def GraphSearch.exact {D : Type} [LinearOrder D] (near : List UInt32 → List UInt32 → D) : GraphSearch D where
  near := near
  rank q := List.insertionSort fun a b => near q a.2 ≤ near q b.2
  perm _ nodes := List.perm_insertionSort _ nodes
  nearest q nodes := by
    have total : Std.Total fun a b : String × List UInt32 => near q a.2 ≤ near q b.2 := ⟨fun _ _ => le_total _ _⟩
    have trans : IsTrans _ fun a b : String × List UInt32 => near q a.2 ≤ near q b.2 := ⟨fun _ _ _ => le_trans⟩
    exact List.pairwise_insertionSort _ nodes

/-- The live documents, and the nodes of the graph. -/
structure VectorWorld where
  docs : HMap String HakoDoc
  nodes : List (String × List UInt32)

inductive VectorCall
  | put (id : String) (doc : HakoDoc)
  | delete (id : String)

namespace KnnIndex
variable (d : KnnIndex)

/-- The vector that a document enters the graph with. -/
def vectorOf (doc : HakoDoc) : Option (List UInt32) :=
  match doc.get d.field with
  | some (.binary b) => decodeF32s b
  | _ => none

/-- The vector that a document is scored with. -/
def scored (q : List UInt32) (doc : HakoDoc) : Option (List UInt32) :=
  match doc.get d.field with
  | some (.binary b) =>
    let v := (decodeF32s b).getD []
    if v.length = q.length then some v else none
  | _ => none

/-- The document carries a vector of the right dimension. -/
def carries (doc : HakoDoc) : Bool := (d.vectorOf doc).any fun v => v.length = d.dim

/-- A new vector takes the place of the old one; vectors of another dimension are ignored. -/
def upsert (id : String) (v : List UInt32) (nodes : List (String × List UInt32)) : List (String × List UInt32) :=
  if v.length ≠ d.dim then nodes
  else if id ∈ nodes.map Prod.fst then nodes.map fun n => if n.1 = id then (id,v) else n
  else nodes++[(id,v)]

def step (w : VectorWorld) : VectorCall → VectorWorld
  | .put id doc => ⟨w.docs.insert id doc,((d.vectorOf doc).map fun v => d.upsert id v w.nodes).getD w.nodes⟩
  | .delete id => {w with docs := w.docs.erase id}

def run (calls : List VectorCall) : VectorWorld := calls.foldl d.step ⟨∅,[]⟩

def ef (q : List UInt32) (maxIds : ℕ) : ℕ :=
  let low := if 128 ≤ q.length then 256 else 128
  (d.efSearch.map UInt64.toNat).getD (max low (min (min (maxIds*8) (2^64-1)) 20000))

/-- How many candidates are scored. -/
def rescoreN (q : List UInt32) (maxIds : ℕ) : ℕ :=
  let need := min maxIds (d.ef q maxIds)
  max need (min (max (min (need*4) (2^64-1)) 32) (d.ef q maxIds))

variable {D : Type} [LinearOrder D] (g : GraphSearch D) (distance : List UInt32 → List UInt32 → D)

/-- The candidates of a query without other filters: from a graph, or all documents if it is empty. -/
def candidates (order : HashOrder String HakoDoc) (w : VectorWorld) (q : List UInt32) (maxIds : ℕ) : List String :=
  if w.nodes.isEmpty then (order.entries w.docs).map Prod.fst
  else (((g.rank q w.nodes).take (d.ef q maxIds)).take (d.rescoreN q maxIds)).map Prod.fst

def knn (order : HashOrder String HakoDoc) (w : VectorWorld) (q : List UInt32) (maxIds : ℕ) : List String :=
  let found := (d.candidates g order w q maxIds).filterMap fun id =>
    (w.docs.lookup id).bind fun doc => (d.scored q doc).map fun v => toLex (distance q v,id)
  ((found.insertionSort (· ≤ ·)).take maxIds).map fun p => (ofLex p).2

/-- The document is live and carries a vector. -/
def liveIn (w : VectorWorld) (id : String) : Bool := (w.docs.lookup id).any d.carries

/-- The number of live documents that carry a vector. -/
def liveCount (w : VectorWorld) : ℕ := (w.docs.keys.filter fun id => d.liveIn w id).card

/-- Every live vector has a node, and no id has two. -/
structure Complete (w : VectorWorld) : Prop where
  nodup : (w.nodes.map Prod.fst).Nodup
  covers : ∀ id,d.liveIn w id → id ∈ w.nodes.map Prod.fst

variable {d} {w : VectorWorld} {q : List UInt32}

theorem map_fst_upsert (id : String) (v : List UInt32) (nodes : List (String × List UInt32)) :
    (d.upsert id v nodes).map Prod.fst =
      if v.length = d.dim ∧ id ∉ nodes.map Prod.fst then nodes.map Prod.fst++[id] else nodes.map Prod.fst := by
  unfold upsert
  by_cases hdim : v.length = d.dim
  · by_cases hid : id ∈ nodes.map Prod.fst
    · rw [if_neg (not_not.2 hdim),if_pos hid,if_neg (by simp [hid]),List.map_map]
      refine List.map_congr_left fun n _ => ?_
      by_cases hn : n.1 = id <;> simp [hn]
    · rw [if_neg (not_not.2 hdim),if_neg hid,if_pos ⟨hdim,hid⟩,List.map_append,List.map_singleton]
  · rw [if_pos hdim,if_neg (fun h => hdim h.1)]

theorem Complete.step (h : d.Complete w) (call : VectorCall) : d.Complete (d.step w call) := by
  cases call with
  | delete id =>
    refine ⟨h.nodup,fun k hk => h.covers k ?_⟩
    by_cases hkid : k = id <;> simp_all [liveIn,KnnIndex.step]
  | put id doc =>
    cases hv : d.vectorOf doc with
    | none =>
      refine ⟨by simpa [KnnIndex.step,hv] using h.nodup,fun k hk => ?_⟩
      have hold : d.liveIn w k := by
        by_cases hkid : k = id <;> simp_all [liveIn,KnnIndex.step,carries]
      simpa [KnnIndex.step,hv] using h.covers k hold
    | some v =>
      have hnodes : (d.step w (.put id doc)).nodes = d.upsert id v w.nodes := by simp [KnnIndex.step,hv]
      constructor
      · rw [hnodes,map_fst_upsert]
        split_ifs with hnew
        · exact List.nodup_append_comm.1 (List.nodup_cons.2 ⟨hnew.2,h.nodup⟩)
        · exact h.nodup
      · intro k hk
        rw [hnodes,map_fst_upsert]
        by_cases hkid : k = id
        · subst hkid
          have hdim : v.length = d.dim := by simpa [liveIn,KnnIndex.step,carries,hv] using hk
          by_cases hmem : k ∈ w.nodes.map Prod.fst <;> simp [hdim,hmem]
        · have hold := h.covers k (by simpa [liveIn,KnnIndex.step,hkid] using hk)
          split_ifs
          · exact List.mem_append_left _ hold
          · exact hold

theorem complete_run (d : KnnIndex) (calls : List VectorCall) : d.Complete (d.run calls) := by
  refine List.foldlRecOn (motive := fun w => d.Complete w) calls _ ⟨.nil,?_⟩ fun w h call _ => h.step call
  intro id hid
  simp [liveIn] at hid

/-- A document is scored if it carries a vector. -/
theorem isSome_scored (hq : q.length = d.dim) (doc : HakoDoc) : (d.scored q doc).isSome = d.carries doc := by
  have hpos := d.validDim.1
  unfold scored carries vectorOf
  split
  · rename_i b hb
    cases hdec : decodeF32s b with
    | none => simp [hq,hpos.ne]
    | some v => by_cases hv : v.length = d.dim <;> simp [hq,hv]
  · rfl

theorem length_knn (hq : q.length = d.dim) (order : HashOrder String HakoDoc) (maxIds : ℕ) :
    (d.knn g distance order w q maxIds).length =
      min maxIds ((d.candidates g order w q maxIds).filter fun id => d.liveIn w id).length := by
  unfold knn
  rw [List.length_map,List.length_take,List.length_insertionSort,List.length_filterMap_eq_countP,List.countP_eq_length_filter]
  congr 2
  refine List.filter_congr fun id _ => ?_
  cases hdoc : w.docs.lookup id with
  | none => simp [liveIn,hdoc]
  | some doc => simp [liveIn,hdoc,isSome_scored hq]

/-- No more than the live documents are found among different ids. -/
theorem length_filter_le_liveCount {ids : List String} (hids : ids.Nodup) :
    (ids.filter fun id => d.liveIn w id).length ≤ d.liveCount w := by
  rw [← List.toFinset_card_of_nodup (hids.filter _)]
  refine Finset.card_le_card fun id hid => ?_
  simp only [List.mem_toFinset,List.mem_filter] at hid
  rw [Finset.mem_filter,Finmap.mem_keys,← Finmap.lookup_isSome]
  refine ⟨?_,hid.2⟩
  cases hdoc : w.docs.lookup id with
  | none => simp [liveIn,hdoc] at hid
  | some doc => rfl

theorem Complete.nodup_candidates (h : d.Complete w) (order : HashOrder String HakoDoc) (k : ℕ) :
    (d.candidates g order w q k).Nodup := by
  unfold candidates
  split_ifs
  · exact order.nodup _
  · rw [List.map_take,List.map_take]
    have hrank := ((g.perm q w.nodes).map Prod.fst).nodup_iff.2 h.nodup
    exact (hrank.sublist (List.take_sublist _ _)).sublist (List.take_sublist _ _)

theorem rescoreN_le_ef (q : List UInt32) (k : ℕ) : d.rescoreN q k ≤ d.ef q k :=
  max_le (min_le_right _ _) (min_le_right _ _)

/-- Without nodes there is nothing to find. -/
theorem Complete.liveCount_of_isEmpty (h : d.Complete w) (hw : w.nodes.isEmpty) : d.liveCount w = 0 := by
  rw [liveCount,Finset.card_eq_zero,Finset.filter_eq_empty_iff]
  intro id _ hid
  have hmem := h.covers id hid
  rw [List.isEmpty_iff.1 hw] at hmem
  cases hmem

theorem Complete.length_candidates (h : d.Complete w) (order : HashOrder String HakoDoc) (k : ℕ) :
    ((d.candidates g order w q k).filter fun id => d.liveIn w id).length =
      (((g.rank q w.nodes).take (d.rescoreN q k)).filter fun n => d.liveIn w n.1).length := by
  by_cases hw : w.nodes.isEmpty
  · have hzero := length_filter_le_liveCount (d := d) (w := w) (h.nodup_candidates (q := q) g order k)
    rw [h.liveCount_of_isEmpty hw] at hzero
    have hrank : g.rank q w.nodes = [] := by
      have hperm := g.perm q w.nodes
      rw [List.isEmpty_iff.1 hw] at hperm ⊢
      exact hperm.eq_nil
    rw [hrank]
    simpa using hzero
  · rw [candidates,if_neg hw,List.take_take,min_eq_left (rescoreN_le_ef q k),List.filter_map,List.length_map]
    rfl

/-- A query for `k` rows gives as many as there are, up to `k`, exactly if so many of the nearest nodes that are scored
belong to live documents. -/
theorem length_knn_iff (d : KnnIndex) (g : GraphSearch D) (distance : List UInt32 → List UInt32 → D)
    (order : HashOrder String HakoDoc) (calls : List VectorCall) (hq : q.length = d.dim) (k : ℕ) :
    (d.knn g distance order (d.run calls) q k).length = min k (d.liveCount (d.run calls)) ↔
      min k (d.liveCount (d.run calls)) ≤
        (((g.rank q (d.run calls).nodes).take (d.rescoreN q k)).filter fun n => d.liveIn (d.run calls) n.1).length := by
  have h := complete_run d calls
  generalize d.run calls = w at h ⊢
  have hle := length_filter_le_liveCount (d := d) (w := w) (h.nodup_candidates (q := q) g order k)
  rw [length_knn g distance hq,← h.length_candidates g order k]
  omega

/-- The bits of numbers that are not negative lie as the numbers do. -/
def bitsApart (q v : List UInt32) : ℕ := Nat.dist (q.headD 0).toNat (v.headD 0).toNat

def smallDef (efSearch : Option UInt64) : KnnIndex := ⟨"v",1,efSearch,by decide⟩

/-- The document of a number from a half on, more the larger `n` is. -/
def putNumber (n : ℕ) : VectorCall :=
  .put (.ofList (List.replicate (n+1) 'd')) ⟨[("v",.binary [0,0,UInt8.ofNat n,63])],1⟩

def deleteNumber (n : ℕ) : VectorCall := .delete (.ofList (List.replicate (n+1) 'd'))

theorem length_knn_twoPuts :
    (((smallDef none).knn (.exact bitsApart) bitsApart .byKey ((smallDef none).run [putNumber 1,putNumber 2]) [0] 1).length =
      min 1 ((smallDef none).liveCount ((smallDef none).run [putNumber 1,putNumber 2]))) :=
  (length_knn_iff (q := [0]) (smallDef none) (.exact bitsApart) bitsApart .byKey [putNumber 1,putNumber 2] rfl 1).2
    (by decide +kernel)

/-- The 32 nearest documents of 33 are deleted: a query for one finds none. -/
theorem knn_misses_behindDeleted :
    let w := (smallDef none).run ((List.range 33).map putNumber++(List.range 32).map deleteNumber)
    (smallDef none).liveCount w = 1 ∧
      (smallDef none).knn (.exact bitsApart) bitsApart .byKey w [0] 1 = [] := by
  decide +kernel

end KnnIndex

end HakoDB
