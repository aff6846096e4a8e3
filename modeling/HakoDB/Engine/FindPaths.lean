import Mathlib.Data.Finset.Card
import Mathlib.Data.Finset.Union
import Mathlib.Data.List.Pairwise
import Mathlib.Order.Bounds.Basic

/-! The walk over the references between documents by increasing number of hops. A node is marked when it is
first met; one that no read finds is walked through, but it is not a hit. -/
namespace HakoDB

/-- A neighbour with the weight of the hop and the document of its edge, if it has one. -/
structure Neighbor (α : Type) where
  node : α
  weight : ℕ
  edge : Option String

/-- What one expansion lists for a node, without the nodes that the walk's filter refuses, and the nodes that
a read finds. -/
structure RefGraph (α : Type) where
  expandNeighbors : α → List (Neighbor α)
  live : α → Bool

/-- What the loops themselves read of a specification. -/
structure WalkSpec where
  maxDepth : ℕ
  limit : ℕ
  includePath : Bool
  includeVia : Bool

structure PathHit (α : Type) where
  node : α
  depth : ℕ
  cost : ℕ
  path : List α
  via : List (Option String)

variable {α : Type} [DecidableEq α]

/-- The recorded parents from a node back to the start; a chain has no more steps than there are nodes. -/
def reconstructTraversePath (parent : α → Option α) (start : α) : ℕ → α → List α
  | 0,cur => [cur]
  | n+1,cur =>
    if cur = start then [cur]
    else match parent cur with
      | some p => reconstructTraversePath parent start n p++[cur]
      | none => [cur]

def reconstructTraverseVia (parent : α → Option α) (parentEdge : α → Option (Option String)) (start : α) :
    ℕ → α → List (Option String)
  | 0,_ => []
  | n+1,cur =>
    if cur = start then []
    else match parent cur with
      | some p => reconstructTraverseVia parent parentEdge start n p++[(parentEdge cur).getD none]
      | none => [(parentEdge cur).getD none]

structure Walk (α : Type) where
  visited : Finset α
  parent : α → Option α
  parentEdge : α → Option (Option String)
  queue : List (α × ℕ)
  out : List (PathHit α)
  full : Bool

namespace Walk
variable (g : RefGraph α) (spec : WalkSpec) (start : α)

/-- Mark a neighbour that is met for the first time. -/
def discover (u : α) (depth : ℕ) (s : Walk α) (nb : Neighbor α) : Walk α where
  visited := insert nb.node s.visited
  parent := if spec.includePath then Function.update s.parent nb.node (some u) else s.parent
  parentEdge := if spec.includeVia then Function.update s.parentEdge nb.node (some nb.edge) else s.parentEdge
  queue := if depth+1 < spec.maxDepth then s.queue++[(nb.node,depth+1)] else s.queue
  out := s.out
  full := s.full

def hit (s : Walk α) (node : α) (depth : ℕ) : PathHit α where
  node := node
  depth := depth
  cost := depth
  path := if spec.includePath then reconstructTraversePath s.parent start s.visited.card node else []
  via := if spec.includeVia then reconstructTraverseVia s.parent s.parentEdge start s.visited.card node else []

/-- The limit is looked at after the neighbour was marked; when it is reached, the walk ends. -/
def visit (u : α) (depth : ℕ) (s : Walk α) (nb : Neighbor α) : Walk α :=
  if s.full = true ∨ nb.node ∈ s.visited then s
  else
    let s := s.discover spec u depth nb
    if spec.limit ≤ s.out.length then {s with full := true}
    else if g.live nb.node then {s with out := s.out++[s.hit spec start nb.node (depth+1)]}
    else s

/-- The loop, for at most so many rounds. -/
def loop : ℕ → Walk α → Option (List (PathHit α))
  | 0,_ => none
  | fuel+1,s =>
    match s.queue with
    | [] => some s.out
    | (u,depth)::rest =>
      if spec.maxDepth ≤ depth then loop fuel {s with queue := rest}
      else
        let s := (g.expandNeighbors u).foldl (visit g spec start u depth) {s with queue := rest}
        if s.full then some s.out else loop fuel s

def init : Walk α := ⟨{start},fun _ => none,fun _ => none,[(start,0)],[],false⟩

end Walk

/-- A walk without weights over a specification that passed its check. -/
def RefGraph.findPaths (g : RefGraph α) (start : α) (spec : WalkSpec) (fuel : ℕ) : Option (List (PathHit α)) :=
  if g.live start then Walk.loop g spec start fuel (Walk.init start) else some []

/-- A route of so many hops. -/
inductive RefGraph.Hops (g : RefGraph α) (start : α) : α → ℕ → Prop
  | nil : Hops g start start 0
  | hop {u : α} {k : ℕ} {nb : Neighbor α} : Hops g start u k → nb ∈ g.expandNeighbors u → Hops g start nb.node (k+1)

/-- The nodes met so far, each with its depth, and those of them that wait: the walk without its limit. -/
structure Front (α : Type) where
  seen : List (α × ℕ)
  queue : List (α × ℕ)

namespace Front
variable (g : RefGraph α) (maxDepth : ℕ)

def meet (depth : ℕ) (f : Front α) (nb : Neighbor α) : Front α :=
  if nb.node ∈ f.seen.map Prod.fst then f
  else ⟨f.seen++[(nb.node,depth+1)],if depth+1 < maxDepth then f.queue++[(nb.node,depth+1)] else f.queue⟩

/-- Everything that is met in the end. -/
def bfs : ℕ → Front α → List (α × ℕ)
  | 0,f => f.seen
  | fuel+1,f =>
    match f.queue with
    | [] => f.seen
    | (u,depth)::rest => bfs fuel ((g.expandNeighbors u).foldl (meet maxDepth depth) ⟨f.seen,rest⟩)

variable {g maxDepth} {f : Front α} {start u : α} {d : ℕ} {nbs : List (Neighbor α)}

/-- An expansion appends the neighbours that are new. -/
structure Grown (maxDepth : ℕ) (nbs : List (Neighbor α)) (d : ℕ) (f f' : Front α) : Prop where
  news : ∃ vs : List α,f'.seen = f.seen++vs.map (·,d+1) ∧
    f'.queue = f.queue++(if d+1 < maxDepth then vs.map (·,d+1) else []) ∧ ∀ v ∈ vs,∃ nb ∈ nbs,nb.node = v
  nodup : (f.seen.map Prod.fst).Nodup → (f'.seen.map Prod.fst).Nodup
  met : ∀ nb ∈ nbs,nb.node ∈ f'.seen.map Prod.fst

theorem grown_meet (maxDepth d : ℕ) (f : Front α) (nb : Neighbor α) : Grown maxDepth [nb] d f (meet maxDepth d f nb) := by
  unfold meet
  split
  · rename_i hmem
    exact ⟨⟨[],by simp⟩,id,by simpa using hmem⟩
  · rename_i hnew
    refine ⟨⟨[nb.node],by split <;> simp⟩,fun hnd => ?_,by simp⟩
    rw [List.map_append,List.nodup_append']
    exact ⟨hnd,by simp,by simpa using hnew⟩

theorem grown_expand (maxDepth : ℕ) (nbs : List (Neighbor α)) (d : ℕ) (f : Front α) :
    Grown maxDepth nbs d f (nbs.foldl (meet maxDepth d) f) := by
  induction nbs generalizing f with
  | nil => exact ⟨⟨[],by simp⟩,id,by simp⟩
  | cons nb nbs ih =>
    obtain ⟨⟨vs,hseen,hqueue,hvs⟩,hnd,hmet⟩ := grown_meet maxDepth d f nb
    obtain ⟨⟨ws,hseen',hqueue',hws⟩,hnd',hmet'⟩ := ih (meet maxDepth d f nb)
    refine ⟨⟨vs++ws,?_,?_,fun v hv => ?_⟩,hnd' ∘ hnd,fun x hx => ?_⟩
    · rw [List.foldl_cons,hseen',hseen,List.map_append,List.append_assoc]
    · rw [List.foldl_cons,hqueue',hqueue]
      split <;> simp
    · rcases List.mem_append.1 hv with hv | hv
      · obtain ⟨x,hx,hxv⟩ := hvs v hv
        exact ⟨x,List.mem_cons.2 (.inl (List.mem_singleton.1 hx)),hxv⟩
      · obtain ⟨x,hx,hxv⟩ := hws v hv
        exact ⟨x,List.mem_cons_of_mem _ hx,hxv⟩
    · rcases List.mem_cons.1 hx with rfl | hx
      · have hin := hmet x List.mem_cons_self
        rw [List.foldl_cons,hseen',List.map_append]
        exact List.mem_append_left _ hin
      · exact hmet' x hx

/-- The nodes lie in order of their depth, and those that wait are less than two levels behind the last one. -/
structure Fair (g : RefGraph α) (maxDepth : ℕ) (start : α) (f : Front α) : Prop where
  root : (start,0) ∈ f.seen
  nodup : (f.seen.map Prod.fst).Nodup
  sorted : f.seen.Pairwise fun x y => x.2 ≤ y.2
  waits : ∀ q ∈ f.queue,q ∈ f.seen ∧ q.2 < maxDepth
  order : f.queue.Pairwise fun x y => x.2 ≤ y.2
  near : ∀ x ∈ f.seen,∀ q ∈ f.queue,x.2 ≤ q.2+1
  route : ∀ x ∈ f.seen,g.Hops start x.1 x.2 ∧ x.2 ≤ maxDepth
  closed : ∀ x ∈ f.seen,x.2 < maxDepth → x ∈ f.queue ∨ ∀ nb ∈ g.expandNeighbors x.1,∃ e ≤ x.2+1,(nb.node,e) ∈ f.seen

theorem Fair.step {rest : List (α × ℕ)} (h : Fair g maxDepth start f) (hq : f.queue = (u,d)::rest) :
    Fair g maxDepth start ((g.expandNeighbors u).foldl (meet maxDepth d) ⟨f.seen,rest⟩) := by
  obtain ⟨⟨vs,hseen,hqueue,hvs⟩,hnd,hmet⟩ := grown_expand maxDepth (g.expandNeighbors u) d ⟨f.seen,rest⟩
  generalize (g.expandNeighbors u).foldl (meet maxDepth d) ⟨f.seen,rest⟩ = f' at *
  have hu : (u,d) ∈ f.queue := hq ▸ List.mem_cons_self
  have hlast : ∀ x ∈ f.seen,x.2 ≤ d+1 := fun x hx => h.near x hx (u,d) hu
  have horder : (∀ q ∈ rest,d ≤ q.2) ∧ rest.Pairwise fun x y => x.2 ≤ y.2 := by
    have hpair := h.order
    rw [hq,List.pairwise_cons] at hpair
    exact hpair
  have hrest : ∀ q ∈ rest,q ∈ f.seen ∧ q.2 < maxDepth := fun q hqr => h.waits q (hq ▸ List.mem_cons_of_mem _ hqr)
  have hin : ∀ x,x ∈ f'.seen ↔ x ∈ f.seen ∨ ∃ v ∈ vs,x = (v,d+1) := fun x => by
    simp [hseen,eq_comm]
  have hqin : ∀ q,q ∈ f'.queue ↔ q ∈ rest ∨ d+1 < maxDepth ∧ ∃ v ∈ vs,q = (v,d+1) := fun q => by
    rw [hqueue]
    split <;> simp_all [eq_comm]
  have hall : ∀ x ∈ f'.seen,x.2 ≤ d+1 := fun x hx => by
    rcases (hin x).1 hx with hx | ⟨v,-,rfl⟩
    · exact hlast x hx
    · exact le_rfl
  refine ⟨(hin _).2 (.inl h.root),hnd h.nodup,?_,fun q hqm => ?_,?_,fun x hx q hqm => ?_,fun x hx => ?_,fun x hx hlt => ?_⟩
  · rw [hseen,List.pairwise_append]
    refine ⟨h.sorted,?_,fun x hx y hy => ?_⟩
    · exact List.pairwise_map.2 (List.pairwise_of_forall fun _ _ => le_rfl)
    · obtain ⟨v,-,rfl⟩ := List.mem_map.1 hy
      exact hlast x hx
  · rcases (hqin q).1 hqm with hqr | ⟨hlt,v,hv,rfl⟩
    · exact ⟨(hin q).2 (.inl (hrest q hqr).1),(hrest q hqr).2⟩
    · exact ⟨(hin _).2 (.inr ⟨v,hv,rfl⟩),hlt⟩
  · rw [hqueue,List.pairwise_append]
    refine ⟨horder.2,?_,fun x hx y hy => ?_⟩
    · split
      · exact List.pairwise_map.2 (List.pairwise_of_forall fun _ _ => le_rfl)
      · exact .nil
    · split at hy
      · obtain ⟨v,-,rfl⟩ := List.mem_map.1 hy
        exact hlast x (hrest x hx).1
      · cases hy
  · rcases (hqin q).1 hqm with hqr | ⟨-,v,-,rfl⟩
    · exact (hall x hx).trans (Nat.add_le_add_right (horder.1 q hqr) 1)
    · exact (hall x hx).trans (Nat.le_succ _)
  · rcases (hin x).1 hx with hx | ⟨v,hv,rfl⟩
    · exact h.route x hx
    · obtain ⟨nb,hnb,rfl⟩ := hvs v hv
      exact ⟨.hop (h.route (u,d) (h.waits _ hu).1).1 hnb,(h.waits _ hu).2⟩
  · rcases (hin x).1 hx with hold | ⟨v,hv,rfl⟩
    · rcases h.closed x hold hlt with hwait | hdone
      · rw [hq,List.mem_cons] at hwait
        rcases hwait with rfl | hwait
        · refine .inr fun nb hnb => ?_
          obtain ⟨y,hy,hynode⟩ := List.mem_map.1 (hmet nb hnb)
          exact ⟨y.2,hall y hy,hynode ▸ hy⟩
        · exact .inl ((hqin x).2 (.inl hwait))
      · refine .inr fun nb hnb => ?_
        obtain ⟨e,he,hmem⟩ := hdone nb hnb
        exact ⟨e,he,(hin _).2 (.inl hmem)⟩
    · exact .inl ((hqin _).2 (.inr ⟨hlt,v,hv,rfl⟩))

variable (g) in
/-- The nodes within so many hops. -/
def ball (start : α) : ℕ → Finset α
  | 0 => {start}
  | k+1 => ball start k ∪ (ball start k).biUnion fun u => ((g.expandNeighbors u).map Neighbor.node).toFinset

theorem mem_ball {v : α} {k n : ℕ} (h : g.Hops start v k) (hk : k ≤ n) : v ∈ ball g start n := by
  have hmono : ∀ {i j},i ≤ j → ball g start i ⊆ ball g start j := fun {i j} hij => by
    induction hij with
    | refl => exact Finset.Subset.refl _
    | step _ ih => exact ih.trans Finset.subset_union_left
  refine hmono hk ?_
  clear hk
  induction h with
  | nil => simp [ball]
  | hop _ hnb ih =>
    refine Finset.mem_union_right _ (Finset.mem_biUnion.2 ⟨_,ih,?_⟩)
    simpa using ⟨_,hnb,rfl⟩

theorem Fair.length_le (h : Fair g maxDepth start f) : f.seen.length ≤ (ball g start maxDepth).card := by
  rw [← List.length_map (f := Prod.fst),← List.toFinset_card_of_nodup h.nodup]
  refine Finset.card_le_card fun v hv => ?_
  obtain ⟨x,hx,rfl⟩ := List.mem_map.1 (List.mem_toFinset.1 hv)
  exact mem_ball (h.route x hx).1 (h.route x hx).2

/-- A round takes one node out; each node it adds is a new one. -/
theorem Fair.round {rest : List (α × ℕ)} {fuel : ℕ} (hq : f.queue = (u,d)::rest)
    (hfuel : f.queue.length+(ball g start maxDepth).card < fuel+1+f.seen.length) :
    ((g.expandNeighbors u).foldl (meet maxDepth d) ⟨f.seen,rest⟩).queue.length+(ball g start maxDepth).card <
      fuel+((g.expandNeighbors u).foldl (meet maxDepth d) ⟨f.seen,rest⟩).seen.length := by
  obtain ⟨vs,hseen,hqueue,-⟩ := (grown_expand maxDepth (g.expandNeighbors u) d ⟨f.seen,rest⟩).news
  have hlen : (if d+1 < maxDepth then vs.map (·,d+1) else []).length ≤ vs.length := by
    split <;> simp
  rw [hseen,hqueue]
  simp only [hq,List.length_cons,List.length_append,List.length_map] at hfuel ⊢
  omega

theorem Fair.bfs {fuel : ℕ} (h : Fair g maxDepth start f)
    (hfuel : f.queue.length+(ball g start maxDepth).card < fuel+f.seen.length) :
    Fair g maxDepth start ⟨bfs g maxDepth fuel f,[]⟩ ∧ f.seen <+: bfs g maxDepth fuel f := by
  induction fuel generalizing f with
  | zero => exact absurd h.length_le (by omega)
  | succ fuel ih =>
    cases hq : f.queue with
    | nil =>
      obtain ⟨seen,queue⟩ := f
      obtain rfl : queue = [] := hq
      exact ⟨h,List.prefix_refl _⟩
    | cons x rest =>
      obtain ⟨u,d⟩ := x
      obtain ⟨vs,hseen,-⟩ := (grown_expand maxDepth (g.expandNeighbors u) d ⟨f.seen,rest⟩).news
      obtain ⟨hfair,hext⟩ := ih (h.step hq) (Fair.round hq hfuel)
      simp only [Front.bfs,hq]
      exact ⟨hfair,(hseen ▸ List.prefix_append _ _).trans hext⟩

theorem bfs_stable {n m : ℕ} (h : Fair g maxDepth start f)
    (hfuel : f.queue.length+(ball g start maxDepth).card < n+f.seen.length) (hm : n ≤ m) :
    bfs g maxDepth m f = bfs g maxDepth n f := by
  induction n generalizing f m with
  | zero => exact absurd h.length_le (by omega)
  | succ n ih =>
    obtain ⟨m,rfl⟩ := Nat.exists_eq_succ_of_ne_zero (by omega : m ≠ 0)
    cases hq : f.queue with
    | nil => simp only [Front.bfs,hq]
    | cons x rest =>
      obtain ⟨u,d⟩ := x
      simp only [Front.bfs,hq]
      exact ih (h.step hq) (Fair.round hq hfuel) (by omega)

omit [DecidableEq α] in
/-- When nothing waits, every node within reach was met on a shortest route. -/
theorem Fair.reaches {seen : List (α × ℕ)} (h : Fair g maxDepth start ⟨seen,[]⟩) {v : α} {k : ℕ} (hv : g.Hops start v k)
    (hk : k ≤ maxDepth) : ∃ e ≤ k,(v,e) ∈ seen := by
  induction hv with
  | nil => exact ⟨0,le_rfl,h.root⟩
  | @hop u k nb _ hnb ih =>
    obtain ⟨e,he,hmem⟩ := ih (by omega)
    rcases h.closed _ hmem (by simp only; omega) with hwait | hdone
    · cases hwait
    · obtain ⟨e',he',hmem'⟩ := hdone nb hnb
      exact ⟨e',by simp only at he'; omega,hmem'⟩

end Front

namespace Walk
variable {g : RefGraph α} {spec : WalkSpec} {start u : α} {d : ℕ} {s : Walk α} {f : Front α}

def key (h : PathHit α) : α × ℕ := (h.node,h.depth)

variable (g) in
/-- The nodes among those met that are hits. -/
def hitsAmong (seen : List (α × ℕ)) : List (α × ℕ) := seen.filter fun x => 1 ≤ x.2 ∧ g.live x.1

/-- The walk has met what it would have met without its limit. -/
structure Sim (g : RefGraph α) (spec : WalkSpec) (s : Walk α) (f : Front α) : Prop where
  full : s.full = false
  visited : ∀ x,x ∈ s.visited ↔ x ∈ f.seen.map Prod.fst
  queue : s.queue = f.queue
  out : s.out.map key = hitsAmong g f.seen
  room : s.out.length ≤ spec.limit

/-- The walk has ended with the first hits. -/
structure Stopped (g : RefGraph α) (spec : WalkSpec) (s : Walk α) (seen : List (α × ℕ)) : Prop where
  full : s.full = true
  out : s.out.map key = (hitsAmong g seen).take spec.limit
  length : s.out.length = spec.limit

omit [DecidableEq α] in
theorem Stopped.extend {seen seen' : List (α × ℕ)} (h : Stopped g spec s seen) (hext : seen <+: seen') :
    Stopped g spec s seen' := by
  obtain ⟨more,rfl⟩ := hext
  refine ⟨h.full,?_,h.length⟩
  have hlen := congrArg List.length h.out
  rw [List.length_map,h.length,List.length_take] at hlen
  rw [h.out,hitsAmong,hitsAmong,List.filter_append,List.take_append_of_le_length]
  unfold hitsAmong at hlen
  omega

theorem Sim.visit (h : Sim g spec s f) (start u : α) (d : ℕ) (nb : Neighbor α) :
    Sim g spec (visit g spec start u d s nb) (Front.meet spec.maxDepth d f nb) ∨
      Stopped g spec (visit g spec start u d s nb) (Front.meet spec.maxDepth d f nb).seen := by
  by_cases hmem : nb.node ∈ s.visited
  · rw [Walk.visit,if_pos (.inr hmem),Front.meet,if_pos ((h.visited _).1 hmem)]
    exact .inl h
  have hnew : nb.node ∉ f.seen.map Prod.fst := fun hin => hmem ((h.visited _).2 hin)
  have hvisit : ¬(s.full = true ∨ nb.node ∈ s.visited) := by simp [h.full,hmem]
  rw [Walk.visit,if_neg hvisit,Front.meet,if_neg hnew]
  have hvisited : ∀ x,x ∈ insert nb.node s.visited ↔ x ∈ (f.seen++[(nb.node,d+1)]).map Prod.fst := fun x => by
    simp [h.visited,or_comm]
  have hqueue : (s.discover spec u d nb).queue =
      if d+1 < spec.maxDepth then f.queue++[(nb.node,d+1)] else f.queue := by
    simp [discover,h.queue]
  have hhits : hitsAmong g (f.seen++[(nb.node,d+1)]) =
      hitsAmong g f.seen++if g.live nb.node then [(nb.node,d+1)] else [] := by
    unfold hitsAmong
    rw [List.filter_append]
    by_cases hlive : g.live nb.node <;> simp [hlive]
  have hout : (s.discover spec u d nb).out = s.out := rfl
  simp only [hout]
  by_cases hlimit : spec.limit ≤ s.out.length
  · rw [if_pos hlimit]
    have hlen : s.out.length = spec.limit := le_antisymm h.room hlimit
    have hcount : (hitsAmong g f.seen).length = spec.limit := by rw [← h.out,List.length_map,hlen]
    refine .inr ⟨rfl,?_,hlen⟩
    rw [hhits,List.take_append_of_le_length hcount.ge,← hcount,List.take_length]
    exact h.out
  · rw [if_neg hlimit]
    left
    by_cases hlive : g.live nb.node = true
    · rw [if_pos hlive]
      refine ⟨h.full,hvisited,hqueue,?_,?_⟩
      · rw [hhits,if_pos hlive,List.map_append,h.out]
        rfl
      · rw [List.length_append,List.length_singleton]
        omega
    · rw [if_neg hlive]
      refine ⟨h.full,hvisited,hqueue,?_,h.room⟩
      rw [hhits,if_neg hlive,List.append_nil]
      exact h.out

theorem Sim.expand (h : Sim g spec s f) (start u : α) (d : ℕ) (nbs : List (Neighbor α)) :
    Sim g spec (nbs.foldl (Walk.visit g spec start u d) s) (nbs.foldl (Front.meet spec.maxDepth d) f) ∨
      Stopped g spec (nbs.foldl (Walk.visit g spec start u d) s) (nbs.foldl (Front.meet spec.maxDepth d) f).seen := by
  induction nbs generalizing s f with
  | nil => exact .inl h
  | cons nb nbs ih =>
    rcases h.visit start u d nb with hsim | hstop
    · exact ih hsim
    · right
      have hstays : ∀ (t : Walk α) (nbs : List (Neighbor α)),t.full = true →
          nbs.foldl (Walk.visit g spec start u d) t = t := fun t nbs ht => by
        induction nbs with
        | nil => rfl
        | cons nb nbs ih => rw [List.foldl_cons,Walk.visit,if_pos (.inl ht),ih]
      obtain ⟨vs,hseen,-⟩ := (Front.grown_expand spec.maxDepth nbs d (Front.meet spec.maxDepth d f nb)).news
      rw [List.foldl_cons,List.foldl_cons,hstays _ _ hstop.full,hseen]
      exact hstop.extend (List.prefix_append _ _)

theorem Sim.loop {fuel : ℕ} (h : Sim g spec s f) (hfair : Front.Fair g spec.maxDepth start f)
    (hfuel : f.queue.length+(Front.ball g start spec.maxDepth).card < fuel+f.seen.length) :
    ∃ hits,Walk.loop g spec start fuel s = some hits ∧
      hits.map key = (hitsAmong g (Front.bfs g spec.maxDepth fuel f)).take spec.limit := by
  induction fuel generalizing s f with
  | zero => exact absurd hfair.length_le (by omega)
  | succ fuel ih =>
    cases hq : f.queue with
    | nil =>
      refine ⟨s.out,by simp only [Walk.loop,h.queue,hq],?_⟩
      simp only [Front.bfs,hq]
      rw [h.out,List.take_of_length_le]
      rw [← h.out,List.length_map]
      exact h.room
    | cons x rest =>
      obtain ⟨u,d⟩ := x
      have hlt : d < spec.maxDepth := (hfair.waits (u,d) (hq ▸ List.mem_cons_self)).2
      have hpop : Sim g spec {s with queue := rest} ⟨f.seen,rest⟩ := ⟨h.full,h.visited,rfl,h.out,h.room⟩
      have hnext := hfair.step hq
      have hround := Front.Fair.round hq hfuel
      simp only [Walk.loop,h.queue,hq,if_neg (not_le.2 hlt),Front.bfs]
      rcases hpop.expand start u d (g.expandNeighbors u) with hsim | hstop
      · rw [hsim.full]
        exact ih hsim hnext hround
      · rw [hstop.full,if_pos rfl]
        exact ⟨_,rfl,(hstop.extend (hnext.bfs hround).2).out⟩

omit [DecidableEq α] in
theorem sim_init (g : RefGraph α) (spec : WalkSpec) (start : α) : Sim g spec (init start) ⟨[(start,0)],[(start,0)]⟩ :=
  ⟨rfl,by simp [init],rfl,by simp [init,hitsAmong],Nat.zero_le _⟩

omit [DecidableEq α] in
theorem fair_init (g : RefGraph α) {maxDepth : ℕ} (h : 0 < maxDepth) (start : α) :
    Front.Fair g maxDepth start ⟨[(start,0)],[(start,0)]⟩ where
  root := List.mem_singleton_self _
  nodup := by simp
  sorted := List.pairwise_singleton _ _
  waits := by simpa using h
  order := List.pairwise_singleton _ _
  near := by simp
  route := by simpa using RefGraph.Hops.nil
  closed x hx _ := .inl hx

/-- Some rounds are enough for a walk, whatever its limit; it ends with the first of the hits. -/
theorem loop_init (g : RefGraph α) (start : α) {maxDepth : ℕ} (hdepth : 0 < maxDepth) :
    ∃ (seen : List (α × ℕ)) (rounds : ℕ),Front.Fair g maxDepth start ⟨seen,[]⟩ ∧
      ∀ spec : WalkSpec,spec.maxDepth = maxDepth → ∀ fuel,rounds ≤ fuel →
        ∃ hits,loop g spec start fuel (init start) = some hits ∧ hits.map key = (hitsAmong g seen).take spec.limit := by
  have hfair := fair_init g hdepth start
  have henough : ∀ n,(Front.ball g start maxDepth).card+1 ≤ n →
      (⟨[(start,0)],[(start,0)]⟩ : Front α).queue.length+(Front.ball g start maxDepth).card <
        n+(⟨[(start,0)],[(start,0)]⟩ : Front α).seen.length := fun n hn => by
    simp only [List.length_singleton]
    omega
  refine ⟨_,(Front.ball g start maxDepth).card+1,(hfair.bfs (henough _ le_rfl)).1,fun spec hspec fuel hfuel => ?_⟩
  subst hspec
  -- more rounds find nothing more
  rw [← Front.bfs_stable hfair (henough _ le_rfl) hfuel]
  exact (sim_init g spec start).loop hfair (henough fuel hfuel)

end Walk

/-- A walk lists the nodes that can be read, other than its start, once each and by their distance; a limit cuts
the list. -/
def RefGraph.WalksByHops (g : RefGraph α) (start : α) (maxDepth : ℕ) : Prop :=
  ∃ (found : List (α × ℕ)) (rounds : ℕ),(found.map Prod.fst).Nodup ∧ (found.Pairwise fun x y => x.2 ≤ y.2) ∧
    (∀ v d,(v,d) ∈ found ↔ g.live v = true ∧ v ≠ start ∧ 1 ≤ d ∧ d ≤ maxDepth ∧ IsLeast {k | g.Hops start v k} d) ∧
    ∀ spec : WalkSpec,spec.maxDepth = maxDepth → ∀ fuel,rounds ≤ fuel → ∃ hits,g.findPaths start spec fuel = some hits ∧
      hits.map (fun h => (h.node,h.depth)) = found.take spec.limit

theorem findPaths_byHops (g : RefGraph α) {start : α} (hlive : g.live start = true) {maxDepth : ℕ} (hdepth : 0 < maxDepth) :
    g.WalksByHops start maxDepth := by
  obtain ⟨seen,rounds,hend,hloop⟩ := Walk.loop_init g start hdepth
  refine ⟨Walk.hitsAmong g seen,rounds,?_,?_,fun v d => ?_,fun spec hspec fuel hfuel => ?_⟩
  · exact hend.nodup.sublist (List.filter_sublist.map _)
  · exact hend.sorted.sublist List.filter_sublist
  · have hone : ∀ {e e'},(v,e) ∈ seen → (v,e') ∈ seen → e = e' := fun he he' =>
      congrArg Prod.snd (List.inj_on_of_nodup_map hend.nodup he he' rfl)
    simp only [Walk.hitsAmong,List.mem_filter,decide_eq_true_eq]
    constructor
    · rintro ⟨hmem,hd,hv⟩
      obtain ⟨hroute,hle⟩ := hend.route _ hmem
      refine ⟨hv,?_,hd,hle,hroute,fun k hk => ?_⟩
      · rintro rfl
        have := hone hmem hend.root
        omega
      · by_contra hlt
        obtain ⟨e,he,hmem'⟩ := hend.reaches hk (by omega)
        have := hone hmem hmem'
        omega
    · rintro ⟨hv,-,hd,hle,hroute,hleast⟩
      obtain ⟨e,he,hmem⟩ := hend.reaches hroute hle
      obtain rfl : e = d := le_antisymm he (hleast (hend.route _ hmem).1)
      exact ⟨hmem,hd,hv⟩
  · obtain ⟨hits,hhits,hkeys⟩ := hloop spec hspec fuel hfuel
    exact ⟨hits,by rw [RefGraph.findPaths,if_pos hlive,hhits],hkeys⟩

/-- Two nodes with a reference back. -/
def twoNodes : RefGraph ℕ := ⟨fun u => if u = 0 then [⟨1,1,none⟩,⟨1,1,none⟩] else [⟨0,1,none⟩],fun _ => true⟩

theorem findPaths_twoNodes : twoNodes.live 0 = true ∧ 0 < 3 ∧ twoNodes.WalksByHops 0 3 :=
  ⟨rfl,by decide,findPaths_byHops twoNodes rfl (by decide)⟩

end HakoDB
