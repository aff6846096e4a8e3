import HakoDB.Engine.FindPaths
import HakoDB.Lib.BestFirst
import Mathlib.Data.List.Lex
import Mathlib.Data.Prod.Lex
import Mathlib.Data.String.Basic
import Mathlib.Order.WithBot

/-! Routes without a repeated node, cheapest first. A node that an expansion lists twice starts two routes over
the same nodes. -/
namespace HakoDB

/-- An entry of the heap: a route, its end and its edges. -/
structure PathState (α : Type) where
  cost : ℕ
  node : α
  path : List α
  via : List (WithBot String)

namespace PathState
variable {α : Type}

def key (s : PathState α) : ℕ ×ₗ α ×ₗ List α ×ₗ List (WithBot String) :=
  toLex (s.cost,toLex (s.node,toLex (s.path,s.via)))

theorem key_injective : Function.Injective (key (α := α)) := by
  intro a b h
  cases a
  cases b
  simp_all [key]

variable [LinearOrder α]

instance : LinearOrder (PathState α) := LinearOrder.lift' key key_injective

theorem cost_le {a b : PathState α} (h : a ≤ b) : a.cost ≤ b.cost := by
  rcases Prod.Lex.toLex_le_toLex.1 (show a.key ≤ b.key from h) with h | h
  · exact h.le
  · exact h.1.le

def hit (spec : WalkSpec) (s : PathState α) : PathHit α where
  node := s.node
  depth := s.path.length-1
  cost := s.cost
  path := if spec.includePath then s.path else []
  via := s.via

def extend (spec : WalkSpec) (s : PathState α) (nb : Neighbor α) : PathState α where
  cost := s.cost+nb.weight
  node := nb.node
  path := s.path++[nb.node]
  via := if spec.includeVia then s.via++([nb.edge] : List (WithBot String)) else []

variable (g : RefGraph α) (spec : WalkSpec)

/-- The routes that are one hop longer. -/
def children (s : PathState α) : List (PathState α) :=
  if spec.maxDepth ≤ s.path.length-1 then []
  else ((g.expandNeighbors s.node).filter fun nb => nb.node ∉ s.path).map (s.extend spec)

/-- The loop, for at most so many rounds. -/
def loop : ℕ → List (PathState α) → List (PathHit α) → Option (List (PathHit α))
  | 0,_,_ => none
  | _+1,[],out => some out
  | fuel+1,s::heap,out =>
    if spec.limit ≤ out.length then some out
    else loop fuel (BestFirst.push (s.children g spec) heap) (if g.live s.node then out++[s.hit spec] else out)

def init (start : α) : PathState α := ⟨0,start,[start],[]⟩

end PathState

variable {α : Type}

/-- A route that repeats no node, with its end and its cost. -/
inductive RefGraph.SimpleRoute (g : RefGraph α) (start : α) : List α → α → ℕ → Prop
  | nil : SimpleRoute g start [start] start 0
  | hop {p : List α} {u : α} {c : ℕ} {nb : Neighbor α} : SimpleRoute g start p u c → nb ∈ g.expandNeighbors u →
    nb.node ∉ p → SimpleRoute g start (p++[nb.node]) nb.node (c+nb.weight)

namespace RefGraph.SimpleRoute
variable {g : RefGraph α} {start u : α} {p : List α} {c : ℕ}

theorem getLast? (h : g.SimpleRoute start p u c) : p.getLast? = some u := by
  cases h <;> simp

theorem nodup (h : g.SimpleRoute start p u c) : p.Nodup := by
  induction h with
  | nil => simp
  | hop _ _ hnew ih => exact List.nodup_append'.2 ⟨ih,by simp,by simpa using hnew⟩

theorem head? (h : g.SimpleRoute start p u c) : p.head? = some start := by
  induction h with
  | nil => rfl
  | hop _ _ _ ih => rw [List.head?_append,ih]; rfl

end RefGraph.SimpleRoute

variable [LinearOrder α]

/-- Routes over a specification that passed its check. -/
def RefGraph.findSimplePaths (g : RefGraph α) (start : α) (spec : WalkSpec) (fuel : ℕ) : Option (List (PathHit α)) :=
  if g.live start then PathState.loop g spec fuel [PathState.init start] [] else some []

/-- In how many ways a route to a node goes on over the given ones. -/
def RefGraph.ways (g : RefGraph α) : α → List α → List α → ℕ
  | _,_,[] => 1
  | u,p,v::q => if v ∈ p then 0 else ((g.expandNeighbors u).map Neighbor.node).count v*g.ways v (p++[v]) q

/-- The expansion of the first node lists the second one once. -/
def RefGraph.ListsOnce (g : RefGraph α) (u v : α) : Prop := ((g.expandNeighbors u).map Neighbor.node).count v = 1

theorem RefGraph.ways_eq_one {g : RefGraph α} {u : α} {p q : List α} (h : g.ways u p q ≠ 0) :
    g.ways u p q = 1 ↔ (u::q).IsChain g.ListsOnce := by
  induction q generalizing u p with
  | nil => simp [ways]
  | cons v q ih =>
    rw [ways] at h ⊢
    split at h
    · exact absurd rfl h
    · rename_i hnew
      rw [if_neg hnew,List.isChain_cons_cons,← ih fun hz => h (by rw [hz,Nat.mul_zero])]
      refine ⟨fun hone => ⟨Nat.dvd_one.1 (Dvd.intro _ hone),Nat.dvd_one.1 (Dvd.intro_left _ hone)⟩,fun hone => ?_⟩
      rw [hone.2,Nat.mul_one]
      exact hone.1

namespace PathState
variable {g : RefGraph α} {spec : WalkSpec} {start : α} {s t : PathState α}

/-- The number of nodes that a route may still take in. -/
def rank (spec : WalkSpec) (s : PathState α) : ℕ := spec.maxDepth+1-s.path.length

variable (g spec) in
/-- A route and all that go on from it. -/
def below (s : PathState α) : List (PathState α) := BestFirst.below (children g spec) (rank spec s) s

theorem mem_children : t ∈ s.children g spec ↔
    s.path.length-1 < spec.maxDepth ∧ ∃ nb ∈ g.expandNeighbors s.node,nb.node ∉ s.path ∧ t = s.extend spec nb := by
  unfold children
  split
  · rename_i hdeep
    simp [not_lt.2 hdeep]
  · rename_i hdeep
    simp only [not_le.1 hdeep,true_and,List.mem_map,List.mem_filter,decide_eq_true_eq]
    constructor
    · rintro ⟨nb,⟨hnb,hnew⟩,rfl⟩
      exact ⟨nb,hnb,hnew,rfl⟩
    · rintro ⟨nb,hnb,hnew,rfl⟩
      exact ⟨nb,⟨hnb,hnew⟩,rfl⟩

theorem rank_children (s : PathState α) (t : PathState α) (h : t ∈ s.children g spec) : rank spec t+1 = rank spec s := by
  obtain ⟨hdeep,nb,-,-,rfl⟩ := mem_children.1 h
  simp only [rank,extend,List.length_append,List.length_singleton]
  omega

theorem cost_children (s : PathState α) (t : PathState α) (h : t ∈ s.children g spec) : s.cost ≤ t.cost := by
  obtain ⟨-,nb,-,-,rfl⟩ := mem_children.1 h
  exact Nat.le_add_right _ _

theorem below_eq (s : PathState α) : below g spec s = s::(s.children g spec).flatMap (below g spec) :=
  BestFirst.below_rank rank_children s

/-- What holds of a route and is kept by a hop holds of all that go on from it. -/
theorem below_induction {P : PathState α → Prop} (hstep : ∀ t,P t → ∀ u ∈ t.children g spec,P u) (hs : P s)
    (ht : t ∈ below g spec s) : P t := by
  induction hk : rank spec s generalizing s with
  | zero =>
    rw [below,hk,BestFirst.below,List.mem_singleton] at ht
    exact ht ▸ hs
  | succ k ih =>
    rw [below_eq,List.mem_cons,List.mem_flatMap] at ht
    rcases ht with rfl | ⟨u,hu,ht⟩
    · exact hs
    · have hrank := rank_children s u hu
      exact ih (hstep s hs u hu) ht (by omega)

theorem children_below (ht : t ∈ below g spec s) {u : PathState α} (hu : u ∈ t.children g spec) : u ∈ below g spec s := by
  induction hk : rank spec s generalizing s with
  | zero =>
    rw [below,hk,BestFirst.below,List.mem_singleton] at ht
    subst ht
    have := rank_children t u hu
    omega
  | succ k ih =>
    rw [below_eq,List.mem_cons,List.mem_flatMap] at ht ⊢
    rcases ht with rfl | ⟨v,hv,ht⟩
    · refine .inr ⟨u,hu,?_⟩
      rw [below_eq]
      exact List.mem_cons_self
    · have hrank := rank_children s v hv
      exact .inr ⟨v,hv,ih ht (by omega)⟩

/-- The routes below the start are the simple ones that are short enough. -/
theorem mem_below_init {p : List α} {u : α} {c : ℕ} : (∃ t ∈ below g spec (init start),t.path = p ∧ t.node = u ∧ t.cost = c) ↔
    g.SimpleRoute start p u c ∧ p.length ≤ spec.maxDepth+1 := by
  constructor
  · rintro ⟨t,ht,rfl,rfl,rfl⟩
    refine below_induction (P := fun t => g.SimpleRoute start t.path t.node t.cost ∧ t.path.length ≤ spec.maxDepth+1)
      (fun s hs t ht => ?_) ⟨.nil,by simp [init]⟩ ht
    obtain ⟨hdeep,nb,hnb,hnew,rfl⟩ := mem_children.1 ht
    refine ⟨.hop hs.1 hnb hnew,?_⟩
    simp only [extend,List.length_append,List.length_singleton]
    omega
  · rintro ⟨hroute,hlen⟩
    induction hroute with
    | nil =>
      refine ⟨init start,?_,rfl,rfl,rfl⟩
      rw [below_eq]
      exact List.mem_cons_self
    | @hop p u c nb hp hnb hnew ih =>
      have hpos : 0 < p.length := by cases hp <;> simp
      rw [List.length_append,List.length_singleton] at hlen
      obtain ⟨t,ht,rfl,rfl,rfl⟩ := ih (by omega)
      exact ⟨t.extend spec nb,children_below ht (mem_children.2 ⟨by omega,nb,hnb,hnew,rfl⟩),rfl,rfl,rfl⟩

theorem path_below (h : t ∈ below g spec s) : s.path <+: t.path := by
  refine below_induction (P := fun t => s.path <+: t.path) (fun t ht u hu => ?_) (List.prefix_refl _) h
  obtain ⟨-,nb,-,-,rfl⟩ := mem_children.1 hu
  exact ht.trans (List.prefix_append _ _)

omit [LinearOrder α] in
/-- Where the lists of some elements count equally and those of the others not at all. -/
theorem countP_flatMap_of_ite {β γ : Type} {l : List β} {f : β → List γ} {p : γ → Bool} {q : β → Bool} {w : ℕ}
    (h : ∀ x ∈ l,(f x).countP p = if q x then w else 0) : (l.flatMap f).countP p = l.countP q*w := by
  induction l with
  | nil => exact (Nat.zero_mul w).symm
  | cons x l ih =>
    rw [List.forall_mem_cons] at h
    rw [List.flatMap_cons,List.countP_append,h.1,ih h.2,List.countP_cons,Nat.add_mul,Nat.add_comm]
    split
    · rw [Nat.one_mul]
    · rw [Nat.zero_mul]

theorem count_below (hs : s.path ≠ []) (q : List α) : (below g spec s).countP (fun t => t.path = s.path++q) =
    if q.length ≤ rank spec s then g.ways s.node s.path q else 0 := by
  induction q generalizing s with
  | nil =>
    have hlonger : ((s.children g spec).flatMap (below g spec)).countP (fun t => t.path = s.path++[]) = 0 := by
      refine List.countP_eq_zero.2 fun t ht => ?_
      obtain ⟨u,hu,ht⟩ := List.mem_flatMap.1 ht
      obtain ⟨-,nb,-,-,rfl⟩ := mem_children.1 hu
      have hlen := (path_below ht).length_le
      simp only [extend,List.length_append,List.length_singleton] at hlen
      intro heq
      rw [of_decide_eq_true heq,List.append_nil] at hlen
      omega
    rw [below_eq,List.countP_cons,hlonger]
    simp [RefGraph.ways]
  | cons v q ih =>
    have hself : decide (s.path = s.path++v::q) = false := by simp
    have hpos : 0 < s.path.length := List.length_pos_of_ne_nil hs
    rw [below_eq,List.countP_cons,hself]
    unfold children
    split
    · rename_i hdeep
      have hrank : ¬(v::q).length ≤ rank spec s := by
        simp only [rank,List.length_cons]
        omega
      rw [if_neg hrank]
      rfl
    · rename_i hdeep
      -- only the neighbours that are the next node go on over the given ones
      have hchild : ∀ nb ∈ (g.expandNeighbors s.node).filter fun nb => nb.node ∉ s.path,
          (below g spec (s.extend spec nb)).countP (fun t => t.path = s.path++v::q) =
            if decide (nb.node = v) then (if (v::q).length ≤ rank spec s then g.ways v (s.path++[v]) q else 0) else 0 := by
        intro nb hnb
        by_cases hv : nb.node = v
        · subst hv
          have hrank : rank spec (s.extend spec nb)+1 = rank spec s := by
            simp only [rank,extend,List.length_append,List.length_singleton]
            omega
          have hcount := ih (s := s.extend spec nb) (by simp [extend])
          simp only [extend,List.append_assoc,List.singleton_append] at hcount
          have hle : q.length ≤ rank spec (s.extend spec nb) ↔ (nb.node::q).length ≤ rank spec s := by
            rw [List.length_cons]
            omega
          simp only [decide_true,if_true,← hle]
          exact hcount
        · rw [decide_eq_false hv,if_neg (by simp)]
          refine List.countP_eq_zero.2 fun t ht heq => hv ?_
          obtain ⟨more,hmore⟩ := path_below ht
          rw [of_decide_eq_true heq] at hmore
          simp only [extend,List.append_assoc,List.singleton_append,List.append_cancel_left_eq,List.cons.injEq] at hmore
          exact hmore.1
      rw [List.flatMap_map,countP_flatMap_of_ite hchild,List.countP_filter]
      have hcount : (g.expandNeighbors s.node).countP (fun nb => decide (nb.node = v) && decide (nb.node ∉ s.path)) =
          if v ∈ s.path then 0 else ((g.expandNeighbors s.node).map Neighbor.node).count v := by
        split
        · rename_i hmem
          refine List.countP_eq_zero.2 fun nb _ h => ?_
          simp only [Bool.and_eq_true,decide_eq_true_eq] at h
          exact h.2 (h.1 ▸ hmem)
        · rename_i hmem
          rw [List.count,List.countP_map]
          refine List.countP_congr fun nb _ => ?_
          simp only [Bool.and_eq_true,decide_eq_true_eq,Function.comp,beq_iff_eq]
          exact ⟨fun h => h.1,fun h => ⟨h,h ▸ hmem⟩⟩
      rw [hcount,RefGraph.ways]
      split <;> split <;> simp

theorem loop_eq {n : ℕ} {heap : List (PathState α)} {out : List (PathHit α)} (hn : (heap.flatMap (below g spec)).length ≤ n)
    (hout : out.length ≤ spec.limit) : loop g spec (n+1) heap out =
      some (out++((((BestFirst.drain (children g spec) n heap).filter fun t => g.live t.node).map (hit spec)).take
        (spec.limit-out.length))) := by
  induction n generalizing heap out with
  | zero =>
    obtain rfl : heap = [] := by
      cases heap with
      | nil => rfl
      | cons s heap =>
        rw [List.flatMap_cons,below_eq] at hn
        simp at hn
    simp [loop,BestFirst.drain]
  | succ n ih =>
    cases heap with
    | nil => simp [loop,BestFirst.drain]
    | cons s heap =>
      rw [loop,BestFirst.drain]
      have hnext : ((BestFirst.push (s.children g spec) heap).flatMap (below g spec)).length ≤ n := by
        rw [((BestFirst.push_perm _ _).flatMap_right _).length_eq,List.flatMap_append]
        rw [List.flatMap_cons,below_eq] at hn
        simpa using hn
      split
      · rename_i hfull
        rw [Nat.sub_eq_zero_of_le hfull]
        simp
      · rename_i hroom
        have hout' : (if g.live s.node then out++[s.hit spec] else out).length ≤ spec.limit := by
          split
          · rw [List.length_append,List.length_singleton]
            omega
          · exact hout
        rw [ih hnext hout']
        by_cases hlive : g.live s.node = true
        · obtain ⟨k,hk⟩ : ∃ k,spec.limit-out.length = k+1 := ⟨spec.limit-out.length-1,by omega⟩
          simp [hlive,hk,show spec.limit-(out.length+1) = k by omega]
        · simp [hlive]

variable (g spec start) in
/-- The routes in the order in which they are taken, of those that end at a node that can be read. -/
def routes (n : ℕ) : List (PathState α) :=
  (BestFirst.drain (children g spec) n [init start]).filter fun t => g.live t.node

theorem flatMap_init (g : RefGraph α) (spec : WalkSpec) (start : α) :
    ([init start].flatMap fun s => BestFirst.below (children g spec) (rank spec s) s) = below g spec (init start) := by
  simp [below]

variable {n : ℕ} (hn : (below g spec (init start)).length ≤ n)
include hn

theorem drain_init_perm : (BestFirst.drain (children g spec) n [init start]).Perm (below g spec (init start)) := by
  have hone := flatMap_init g spec start
  have hperm := BestFirst.drain_perm rank_children (n := n) (by rw [hone]; exact hn)
  rwa [hone] at hperm

theorem routes_sorted : (routes g spec start n).Pairwise fun s t => s.cost ≤ t.cost := by
  refine (BestFirst.drain_sorted rank_children (fun _ _ => cost_le) cost_children (List.pairwise_singleton _ _) ?_).filter _
  rw [flatMap_init]
  exact hn

theorem mem_routes {p : List α} {u : α} {c : ℕ} : (∃ t ∈ routes g spec start n,t.path = p ∧ t.node = u ∧ t.cost = c) ↔
    g.SimpleRoute start p u c ∧ p.length ≤ spec.maxDepth+1 ∧ g.live u = true := by
  rw [← and_assoc,← mem_below_init]
  constructor
  · rintro ⟨t,ht,rfl,rfl,rfl⟩
    obtain ⟨ht,hlive⟩ := List.mem_filter.1 ht
    exact ⟨⟨t,(drain_init_perm hn).subset ht,rfl,rfl,rfl⟩,hlive⟩
  · rintro ⟨⟨t,ht,rfl,rfl,rfl⟩,hlive⟩
    exact ⟨t,List.mem_filter.2 ⟨(drain_init_perm hn).symm.subset ht,hlive⟩,rfl,rfl,rfl⟩

/-- How often a route is listed. -/
theorem count_routes {q : List α} {u : α} {c : ℕ} (hroute : g.SimpleRoute start (start::q) u c)
    (hlen : (start::q).length ≤ spec.maxDepth+1) (hlive : g.live u = true) :
    ((routes g spec start n).map path).count (start::q) = g.ways start [start] q := by
  have hcount : (below g spec (init start)).countP (fun t => t.path = (init start).path++q) = _ :=
    count_below (by simp [init]) q
  rw [if_pos (by simp only [rank,init,List.length_singleton]; simp at hlen; omega)] at hcount
  rw [← (drain_init_perm hn).countP_eq] at hcount
  rw [routes,List.count,List.countP_map,List.countP_filter,← show _ = g.ways start [start] q from hcount]
  refine List.countP_congr fun t ht => ?_
  simp only [Function.comp,Bool.and_eq_true,beq_iff_eq,decide_eq_true_eq]
  refine ⟨fun h => h.1,fun h => ⟨h,?_⟩⟩
  have hmine := (mem_below_init.1 ⟨t,(drain_init_perm hn).subset ht,rfl,rfl,rfl⟩).1.getLast?
  rw [show t.path = start::q from h,hroute.getLast?] at hmine
  rw [← Option.some.inj hmine,hlive]

theorem nodup_routes (honce : ∀ p u c,g.SimpleRoute start p u c → p.length ≤ spec.maxDepth+1 → g.live u = true →
    p.IsChain g.ListsOnce) : ((routes g spec start n).map path).Nodup := by
  refine List.nodup_iff_count_le_one.2 fun p => ?_
  by_cases hp : p ∈ (routes g spec start n).map path
  · obtain ⟨t,ht,rfl⟩ := List.mem_map.1 hp
    obtain ⟨hroute,hlen,hlive⟩ := (mem_routes hn).1 ⟨t,ht,rfl,rfl,rfl⟩
    obtain ⟨q,hq⟩ := List.head?_eq_some_iff.1 hroute.head?
    have hcount := List.count_pos_iff.2 hp
    have hchain := honce _ _ _ hroute hlen hlive
    rw [hq] at hroute hlen hcount hchain ⊢
    rw [count_routes hn hroute hlen hlive] at hcount ⊢
    exact ((RefGraph.ways_eq_one hcount.ne').2 hchain).le
  · rw [List.count_eq_zero_of_not_mem hp]
    exact Nat.zero_le _

theorem listsOnce_of_nodup (hnd : ((routes g spec start n).map path).Nodup) {p : List α} {u : α} {c : ℕ}
    (hroute : g.SimpleRoute start p u c) (hlen : p.length ≤ spec.maxDepth+1) (hlive : g.live u = true) :
    p.IsChain g.ListsOnce := by
  obtain ⟨t,ht,hpath,-⟩ := (mem_routes hn).2 ⟨hroute,hlen,hlive⟩
  obtain ⟨q,rfl⟩ := List.head?_eq_some_iff.1 hroute.head?
  have hpos := List.count_pos_iff.2 (hpath ▸ List.mem_map_of_mem (f := path) ht)
  have hone := List.nodup_iff_count_le_one.1 hnd (start::q)
  rw [count_routes hn hroute hlen hlive] at hpos hone
  exact (RefGraph.ways_eq_one hpos.ne').1 (by omega)

omit hn in
theorem findSimplePaths_eq (hn : (below g spec (init start)).length ≤ n) (hlive : g.live start = true) :
    g.findSimplePaths start spec (n+1) = some (((routes g spec start n).map (hit spec)).take spec.limit) := by
  have hall : [init start].flatMap (below g spec) = below g spec (init start) := by simp
  rw [RefGraph.findSimplePaths,if_pos hlive,loop_eq (by rw [hall]; exact hn) (Nat.zero_le _)]
  rfl

end PathState

/-- Different simple routes to nodes that can be read, cheapest first, and all of them if there are fewer than the
limit. -/
structure RefGraph.Lists (g : RefGraph α) (start : α) (maxDepth limit : ℕ) (out : List (PathHit α)) : Prop where
  distinct : (out.map PathHit.path).Nodup
  simple : ∀ h ∈ out,g.SimpleRoute start h.path h.node h.cost ∧ h.path.Nodup ∧ h.path.head? = some start ∧
    h.path.length ≤ maxDepth+1 ∧ g.live h.node = true
  ordered : out.Pairwise fun h k => h.cost ≤ k.cost
  complete : out.length < limit → ∀ p u c,g.SimpleRoute start p u c → p.length ≤ maxDepth+1 → g.live u = true →
    p ∈ out.map PathHit.path

/-- Under every limit, with enough rounds, the hits with their paths are such a list. -/
def RefGraph.ListsSimplePaths (g : RefGraph α) (start : α) (spec : WalkSpec) : Prop :=
  ∀ limit,∃ rounds,∀ fuel,rounds ≤ fuel → ∃ out,
    g.findSimplePaths start {spec with limit := limit, includePath := true} fuel = some out ∧
      g.Lists start spec.maxDepth limit out

namespace PathState
variable {g : RefGraph α} {spec : WalkSpec} {start : α} {n : ℕ}

theorem lists_take (hn : (below g spec (init start)).length ≤ n) (hpath : spec.includePath = true)
    (hnd : ((routes g spec start n).map path).Nodup) :
    g.Lists start spec.maxDepth spec.limit (((routes g spec start n).map (hit spec)).take spec.limit) := by
  have hpaths : ((routes g spec start n).map (hit spec)).map PathHit.path = (routes g spec start n).map path := by
    rw [List.map_map]
    exact List.map_congr_left fun t _ => by simp [hit,hpath]
  refine ⟨?_,fun h hh => ?_,?_,fun hfew p u c hroute hlen hlive => ?_⟩
  · rw [← hpaths] at hnd
    exact hnd.sublist ((List.take_sublist _ _).map _)
  · obtain ⟨t,ht,rfl⟩ := List.mem_map.1 (List.mem_of_mem_take hh)
    obtain ⟨hroute,hlen,hlive⟩ := (mem_routes hn).1 ⟨t,ht,rfl,rfl,rfl⟩
    simp only [hit,hpath,if_true]
    exact ⟨hroute,hroute.nodup,hroute.head?,hlen,hlive⟩
  · have hsorted : ((routes g spec start n).map (hit spec)).Pairwise fun h k => h.cost ≤ k.cost :=
      List.pairwise_map.2 (routes_sorted hn)
    exact hsorted.sublist (List.take_sublist _ _)
  · rw [List.length_take] at hfew
    rw [List.take_of_length_le (by omega),hpaths]
    obtain ⟨t,ht,hp,-⟩ := (mem_routes hn).2 ⟨hroute,hlen,hlive⟩
    exact hp ▸ List.mem_map_of_mem ht

end PathState

/-- Routes are listed as they should if and only if the start can be read and no hop of a route is listed twice. -/
theorem findSimplePaths_iff (g : RefGraph α) (start : α) (spec : WalkSpec) : g.ListsSimplePaths start spec ↔
    ∀ p u c,g.SimpleRoute start p u c → p.length ≤ spec.maxDepth+1 → g.live u = true →
      g.live start = true ∧ p.IsChain g.ListsOnce := by
  constructor
  · intro hall p u c hroute hlen hlive
    have hstart : g.live start = true := by
      by_contra hdead
      obtain ⟨rounds,hrounds⟩ := hall 1
      obtain ⟨out,hout,hlists⟩ := hrounds rounds le_rfl
      obtain rfl : out = [] := by
        rw [RefGraph.findSimplePaths,if_neg hdead] at hout
        exact (Option.some.inj hout).symm
      exact absurd (hlists.complete Nat.zero_lt_one p u c hroute hlen hlive) List.not_mem_nil
    refine ⟨hstart,?_⟩
    -- a limit that is not reached shows every route
    let all : WalkSpec := {spec with limit := (PathState.below g spec (PathState.init start)).length, includePath := true}
    obtain ⟨rounds,hrounds⟩ := hall all.limit
    have hn : (PathState.below g all (PathState.init start)).length ≤ max rounds all.limit := le_max_right _ _
    obtain ⟨out,hout,hlists⟩ := hrounds (max rounds all.limit+1) ((le_max_left _ _).trans (Nat.le_succ _))
    have hlength : ((PathState.routes g all start (max rounds all.limit)).map (PathState.hit all)).length ≤ all.limit := by
      rw [List.length_map]
      exact (List.length_filter_le _ _).trans (PathState.drain_init_perm hn).length_eq.le
    rw [show g.findSimplePaths start _ _ = _ from PathState.findSimplePaths_eq hn hstart,List.take_of_length_le hlength] at hout
    obtain rfl := Option.some.inj hout
    have hnd : ((PathState.routes g all start (max rounds all.limit)).map PathState.path).Nodup := by
      have hdistinct := hlists.distinct
      rwa [List.map_map] at hdistinct
    exact PathState.listsOnce_of_nodup hn hnd hroute hlen hlive
  · intro honce limit
    let cut : WalkSpec := {spec with limit := limit, includePath := true}
    refine ⟨(PathState.below g cut (PathState.init start)).length+1,fun fuel hfuel => ?_⟩
    obtain ⟨n,rfl⟩ := Nat.exists_eq_succ_of_ne_zero (by omega : fuel ≠ 0)
    have hn : (PathState.below g cut (PathState.init start)).length ≤ n := by omega
    by_cases hstart : g.live start = true
    · refine ⟨_,PathState.findSimplePaths_eq hn hstart,PathState.lists_take hn rfl (PathState.nodup_routes hn ?_)⟩
      exact fun p u c hroute hlen hlive => (honce p u c hroute hlen hlive).2
    · refine ⟨[],by rw [RefGraph.findSimplePaths,if_neg hstart],by simp,by simp,.nil,fun _ p u c hroute hlen hlive => ?_⟩
      exact absurd (honce p u c hroute hlen hlive).1 hstart

/-- Two references from one node to another. -/
theorem findSimplePaths_twoNodes : ¬twoNodes.ListsSimplePaths 0 ⟨1,10,true,false⟩ := by
  intro hall
  obtain ⟨rounds,hrounds⟩ := hall 10
  obtain ⟨out,hout,hlists⟩ := hrounds (rounds+6) (Nat.le_add_right _ _)
  have hthree : twoNodes.findSimplePaths 0 ⟨1,10,true,false⟩ (rounds+6) =
      some [⟨0,0,0,[0],[]⟩,⟨1,1,1,[0,1],[]⟩,⟨1,1,1,[0,1],[]⟩] := by
    rfl
  obtain rfl := Option.some.inj (hthree.symm.trans hout)
  exact absurd hlists.distinct (by decide)

end HakoDB
