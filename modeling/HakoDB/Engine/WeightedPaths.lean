import HakoDB.Query.Plan
import Mathlib.Data.DFinsupp.WellFounded
import Mathlib.Data.List.Sort
import Mathlib.Data.Prod.Lex
import Mathlib.Data.String.Basic

/-! Cheapest paths over the references between documents. One best cost is kept for a node whatever the number of
hops behind it, so that a cheap route of many hops can end where a dear one of few hops would have gone on. -/
namespace HakoDB
variable {α : Type}

/-- What one expansion lists for a node, without the nodes that the filter of the walk refuses, and the nodes that
a read finds. -/
structure Graph (α : Type) where
  expandNeighbors : α → List (α × ℕ)
  live : α → Bool

/-- A route of so many hops and that cost. -/
inductive Graph.Route (g : Graph α) (start : α) : α → ℕ → ℕ → Prop
  | nil : Route g start start 0 0
  | hop {u v : α} {k c w : ℕ} : Route g start u k c → (v,w) ∈ g.expandNeighbors u → Route g start v (k+1) (c+w)

structure TraverseHit (α : Type) where
  node : α
  depth : ℕ
  cost : ℕ
  deriving DecidableEq

/-- An entry of the heap. -/
structure Label (α : Type) where
  cost : ℕ
  node : α
  depth : ℕ

/-- Cheap entries first, then by node, then deep ones first. -/
def Label.key (l : Label α) : ℕ ×ₗ α ×ₗ ℕᵒᵈ := toLex (l.cost,toLex (l.node,OrderDual.toDual l.depth))

theorem Label.key_injective : Function.Injective (Label.key (α := α)) := by
  intro a b h
  cases a
  cases b
  simp_all [key]

structure Search (α : Type) where
  dist : α → Option ℕ
  heap : List (Label α)
  out : List (TraverseHit α)

namespace Search

def report (g : Graph α) (l : Label α) (s : Search α) : Search α :=
  if 1 ≤ l.depth && g.live l.node then {s with out := s.out++[⟨l.node,l.depth,l.cost⟩]} else s

/-- The hits that entries are reported as. -/
def reported (g : Graph α) (done : List (Label α)) : List (TraverseHit α) :=
  (done.filter fun d => 1 ≤ d.depth && g.live d.node).map fun d => ⟨d.node,d.depth,d.cost⟩

theorem report_out (g : Graph α) (l : Label α) (s : Search α) : (report g l s).out = s.out++reported g [l] := by
  unfold report reported
  split_ifs with hl <;> simp [hl]

theorem mem_reported {g : Graph α} {done : List (Label α)} {v : α} : v ∈ (reported g done).map TraverseHit.node ↔
    ∃ d ∈ done,d.node = v ∧ 1 ≤ d.depth ∧ g.live v := by
  simp only [reported,List.map_map,List.mem_map,List.mem_filter,Bool.and_eq_true,decide_eq_true_eq]
  constructor
  · rintro ⟨d,⟨hd,hdepth,hlive⟩,rfl⟩
    exact ⟨d,hd,rfl,hdepth,hlive⟩
  · rintro ⟨d,hd,rfl,hdepth,hlive⟩
    exact ⟨d,⟨hd,hdepth,hlive⟩,rfl⟩

@[simp] theorem report_dist (g : Graph α) (l : Label α) (s : Search α) : (report g l s).dist = s.dist := by
  unfold report
  split <;> rfl

@[simp] theorem report_heap (g : Graph α) (l : Label α) (s : Search α) : (report g l s).heap = s.heap := by
  unfold report
  split <;> rfl

end Search

variable [LinearOrder α]

instance : LinearOrder (Label α) := LinearOrder.lift' Label.key Label.key_injective

theorem Label.cost_le {a b : Label α} (h : a ≤ b) : a.cost ≤ b.cost := by
  rcases Prod.Lex.toLex_le_toLex.1 (show a.key ≤ b.key from h) with h | h
  · exact h.le
  · exact h.1.le

namespace Search

def relax (l : Label α) (s : Search α) (hop : α × ℕ) : Search α :=
  let nc := l.cost+hop.2
  if (s.dist hop.1).all (nc < ·) then
    {s with
      dist := Function.update s.dist hop.1 (some nc)
      heap := s.heap.orderedInsert (· ≤ ·) ⟨nc,hop.1,l.depth+1⟩}
  else s

def expand (g : Graph α) (spec : TraverseSpec) (l : Label α) (s : Search α) : Search α :=
  if spec.maxDepth ≤ l.depth then s else (g.expandNeighbors l.node).foldl (relax l) s

/-- The loop, for at most so many rounds. -/
def loop (g : Graph α) (spec : TraverseSpec) : ℕ → Search α → Option (List (TraverseHit α))
  | 0,_ => none
  | fuel+1,s =>
    match s.heap with
    | [] => some s.out
    | l::rest =>
      if (s.dist l.node).any (· < l.cost) then loop g spec fuel {s with heap := rest}
      else if 1 ≤ l.depth && spec.limit.toNat ≤ s.out.length then some s.out
      else loop g spec fuel (expand g spec l (report g l {s with heap := rest}))

def init (start : α) : Search α := ⟨Function.update (fun _ => none) start (some 0),[⟨0,start,0⟩],[]⟩

end Search

def Graph.findPathsWeighted (g : Graph α) (start : α) (spec : TraverseSpec) (fuel : ℕ) : Option (List (TraverseHit α)) :=
  if g.live start then Search.loop g spec fuel (Search.init start) else some []

namespace Search
variable {g : Graph α} {spec : TraverseSpec} {start : α} {done : List (Label α)} {s : Search α} {p l : Label α}

/-- The costs of the nodes of a finite graph. -/
def costs (V : Finset α) (s : Search α) : V → WithTop ℕ := fun v => (s.dist v).elim ⊤ WithTop.some

theorem relax_eq_or_costs_lt {V : Finset α} {hop : α × ℕ} (hhop : hop.1 ∈ V) (l : Label α) (s : Search α) :
    relax l s hop = s ∨ costs V (relax l s hop) < costs V s := by
  unfold relax
  dsimp only
  split_ifs with hless
  · refine .inr (Pi.lt_def.2 ⟨fun v => ?_,⟨hop.1,hhop⟩,?_⟩)
    · by_cases hv : (v : α) = hop.1
      · cases hd : s.dist hop.1 with
        | none => simp [costs,hv,hd]
        | some c =>
          have hc : l.cost+hop.2 < c := by simpa [hd] using hless
          simp only [costs,hv,hd,Function.update_self]
          exact WithTop.coe_le_coe.2 hc.le
      · simp [costs,hv]
    · cases hd : s.dist hop.1 with
      | none => simp [costs,hd]
      | some c =>
        have hc : l.cost+hop.2 < c := by simpa [hd] using hless
        simp only [costs,hd,Function.update_self]
        exact WithTop.coe_lt_coe.2 hc
  · exact .inl rfl

theorem foldl_relax_eq_or_costs_lt {V : Finset α} {hops : List (α × ℕ)} (hhops : ∀ hop ∈ hops,hop.1 ∈ V) (l : Label α)
    (s : Search α) : hops.foldl (relax l) s = s ∨ costs V (hops.foldl (relax l) s) < costs V s := by
  induction hops generalizing s with
  | nil => exact .inl rfl
  | cons hop hops ih =>
    have hrest := ih (fun hop hmem => hhops hop (List.mem_cons_of_mem _ hmem)) (relax l s hop)
    rw [List.foldl_cons]
    rcases relax_eq_or_costs_lt (hhops hop List.mem_cons_self) l s with hsame | hless
    · rwa [hsame] at hrest ⊢
    · rcases hrest with hrest | hrest
      · exact .inr (by rwa [hrest])
      · exact .inr (hrest.trans hless)

/-- Every round takes an entry from the heap or makes a node cheaper. -/
theorem loop_returns {V : Finset α} (hV : ∀ u,∀ hop ∈ g.expandNeighbors u,hop.1 ∈ V) (spec : TraverseSpec) (s : Search α) :
    ∃ n out,∀ fuel,n ≤ fuel → loop g spec fuel s = some out := by
  have hwf := InvImage.wf (fun s : Search α => (costs V s,s.heap.length))
    (WellFounded.prod_lex (wellFounded_lt (α := V → WithTop ℕ)) (wellFounded_lt (α := ℕ)))
  induction s using hwf.induction with
  | h s ih =>
    have hagain : ∀ s',Prod.Lex (· < ·) (· < ·) (costs V s',s'.heap.length) (costs V s,s.heap.length) →
        (∀ fuel,loop g spec (fuel+1) s = loop g spec fuel s') → ∃ n out,∀ fuel,n ≤ fuel → loop g spec fuel s = some out := by
      intro s' hless hstep
      obtain ⟨n,out,hn⟩ := ih s' hless
      refine ⟨n+1,out,fun fuel hfuel => ?_⟩
      obtain ⟨fuel,rfl⟩ := Nat.exists_eq_add_of_le' (Nat.one_le_of_lt hfuel)
      exact (hstep fuel).trans (hn fuel (by omega))
    have hnow : ∀ out,(∀ fuel,loop g spec (fuel+1) s = some out) → ∃ n out,∀ fuel,n ≤ fuel → loop g spec fuel s = some out := by
      refine fun out hout => ⟨1,out,fun fuel hfuel => ?_⟩
      obtain ⟨fuel,rfl⟩ := Nat.exists_eq_add_of_le' hfuel
      exact hout fuel
    cases hheap : s.heap with
    | nil => exact hnow s.out fun fuel => by simp [loop,hheap]
    | cons l rest =>
      by_cases hskip : (s.dist l.node).any (· < l.cost)
      · refine hagain {s with heap := rest} ?_ fun fuel => by simp [loop,hheap,hskip]
        exact .right _ (by simp [hheap])
      · by_cases hstop : 1 ≤ l.depth && spec.limit.toNat ≤ s.out.length
        · exact hnow s.out fun fuel => by simp [loop,hheap,hskip,hstop]
        · refine hagain (expand g spec l (report g l {s with heap := rest})) ?_
            fun fuel => by simp [loop,hheap,hskip,hstop]
          have hcosts : costs V (report g l {s with heap := rest}) = costs V s := by
            unfold costs
            rw [report_dist]
          unfold expand
          split
          · exact hcosts ▸ .right _ (by simp [hheap])
          · rcases foldl_relax_eq_or_costs_lt (hV l.node) l (report g l {s with heap := rest}) with hsame | hless
            · rw [hsame]
              exact hcosts ▸ .right _ (by simp [hheap])
            · exact .left _ _ (hcosts ▸ hless)

/-- What holds of a run: `done` are the entries that were taken while they had the best cost of their node. -/
structure Inv (g : Graph α) (start : α) (depth : ℕ) (done : List (Label α)) (s : Search α) : Prop where
  sorted : s.heap.Pairwise (· ≤ ·)
  apart : s.heap.Pairwise fun a b => a.node = b.node → a.cost ≠ b.cost
  above : ∀ d ∈ done,∀ l ∈ s.heap,d.cost ≤ l.cost
  overtaken : ∀ d ∈ done,∀ l ∈ s.heap,d.node = l.node → d.cost < l.cost
  rising : done.Pairwise fun a b => a.cost ≤ b.cost
  nodup : (done.map Label.node).Nodup
  settled : ∀ d ∈ done,s.dist d.node = some d.cost
  known : ∀ l ∈ s.heap,∃ c ≤ l.cost,s.dist l.node = some c
  pending : ∀ v c,s.dist v = some c → ∃ l ∈ s.heap++done,l.node = v ∧ l.cost = c
  labels : ∀ l ∈ s.heap++done,l = ⟨0,start,0⟩ ∨ l.node ≠ start ∧ ∃ d ∈ done,∃ w,
    (l.node,w) ∈ g.expandNeighbors d.node ∧ d.depth < depth ∧ l.cost = d.cost+w ∧ l.depth = d.depth+1
  begun : s.dist start = some 0

variable {depth : ℕ} {hop : α × ℕ}

theorem inv_init (g : Graph α) (start : α) (depth : ℕ) : Inv g start depth [] (init start) where
  sorted := List.pairwise_singleton _ _
  apart := List.pairwise_singleton _ _
  above := by simp
  overtaken := by simp
  rising := .nil
  nodup := .nil
  settled := by simp
  known := by simp [init]
  pending v c h := by
    by_cases hv : v = start <;> simp_all [init]
  labels := by simp [init]
  begun := by simp [init]

/-- A hop from the entry that was taken last. -/
theorem Inv.relax (h : Inv g start depth done s) (hp : p ∈ done) (hlast : ∀ d ∈ done,d.cost ≤ p.cost)
    (hdepth : p.depth < depth) (hhop : hop ∈ g.expandNeighbors p.node) : Inv g start depth done (s.relax p hop) := by
  unfold Search.relax
  dsimp only
  split_ifs with hless
  swap
  · exact h
  have hbest : ∀ c,s.dist hop.1 = some c → p.cost+hop.2 < c := fun c hc => by simpa [hc] using hless
  -- nothing that was taken gets cheaper
  have hopen : ∀ d ∈ done,d.node ≠ hop.1 := fun d hd hnode => by
    have := hbest d.cost (hnode ▸ h.settled d hd)
    have := hlast d hd
    omega
  have hstart : hop.1 ≠ start := fun hs => by
    have := hbest 0 (hs ▸ h.begun)
    omega
  have hperm := List.perm_orderedInsert (· ≤ ·) ⟨p.cost+hop.2,hop.1,p.depth+1⟩ s.heap
  have hmem : ∀ l,l ∈ s.heap.orderedInsert (· ≤ ·) ⟨p.cost+hop.2,hop.1,p.depth+1⟩ ↔
      l = ⟨p.cost+hop.2,hop.1,p.depth+1⟩ ∨ l ∈ s.heap := fun l => List.mem_orderedInsert _
  constructor
  · exact h.sorted.orderedInsert _ _
  · refine (hperm.pairwise_iff fun {a b} hab hnode => (hab hnode.symm).symm).2 (List.pairwise_cons.2 ⟨fun l hl hnode => ?_,h.apart⟩)
    obtain ⟨c,hc,hdist⟩ := h.known l hl
    have hnode' : l.node = hop.1 := hnode.symm
    exact ((hbest c (hnode' ▸ hdist)).trans_le hc).ne
  · intro d hd l hl
    rcases (hmem l).1 hl with rfl | hl
    · have := hlast d hd
      dsimp only
      omega
    · exact h.above d hd l hl
  · intro d hd l hl hnode
    rcases (hmem l).1 hl with rfl | hl
    · exact absurd hnode (hopen d hd)
    · exact h.overtaken d hd l hl hnode
  · exact h.rising
  · exact h.nodup
  · intro d hd
    exact (Function.update_of_ne (hopen d hd) _ _).trans (h.settled d hd)
  · intro l hl
    rcases (hmem l).1 hl with rfl | hl
    · exact ⟨p.cost+hop.2,le_rfl,Function.update_self _ _ _⟩
    · obtain ⟨c,hc,hdist⟩ := h.known l hl
      by_cases hnode : l.node = hop.1
      · exact ⟨p.cost+hop.2,((hbest c (hnode ▸ hdist)).le).trans hc,hnode ▸ Function.update_self _ _ _⟩
      · exact ⟨c,hc,(Function.update_of_ne hnode _ _).trans hdist⟩
  · intro v c hv
    by_cases hnode : v = hop.1
    · subst hnode
      refine ⟨⟨p.cost+hop.2,hop.1,p.depth+1⟩,List.mem_append_left _ ((hmem _).2 (.inl rfl)),rfl,?_⟩
      exact Option.some.inj ((Function.update_self hop.1 _ s.dist).symm.trans hv)
    · obtain ⟨l,hl,hlv⟩ := h.pending v c ((Function.update_of_ne hnode _ _).symm.trans hv)
      refine ⟨l,?_,hlv⟩
      rw [List.mem_append,hmem,or_assoc,← List.mem_append]
      exact .inr hl
  · intro l hl
    rw [List.mem_append,hmem,or_assoc,← List.mem_append] at hl
    rcases hl with rfl | hl
    · exact .inr ⟨hstart,p,hp,hop.2,hhop,hdepth,rfl,rfl⟩
    · exact h.labels l hl
  · exact (Function.update_of_ne (Ne.symm hstart) _ _).trans h.begun

theorem relax_dist_le {v : α} {c : ℕ} (h : s.dist v = some c) (p : Label α) (hop : α × ℕ) :
    ∃ c' ≤ c,(s.relax p hop).dist v = some c' := by
  unfold Search.relax
  dsimp only
  split_ifs with hless
  · by_cases hv : v = hop.1
    · subst hv
      have hlt : p.cost+hop.2 < c := by simpa [h] using hless
      exact ⟨p.cost+hop.2,hlt.le,by simp⟩
    · exact ⟨c,le_rfl,by simpa [hv] using h⟩
  · exact ⟨c,le_rfl,h⟩

theorem relax_relaxed (s : Search α) (p : Label α) (hop : α × ℕ) :
    ∃ c ≤ p.cost+hop.2,(s.relax p hop).dist hop.1 = some c := by
  unfold Search.relax
  dsimp only
  split_ifs with hless
  · exact ⟨p.cost+hop.2,le_rfl,by simp⟩
  · cases hd : s.dist hop.1 with
    | none => simp [hd] at hless
    | some c => exact ⟨c,by simpa [hd] using hless,rfl⟩

@[simp] theorem relax_out (s : Search α) (p : Label α) (hop : α × ℕ) : (s.relax p hop).out = s.out := by
  unfold Search.relax
  dsimp only
  split_ifs <;> rfl

/-- The hops from an entry that was taken before the last node may go on. -/
def Relaxed (g : Graph α) (depth : ℕ) (done : List (Label α)) (s : Search α) : Prop :=
  ∀ d ∈ done,d.depth < depth → ∀ hop ∈ g.expandNeighbors d.node,∃ c ≤ d.cost+hop.2,s.dist hop.1 = some c

theorem Inv.foldl_relax (h : Inv g start depth done s) (hp : p ∈ done) (hlast : ∀ d ∈ done,d.cost ≤ p.cost)
    (hdepth : p.depth < depth) {hops : List (α × ℕ)} (hhops : ∀ hop ∈ hops,hop ∈ g.expandNeighbors p.node) :
    Inv g start depth done (hops.foldl (Search.relax p) s) ∧ (hops.foldl (Search.relax p) s).out = s.out ∧
      (∀ v c,s.dist v = some c → ∃ c' ≤ c,(hops.foldl (Search.relax p) s).dist v = some c') ∧
      ∀ hop ∈ hops,∃ c ≤ p.cost+hop.2,(hops.foldl (Search.relax p) s).dist hop.1 = some c := by
  induction hops generalizing s with
  | nil => exact ⟨h,rfl,fun v c hc => ⟨c,le_rfl,hc⟩,by simp⟩
  | cons hop hops ih =>
    rw [List.forall_mem_cons] at hhops
    obtain ⟨hinv,hout,hdist,hrest⟩ := ih (h.relax hp hlast hdepth hhops.1) hhops.2
    refine ⟨hinv,hout.trans (relax_out s p hop),fun v c hc => ?_,List.forall_mem_cons.2 ⟨?_,hrest⟩⟩
    · obtain ⟨c1,hc1,h1⟩ := relax_dist_le hc p hop
      obtain ⟨c2,hc2,h2⟩ := hdist v c1 h1
      exact ⟨c2,hc2.trans hc1,h2⟩
    · obtain ⟨c1,hc1,h1⟩ := relax_relaxed s p hop
      obtain ⟨c2,hc2,h2⟩ := hdist hop.1 c1 h1
      exact ⟨c2,hc2.trans hc1,h2⟩

variable {rest : List (Label α)}

/-- An entry that its node has overtaken is dropped. -/
theorem Inv.skip (h : Inv g start depth done s) (hheap : s.heap = l::rest) {c : ℕ} (hc : s.dist l.node = some c)
    (hless : c < l.cost) : Inv g start depth done {s with heap := rest} := by
  have hmem : ∀ m ∈ rest,m ∈ s.heap := fun m hm => hheap ▸ List.mem_cons_of_mem l hm
  have hlater : ∀ m ∈ rest++done,m ∈ s.heap++done := fun m hm => by
    rw [hheap,List.cons_append]
    exact List.mem_cons_of_mem l hm
  constructor
  · exact (List.pairwise_cons.1 (hheap ▸ h.sorted)).2
  · exact (List.pairwise_cons.1 (hheap ▸ h.apart)).2
  · exact fun d hd m hm => h.above d hd m (hmem m hm)
  · exact fun d hd m hm => h.overtaken d hd m (hmem m hm)
  · exact h.rising
  · exact h.nodup
  · exact h.settled
  · exact fun m hm => h.known m (hmem m hm)
  · intro v c' hv
    obtain ⟨m,hm,hnode,hcost⟩ := h.pending v c' hv
    rw [hheap,List.cons_append,List.mem_cons] at hm
    rcases hm with rfl | hm
    · have : c = c' := Option.some.inj (hc.symm.trans (hnode ▸ hv))
      omega
    · exact ⟨m,hm,hnode,hcost⟩
  · exact fun m hm => h.labels m (hlater m hm)
  · exact h.begun

/-- The cheapest entry settles its node. -/
theorem Inv.settle (h : Inv g start depth done s) (hheap : s.heap = l::rest) (hbest : ¬(s.dist l.node).any (· < l.cost)) :
    Inv g start depth (done++[l]) {s with heap := rest} ∧ ∀ d ∈ done++[l],d.cost ≤ l.cost := by
  have hl : l ∈ s.heap := hheap ▸ List.mem_cons_self
  have hmem : ∀ m ∈ rest,m ∈ s.heap := fun m hm => hheap ▸ List.mem_cons_of_mem l hm
  have hsorted := List.pairwise_cons.1 (hheap ▸ h.sorted)
  have hapart := List.pairwise_cons.1 (hheap ▸ h.apart)
  have hperm : ∀ m,m ∈ rest++(done++[l]) ↔ m ∈ s.heap++done := fun m => by
    simp only [hheap,List.mem_append,List.mem_cons,List.not_mem_nil,or_false]
    tauto
  have hdist : s.dist l.node = some l.cost := by
    obtain ⟨c,hc,hdist⟩ := h.known l hl
    have : ¬c < l.cost := by simpa [hdist] using hbest
    rw [hdist]
    congr 1
    omega
  have hnew : ∀ d ∈ done,d.node ≠ l.node := fun d hd hnode => by
    have hcost := Option.some.inj ((h.settled d hd).symm.trans (hnode ▸ hdist))
    have := h.overtaken d hd l hl hnode
    omega
  have hlast : ∀ d ∈ done++[l],d.cost ≤ l.cost := by
    simp only [List.mem_append,List.mem_singleton]
    rintro d (hd | rfl)
    · exact h.above d hd l hl
    · exact le_rfl
  refine ⟨?_,hlast⟩
  constructor
  · exact hsorted.2
  · exact hapart.2
  · exact fun d hd m hm => (hlast d hd).trans (Label.cost_le (hsorted.1 m hm))
  · intro d hd m hm hnode
    rcases List.mem_append.1 hd with hd | hd
    · exact h.overtaken d hd m (hmem m hm) hnode
    · obtain rfl := List.mem_singleton.1 hd
      exact lt_of_le_of_ne (Label.cost_le (hsorted.1 m hm)) (hapart.1 m hm hnode)
  · exact List.pairwise_append.2 ⟨h.rising,List.pairwise_singleton _ _,by simpa using fun d hd => h.above d hd l hl⟩
  · rw [List.map_append,List.nodup_append]
    exact ⟨h.nodup,List.nodup_singleton _,by simpa using hnew⟩
  · intro d hd
    rcases List.mem_append.1 hd with hd | hd
    · exact h.settled d hd
    · obtain rfl := List.mem_singleton.1 hd
      exact hdist
  · exact fun m hm => h.known m (hmem m hm)
  · intro v c hv
    obtain ⟨m,hm,hcost⟩ := h.pending v c hv
    exact ⟨m,(hperm m).2 hm,hcost⟩
  · intro m hm
    rcases h.labels m ((hperm m).1 hm) with hstart | ⟨hne,d,hd,hrest⟩
    · exact .inl hstart
    · exact .inr ⟨hne,d,List.mem_append_left _ hd,hrest⟩
  · exact h.begun

theorem Inv.report (h : Inv g start depth done s) (l : Label α) : Inv g start depth done (report g l s) := by
  unfold Search.report
  split_ifs
  · exact ⟨h.sorted,h.apart,h.above,h.overtaken,h.rising,h.nodup,h.settled,h.known,h.pending,h.labels,h.begun⟩
  · exact h

/-- The hops from the entry that was taken last. -/
theorem Inv.expand (h : Inv g start spec.maxDepth (done++[l]) s) (hlast : ∀ d ∈ done++[l],d.cost ≤ l.cost)
    (hold : Relaxed g spec.maxDepth done s) : Inv g start spec.maxDepth (done++[l]) (expand g spec l s) ∧
      Relaxed g spec.maxDepth (done++[l]) (expand g spec l s) ∧ (expand g spec l s).out = s.out := by
  have hl : l ∈ done++[l] := by simp
  unfold Search.expand
  split_ifs with hdepth
  · refine ⟨h,fun d hd hless => ?_,rfl⟩
    rcases List.mem_append.1 hd with hd | hd
    · exact hold d hd hless
    · obtain rfl := List.mem_singleton.1 hd
      omega
  · obtain ⟨hinv,hout,hdist,hnew⟩ := h.foldl_relax hl hlast (not_le.1 hdepth) fun hop hhop => hhop
    refine ⟨hinv,fun d hd hless hop hhop => ?_,hout⟩
    rcases List.mem_append.1 hd with hd | hd
    · obtain ⟨c,hc,hsome⟩ := hold d hd hless hop hhop
      obtain ⟨c',hc',hsome'⟩ := hdist hop.1 c hsome
      exact ⟨c',hc'.trans hc,hsome'⟩
    · obtain rfl := List.mem_singleton.1 hd
      exact hnew hop hhop

/-- A run settles nodes, and until the heap is empty if the limit does not end it. -/
theorem loop_settles {fuel : ℕ} {out : List (TraverseHit α)} (h : Inv g start spec.maxDepth done s)
    (hrelaxed : Relaxed g spec.maxDepth done s) (hout : s.out = reported g done) (hloop : loop g spec fuel s = some out) :
    ∃ done s,Inv g start spec.maxDepth done s ∧ Relaxed g spec.maxDepth done s ∧ out = reported g done ∧
      (out.length < spec.limit.toNat → s.heap = []) := by
  induction fuel generalizing s done with
  | zero => cases hloop
  | succ fuel ih =>
    rw [loop] at hloop
    cases hheap : s.heap with
    | nil =>
      simp only [hheap,Option.some.injEq] at hloop
      exact ⟨done,s,h,hrelaxed,hloop ▸ hout,fun _ => hheap⟩
    | cons l rest =>
      simp only [hheap] at hloop
      split_ifs at hloop with hskip hstop
      · cases hd : s.dist l.node with
        | none => simp [hd] at hskip
        | some c => exact ih (h.skip hheap hd (by simpa [hd] using hskip)) hrelaxed hout hloop
      · obtain rfl := Option.some.inj hloop
        simp only [Bool.and_eq_true,decide_eq_true_eq] at hstop
        exact ⟨done,s,h,hrelaxed,hout,fun hless => absurd hless (not_lt.2 hstop.2)⟩
      · obtain ⟨hsettled,hlast⟩ := h.settle hheap hskip
        have hold : Relaxed g spec.maxDepth done (Search.report g l {s with heap := rest}) := by
          unfold Relaxed
          rw [report_dist]
          exact hrelaxed
        obtain ⟨hinv,hnext,hsame⟩ := (hsettled.report l).expand hlast hold
        refine ih hinv hnext ?_ hloop
        rw [hsame,report_out,hout]
        simp [reported]

theorem Inv.nodup_reported (h : Inv g start depth done s) : ((reported g done).map TraverseHit.node).Nodup := by
  have hsub := (List.filter_sublist (p := fun d => 1 ≤ d.depth && g.live d.node) (l := done)).map Label.node
  rw [reported,List.map_map]
  exact hsub.nodup h.nodup

theorem foldl_relax_out (l : Label α) (hops : List (α × ℕ)) (s : Search α) : (hops.foldl (relax l) s).out = s.out := by
  induction hops generalizing s with
  | nil => rfl
  | cons hop hops ih =>
    rw [List.foldl_cons,ih]
    unfold relax
    dsimp only
    split <;> rfl

@[simp] theorem expand_out (g : Graph α) (spec : TraverseSpec) (l : Label α) (s : Search α) : (expand g spec l s).out = s.out := by
  unfold expand
  split
  · rfl
  · exact foldl_relax_out l _ s

theorem loop_extends {fuel : ℕ} {out : List (TraverseHit α)} (hloop : loop g spec fuel s = some out) : s.out <+: out := by
  induction fuel generalizing s with
  | zero => cases hloop
  | succ fuel ih =>
    rw [loop] at hloop
    cases hheap : s.heap with
    | nil =>
      simp only [hheap,Option.some.injEq] at hloop
      exact hloop ▸ List.prefix_refl _
    | cons l rest =>
      simp only [hheap] at hloop
      split_ifs at hloop with hskip hstop
      · have hext : {s with heap := rest}.out <+: out := ih hloop
        exact hext
      · exact Option.some.inj hloop ▸ List.prefix_refl _
      · have hext := ih hloop
        rw [expand_out,report_out] at hext
        exact (List.prefix_append _ _).trans hext

/-- A lower limit cuts the hits. -/
theorem loop_take {limit : UInt64} {fuel : ℕ} {out : List (TraverseHit α)} (hle : limit ≤ spec.limit)
    (hroom : s.out.length ≤ limit.toNat) (hloop : loop g spec fuel s = some out) :
    loop g {spec with limit := limit} fuel s = some (out.take limit.toNat) := by
  induction fuel generalizing s with
  | zero => cases hloop
  | succ fuel ih =>
    have hext := loop_extends hloop
    rw [loop] at hloop ⊢
    cases hheap : s.heap with
    | nil =>
      simp only [hheap,Option.some.injEq] at hloop ⊢
      rw [← hloop,List.take_of_length_le hroom]
    | cons l rest =>
      simp only [hheap] at hloop ⊢
      by_cases hskip : (s.dist l.node).any (· < l.cost)
      · rw [if_pos hskip] at hloop ⊢
        exact ih hroom hloop
      rw [if_neg hskip] at hloop ⊢
      by_cases hstop : 1 ≤ l.depth && limit.toNat ≤ s.out.length
      · rw [if_pos hstop]
        simp only [Bool.and_eq_true,decide_eq_true_eq] at hstop
        rw [List.prefix_iff_eq_take.1 hext,le_antisymm hroom hstop.2]
      · have hgoes : ¬(1 ≤ l.depth && spec.limit.toNat ≤ s.out.length) := fun h => hstop (by
          have := UInt64.le_iff_toNat_le.1 hle
          simp only [Bool.and_eq_true,decide_eq_true_eq] at h ⊢
          omega)
        rw [if_neg hgoes] at hloop
        rw [if_neg hstop]
        refine ih ?_ hloop
        rw [expand_out]
        simp only [Bool.and_eq_true,decide_eq_true_eq,not_and,not_le] at hstop
        unfold report
        split_ifs with hhit
        · simp only [Bool.and_eq_true,decide_eq_true_eq] at hhit
          rw [List.length_append,List.length_singleton]
          exact hstop hhit.1
        · exact hroom

/-- A taken entry stands for a route. -/
theorem Inv.route (h : Inv g start depth done s) {d : Label α} (hd : d ∈ done) :
    g.Route start d.node d.depth d.cost ∧ d.depth ≤ depth := by
  induction hn : d.depth using Nat.strong_induction_on generalizing d with
  | _ n ih =>
    rcases h.labels d (List.mem_append_right _ hd) with rfl | ⟨-,e,he,w,hhop,hless,hcost,hdepth⟩
    · subst hn
      exact ⟨.nil,Nat.zero_le _⟩
    · obtain ⟨hroute,-⟩ := ih e.depth (by omega) he rfl
      rw [← hn,hdepth,hcost]
      exact ⟨hroute.hop hhop,by omega⟩

/-- Only the first entry is for the start. -/
theorem Inv.node_ne_start (h : Inv g start depth done s) {d : Label α} (hd : d ∈ done) : d.node ≠ start ↔ 1 ≤ d.depth := by
  rcases h.labels d (List.mem_append_right _ hd) with rfl | ⟨hne,e,-,w,-,-,-,hdepth⟩
  · simp
  · exact iff_of_true hne (by omega)

end Search

namespace Graph
variable (g : Graph α) (start : α)

/-- A route each of whose inner nodes, the start apart, is reached for less than by any route that uses up the
bound on the hops. -/
inductive OpenRoute (depth : ℕ) : α → ℕ → ℕ → Prop
  | nil : OpenRoute depth start 0 0
  | hop {u v : α} {k c w : ℕ} : OpenRoute depth u k c → (u = start ∨ ∀ c',g.Route start u depth c' → c < c') →
    (v,w) ∈ g.expandNeighbors u → OpenRoute depth v (k+1) (c+w)

/-- The least cost of a route within the bound. -/
def Cheapest (depth : ℕ) (v : α) (c : ℕ) : Prop :=
  (∃ k ≤ depth,g.Route start v k c) ∧ ∀ k ≤ depth,∀ c',g.Route start v k c' → c ≤ c'

/-- The hits are the live nodes within the bound but the start, each once with its least cost, in the order of the costs. -/
structure Exact (depth : ℕ) (out : List (TraverseHit α)) : Prop where
  nodes : ∀ v,v ∈ out.map TraverseHit.node ↔ v ≠ start ∧ g.live v ∧ ∃ k ≤ depth,∃ c,g.Route start v k c
  nodup : (out.map TraverseHit.node).Nodup
  costs : ∀ h ∈ out,g.Cheapest start depth h.node h.cost
  rising : out.Pairwise fun a b => a.cost ≤ b.cost

variable {g start} {depth : ℕ} {done : List (Label α)} {s : Search α}

/-- At the end every node of an open route is settled, as cheaply as the route is. -/
theorem settled_of_openRoute (h : Search.Inv g start depth done s) (hrelaxed : Search.Relaxed g depth done s)
    (hheap : s.heap = []) {v : α} {k c : ℕ} (hopen : g.OpenRoute start depth v k c) (hk : k ≤ depth) :
    ∃ d ∈ done,d.node = v ∧ d.cost ≤ c := by
  have hdone : ∀ v c,s.dist v = some c → ∃ d ∈ done,d.node = v ∧ d.cost ≤ c := fun v c hc => by
    obtain ⟨d,hd,hnode,hcost⟩ := h.pending v c hc
    rw [hheap,List.nil_append] at hd
    exact ⟨d,hd,hnode,hcost.le⟩
  induction hopen with
  | nil => exact hdone start 0 h.begun
  | @hop u v k c w hroute hinner hhop ih =>
    obtain ⟨d,hd,rfl,hcost⟩ := ih (by omega)
    obtain ⟨hto,hbound⟩ := h.route hd
    -- an entry that has used up the bound would be a route as cheap as the open one
    have hless : d.depth < depth := by
      refine lt_of_le_of_ne hbound fun hfull => ?_
      rcases hinner with hstart | hdear
      · exact absurd hstart ((h.node_ne_start hd).2 (by omega))
      · have := hdear d.cost (hfull ▸ hto)
        omega
    obtain ⟨c',hc',hdist⟩ := hrelaxed d hd hless (v,w) hhop
    obtain ⟨e,he,hnode,hle⟩ := hdone v c' hdist
    exact ⟨e,he,hnode,by dsimp only at hc'; omega⟩

theorem exact_of_settled (h : Search.Inv g start depth done s) (hrelaxed : Search.Relaxed g depth done s) (hheap : s.heap = [])
    (hopen : ∀ v,v ≠ start → g.live v → (∃ k ≤ depth,∃ c,g.Route start v k c) →
      ∃ k ≤ depth,∃ c,g.OpenRoute start depth v k c ∧ g.Cheapest start depth v c) :
    g.Exact start depth (Search.reported g done) := by
  have hreaches : ∀ v,v ≠ start → g.live v → (∃ k ≤ depth,∃ c,g.Route start v k c) →
      ∃ d ∈ done,d.node = v ∧ g.Cheapest start depth v d.cost := fun v hne hlive hroute => by
    obtain ⟨k,hk,c,hc,hcheap⟩ := hopen v hne hlive hroute
    obtain ⟨d,hd,rfl,hcost⟩ := settled_of_openRoute h hrelaxed hheap hc hk
    obtain ⟨hto,hbound⟩ := h.route hd
    exact ⟨d,hd,rfl,⟨d.depth,hbound,hto⟩,fun k hk c' hc' => hcost.trans (hcheap.2 k hk c' hc')⟩
  constructor
  · intro v
    rw [Search.mem_reported]
    constructor
    · rintro ⟨d,hd,rfl,hdepth,hlive⟩
      obtain ⟨hto,hbound⟩ := h.route hd
      exact ⟨(h.node_ne_start hd).2 hdepth,hlive,d.depth,hbound,d.cost,hto⟩
    · rintro ⟨hne,hlive,hroute⟩
      obtain ⟨d,hd,rfl,-⟩ := hreaches v hne hlive hroute
      exact ⟨d,hd,rfl,(h.node_ne_start hd).1 hne,hlive⟩
  · exact h.nodup_reported
  · intro hit hhit
    simp only [Search.reported,List.mem_map,List.mem_filter,Bool.and_eq_true,decide_eq_true_eq] at hhit
    obtain ⟨d,⟨hd,hdepth,hlive⟩,rfl⟩ := hhit
    obtain ⟨hto,hbound⟩ := h.route hd
    obtain ⟨e,he,hnode,hcheap⟩ := hreaches d.node ((h.node_ne_start hd).2 hdepth) hlive ⟨d.depth,hbound,d.cost,hto⟩
    obtain rfl := List.inj_on_of_nodup_map h.nodup he hd hnode
    exact hcheap
  · exact (h.rising.filter _).map _ fun _ _ hle => hle

def weightedSpec (limit : UInt64) : TraverseSpec := ⟨.outgoing,none,2,limit,some "edges",some "weight"⟩

/-- One reference of weight 5. -/
def oneHop : Graph String := ⟨fun u => if u = "s" then [("a",5)] else [],fun _ => true⟩

/-- From `s` the node `a` is cheaper through `b`, which uses up two hops. -/
def detour : Graph String := ⟨fun u => if u = "s" then [("a",5),("b",1)] else if u = "b" then [("a",1)]
  else if u = "a" then [("t",1)] else [],fun _ => true⟩

end Graph

end HakoDB
