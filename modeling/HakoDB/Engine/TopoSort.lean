import HakoDB.Engine.GraphParts
import HakoDB.Lib.GreedyOrder
import Mathlib.Data.Fintype.Card
import Mathlib.Data.Fintype.EquivFin
import Mathlib.Data.Finset.Max
import Mathlib.Data.List.TakeWhile

/-! Cycles and topological orders of a collection's graph: a search by colours with a stack that can be resumed, and
the removal of nodes without incoming edges, the least one first. -/
namespace HakoDB
open HashMap GreedyOrder Relation

/-- The counts of incoming edges and the nodes that have none left. -/
structure Kahn (n : ℕ) where
  indeg : Fin n → ℕ
  frontier : Finset (Fin n)

namespace Kahn
variable {n : ℕ} (children : Fin n → List (Fin n))

def release (k : Kahn n) (c : Fin n) : Kahn n :=
  let d := k.indeg c-1
  ⟨Function.update k.indeg c d,if d = 0 then insert c k.frontier else k.frontier⟩

def pop (k : Kahn n) (m : Fin n) : Kahn n := (children m).foldl release ⟨k.indeg,k.frontier.erase m⟩

/-- The nodes in the order in which they leave the frontier. -/
def drain : ℕ → Kahn n → List (Fin n)
  | 0,_ => []
  | fuel+1,k => if h : k.frontier.Nonempty then k.frontier.min' h::drain fuel (k.pop children (k.frontier.min' h)) else []

def start : Kahn n :=
  let indeg := ((List.finRange n).flatMap children).foldl (fun (d : Fin n → ℕ) c => Function.update d c (d c+1)) fun _ => 0
  ⟨indeg,Finset.univ.filter fun i => indeg i = 0⟩

/-- What the counts mean when some nodes are done and the others are not. -/
structure Counts (k : Kahn n) (done rest : List (Fin n)) : Prop where
  perm : (done++rest).Perm (List.finRange n)
  indeg : ∀ v,k.indeg v = (rest.flatMap children).count v
  frontier : ∀ v,v ∈ k.frontier ↔ v ∈ rest ∧ k.indeg v = 0
  closed : ∀ v ∈ done,k.indeg v = 0

variable {children} {k : Kahn n} {done rest : List (Fin n)} {m : Fin n}

/-- No count goes below zero. -/
theorem foldl_release {cs : List (Fin n)} (h : ∀ v,cs.count v ≤ k.indeg v) (v : Fin n) :
    (cs.foldl release k).indeg v = k.indeg v-cs.count v ∧
      (v ∈ (cs.foldl release k).frontier ↔ v ∈ k.frontier ∨ v ∈ cs ∧ k.indeg v = cs.count v) := by
  induction cs generalizing k with
  | nil => simp
  | cons c cs ih =>
    have hrest : ∀ u,cs.count u ≤ (k.release c).indeg u := fun u => by
      have hu := h u
      by_cases huc : u = c
      · subst huc
        simp only [List.count_cons_self] at hu
        simp only [release,Function.update_self]
        omega
      · simpa [release,Function.update_of_ne huc,Ne.symm huc] using hu
    have hv := h v
    obtain ⟨hindeg,hfrontier⟩ := ih hrest
    rw [List.foldl_cons,hindeg,hfrontier]
    by_cases hvc : v = c
    · subst hvc
      have hmem : v ∈ cs ↔ 0 < cs.count v := List.count_pos_iff.symm
      simp only [List.count_cons_self] at hv
      simp only [release,Function.update_self,List.count_cons_self,List.mem_cons,true_or,true_and]
      refine ⟨by omega,?_⟩
      by_cases hzero : k.indeg v-1 = 0
      · simp only [hzero,if_true,Finset.mem_insert,true_or,true_iff]
        exact .inr (by omega)
      · rw [if_neg hzero,hmem]
        refine or_congr_right ?_
        omega
    · have hne : ¬c = v := fun h => hvc h.symm
      have hindeg : (k.release c).indeg v = k.indeg v := Function.update_of_ne hvc _ _
      have hfront : v ∈ (k.release c).frontier ↔ v ∈ k.frontier := by
        simp only [release]
        split_ifs <;> simp [hvc]
      simp [hfront,hindeg,hvc,hne]

theorem counts_start : (start children).Counts children [] (List.finRange n) := by
  have hcount : ∀ (cs : List (Fin n)) (d : Fin n → ℕ) (v : Fin n),
      cs.foldl (fun (d : Fin n → ℕ) c => Function.update d c (d c+1)) d v = d v+cs.count v := fun cs => by
    induction cs with
    | nil => simp
    | cons c cs ih =>
      intro d v
      rw [List.foldl_cons,ih]
      by_cases hvc : v = c
      · subst hvc
        rw [Function.update_self,List.count_cons_self]
        omega
      · rw [Function.update_of_ne hvc,List.count_cons_of_ne (Ne.symm hvc)]
  refine ⟨.refl _,fun v => ?_,fun v => ?_,by simp⟩
  · exact (hcount _ _ v).trans (Nat.zero_add _)
  · simp [start]

theorem Counts.pop (h : k.Counts children done rest) (hm : m ∈ k.frontier) :
    (k.pop children m).Counts children (done++[m]) (rest.erase m) := by
  obtain ⟨hrest,hzero⟩ := (h.frontier m).1 hm
  have hnodup : (done++rest).Nodup := h.perm.nodup_iff.2 (List.nodup_finRange n)
  have hsplit : ∀ v,k.indeg v = (children m).count v+((rest.erase m).flatMap children).count v := fun v => by
    rw [h.indeg,((List.perm_cons_erase hrest).flatMap_right children).count_eq,List.flatMap_cons,List.count_append]
  have hpop : ∀ v,(k.pop children m).indeg v = k.indeg v-(children m).count v ∧ (v ∈ (k.pop children m).frontier ↔
      v ∈ k.frontier.erase m ∨ v ∈ children m ∧ k.indeg v = (children m).count v) :=
    foldl_release fun u => (Nat.le_add_right _ _).trans_eq (hsplit u).symm
  have hindeg : ∀ v,(k.pop children m).indeg v = ((rest.erase m).flatMap children).count v := fun v => by
    rw [(hpop v).1,hsplit,Nat.add_sub_cancel_left]
  refine ⟨?_,hindeg,fun v => ?_,fun v hv => ?_⟩
  · rw [List.append_assoc]
    exact ((List.perm_cons_erase hrest).symm.append_left done).trans h.perm
  · have hall : v ∈ done ∨ v ∈ rest := List.mem_append.1 (h.perm.mem_iff.2 (List.mem_finRange v))
    have hpos : v ∈ children m ↔ 0 < (children m).count v := List.count_pos_iff.symm
    have hv := hsplit v
    rw [hindeg,(hpop v).2,Finset.mem_erase,h.frontier,(List.nodup_append.1 hnodup).2.1.mem_erase_iff,hpos]
    constructor
    · rintro (⟨hne,hin,hnone⟩ | ⟨hchild,hlast⟩)
      · exact ⟨⟨hne,hin⟩,by omega⟩
      · refine ⟨⟨?_,hall.resolve_left fun hdone => ?_⟩,by omega⟩
        · rintro rfl
          omega
        · have := h.closed v hdone
          omega
    · rintro ⟨⟨hne,hin⟩,hnone⟩
      by_cases hchild : 0 < (children m).count v
      · exact .inr ⟨hchild,by omega⟩
      · exact .inl ⟨hne,hin,by omega⟩
  · rw [hindeg]
    rcases List.mem_append.1 hv with hv | hv
    · have := h.closed v hv
      have := hsplit v
      omega
    · obtain rfl := List.mem_singleton.1 hv
      have := hsplit v
      omega

end Kahn

/-- Distinct nodes, each with an edge to the next one and the last with an edge to the first. -/
def Circle {α : Type} (E : α → α → Prop) (l : List α) : Prop :=
  l ≠ [] ∧ l.Nodup ∧ l.IsChain E ∧ ∀ x ∈ l.getLast?,∀ y ∈ l.head?,E x y

inductive Color
  | white | grey | black
  deriving DecidableEq

namespace Color
variable {n : ℕ} (children : Fin n → List (Fin n))

def whites (color : Fin n → Color) : ℕ := (Finset.univ.filter fun v => color v = white).card

theorem whites_update_le (color : Fin n → Color) (v : Fin n) {c : Color} (hc : c ≠ white) :
    whites (Function.update color v c) ≤ whites color := by
  refine Finset.card_le_card fun u hu => ?_
  simp only [Finset.mem_filter,Finset.mem_univ,true_and] at hu ⊢
  by_cases huv : u = v
  · subst huv
    rw [Function.update_self] at hu
    exact absurd hu hc
  · rwa [Function.update_of_ne huv] at hu

theorem whites_update_lt {color : Fin n → Color} {v : Fin n} (hv : color v = white) :
    whites (Function.update color v grey) < whites color := by
  refine Finset.card_lt_card (Finset.ssubset_iff_of_subset ?_ |>.2 ⟨v,by simp [hv],by simp⟩)
  intro u hu
  simp only [Finset.mem_filter,Finset.mem_univ,true_and] at hu ⊢
  by_cases huv : u = v
  · rwa [huv]
  · rwa [Function.update_of_ne huv] at hu

/-- The nodes that are left as starts, the colours, and the stack with the next child of each node, the top first. A
grey child closes a cycle: the stack from that node up. -/
def scan (todo : List (Fin n)) (color : Fin n → Color) (stack : List (Fin n × ℕ)) : Option (List (Fin n)) :=
  match stack with
  | [] =>
    match todo with
    | [] => none
    | s::todo =>
      if _hs : color s = white then scan todo (Function.update color s grey) [(s,0)] else scan todo color []
  | (v,i)::rest =>
    match _hi : (children v)[i]? with
    | none => scan todo (Function.update color v black) rest
    | some c =>
      match hc : color c with
      | white => scan todo (Function.update color c grey) ((c,0)::(v,i+1)::rest)
      | grey => some ((((v,i+1)::rest).reverse.map Prod.fst).dropWhile (· ≠ c))
      | black => scan todo color ((v,i+1)::rest)
termination_by (whites color,todo.length,(stack.flatMap fun p => p.1::(children p.1).drop p.2).length)
decreasing_by
  · exact .left _ _ (whites_update_lt _hs)
  · exact .right _ (.left _ _ (Nat.lt_succ_self _))
  · rcases (whites_update_le color v (c := black) (by decide)).lt_or_eq with hlt | heq
    · exact .left _ _ hlt
    · rw [heq]
      refine .right _ (.right _ ?_)
      simp only [List.flatMap_cons,List.length_append,List.length_cons]
      omega
  · exact .left _ _ (whites_update_lt hc)
  · refine .right _ (.right _ ?_)
    have hlt := (List.getElem?_eq_some_iff.1 _hi).1
    simp only [List.flatMap_cons,List.length_append,List.length_cons,List.length_drop]
    omega

/-- The grey nodes are those on the stack, each a child of the one below. The children that were looked at are black,
but for the one above; from a black node every way ends. -/
structure Searching (todo : List (Fin n)) (color : Fin n → Color) (stack : List (Fin n × ℕ)) : Prop where
  grey : ∀ v,color v = grey ↔ v ∈ stack.map Prod.fst
  nodup : (stack.map Prod.fst).Nodup
  white : ∀ v,color v = white → v ∈ todo
  black : ∀ v,color v = black → Acc (fun c v => c ∈ children v) v
  top : ∀ p ∈ stack.head?,∀ c ∈ (children p.1).take p.2,color c = .black
  chain : stack.IsChain fun up down => up.1 ∈ children down.1 ∧
    ∀ c ∈ (children down.1).take down.2,c = up.1 ∨ color c = .black

variable {children} {todo : List (Fin n)} {color : Fin n → Color} {stack rest : List (Fin n × ℕ)} {v c : Fin n} {i : ℕ}

theorem Searching.skip {s : Fin n} (h : Searching children (s::todo) color []) (hs : color s ≠ .white) :
    Searching children todo color [] := by
  refine ⟨h.grey,h.nodup,fun v hv => ?_,h.black,h.top,h.chain⟩
  rcases List.mem_cons.1 (h.white v hv) with rfl | hin
  · exact absurd hv hs
  · exact hin

theorem Searching.enter {s : Fin n} (h : Searching children (s::todo) color []) :
    Searching children todo (Function.update color s .grey) [(s,0)] := by
  refine ⟨fun v => ?_,by simp,fun v hv => ?_,fun v hv => ?_,by simp,.singleton _⟩ <;> by_cases hvs : v = s
  · simp [hvs]
  · simpa [Function.update_of_ne hvs,hvs] using h.grey v
  · simp [hvs] at hv
  · rw [Function.update_of_ne hvs] at hv
    exact (List.mem_cons.1 (h.white v hv)).resolve_left hvs
  · simp [hvs] at hv
  · rw [Function.update_of_ne hvs] at hv
    exact h.black v hv

/-- The links of the stack do not depend on how far its top has come. -/
theorem Searching.links (h : Searching children todo color ((v,i)::rest)) (j : ℕ) {next : Fin n → Color}
    (hnext : ∀ u,color u = .black → next u = .black) :
    ((v,j)::rest).IsChain fun up down => up.1 ∈ children down.1 ∧
      ∀ c ∈ (children down.1).take down.2,c = up.1 ∨ next c = .black := by
  have hchain := h.chain.imp fun up down hlink => And.intro hlink.1 fun c hc => (hlink.2 c hc).imp_right (hnext c)
  cases rest with
  | nil => exact .singleton _
  | cons down rest =>
    obtain ⟨hlink,hchain⟩ := List.isChain_cons_cons.1 hchain
    exact List.isChain_cons_cons.2 ⟨hlink,hchain⟩

theorem Searching.push (h : Searching children todo color ((v,i)::rest)) (hi : (children v)[i]? = some c)
    (hc : color c = .white) : Searching children todo (Function.update color c .grey) ((c,0)::(v,i+1)::rest) := by
  have hother : ∀ u,color u = .black → Function.update color c .grey u = .black := fun u hu => by
    rw [Function.update_of_ne (by rintro rfl; rw [hc] at hu; cases hu),hu]
  have hnew : c ∉ ((v,i)::rest).map Prod.fst := fun hin => by
    rw [(h.grey c).2 hin] at hc
    cases hc
  refine ⟨fun u => ?_,List.nodup_cons.2 ⟨hnew,h.nodup⟩,fun u hu => ?_,fun u hu => ?_,by simp,?_⟩
  · by_cases huc : u = c
    · simp [huc]
    · simpa [Function.update_of_ne huc,huc] using h.grey u
  · by_cases huc : u = c
    · simp [huc] at hu
    · rw [Function.update_of_ne huc] at hu
      exact h.white u hu
  · by_cases huc : u = c
    · simp [huc] at hu
    · rw [Function.update_of_ne huc] at hu
      exact h.black u hu
  · refine List.isChain_cons_cons.2 ⟨⟨List.mem_of_getElem? hi,fun x hx => ?_⟩,h.links (i+1) hother⟩
    rw [List.take_add_one,hi] at hx
    rcases List.mem_append.1 hx with hx | hx
    · exact .inr (hother x (h.top (v,i) rfl x hx))
    · exact .inl (by simpa using hx)

theorem Searching.close (h : Searching children todo color ((v,i)::rest)) (hi : (children v)[i]? = none) :
    Searching children todo (Function.update color v .black) rest := by
  have hother : ∀ u,color u = .black → Function.update color v .black u = .black := fun u hu => by
    by_cases huv : u = v
    · simp [huv]
    · rw [Function.update_of_ne huv,hu]
  have hnodup : v ∉ rest.map Prod.fst ∧ (rest.map Prod.fst).Nodup := List.nodup_cons.1 h.nodup
  refine ⟨fun u => ?_,hnodup.2,fun u hu => ?_,fun u hu => ?_,fun p hp c hc => ?_,?_⟩
  · by_cases huv : u = v
    · subst huv
      simpa using hnodup.1
    · simpa [Function.update_of_ne huv,huv] using h.grey u
  · by_cases huv : u = v
    · simp [huv] at hu
    · rw [Function.update_of_ne huv] at hu
      exact h.white u hu
  · by_cases huv : u = v
    · subst huv
      refine ⟨_,fun c hc => h.black c (h.top (u,i) rfl c ?_)⟩
      rwa [List.take_of_length_le (List.getElem?_eq_none_iff.1 hi)]
    · rw [Function.update_of_ne huv] at hu
      exact h.black u hu
  · obtain ⟨rest,rfl⟩ := List.head?_eq_some_iff.1 hp
    rcases (List.isChain_cons_cons.1 h.chain).1.2 c hc with rfl | hc
    · exact Function.update_self _ _ _
    · exact hother c hc
  · exact (h.links i hother).tail

theorem Searching.pass (h : Searching children todo color ((v,i)::rest)) (hi : (children v)[i]? = some c)
    (hc : color c = .black) : Searching children todo color ((v,i+1)::rest) := by
  refine ⟨h.grey,h.nodup,h.white,h.black,fun p hp x hx => ?_,h.links (i+1) fun u => id⟩
  obtain rfl := Option.some.inj hp
  rw [List.take_add_one,hi] at hx
  rcases List.mem_append.1 hx with hx | hx
  · exact h.top (v,i) rfl x hx
  · obtain rfl : x = c := by simpa using hx
    exact hc

/-- The stack from a grey child of its top is a cycle. -/
theorem Searching.circle (h : Searching children todo color ((v,i)::rest)) (hi : (children v)[i]? = some c)
    (hc : color c = .grey) :
    Circle (fun u w => w ∈ children u) ((((v,i+1)::rest).reverse.map Prod.fst).dropWhile (· ≠ c)) := by
  rw [List.map_reverse]
  have hin : c ∈ (((v,i+1)::rest).map Prod.fst).reverse := List.mem_reverse.2 ((h.grey c).1 hc)
  have hsuffix := List.dropWhile_suffix (l := (((v,i+1)::rest).map Prod.fst).reverse) (p := (· ≠ c))
  have hchain : (((v,i+1)::rest).map Prod.fst).reverse.IsChain fun u w => w ∈ children u := by
    rw [List.isChain_reverse,List.isChain_map]
    exact (h.links (i+1) fun u => id).imp fun up down hlink => hlink.1
  refine ⟨fun hnil => ?_,(List.nodup_reverse.2 h.nodup).sublist hsuffix.sublist,hchain.suffix hsuffix,fun x hx y hy => ?_⟩
  · have hall := List.dropWhile_eq_nil_iff.1 hnil c hin
    simp at hall
  · have hxv : x = v := by
      obtain ⟨pre,hpre⟩ := hsuffix
      have hlast := congrArg List.getLast? hpre
      rw [List.getLast?_append,Option.mem_def.1 hx,List.getLast?_reverse] at hlast
      simpa using hlast
    have hyc : y = c := by
      have hhead := List.head?_dropWhile_not (· ≠ c) (((v,i+1)::rest).map Prod.fst).reverse
      rw [Option.mem_def.1 hy] at hhead
      simpa using hhead
    rw [hxv,hyc]
    exact List.mem_of_getElem? hi

/-- A search that finds nothing has seen all ways end; what one finds is a cycle. -/
theorem scan_spec (h : Searching children todo color stack) :
    (scan children todo color stack = none → ∀ v,Acc (fun c v => c ∈ children v) v) ∧
      ∀ l,scan children todo color stack = some l → Circle (fun u w => w ∈ children u) l := by
  fun_induction scan children todo color stack with
  | case1 color =>
    refine ⟨fun _ v => h.black v ?_,by simp⟩
    cases hv : color v with
    | white => cases h.white v hv
    | grey => cases (h.grey v).1 hv
    | black => rfl
  | case2 color s todo hs ih => exact ih h.enter
  | case3 color s todo hs ih => exact ih (h.skip hs)
  | case4 todo color v i rest hi ih => exact ih (h.close hi)
  | case5 todo color v i rest c hi hc ih => exact ih (h.push hi hc)
  | case6 todo color v i rest c hi hc =>
    refine ⟨by simp,fun l hl => ?_⟩
    obtain rfl := Option.some.inj hl
    exact h.circle hi hc
  | case7 todo color v i rest c hi hc ih => exact ih (h.pass hi hc)

end Color

namespace NodeList
variable {α : Type} [LinearOrder α] (g : NodeList α) (adj : HMap α (List α))

def children (i : Fin g.nodes.length) : List (Fin g.nodes.length) :=
  match adj.lookup (g.nodes.get i) with
  | some targets => targets.filterMap g.pos
  | none => []

def graphFindCycle : Option (List α) :=
  (Color.scan (g.children adj) (List.finRange _) (fun _ => .white) []).map fun l => l.map g.nodes.get

/-- The nodes as they are removed. The frontier is empty after as many rounds as there are nodes. -/
def removed : List α := (Kahn.drain (g.children adj) g.nodes.length (.start (g.children adj))).map g.nodes.get

def graphTopoSort : Option (List α) := if (g.removed adj).length = g.nodes.length then some (g.removed adj) else none

variable {g adj}

theorem mem_children {i j : Fin g.nodes.length} : j ∈ g.children adj i ↔ g.Edge adj (g.nodes.get i) (g.nodes.get j) := by
  unfold children Edge
  cases adj.lookup (g.nodes.get i) <;> simp [pos_eq_some]

theorem exists_get {x : α} (hx : x ∈ g.nodes) : ∃ i,g.nodes.get i = x := List.mem_iff_get.1 hx

section
variable {k : Kahn g.nodes.length} {done rest : List (Fin g.nodes.length)}

theorem ready_iff (h : k.Counts (g.children adj) done rest) (v : Fin g.nodes.length) :
    Ready (g.Edge adj) g.nodes (done.map g.nodes.get) (g.nodes.get v) ↔ v ∈ k.frontier := by
  have hall : ∀ u,u ∈ done ∨ u ∈ rest := fun u => List.mem_append.1 (h.perm.mem_iff.2 (List.mem_finRange u))
  have hapart : ∀ u,u ∈ rest → u ∉ done := fun u hr hd =>
    (List.nodup_append.1 (h.perm.nodup_iff.2 (List.nodup_finRange _))).2.2 u hd u hr rfl
  have hdone : ∀ u,g.nodes.get u ∈ done.map g.nodes.get ↔ u ∈ done := fun u => List.mem_map_of_injective get_injective
  rw [h.frontier,h.indeg,List.count_eq_zero,List.mem_flatMap]
  unfold Ready
  rw [hdone]
  constructor
  · rintro ⟨-,hv,hbefore⟩
    refine ⟨(hall v).resolve_left hv,?_⟩
    rintro ⟨u,hu,hchild⟩
    exact hapart u hu ((hdone u).1 (hbefore _ (mem_children.1 hchild)))
  · rintro ⟨hv,hnone⟩
    refine ⟨List.get_mem _ _,hapart v hv,fun u hu => ?_⟩
    obtain ⟨u,rfl⟩ := exists_get hu.1
    exact (hdone u).2 ((hall u).resolve_right fun hr => hnone ⟨u,hr,mem_children.2 hu⟩)

theorem not_ready (h : k.Counts (g.children adj) done rest) (hempty : ¬k.frontier.Nonempty) (x : α) :
    ¬Ready (g.Edge adj) g.nodes (done.map g.nodes.get) x := by
  intro hx
  obtain ⟨v,rfl⟩ := exists_get hx.1
  exact hempty ⟨v,(ready_iff h v).1 hx⟩

theorem drain_greedy (h : k.Counts (g.children adj) done rest) {fuel : ℕ} (hfuel : rest.length ≤ fuel) :
    Greedy (g.Edge adj) g.nodes (done.map g.nodes.get) ((Kahn.drain (g.children adj) fuel k).map g.nodes.get) := by
  induction fuel generalizing k done rest with
  | zero =>
    refine not_ready h ?_
    rintro ⟨v,hv⟩
    have hrest := List.length_pos_of_mem ((h.frontier v).1 hv).1
    omega
  | succ fuel ih =>
    unfold Kahn.drain
    split_ifs with hfrontier
    · have hm := k.frontier.min'_mem hfrontier
      refine ⟨(ready_iff h _).2 hm,fun y hy => ?_,?_⟩
      · obtain ⟨j,rfl⟩ := exists_get hy.1
        exact g.sorted.sortedLT.strictMono_get.monotone (k.frontier.min'_le j ((ready_iff h j).1 hy))
      · have hrest := ((h.frontier _).1 hm).1
        have hnext := ih (h.pop hm) (by rw [List.length_erase_of_mem hrest]; omega)
        rwa [List.map_append] at hnext
    · exact not_ready h hfrontier

end

theorem removed_greedy : Greedy (g.Edge adj) g.nodes [] (g.removed adj) :=
  drain_greedy Kahn.counts_start (List.length_finRange).le

theorem removed_subperm : (g.removed adj).Subperm g.nodes :=
  List.subperm_of_subset (removed_greedy.nodup .nil) fun _ hx => removed_greedy.mem hx

/-- Where every way ahead ends, every way back does. -/
theorem wellFounded_edge (h : ∀ v,Acc (fun c v => c ∈ g.children adj v) v) : WellFounded (g.Edge adj) := by
  have hwf : WellFounded fun u v => v ∈ g.children adj u := by
    have hahead : WellFounded (TransGen fun c v => c ∈ g.children adj v) := WellFounded.transGen ⟨h⟩
    have hirrefl : Std.Irrefl (TransGen fun u v => v ∈ g.children adj u) :=
      ⟨fun v hv => hahead.irrefl.irrefl v (transGen_swap.2 hv)⟩
    have hback : WellFounded (TransGen fun u v => v ∈ g.children adj u) := Finite.wellFounded_of_trans_of_irrefl _
    exact hback.mono fun _ _ hchild => .single hchild
  have hget : ∀ i,Acc (g.Edge adj) (g.nodes.get i) := fun i => by
    induction i using hwf.induction with
    | _ i ih =>
      refine ⟨_,fun y hy => ?_⟩
      obtain ⟨j,rfl⟩ := exists_get hy.1
      exact ih j (mem_children.2 hy)
  refine ⟨fun x => ⟨x,fun y hy => ?_⟩⟩
  obtain ⟨i,rfl⟩ := exists_get hy.1
  exact hget i

theorem searching_start {n : ℕ} {children : Fin n → List (Fin n)} :
    Color.Searching children (List.finRange n) (fun _ => .white) [] :=
  ⟨by simp,by simp,fun v _ => List.mem_finRange v,by simp,by simp,.nil⟩

theorem graphFindCycle_circle {cycle : List α} (h : g.graphFindCycle adj = some cycle) : Circle (g.Edge adj) cycle := by
  obtain ⟨l,hl,rfl⟩ := Option.map_eq_some_iff.1 h
  obtain ⟨hne,hnodup,hchain,hclosed⟩ := (Color.scan_spec searching_start).2 l hl
  refine ⟨by simpa using hne,hnodup.map get_injective,?_,?_⟩
  · rw [List.isChain_map]
    exact hchain.imp fun u v => mem_children.1
  · simp only [List.getLast?_map,List.head?_map,Option.mem_map]
    rintro x ⟨u,hu,rfl⟩ y ⟨v,hv,rfl⟩
    exact mem_children.1 (hclosed u hu v hv)

/-- No cycle runs forward all the way. -/
theorem not_circle_of_forward {l cycle : List α} (h : Forward (g.Edge adj) l) : ¬Circle (g.Edge adj) cycle := by
  rintro ⟨hne,-,hchain,hclosed⟩
  cases cycle with
  | nil => exact hne rfl
  | cons x xs =>
    have hsorted : (x::xs).Pairwise fun u v => l.idxOf u < l.idxOf v := by
      have : IsTrans α fun u v => l.idxOf u < l.idxOf v := ⟨fun _ _ _ => lt_trans⟩
      exact List.isChain_iff_pairwise.1 (hchain.imp fun u v => h u v)
    have hlast := h _ x (hclosed _ (List.getLast?_eq_getLast_of_ne_nil hne) x rfl)
    rcases List.mem_cons.1 (List.getLast_mem hne) with heq | hin
    · rw [heq] at hlast
      exact lt_irrefl _ hlast
    · exact lt_asymm hlast ((List.pairwise_cons.1 hsorted).1 _ hin)

theorem graphTopoSort_perm {order : List α} (h : g.graphTopoSort adj = some order) :
    Greedy (g.Edge adj) g.nodes [] order ∧ order.Perm g.nodes := by
  unfold graphTopoSort at h
  split_ifs at h with hlength
  obtain rfl := Option.some.inj h
  exact ⟨removed_greedy,removed_subperm.perm_of_length_le hlength.ge⟩

theorem graphTopoSort_forward {order : List α} (h : g.graphTopoSort adj = some order) : Forward (g.Edge adj) order := by
  obtain ⟨hgreedy,hperm⟩ := graphTopoSort_perm h
  exact hgreedy.forward fun x y hxy => hperm.mem_iff.2 hxy.2.1

/-- There is an order if and only if no cycle is found. The order has every node once and every edge forward, and no
other such list comes before it; a cycle is closed by its last edge. -/
theorem graphTopoSort_spec (g : NodeList α) (adj : HMap α (List α)) :
    ((g.graphTopoSort adj).isSome ↔ g.graphFindCycle adj = none) ∧
      (∀ order,g.graphTopoSort adj = some order →
        IsLeast {l | l.Perm g.nodes ∧ Forward (g.Edge adj) l} order) ∧
      ∀ cycle,g.graphFindCycle adj = some cycle → Circle (g.Edge adj) cycle := by
  refine ⟨⟨fun hsome => ?_,fun hnone => ?_⟩,fun order horder => ?_,fun cycle => graphFindCycle_circle⟩
  · obtain ⟨order,horder⟩ := Option.isSome_iff_exists.1 hsome
    by_contra hcycle
    obtain ⟨cycle,hcycle⟩ := Option.ne_none_iff_exists'.1 hcycle
    exact not_circle_of_forward (graphTopoSort_forward horder) (graphFindCycle_circle hcycle)
  · have hwf := wellFounded_edge ((Color.scan_spec searching_start).1 (Option.map_eq_none_iff.1 hnone))
    have hall : ∀ x ∈ g.nodes,x ∈ g.removed adj := fun x hx => removed_greedy.complete hwf (fun u _ hu => hu.1) hx
    have hle := (List.subperm_of_subset (g.sorted.imp ne_of_lt) hall).length_le
    rw [graphTopoSort,if_pos (le_antisymm removed_subperm.length_le hle)]
    rfl
  · obtain ⟨hgreedy,hperm⟩ := graphTopoSort_perm horder
    exact ⟨⟨hperm,graphTopoSort_forward horder⟩,fun l hl => hgreedy.le hl.2 hl.1 (g.sorted.imp ne_of_lt)⟩

end NodeList
end HakoDB
