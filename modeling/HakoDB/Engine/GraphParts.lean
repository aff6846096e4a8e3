import HakoDB.Lib.Forest
import HakoDB.Lib.HashMap
import Mathlib.Data.List.Lex

/-! Components of a collection's graph: the ends of every edge between nodes are joined in the order in which
the adjacency table happens to list them. -/
namespace HakoDB
open HashMap Relation

/-- The nodes of a graph as its adjacency is computed: in order, each once. -/
structure NodeList (α : Type) [LinearOrder α] where
  nodes : List α
  sorted : nodes.Pairwise (· < ·)

namespace NodeList
variable {α : Type} [LinearOrder α] (g : NodeList α) (adj : HMap α (List α))

/-- The position of a node; other documents have none. -/
def pos (k : α) : Option (Fin g.nodes.length) := g.nodes.finIdxOf? k

def unionTarget (sp : Fin g.nodes.length) (f : Forest g.nodes.length) (t : α) : Forest g.nodes.length :=
  match g.pos t with
  | none => f
  | some tp => f.union sp tp

def unionSource (f : Forest g.nodes.length) (e : α × List α) : Forest g.nodes.length :=
  match g.pos e.1 with
  | none => f
  | some sp => e.2.foldl (g.unionTarget sp) f

def forest (order : HashOrder α (List α)) : Forest g.nodes.length :=
  (order.entries adj).foldl g.unionSource (.singletons _)

def addToBucket (f : Forest g.nodes.length) (m : HMap (Fin g.nodes.length) (List α)) (i : Fin g.nodes.length) :
    HMap (Fin g.nodes.length) (List α) :=
  m.insert (f.find i) ((m.lookup (f.find i)).getD []++[g.nodes.get i])

def buckets (f : Forest g.nodes.length) : HMap (Fin g.nodes.length) (List α) :=
  (List.finRange _).foldl (g.addToBucket f) ∅

def graphComponents (order : HashOrder α (List α)) (out : HashOrder (Fin g.nodes.length) (List α)) : List (List α) :=
  ((out.entries (g.buckets (g.forest adj order))).map Prod.snd).insertionSort (· ≤ ·)

/-- An edge between two nodes of the graph. -/
def Edge (x y : α) : Prop := x ∈ g.nodes ∧ y ∈ g.nodes ∧ ∃ targets,adj.lookup x = some targets ∧ y ∈ targets

variable {g adj}

theorem get_injective : Function.Injective g.nodes.get :=
  List.nodup_iff_injective_get.1 (g.sorted.imp ne_of_lt)

theorem pos_eq_some {k : α} {i : Fin g.nodes.length} : g.pos k = some i ↔ g.nodes.get i = k := by
  unfold pos
  rw [List.finIdxOf?_eq_some_iff]
  refine ⟨fun h => h.1,fun h => ⟨h,fun j hj hne => ?_⟩⟩
  have heq := get_injective (h.trans hne.symm)
  exact absurd hj (heq ▸ lt_irrefl _)

/-- The pairs of positions that are joined, in the order of the table. -/
def edgePairs (g : NodeList α) (entries : List (α × List α)) : List (Fin g.nodes.length × Fin g.nodes.length) :=
  entries.flatMap fun e => (g.pos e.1).toList.flatMap fun sp => (e.2.filterMap g.pos).map (sp,·)

theorem foldl_unionTarget (sp : Fin g.nodes.length) (targets : List α) (f : Forest g.nodes.length) :
    targets.foldl (g.unionTarget sp) f =
      ((targets.filterMap g.pos).map (sp,·)).foldl (fun f p => f.union p.1 p.2) f := by
  induction targets generalizing f with
  | nil => rfl
  | cons t targets ih =>
    rw [List.foldl_cons,ih,unionTarget]
    cases hpos : g.pos t <;> simp [hpos]

theorem forest_eq (adj : HMap α (List α)) (order : HashOrder α (List α)) :
    g.forest adj order = (g.edgePairs (order.entries adj)).foldl (fun f p => f.union p.1 p.2) (.singletons _) := by
  have hfold : ∀ (entries : List (α × List α)) (f : Forest g.nodes.length),
      entries.foldl g.unionSource f = (g.edgePairs entries).foldl (fun f p => f.union p.1 p.2) f := fun entries => by
    induction entries with
    | nil => exact fun _ => rfl
    | cons e entries ih =>
      intro f
      rw [List.foldl_cons,ih,unionSource]
      unfold edgePairs
      rw [List.flatMap_cons,List.foldl_append]
      cases hpos : g.pos e.1 with
      | none => rfl
      | some sp => simp [foldl_unionTarget]
  exact hfold _ _

theorem mem_edgePairs {order : HashOrder α (List α)} {i j : Fin g.nodes.length} :
    (i,j) ∈ g.edgePairs (order.entries adj) ↔ g.Edge adj (g.nodes.get i) (g.nodes.get j) := by
  simp only [edgePairs,List.mem_flatMap,Option.mem_toList,List.mem_map,List.mem_filterMap,Prod.mk.injEq,pos_eq_some,
    Prod.exists,order.mem_entries,Edge,List.get_mem,true_and]
  constructor
  · rintro ⟨x,targets,hadj,sp,rfl,tp,⟨t,ht,rfl⟩,rfl,rfl⟩
    exact ⟨targets,hadj,ht⟩
  · rintro ⟨targets,hadj,ht⟩
    exact ⟨_,targets,hadj,i,rfl,j,⟨_,ht,rfl⟩,rfl,rfl⟩

/-- Two nodes have one root if and only if they are in one class. -/
theorem find_forest (order : HashOrder α (List α)) (i j : Fin g.nodes.length) :
    (g.forest adj order).find i = (g.forest adj order).find j ↔ EqvGen (g.Edge adj) (g.nodes.get i) (g.nodes.get j) := by
  have hroots : ∀ i j,(g.forest adj order).find i = (g.forest adj order).find j ↔
      EqvGen (fun u v => (u,v) ∈ g.edgePairs (order.entries adj)) i j := by
    rw [forest_eq]
    exact Forest.find_unions _
  constructor
  · intro h
    have hgen := (hroots i j).1 h
    clear h
    induction hgen with
    | rel u v huv => exact .rel _ _ (mem_edgePairs.1 huv)
    | refl u => exact .refl _
    | symm u v _ ih => exact .symm _ _ ih
    | trans u v w _ _ ihuv ihvw => exact .trans _ _ _ ihuv ihvw
  · intro h
    -- a class stays among the nodes, and a node has one position
    have hall : ∀ x y,EqvGen (g.Edge adj) x y → x = y ∨ ∃ u v,g.nodes.get u = x ∧ g.nodes.get v = y ∧
        (g.forest adj order).find u = (g.forest adj order).find v := fun x y hxy => by
      induction hxy with
      | rel x y hedge =>
        obtain ⟨u,rfl⟩ := List.mem_iff_get.1 hedge.1
        obtain ⟨v,rfl⟩ := List.mem_iff_get.1 hedge.2.1
        exact .inr ⟨u,v,rfl,rfl,(hroots u v).2 (.rel _ _ (mem_edgePairs.2 hedge))⟩
      | refl x => exact .inl rfl
      | symm x y _ ih =>
        rcases ih with rfl | ⟨u,v,hu,hv,huv⟩
        · exact .inl rfl
        · exact .inr ⟨v,u,hv,hu,huv.symm⟩
      | trans x y z _ _ ihxy ihyz =>
        rcases ihxy with rfl | ⟨u,v,hu,hv,huv⟩
        · exact ihyz
        rcases ihyz with rfl | ⟨v',w,hv',hw,hvw⟩
        · exact .inr ⟨u,v,hu,hv,huv⟩
        · rw [get_injective (hv.trans hv'.symm)] at huv
          exact .inr ⟨u,w,hu,hw,huv.trans hvw⟩
    rcases hall _ _ h with heq | ⟨u,v,hu,hv,huv⟩
    · rw [get_injective heq]
    · rwa [get_injective hu,get_injective hv] at huv

/-- The nodes of a tree, in order. -/
def members (g : NodeList α) (f : Forest g.nodes.length) (r : Fin g.nodes.length) : List α :=
  ((List.finRange _).filter fun i => f.find i = r).map g.nodes.get

theorem mem_members {f : Forest g.nodes.length} {r : Fin g.nodes.length} {y : α} :
    y ∈ g.members f r ↔ ∃ i,f.find i = r ∧ g.nodes.get i = y := by
  simp [members]

theorem pairwise_members (f : Forest g.nodes.length) (r : Fin g.nodes.length) : (g.members f r).Pairwise (· < ·) := by
  refine List.pairwise_map.2 (((List.pairwise_lt_finRange _).filter _).imp fun {i j} hij => ?_)
  exact List.pairwise_iff_get.1 g.sorted i j hij

theorem lookup_buckets (f : Forest g.nodes.length) (r : Fin g.nodes.length) (c : List α) :
    (g.buckets f).lookup r = some c ↔ c = g.members f r ∧ c ≠ [] := by
  have hfold : ∀ is : List (Fin g.nodes.length),((is.foldl (g.addToBucket f) ∅).lookup r).getD [] =
      (is.filter fun i => f.find i = r).map g.nodes.get ∧ (is.foldl (g.addToBucket f) ∅).lookup r ≠ some [] := fun is => by
    induction is using List.reverseRecOn with
    | nil => simp
    | append_singleton is i ih =>
      rw [List.foldl_append,List.foldl_cons,List.foldl_nil,addToBucket,lookup_insert_ite,List.filter_append,List.map_append]
      by_cases hr : r = f.find i
      · subst hr
        simp [ih.1]
      · simp [ih.1,ih.2,hr,Ne.symm hr]
  obtain ⟨hget,hne⟩ := hfold (List.finRange _)
  unfold buckets members
  rw [← hget]
  generalize (List.foldl (g.addToBucket f) ∅ (List.finRange g.nodes.length)).lookup r = o at hne
  cases o with
  | none => simp
  | some d =>
    refine ⟨fun h => ?_,fun h => by rw [h.1]; rfl⟩
    obtain rfl := Option.some.inj h
    exact ⟨rfl,fun hd => hne (by rw [hd])⟩

theorem mem_graphComponents {order : HashOrder α (List α)} {out : HashOrder (Fin g.nodes.length) (List α)} {c : List α} :
    c ∈ g.graphComponents adj order out ↔ ∃ r,c = g.members (g.forest adj order) r ∧ c ≠ [] := by
  simp only [graphComponents,List.mem_insertionSort,List.mem_map,Prod.exists,exists_eq_right,out.mem_entries,lookup_buckets]

theorem mem_nodes_of_class {x y : α} (h : EqvGen (g.Edge adj) x y) : x ∈ g.nodes ↔ y ∈ g.nodes := by
  induction h with
  | rel x y hedge => exact iff_of_true hedge.1 hedge.2.1
  | refl x => rfl
  | symm x y _ ih => exact ih.symm
  | trans x y z _ _ ihxy ihyz => exact ihxy.trans ihyz

theorem head_le {a b : α} {as bs : List α} (h : a::as ≤ b::bs) : a ≤ b := by
  by_contra hba
  exact absurd h (not_le.2 (List.Lex.rel (not_le.1 hba)))

/-- The components are the classes of the smallest equivalence with the edges between nodes, each of them in order
and all of them by their first member, in whatever order the tables are read. -/
theorem graphComponents_classes (g : NodeList α) (adj : HMap α (List α)) (order : HashOrder α (List α))
    (out : HashOrder (Fin g.nodes.length) (List α)) :
    (∀ c ∈ g.graphComponents adj order out,c.Pairwise (· < ·) ∧
      ∃ x ∈ g.nodes,∀ y,y ∈ c ↔ EqvGen (g.Edge adj) x y) ∧
    (∀ x ∈ g.nodes,∃ c ∈ g.graphComponents adj order out,x ∈ c) ∧
    (g.graphComponents adj order out).Pairwise fun c d => ∃ x y,c.head? = some x ∧ d.head? = some y ∧ x < y := by
  refine ⟨fun c hc => ?_,fun x hx => ?_,?_⟩
  · obtain ⟨r,rfl,hne⟩ := mem_graphComponents.1 hc
    refine ⟨pairwise_members _ r,?_⟩
    obtain ⟨x,hx⟩ := List.exists_mem_of_ne_nil _ hne
    obtain ⟨i,rfl,rfl⟩ := mem_members.1 hx
    refine ⟨g.nodes.get i,List.get_mem _ _,fun y => mem_members.trans ?_⟩
    constructor
    · rintro ⟨j,hj,rfl⟩
      exact (find_forest order i j).1 hj.symm
    · intro hclass
      obtain ⟨j,rfl⟩ := List.mem_iff_get.1 ((mem_nodes_of_class hclass).1 (List.get_mem _ _))
      exact ⟨j,((find_forest order i j).2 hclass).symm,rfl⟩
  · obtain ⟨i,rfl⟩ := List.mem_iff_get.1 hx
    have hmem : g.nodes.get i ∈ g.members (g.forest adj order) ((g.forest adj order).find i) := mem_members.2 ⟨i,rfl,rfl⟩
    exact ⟨_,mem_graphComponents.2 ⟨_,rfl,List.ne_nil_of_mem hmem⟩,hmem⟩
  · -- the trees are disjoint, so that the lists are in order of their heads
    have hapart : (g.graphComponents adj order out).Pairwise List.Disjoint := by
      refine (List.perm_insertionSort _ _).symm.pairwise (List.pairwise_map.2 ?_) fun h => h.symm
      refine (List.pairwise_map.1 (out.nodup _)).imp_of_mem fun {a b} ha hb hab => ?_
      obtain ⟨r,c⟩ := a
      obtain ⟨s,d⟩ := b
      obtain ⟨rfl,-⟩ := (lookup_buckets _ _ _).1 ((out.mem_entries _ _ _).1 ha)
      obtain ⟨rfl,-⟩ := (lookup_buckets _ _ _).1 ((out.mem_entries _ _ _).1 hb)
      intro y hyr hys
      obtain ⟨i,hi,hiy⟩ := mem_members.1 hyr
      obtain ⟨j,hj,hjy⟩ := mem_members.1 hys
      rw [get_injective (hiy.trans hjy.symm)] at hi
      exact hab (hi.symm.trans hj)
    refine (hapart.and (List.pairwise_insertionSort _ _)).imp_of_mem fun {c d} hc hd hcd => ?_
    obtain ⟨-,-,hcne⟩ := mem_graphComponents.1 hc
    obtain ⟨-,-,hdne⟩ := mem_graphComponents.1 hd
    obtain ⟨x,xs,rfl⟩ := List.exists_cons_of_ne_nil hcne
    obtain ⟨y,ys,rfl⟩ := List.exists_cons_of_ne_nil hdne
    refine ⟨x,y,rfl,rfl,lt_of_le_of_ne (head_le hcd.2) ?_⟩
    rintro rfl
    exact hcd.1 List.mem_cons_self List.mem_cons_self

end NodeList
end HakoDB
