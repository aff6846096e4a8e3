import HakoDB.Document.HakoDoc
import HakoDB.Lib.HashMap

/-! The incoming references of the documents in tracked collections. A write adds what its document refers
to and removes nothing; a delete removes what the document referred to and what referred to it. -/
namespace HakoDB
open HashMap

structure Backlink where
  srcCol : String
  srcId : String
  field : String
  deriving DecidableEq

structure BacklinkIndex where
  tracked : Finset String
  edges : HMap String (HMap String (List Backlink))

namespace BacklinkIndex

/-- The reference that a field holds, by collection and id. -/
def refOf : Value → Option (String × String)
  | .reference collection docId => some (collection,docId)
  | _ => none

def addRef (link : Backlink) (target : String × String) (b : BacklinkIndex) : BacklinkIndex :=
  if target.1 ∉ b.tracked then b
  else
    let map := (b.edges.lookup target.1).getD ∅
    let edges := (map.lookup target.2).getD []
    let edges := if link ∈ edges then edges else edges++[link]
    {b with edges := b.edges.insert target.1 (map.insert target.2 edges)}

def indexField (col id : String) (b : BacklinkIndex) (f : String × Value) : BacklinkIndex :=
  match refOf f.2 with
  | none => b
  | some target => b.addRef ⟨col,id,f.1⟩ target

def indexDoc (b : BacklinkIndex) (col id : String) (doc : HakoDoc) : BacklinkIndex :=
  if b.tracked = ∅ then b else doc.fields.foldl (indexField col id) b

/-- Put a collection's table back; an empty one goes. -/
def setMap (b : BacklinkIndex) (col : String) (map : HMap String (List Backlink)) : BacklinkIndex :=
  {b with edges := if map = ∅ then b.edges.erase col else b.edges.insert col map}

def dropRef (col id : String) (target : String × String) (b : BacklinkIndex) : BacklinkIndex :=
  match b.edges.lookup target.1 with
  | none => b
  | some map =>
    let map := match map.lookup target.2 with
      | some edges => map.insert target.2 (edges.filter fun e => ¬(e.srcCol = col ∧ e.srcId = id))
      | none => map
    b.setMap target.1 (if map.lookup target.2 = some [] then map.erase target.2 else map)

def removeField (col id : String) (b : BacklinkIndex) (f : String × Value) : BacklinkIndex :=
  match refOf f.2 with
  | none => b
  | some target => b.dropRef col id target

/-- Forget who refers to a document. -/
def dropTarget (b : BacklinkIndex) (target : String × String) : BacklinkIndex :=
  match b.edges.lookup target.1 with
  | none => b
  | some map => b.setMap target.1 (map.erase target.2)

def removeDoc (b : BacklinkIndex) (col id : String) (doc : HakoDoc) : BacklinkIndex :=
  if b.edges = ∅ then b
  else (doc.fields.foldl (removeField col id) b).dropTarget (col,id)

def inbound (b : BacklinkIndex) (target : String × String) : Option (List Backlink) :=
  (b.edges.lookup target.1).bind fun map => map.lookup target.2

variable {b : BacklinkIndex} {link l : Backlink} {target t : String × String} {col id : String}

/-- A link is in the list of its target. -/
def Has (b : BacklinkIndex) (t : String × String) (l : Backlink) : Prop := l ∈ (b.inbound t).getD []

theorem inbound_setMap (b : BacklinkIndex) (col : String) (map : HMap String (List Backlink)) (t : String × String) :
    (b.setMap col map).inbound t = if t.1 = col then map.lookup t.2 else b.inbound t := by
  unfold inbound setMap
  obtain ⟨c,i⟩ := t
  by_cases hc : c = col
  · subst hc
    by_cases hmap : map = ∅ <;> simp [hmap]
  · by_cases hmap : map = ∅ <;> simp [hmap,hc]

@[simp] theorem tracked_addRef : (b.addRef link target).tracked = b.tracked := by
  unfold addRef
  split <;> rfl

theorem has_addRef : (b.addRef link target).Has t l ↔ b.Has t l ∨ t = target ∧ l = link ∧ target.1 ∈ b.tracked := by
  unfold addRef
  by_cases htracked : target.1 ∈ b.tracked
  swap
  · simp [htracked]
  obtain ⟨c,i⟩ := t
  obtain ⟨c',i'⟩ := target
  simp only [htracked,not_true_eq_false,if_false,Has,inbound,lookup_insert_ite,and_true,Prod.mk.injEq]
  by_cases hc : c = c'
  · subst hc
    by_cases hi : i = i'
    · subst hi
      cases hmap : b.edges.lookup c with
      | none => simp [eq_comm]
      | some map =>
        cases hlist : map.lookup i with
        | none => simp [hlist,eq_comm]
        | some edges =>
          by_cases hin : link ∈ edges
          · have hsame : l ∈ edges ∨ l = link ↔ l ∈ edges := or_iff_left_of_imp fun heq => heq ▸ hin
            simp [hlist,hin,hsame]
          · simp [hlist,hin]
    · cases hmap : b.edges.lookup c <;> simp [hi]
  · simp [hc]

theorem has_indexDoc {doc : HakoDoc} : (b.indexDoc col id doc).Has t l ↔
    b.Has t l ∨ ∃ f ∈ doc.fields,refOf f.2 = some t ∧ l = ⟨col,id,f.1⟩ ∧ t.1 ∈ b.tracked := by
  have hfold : ∀ (fs : List (String × Value)) (b : BacklinkIndex),(fs.foldl (indexField col id) b).Has t l ↔
      b.Has t l ∨ ∃ f ∈ fs,refOf f.2 = some t ∧ l = ⟨col,id,f.1⟩ ∧ t.1 ∈ b.tracked := fun fs => by
    induction fs with
    | nil => simp
    | cons f fs ih =>
      intro b
      rw [List.foldl_cons,ih]
      unfold indexField
      cases href : refOf f.2 with
      | none => simp [href]
      | some target =>
        simp only [has_addRef,tracked_addRef,List.mem_cons,exists_eq_or_imp,href,Option.some_inj,or_assoc]
        refine or_congr_right (or_congr_left ?_)
        constructor
        · rintro ⟨rfl,hl,htracked⟩
          exact ⟨rfl,hl,htracked⟩
        · rintro ⟨rfl,hl,htracked⟩
          exact ⟨rfl,hl,htracked⟩
  unfold indexDoc
  split
  · rename_i hnone
    simp [hnone]
  · exact hfold doc.fields b

@[simp] theorem tracked_indexDoc (b : BacklinkIndex) (col id : String) (doc : HakoDoc) :
    (b.indexDoc col id doc).tracked = b.tracked := by
  unfold indexDoc
  split
  · rfl
  · refine List.foldlRecOn (motive := fun m : BacklinkIndex => m.tracked = b.tracked) _ _ rfl fun m hm f _ => ?_
    unfold indexField
    split
    · exact hm
    · rw [tracked_addRef,hm]

theorem has_dropRef : (b.dropRef col id target).Has t l ↔ b.Has t l ∧ ¬(t = target ∧ l.srcCol = col ∧ l.srcId = id) := by
  unfold dropRef
  cases hmap : b.edges.lookup target.1 with
  | none =>
    refine (and_iff_left_of_imp ?_).symm
    rintro hl ⟨rfl,-⟩
    simp [Has,inbound,hmap] at hl
  | some map =>
    obtain ⟨c,i⟩ := t
    obtain ⟨c',i'⟩ := target
    simp only [Has,inbound_setMap,Prod.mk.injEq]
    by_cases hc : c = c'
    swap
    · simp [hc]
    subst hc
    by_cases hi : i = i'
    · subst hi
      cases hlist : map.lookup i with
      | none => simp [inbound,hmap,hlist]
      | some edges =>
        have hget : ∀ kept : List Backlink,
            ((if (map.insert i kept).lookup i = some [] then (map.insert i kept).erase i else map.insert i kept).lookup i).getD [] =
              kept := fun kept => by
          split <;> simp_all
        simp only [inbound,hmap,hlist,Option.bind_some,Option.getD_some,true_and,if_true,hget]
        simp only [List.mem_filter,decide_eq_true_eq]
    · cases hlist : map.lookup i' with
      | none => simp [inbound,hmap,hlist,hi]
      | some edges =>
        simp only [inbound,hmap,hi,Option.bind_some,true_and,false_and,not_false_eq_true,and_true,if_true]
        split <;> simp [hi]

theorem has_dropTarget : (b.dropTarget target).Has t l ↔ b.Has t l ∧ t ≠ target := by
  obtain ⟨c,i⟩ := t
  obtain ⟨c',i'⟩ := target
  unfold dropTarget Has
  cases hmap : b.edges.lookup c' with
  | none =>
    by_cases hc : c = c'
    · subst hc
      simp [inbound,hmap]
    · simp [hc]
  | some map =>
    simp only [inbound_setMap]
    by_cases hc : c = c'
    · subst hc
      by_cases hi : i = i' <;> simp [inbound,hmap,hi]
    · simp [hc]

theorem has_removeDoc {doc : HakoDoc} : (b.removeDoc col id doc).Has t l ↔
    b.Has t l ∧ t ≠ (col,id) ∧ ¬(l.srcCol = col ∧ l.srcId = id ∧ ∃ f ∈ doc.fields,refOf f.2 = some t) := by
  have hfold : ∀ (fs : List (String × Value)) (b : BacklinkIndex),(fs.foldl (removeField col id) b).Has t l ↔
      b.Has t l ∧ ¬(l.srcCol = col ∧ l.srcId = id ∧ ∃ f ∈ fs,refOf f.2 = some t) := fun fs => by
    induction fs with
    | nil => simp
    | cons f fs ih =>
      intro b
      rw [List.foldl_cons,ih]
      unfold removeField
      cases href : refOf f.2 with
      | none => simp [href]
      | some target =>
        simp only [has_dropRef,List.mem_cons,exists_eq_or_imp,href,Option.some_inj,and_assoc]
        refine and_congr_right fun _ => ?_
        rw [← not_or]
        refine not_congr ⟨?_,?_⟩
        · rintro (⟨rfl,hcol,hid⟩ | ⟨hcol,hid,hf⟩)
          · exact ⟨hcol,hid,.inl rfl⟩
          · exact ⟨hcol,hid,.inr hf⟩
        · rintro ⟨hcol,hid,rfl | hf⟩
          · exact .inl ⟨rfl,hcol,hid⟩
          · exact .inr ⟨hcol,hid,hf⟩
  unfold removeDoc
  split
  · rename_i hnone
    simp [Has,inbound,hnone]
  · rw [has_dropTarget,hfold,and_assoc,and_comm (a := ¬_)]

theorem tracked_dropRef : (b.dropRef col id target).tracked = b.tracked := by
  unfold dropRef
  cases b.edges.lookup target.1 <;> rfl

theorem tracked_dropTarget : (b.dropTarget target).tracked = b.tracked := by
  unfold dropTarget
  cases b.edges.lookup target.1 <;> rfl

@[simp] theorem tracked_removeDoc (b : BacklinkIndex) (col id : String) (doc : HakoDoc) :
    (b.removeDoc col id doc).tracked = b.tracked := by
  unfold removeDoc
  split
  · rfl
  · rw [tracked_dropTarget]
    refine List.foldlRecOn (motive := fun m : BacklinkIndex => m.tracked = b.tracked) _ _ rfl fun m hm f _ => ?_
    unfold removeField
    cases refOf f.2 with
    | none => exact hm
    | some target => rw [tracked_dropRef,hm]

end BacklinkIndex

/-- What happens to the documents. A delete hands over the content it finds. -/
inductive GraphEvent
  | write (col id : String) (doc : HakoDoc)
  | delete (col id : String)

/-- The live documents and the index over their references. -/
structure GraphState where
  live : HMap (String × String) HakoDoc
  index : BacklinkIndex

namespace GraphState
variable {s : GraphState} {t x : String × String} {field : String}

def step (s : GraphState) : GraphEvent → GraphState
  | .write col id doc => ⟨s.live.insert (col,id) doc,s.index.indexDoc col id doc⟩
  | .delete col id =>
    match s.live.lookup (col,id) with
    | none => s
    | some doc => ⟨s.live.erase (col,id),s.index.removeDoc col id doc⟩

def run (s : GraphState) (events : List GraphEvent) : GraphState := events.foldl step s

/-- A live document refers to a target by one of its fields. -/
def Refers (s : GraphState) (x : String × String) (field : String) (t : String × String) : Prop :=
  ∃ doc value,s.live.lookup x = some doc ∧ (field,value) ∈ doc.fields ∧ BacklinkIndex.refOf value = some t

/-- No live reference into a tracked collection is missing. -/
def Complete (s : GraphState) : Prop :=
  ∀ t x field,t.1 ∈ s.index.tracked → s.Refers x field t → s.index.Has t ⟨x.1,x.2,field⟩

/-- A delete finds no other live document that refers to its own one. -/
def Unreferred (s : GraphState) : GraphEvent → Prop
  | .write _ _ _ => True
  | .delete col id => col ∈ s.index.tracked → (s.live.lookup (col,id)).isSome →
    ∀ x field,s.Refers x field (col,id) → x = (col,id)

def AllUnreferred : GraphState → List GraphEvent → Prop
  | _,[] => True
  | s,e::events => s.Unreferred e ∧ AllUnreferred (s.step e) events

def start (tracked : Finset String) : GraphState := ⟨∅,⟨tracked,∅⟩⟩

theorem complete_write {col id : String} {doc : HakoDoc} (h : s.Complete) : (s.step (.write col id doc)).Complete := by
  rintro t x field htracked ⟨d,value,hlive,hfield,href⟩
  simp only [step,BacklinkIndex.tracked_indexDoc] at htracked
  simp only [step,lookup_insert_ite] at hlive
  refine BacklinkIndex.has_indexDoc.2 ?_
  split at hlive
  · rename_i hx
    obtain rfl := Option.some.inj hlive
    subst hx
    exact .inr ⟨(field,value),hfield,href,rfl,htracked⟩
  · exact .inl (h t x field htracked ⟨d,value,hlive,hfield,href⟩)

/-- A delete keeps the index complete only where nothing else refers to the document. -/
theorem complete_delete {col id : String} (h : s.Complete) :
    (s.step (.delete col id)).Complete ↔ s.Unreferred (.delete col id) := by
  cases hdoc : s.live.lookup (col,id) with
  | none => simpa [step,Unreferred,hdoc] using h
  | some doc =>
    have hrefers : ∀ x field t,(s.step (.delete col id)).Refers x field t ↔ x ≠ (col,id) ∧ s.Refers x field t := fun x field t => by
      by_cases hx : x = (col,id) <;> simp [Refers,step,hdoc,hx]
    simp only [Complete,hrefers,Unreferred,hdoc,Option.isSome_some]
    simp only [step,hdoc,BacklinkIndex.tracked_removeDoc,BacklinkIndex.has_removeDoc]
    constructor
    · intro hall htracked _ x field href
      by_contra hx
      exact (hall (col,id) x field htracked ⟨hx,href⟩).2.1 rfl
    · rintro hother t x field htracked ⟨hx,href⟩
      refine ⟨h t x field htracked href,?_,fun hsrc => hx (Prod.ext hsrc.1 hsrc.2.1)⟩
      rintro rfl
      exact hx (hother htracked trivial x field href)

theorem step_complete (h : s.Complete) (e : GraphEvent) : (s.step e).Complete ↔ s.Unreferred e := by
  cases e with
  | write col id doc => exact iff_of_true (complete_write h) trivial
  | delete col id => exact complete_delete h

theorem run_complete (h : s.Complete) (events : List GraphEvent) :
    (∀ n,(s.run (events.take n)).Complete) ↔ s.AllUnreferred events := by
  induction events generalizing s with
  | nil => simpa [run,AllUnreferred] using h
  | cons e events ih =>
    rw [AllUnreferred,← step_complete h e]
    constructor
    · intro hall
      have hnext : (s.step e).Complete := hall 1
      exact ⟨hnext,(ih hnext).1 fun n => hall (n+1)⟩
    · rintro ⟨hnext,hrest⟩ n
      cases n with
      | zero => exact h
      | succ n => exact (ih hnext).2 hrest n

/-- The incoming references stay complete throughout if and only if no document is deleted while another one
refers to it. -/
theorem inbound_complete_iff (tracked : Finset String) (events : List GraphEvent) :
    (∀ n,((start tracked).run (events.take n)).Complete) ↔ (start tracked).AllUnreferred events := by
  refine run_complete (fun t x field _ href => ?_) events
  obtain ⟨doc,value,hlive,-⟩ := href
  simp [start] at hlive

/-- A document is deleted and written again while another one refers to it. -/
def rewritten : List GraphEvent :=
  [.write "c" "x" .empty,.write "c" "y" ⟨[("to",.reference "c" "x")],0⟩,.delete "c" "x",.write "c" "x" .empty]

theorem inbound_misses_rewritten : ((start {"c"}).run rewritten).Refers ("c","y") "to" ("c","x") ∧
    ¬((start {"c"}).run rewritten).Complete := by
  have hrefers : ((start {"c"}).run rewritten).Refers ("c","y") "to" ("c","x") :=
    ⟨⟨[("to",.reference "c" "x")],0⟩,.reference "c" "x",by decide +kernel,List.mem_singleton_self _,rfl⟩
  refine ⟨hrefers,fun hcomplete => ?_⟩
  have htracked : "c" ∈ ((start {"c"}).run rewritten).index.tracked := by decide +kernel
  have hlink := hcomplete _ _ _ htracked hrefers
  have hnone : ((start {"c"}).run rewritten).index.inbound ("c","x") = none := by decide +kernel
  simp [BacklinkIndex.Has,hnone] at hlink

end GraphState
end HakoDB
