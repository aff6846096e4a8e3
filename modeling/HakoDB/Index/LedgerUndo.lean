import HakoDB.Index.Claims

/-! The log of one batch. Each claim and each release adds what takes its change back; a rollback replays
the log from its end. It knows nothing of the tombstones of documents that had no claim. -/
namespace HakoDB
open ByteCodec HashMap

namespace UniqueLedger
variable {l l' l0 : UniqueLedger} {i : UInt32} {t : Bytes} {d : String} {c : ClaimMap} {log : List LedgerUndo}

/-- Both tables of an index that is ready. -/
def tables (l : UniqueLedger) (i : UInt32) : Option (HMap Bytes String × HMap String Bytes) :=
  (l.inner.lookup i).map fun c => (c.fwd,c.byDoc)

def freedOf (l : UniqueLedger) (i : UInt32) : Finset String := (l.inner.lookup i).elim ∅ ClaimMap.freed

theorem same_iff : l.Same l' ↔ ∀ i,l'.tables i = l.tables i ∧ l'.freedOf i = l.freedOf i ∧ l'.shelf i = l.shelf i := by
  constructor
  · rintro ⟨hinner,hshelf⟩ i
    simp [tables,freedOf,hinner,hshelf]
  · intro h
    refine ⟨Finmap.ext_lookup fun i => ?_,fun i => (h i).2.2⟩
    obtain ⟨htables,hfreed,-⟩ := h i
    unfold tables freedOf at *
    cases hc : l.inner.lookup i with
    | none => simpa [hc] using htables
    | some c =>
      cases hc' : l'.inner.lookup i with
      | none => simp [hc,hc'] at htables
      | some c' =>
        simp only [hc,hc',Option.map_some,Option.some_inj,Prod.mk.injEq,Option.elim_some] at htables hfreed
        cases c
        cases c'
        simp_all

theorem tables_setClaims (l : UniqueLedger) (i : UInt32) (c : ClaimMap) :
    (l.setClaims i c).tables = Function.update l.tables i (some (c.fwd,c.byDoc)) := by
  funext j
  unfold tables setClaims
  rw [lookup_insert_ite]
  by_cases hj : j = i
  · subst hj
    simp
  · simp [hj]

theorem freedOf_setClaims (l : UniqueLedger) (i j : UInt32) (c : ClaimMap) :
    (l.setClaims i c).freedOf j = if j = i then c.freed else l.freedOf j := by
  unfold freedOf setClaims
  rw [lookup_insert_ite]
  split <;> rfl

/-- What a replay makes of the tables depends on the tables only. -/
theorem tables_undoOne_congr (h : l.tables = l'.tables) (u : LedgerUndo) : (l.undoOne u).tables = (l'.undoOne u).tables := by
  cases u with
  | remove i t =>
    have hi := congrFun h i
    cases hc : l.inner.lookup i <;> cases hc' : l'.inner.lookup i <;>
      simp only [tables,hc,hc',Option.map_none,Option.map_some,reduceCtorEq] at hi
    · simp only [undoOne,hc,hc',h]
    · rename_i c c'
      obtain ⟨hfwd,hby⟩ := Prod.mk.inj (Option.some.inj hi)
      simp only [undoOne,hc,hc',← hfwd,← hby]
      cases c.fwd.lookup t <;> simp [tables_setClaims,h]
  | restore i t d =>
    have hi := congrFun h i
    cases hc : l.inner.lookup i <;> cases hc' : l'.inner.lookup i <;>
      simp only [tables,hc,hc',Option.map_none,Option.map_some,reduceCtorEq] at hi
    · simp only [undoOne,hc,hc',h]
    · obtain ⟨hfwd,hby⟩ := Prod.mk.inj (Option.some.inj hi)
      simp [undoOne,hc,hc',tables_setClaims,ClaimMap.give,hfwd,hby,h]

theorem rollback_append (l : UniqueLedger) (log more : List LedgerUndo) :
    l.rollback (log++more) = (l.rollback more).rollback log := by
  simp [rollback]

theorem tables_rollback_congr (h : l.tables = l'.tables) (log : List LedgerUndo) :
    (l.rollback log).tables = (l'.rollback log).tables := by
  induction log using List.reverseRecOn generalizing l l' with
  | nil => exact h
  | append_singleton log u ih =>
    rw [rollback_append,rollback_append]
    exact ih (tables_undoOne_congr h u)

theorem pending_rollback (l : UniqueLedger) (log : List LedgerUndo) : (l.rollback log).pending = l.pending := by
  refine List.foldlRecOn (motive := fun m : UniqueLedger => m.pending = l.pending) _ _ rfl fun m hm u _ => ?_
  rw [← hm]
  cases u <;> unfold undoOne setClaims <;> (repeat' split) <;> rfl

theorem freedOf_undoRemove (l : UniqueLedger) (i j : UInt32) (t : Bytes) : (l.undoOne (.remove j t)).freedOf i = l.freedOf i := by
  cases hc : l.inner.lookup j with
  | none => simp only [undoOne,hc]
  | some c =>
    cases howner : c.fwd.lookup t with
    | none => simp only [undoOne,hc,howner]
    | some owner =>
      simp only [undoOne,hc,howner,freedOf_setClaims]
      split
      · rename_i hi
        subst hi
        simp [freedOf,hc]
      · rfl

theorem freedOf_undoRestore (l : UniqueLedger) (i j : UInt32) (t : Bytes) (e : String) :
    (l.undoOne (.restore j t e)).freedOf i = if i = j then (l.freedOf i).erase e else l.freedOf i := by
  cases hc : l.inner.lookup j with
  | none =>
    simp only [undoOne,hc]
    split
    · rename_i hi
      subst hi
      simp [freedOf,hc]
    · rfl
  | some c =>
    simp only [undoOne,hc,freedOf_setClaims,ClaimMap.give]
    split
    · rename_i hi
      subst hi
      simp [freedOf,hc]
    · rfl

/-- A replay lifts the tombstones of the documents that get a claim back, and no others. -/
theorem mem_freedOf_rollback : d ∈ (l.rollback log).freedOf i ↔ d ∈ l.freedOf i ∧ ∀ t,.restore i t d ∉ log := by
  induction log using List.reverseRecOn generalizing l with
  | nil => simp [rollback]
  | append_singleton log u ih =>
    have hone : d ∈ (l.undoOne u).freedOf i ↔ d ∈ l.freedOf i ∧ ∀ t,.restore i t d ≠ u := by
      cases u with
      | remove j t => simp [freedOf_undoRemove]
      | restore j t e =>
        rw [freedOf_undoRestore]
        by_cases hi : i = j
        · simp [hi,and_comm]
        · simp [hi]
    rw [rollback_append,ih,show l.rollback [u] = l.undoOne u from rfl,hone]
    simp only [List.mem_append,List.mem_singleton,not_or,forall_and,and_assoc]
    exact and_congr_right fun _ => and_comm

/-- The entry that gives a document its earlier tuple back. -/
def restores (i : UInt32) (d : String) : Option Bytes → List LedgerUndo
  | none => []
  | some old => [.restore i old d]

theorem mem_restores {j : UInt32} {e : String} {old : Option Bytes} :
    .restore j t e ∈ restores i d old ↔ j = i ∧ e = d ∧ old = some t := by
  cases old <;> simp [restores,eq_comm]
  tauto

theorem freed_dropDoc (c : ClaimMap) (d : String) : (c.dropDoc d).freed = c.freed := by
  unfold ClaimMap.dropDoc
  split <;> rfl

theorem claim_free (hc : l.inner.lookup i = some c) (hfree : c.fwd.lookup t = none) :
    l.claim i t d = .ok (l.setClaims i ((c.dropDoc d).give t d),restores i d (c.byDoc.lookup d)++[.remove i t]) := by
  simp only [claim,hc,hfree]
  cases c.byDoc.lookup d <;> rfl

theorem releaseDoc_ready (hc : l.inner.lookup i = some c) :
    l.releaseDoc i d = ({l with
      pending := l.pending.insert i (l.shelf i)
      inner := l.inner.insert i {c.dropDoc d with freed := insert d (c.dropDoc d).freed}},restores i d (c.byDoc.lookup d)) := by
  simp only [releaseDoc,hc,shelf]
  cases c.byDoc.lookup d <;> rfl

/-- A lost tuple is put back into both tables. -/
theorem tables_rollback_restores {m : UniqueLedger} (hpaired : Paired c.fwd c.byDoc) (hc : l.inner.lookup i = some c)
    (hm : m.tables = Function.update l.tables i (some ((c.dropDoc d).fwd,(c.dropDoc d).byDoc))) :
    (m.rollback (restores i d (c.byDoc.lookup d))).tables = l.tables := by
  have hsame : Function.update l.tables i (some (c.fwd,c.byDoc)) = l.tables := by
    refine Function.update_eq_self_iff.2 ?_
    simp [tables,hc]
  cases hold : c.byDoc.lookup d with
  | none =>
    rw [ClaimMap.dropDoc,hold] at hm
    exact hm.trans hsame
  | some old =>
    rw [ClaimMap.dropDoc,hold] at hm
    have hi : m.tables i = some (c.fwd.erase old,c.byDoc.erase d) := by simp [hm]
    obtain ⟨e,he,hboth⟩ := Option.map_eq_some_iff.1 hi
    obtain ⟨hfwd,hby⟩ := Prod.mk.inj hboth
    have hput : (e.fwd.insert old d,(e.byDoc.erase d).insert d old) = (c.fwd,c.byDoc) := by
      rw [hfwd,hby]
      refine Prod.ext (Finmap.ext_lookup fun k => ?_) (Finmap.ext_lookup fun k => ?_)
      · by_cases hk : k = old
        · subst hk
          simp [(hpaired k d).2 hold]
        · simp [hk]
      · by_cases hk : k = d
        · subst hk
          simp [hold]
        · simp [hk]
    change (m.undoOne (.restore i old d)).tables = l.tables
    simp only [undoOne,he,tables_setClaims,ClaimMap.give,hput,hm,Function.update_idem,hsame]

/-- What a claim has done to the tables is taken back. -/
theorem tables_undo_claim (hpaired : Paired c.fwd c.byDoc) (hc : l.inner.lookup i = some c) (hfree : c.fwd.lookup t = none) :
    ((l.setClaims i ((c.dropDoc d).give t d)).rollback (restores i d (c.byDoc.lookup d)++[.remove i t])).tables = l.tables := by
  rw [rollback_append]
  refine tables_rollback_restores hpaired hc ?_
  have hdoc := c.lookup_dropDoc d d
  have htuple := ClaimMap.fwd_dropDoc_of_none hfree d
  have hgive : ((c.dropDoc d).give t d).fwd.lookup t = some d := by simp [ClaimMap.give]
  change ((l.setClaims i ((c.dropDoc d).give t d)).undoOne (.remove i t)).tables = _
  have hlookup : (l.setClaims i ((c.dropDoc d).give t d)).inner.lookup i = some ((c.dropDoc d).give t d) := by
    simp [setClaims]
  simp only [undoOne,hlookup,hgive,tables_setClaims,Function.update_idem]
  congr 2
  refine Prod.ext (Finmap.ext_lookup fun k => ?_) (Finmap.ext_lookup fun k => ?_)
  · by_cases hk : k = t
    · subst hk
      simp [htuple]
    · simp [ClaimMap.give,hk]
  · by_cases hk : k = d
    · subst hk
      simpa using hdoc.symm
    · simp [ClaimMap.give,hk]

end UniqueLedger

/-- A call that a batch makes, with its log. -/
inductive LedgerCall
  | claim (indexId : UInt32) (tuple : Bytes) (docId : String)
  | releaseDoc (indexId : UInt32) (docId : String)

/-- A ledger and the log of the batch that works on it. -/
abbrev Ledgered := UniqueLedger × List LedgerUndo

namespace LedgerCall

/-- A claim that is refused changes neither the ledger nor the log. -/
def run (s : Ledgered) : LedgerCall → Ledgered
  | claim i t d =>
    match s.1.claim i t d with
    | .ok (l,undo) => (l,s.2++undo)
    | .error _ => s
  | releaseDoc i d => ((s.1.releaseDoc i d).1,s.2++(s.1.releaseDoc i d).2)

def runAll (s : Ledgered) (calls : List LedgerCall) : Ledgered := calls.foldl run s

/-- What the log can take back: a claim taken or lost by a document without a tombstone at the log's start, and
a release that finds its tombstone there already. -/
def Covered (l0 l : UniqueLedger) : LedgerCall → Prop
  | claim i t d => l.isReady i = true → (∀ e,l.owned i e ≠ some t) → d ∉ l0.freedOf i
  | releaseDoc i d =>
    if l.owned i d ≠ none then d ∉ l0.freedOf i else if l.isReady i = true then d ∈ l.freedOf i else d ∈ l.shelf i

/-- Each call meets the condition in the state it finds. -/
def AllCovered (l0 : UniqueLedger) : Ledgered → List LedgerCall → Prop
  | _,[] => True
  | s,call::calls => call.Covered l0 s.1 ∧ AllCovered l0 (call.run s) calls

end LedgerCall

namespace Ledgered
variable {l0 : UniqueLedger} {s s' : Ledgered} {i : UInt32} {d : String} {t : Bytes} {c : ClaimMap}

/-- The tombstones that a rollback leaves. -/
def Left (s : Ledgered) (i : UInt32) (d : String) : Prop := d ∈ s.1.freedOf i ∧ ∀ t,.restore i t d ∉ s.2

/-- The claims can be restored, and a document whose claim the log restores has one or a tombstone. -/
structure Tracked (l0 : UniqueLedger) (s : Ledgered) : Prop where
  sound : ∀ i,s.1.Sound i
  tables : (s.1.rollback s.2).tables = l0.tables
  restored : ∀ i t d,.restore i t d ∈ s.2 → s.1.isReady i = true ∧ (s.1.owned i d = none → d ∈ s.1.freedOf i)

/-- A rollback at this point restores the ledger. -/
def Back (l0 : UniqueLedger) (s : Ledgered) : Prop := l0.Same (s.1.rollback s.2)

theorem Tracked.back_iff (h : Tracked l0 s) :
    Back l0 s ↔ ∀ i,(∀ d,s.Left i d ↔ d ∈ l0.freedOf i) ∧ s.1.shelf i = l0.shelf i := by
  have hshelf : ∀ i,(s.1.rollback s.2).shelf i = s.1.shelf i := fun i => by
    simp only [UniqueLedger.shelf,UniqueLedger.pending_rollback]
  unfold Back
  rw [UniqueLedger.same_iff]
  refine forall_congr' fun i => ?_
  simp only [h.tables,true_and,hshelf,Finset.ext_iff,UniqueLedger.mem_freedOf_rollback,Left]

/-- A tombstone is lost where a claim was taken or lost. -/
theorem Tracked.back_of_moved (h : Tracked l0 s) (h' : Tracked l0 s') (hback : Back l0 s)
    (hleft : ∀ j e,s'.Left j e ↔ s.Left j e ∧ ¬(j = i ∧ e = d)) (hshelf : ∀ j,s'.1.shelf j = s.1.shelf j) :
    Back l0 s' ↔ d ∉ l0.freedOf i := by
  rw [h.back_iff] at hback
  rw [h'.back_iff]
  constructor
  · intro hall hd
    have hgone := ((hall i).1 d).2 hd
    exact ((hleft i d).1 hgone).2 ⟨rfl,rfl⟩
  · intro hd j
    refine ⟨fun e => ?_,(hshelf j).trans (hback j).2⟩
    rw [hleft,(hback j).1]
    refine and_iff_left_of_imp ?_
    rintro he ⟨rfl,rfl⟩
    exact hd he

/-- The log of a step goes on top of the earlier log. -/
theorem Tracked.tables_append {l' : UniqueLedger} {undo : List LedgerUndo} (h : Tracked l0 s)
    (hundo : (l'.rollback undo).tables = s.1.tables) : (l'.rollback (s.2++undo)).tables = l0.tables := by
  rw [UniqueLedger.rollback_append,UniqueLedger.tables_rollback_congr hundo,h.tables]

/-- The state after a document's claim has changed; the log restores the claim it had. -/
theorem Tracked.moved {l' : UniqueLedger} {undo : List LedgerUndo} {tuple : Option Bytes} (h : Tracked l0 s)
    (hc : s.1.inner.lookup i = some c) (hsets : UniqueLedger.Sets i d tuple s.1 l')
    (hundo : (l'.rollback undo).tables = s.1.tables)
    (hlog : ∀ j t e,.restore j t e ∈ undo ↔ .restore j t e ∈ UniqueLedger.restores i d (c.byDoc.lookup d))
    (hfreed : ∀ j e,(j = i → e ≠ d) → (e ∈ l'.freedOf j ↔ e ∈ s.1.freedOf j)) (hown : tuple = none → d ∈ l'.freedOf i) :
    Tracked l0 (l',s.2++undo) := by
  refine ⟨fun j => hsets.sound j (h.sound j),h.tables_append hundo,fun j t e hmem => ?_⟩
  rw [hsets.isReady]
  by_cases hje : j = i ∧ e = d
  · obtain ⟨rfl,rfl⟩ := hje
    refine ⟨by simp [UniqueLedger.isReady,hc],fun hnone => hown ?_⟩
    rw [← hsets.owned (h.sound _),hnone]
  · have hne : j = i → e ≠ d := fun hj he => hje ⟨hj,he⟩
    have hold : .restore j t e ∈ s.2 := (List.mem_append.1 hmem).resolve_right fun hnew =>
      hje ⟨(UniqueLedger.mem_restores.1 ((hlog _ _ _).1 hnew)).1,(UniqueLedger.mem_restores.1 ((hlog _ _ _).1 hnew)).2.1⟩
    rw [hsets.kept j e hne,hfreed j e hne]
    exact h.restored j t e hold

theorem step_claim (h : Tracked l0 s) (hc : s.1.inner.lookup i = some c) (hfree : c.fwd.lookup t = none) :
    Tracked l0 ((LedgerCall.claim i t d).run s) ∧
      (∀ j e,((LedgerCall.claim i t d).run s).Left j e ↔ s.Left j e ∧ ¬(j = i ∧ e = d)) ∧
      ∀ j,((LedgerCall.claim i t d).run s).1.shelf j = s.1.shelf j := by
  have hclaim := UniqueLedger.claim_free (d := d) hc hfree
  have hrun : (LedgerCall.claim i t d).run s = (s.1.setClaims i ((c.dropDoc d).give t d),
      s.2++(UniqueLedger.restores i d (c.byDoc.lookup d)++[.remove i t])) := by
    simp only [LedgerCall.run,hclaim]
  have hfreed : ∀ j,(s.1.setClaims i ((c.dropDoc d).give t d)).freedOf j =
      if j = i then (s.1.freedOf j).erase d else s.1.freedOf j := fun j => by
    rw [UniqueLedger.freedOf_setClaims]
    split
    · rename_i hj
      subst hj
      simp [ClaimMap.give,UniqueLedger.freed_dropDoc,UniqueLedger.freedOf,hc]
    · rfl
  rw [hrun]
  refine ⟨h.moved hc (UniqueLedger.claim_sets hclaim) (UniqueLedger.tables_undo_claim (h.sound i c hc) hc hfree)
    (fun j u e => by simp) (fun j e hje => ?_) (fun hnone => absurd hnone (by simp)),fun j e => ?_,fun _ => rfl⟩
  · rw [hfreed]
    by_cases hj : j = i
    · simp [hj,hje hj]
    · simp [hj]
  · simp only [Left,hfreed,List.mem_append,List.mem_singleton,UniqueLedger.mem_restores,reduceCtorEq,or_false,not_or]
    by_cases hj : j = i
    · by_cases he : e = d <;> simp [hj,he]
    · simp [hj]

theorem step_release (h : Tracked l0 s) (hc : s.1.inner.lookup i = some c) :
    Tracked l0 ((LedgerCall.releaseDoc i d).run s) ∧
      (∀ j e,((LedgerCall.releaseDoc i d).run s).Left j e ↔
        if j = i ∧ e = d then s.1.owned i d = none ∧ ∀ t,.restore i t d ∉ s.2 else s.Left j e) ∧
      ∀ j,((LedgerCall.releaseDoc i d).run s).1.shelf j = s.1.shelf j := by
  have hrelease := UniqueLedger.releaseDoc_ready (d := d) hc
  have howned : s.1.owned i d = c.byDoc.lookup d := by simp [UniqueLedger.owned,hc]
  have hfreed : ∀ j,(s.1.releaseDoc i d).1.freedOf j = if j = i then insert d (s.1.freedOf j) else s.1.freedOf j := fun j => by
    rw [hrelease]
    refine (UniqueLedger.freedOf_setClaims s.1 i j _).trans ?_
    split
    · rename_i hj
      subst hj
      simp [UniqueLedger.freed_dropDoc,UniqueLedger.freedOf,hc]
    · rfl
  have hundo : ((s.1.releaseDoc i d).1.rollback (s.1.releaseDoc i d).2).tables = s.1.tables := by
    rw [hrelease]
    exact UniqueLedger.tables_rollback_restores (h.sound i c hc) hc (UniqueLedger.tables_setClaims s.1 i _)
  refine ⟨h.moved hc (UniqueLedger.releaseDoc_sets s.1 i d) hundo (fun j u e => by rw [hrelease]) (fun j e hje => ?_)
    (fun _ => ?_),fun j e => ?_,fun j => ?_⟩
  · rw [hfreed]
    by_cases hj : j = i
    · simp [hj,hje hj]
    · simp [hj]
  · rw [hfreed]
    simp
  · have hlog : (s.1.releaseDoc i d).2 = UniqueLedger.restores i d (c.byDoc.lookup d) := by rw [hrelease]
    simp only [Left,LedgerCall.run,hfreed,hlog,List.mem_append,UniqueLedger.mem_restores,not_or,howned]
    by_cases hj : j = i
    · subst hj
      by_cases he : e = d
      · subst he
        simp [forall_and,Option.eq_none_iff_forall_ne_some,and_comm]
      · simp [he]
    · simp [hj]
  · simp only [LedgerCall.run,hrelease,UniqueLedger.shelf,lookup_insert_ite]
    split
    · rename_i hj
      subst hj
      rfl
    · rfl

/-- A release of a document without a claim leaves no trace only if it was tombstoned. -/
theorem Tracked.back_release_idle (h : Tracked l0 s) (hback : Back l0 s) (hc : s.1.inner.lookup i = some c)
    (hidle : s.1.owned i d = none) : Back l0 ((LedgerCall.releaseDoc i d).run s) ↔ d ∈ s.1.freedOf i := by
  obtain ⟨h',hleft,hshelf⟩ := step_release (d := d) h hc
  rw [h.back_iff] at hback
  rw [h'.back_iff]
  constructor
  · intro hall
    by_contra hd
    have hnew : ∀ t,.restore i t d ∉ s.2 := fun t ht => hd ((h.restored i t d ht).2 hidle)
    have hin := ((hall i).1 d).1 ((hleft i d).2 (by simpa [hidle] using hnew))
    exact hd (((hback i).1 d).2 hin).1
  · intro hd j
    refine ⟨fun e => ?_,(hshelf j).trans (hback j).2⟩
    rw [hleft,← (hback j).1]
    split
    · rename_i hje
      obtain ⟨rfl,rfl⟩ := hje
      simp [Left,hidle,hd]
    · rfl

theorem step_release_shelf (h : Tracked l0 s) (hback : Back l0 s) (hc : s.1.inner.lookup i = none) :
    Tracked l0 ((LedgerCall.releaseDoc i d).run s) ∧
      (Back l0 ((LedgerCall.releaseDoc i d).run s) ↔ d ∈ s.1.shelf i) := by
  have hrun : (LedgerCall.releaseDoc i d).run s =
      ({s.1 with pending := s.1.pending.insert i (insert d (s.1.shelf i))},s.2) := by
    simp only [LedgerCall.run,UniqueLedger.releaseDoc,hc,UniqueLedger.shelf,List.append_nil]
  have htracked : Tracked l0 ({s.1 with pending := s.1.pending.insert i (insert d (s.1.shelf i))},s.2) := by
    have hsame : UniqueLedger.tables {s.1 with pending := s.1.pending.insert i (insert d (s.1.shelf i))} = s.1.tables := rfl
    exact ⟨h.sound,(UniqueLedger.tables_rollback_congr hsame s.2).trans h.tables,h.restored⟩
  have hshelf : ∀ j,UniqueLedger.shelf {s.1 with pending := s.1.pending.insert i (insert d (s.1.shelf i))} j =
      if j = i then insert d (s.1.shelf j) else s.1.shelf j := fun j => by
    unfold UniqueLedger.shelf
    rw [lookup_insert_ite]
    split
    · rename_i hj
      subst hj
      rfl
    · rfl
  rw [hrun]
  refine ⟨htracked,?_⟩
  rw [h.back_iff] at hback
  rw [htracked.back_iff]
  simp only [hshelf]
  constructor
  · intro hall
    have hi := (hall i).2
    rw [if_pos rfl,← (hback i).2] at hi
    exact Finset.insert_eq_self.1 hi
  · intro hd j
    refine ⟨(hback j).1,?_⟩
    rw [← (hback j).2]
    split
    · rename_i hj
      subst hj
      exact Finset.insert_eq_self.2 hd
    · rfl

/-- One call: it can be taken back exactly when it meets its condition. -/
theorem step_back (h : Tracked l0 s) (hback : Back l0 s) (call : LedgerCall) :
    Tracked l0 (call.run s) ∧ (Back l0 (call.run s) ↔ call.Covered l0 s.1) := by
  cases call with
  | claim i t d =>
    have hnothing : (LedgerCall.claim i t d).run s = s → LedgerCall.Covered l0 s.1 (.claim i t d) →
        Tracked l0 ((LedgerCall.claim i t d).run s) ∧
          (Back l0 ((LedgerCall.claim i t d).run s) ↔ LedgerCall.Covered l0 s.1 (.claim i t d)) := fun hrun hcov => by
      rw [hrun]
      exact ⟨h,iff_of_true hback hcov⟩
    cases hc : s.1.inner.lookup i with
    | none =>
      refine hnothing (by simp only [LedgerCall.run,UniqueLedger.claim,hc]) fun hready => ?_
      simp [UniqueLedger.isReady,hc] at hready
    | some c =>
      have hready : s.1.isReady i = true := by simp [UniqueLedger.isReady,hc]
      have howned : ∀ e,s.1.owned i e = some t ↔ c.fwd.lookup t = some e := fun e => by
        simpa [UniqueLedger.owned,hc] using (h.sound i c hc t e).symm
      cases howner : c.fwd.lookup t with
      | some owner =>
        refine hnothing ?_ fun _ hfree => absurd ((howned owner).2 howner) (hfree owner)
        by_cases hd : owner = d <;> simp [LedgerCall.run,UniqueLedger.claim,hc,howner,hd]
      | none =>
        obtain ⟨h',hleft,hshelf⟩ := step_claim (d := d) h hc howner
        refine ⟨h',(h.back_of_moved h' hback hleft hshelf).trans ?_⟩
        simp [LedgerCall.Covered,hready,howned,howner]
  | releaseDoc i d =>
    rw [LedgerCall.Covered]
    cases hc : s.1.inner.lookup i with
    | none =>
      have hidle : s.1.owned i d = none := by simp [UniqueLedger.owned,hc]
      have hready : s.1.isReady i = false := by simp [UniqueLedger.isReady,hc]
      simpa [hidle,hready] using step_release_shelf h hback hc
    | some c =>
      have hready : s.1.isReady i = true := by simp [UniqueLedger.isReady,hc]
      obtain ⟨h',hleft,hshelf⟩ := step_release (d := d) h hc
      refine ⟨h',?_⟩
      by_cases hidle : s.1.owned i d = none
      · simpa [hidle,hready] using h.back_release_idle hback hc hidle
      · rw [if_pos hidle]
        refine h.back_of_moved h' hback (fun j e => ?_) hshelf
        rw [hleft]
        by_cases hje : j = i ∧ e = d <;> simp [hje,hidle]

theorem runAll_back (h : Tracked l0 s) (hback : Back l0 s) (calls : List LedgerCall) :
    (∀ n,Back l0 (LedgerCall.runAll s (calls.take n))) ↔ LedgerCall.AllCovered l0 s calls := by
  induction calls generalizing s with
  | nil => simpa [LedgerCall.runAll,LedgerCall.AllCovered] using hback
  | cons call calls ih =>
    obtain ⟨htracked,hone⟩ := step_back h hback call
    rw [LedgerCall.AllCovered,← hone]
    constructor
    · intro hall
      have hnext : Back l0 (call.run s) := hall 1
      exact ⟨hnext,(ih htracked hnext).1 fun n => hall (n+1)⟩
    · rintro ⟨hnext,hrest⟩ n
      cases n with
      | zero => exact hback
      | succ n => exact (ih htracked hnext).2 hrest n

end Ledgered

namespace LedgerCall

/-- Wherever a batch stops, its rollback restores the ledger if and only if each call concerned a tombstone in a
way that the log knows of. -/
theorem rollback_restores_iff {l0 : UniqueLedger} (h : ∀ i,l0.Sound i) (calls : List LedgerCall) :
    (∀ n,l0.Same ((runAll (l0,[]) (calls.take n)).1.rollback (runAll (l0,[]) (calls.take n)).2)) ↔
      AllCovered l0 (l0,[]) calls :=
  Ledgered.runAll_back ⟨h,rfl,fun _ _ _ hmem => by simp at hmem⟩ ⟨rfl,fun _ => rfl⟩ calls

/-- A ledger with one index, in which a document was deleted. -/
def oneDeleted : UniqueLedger := ((⟨∅,∅⟩ : UniqueLedger).prepareEmpty 1).setClaims 1 ⟨∅,∅,{"a"}⟩

theorem oneDeleted_sound (i : UInt32) : oneDeleted.Sound i := by
  intro c hc
  by_cases hi : i = 1
  · subst hi
    obtain rfl : (⟨∅,∅,{"a"}⟩ : ClaimMap) = c := by simpa [oneDeleted,UniqueLedger.setClaims] using hc
    exact Paired.empty
  · simp [oneDeleted,UniqueLedger.setClaims,UniqueLedger.prepareEmpty,hi] at hc

theorem rollback_restores_newClaims : (∀ i,oneDeleted.Sound i) ∧
    ∀ n,oneDeleted.Same ((runAll (oneDeleted,[]) ([.claim 1 [7] "b",.claim 1 [8] "b"].take n)).1.rollback
      (runAll (oneDeleted,[]) ([.claim 1 [7] "b",.claim 1 [8] "b"].take n)).2) := by
  refine ⟨oneDeleted_sound,(rollback_restores_iff oneDeleted_sound _).2 ⟨fun _ _ => ?_,fun _ _ => ?_,trivial⟩⟩
  · decide
  · decide

/-- A claim of the deleted document is taken back, but its tombstone is gone. -/
theorem rollback_loses_tombstone : (∀ i,oneDeleted.Sound i) ∧
    ¬oneDeleted.Same ((runAll (oneDeleted,[]) [.claim 1 [7] "a"]).1.rollback (runAll (oneDeleted,[]) [.claim 1 [7] "a"]).2) := by
  refine ⟨oneDeleted_sound,fun hsame => ?_⟩
  have hfreed := (UniqueLedger.same_iff.1 hsame 1).2.1
  have hkept : "a" ∈ oneDeleted.freedOf 1 := by decide
  rw [← hfreed] at hkept
  exact absurd hkept (by decide)

end LedgerCall

end HakoDB
