import HakoDB.Index.Ledger

/-! What the ledger's operations do to the claims: both tables stay each other's inverse, and the
tuple of a document changes in the one place that the call names. -/
namespace HakoDB
open ByteCodec HashMap

namespace ClaimMap
variable {c : ClaimMap}

theorem lookup_dropDoc (c : ClaimMap) (docId k : String) :
    (c.dropDoc docId).byDoc.lookup k = if k = docId then none else c.byDoc.lookup k := by
  unfold dropDoc
  cases hold : c.byDoc.lookup docId with
  | some old => exact lookup_erase_ite _ _ _
  | none =>
    by_cases hk : k = docId
    · subst hk
      rw [if_pos rfl]
      exact hold
    · rw [if_neg hk]

theorem paired_dropDoc (h : Paired c.fwd c.byDoc) (docId : String) :
    Paired (c.dropDoc docId).fwd (c.dropDoc docId).byDoc := by
  unfold dropDoc
  cases hold : c.byDoc.lookup docId with
  | some old => exact h.erase hold
  | none => exact h

theorem fwd_dropDoc_of_none {tuple : Bytes} (h : c.fwd.lookup tuple = none) (docId : String) :
    (c.dropDoc docId).fwd.lookup tuple = none := by
  unfold dropDoc
  split
  · rw [lookup_erase_ite,h]
    split <;> rfl
  · exact h

end ClaimMap

namespace UniqueLedger
variable {l l' : UniqueLedger} {indexId : UInt32} {docId : String}

/-- The tuple that a document owns in an index. -/
def owned (l : UniqueLedger) (indexId : UInt32) (docId : String) : Option Bytes :=
  (l.inner.lookup indexId).bind fun c => c.byDoc.lookup docId

/-- The two tables of an index are each other's inverse. -/
def Sound (l : UniqueLedger) (indexId : UInt32) : Prop :=
  ∀ c,l.inner.lookup indexId = some c → Paired c.fwd c.byDoc

/-- The tombstones that wait for the index to be ready. -/
def shelf (l : UniqueLedger) (indexId : UInt32) : Finset String := (l.pending.lookup indexId).getD ∅

/-- Claims, tombstones and readiness are the same; an empty shelf counts as none. -/
def Same (l l' : UniqueLedger) : Prop := l'.inner = l.inner ∧ ∀ i,l'.shelf i = l.shelf i

/-- The same indexes are ready, and the claim of one document in one index is the given one. -/
structure Sets (indexId : UInt32) (docId : String) (tuple : Option Bytes) (l l' : UniqueLedger) : Prop where
  sound : ∀ i,l.Sound i → l'.Sound i
  isReady : ∀ i,l'.isReady i = l.isReady i
  owned : l.Sound indexId → l'.owned indexId docId = tuple
  kept : ∀ i k,(i = indexId → k ≠ docId) → l'.owned i k = l.owned i k

theorem Sets.of_eq {tuple : Option Bytes} (hinner : l'.inner = l.inner)
    (hown : l.Sound indexId → l.owned indexId docId = tuple) : Sets indexId docId tuple l l' := by
  have howned : l'.owned = l.owned := by
    funext i k
    simp only [UniqueLedger.owned,hinner]
  refine ⟨fun i hi c hc => hi c (hinner ▸ hc),fun i => ?_,fun hl => ?_,fun i k _ => ?_⟩
  · simp only [UniqueLedger.isReady,hinner]
  · rw [howned,hown hl]
  · rw [howned]

theorem Sets.of_insert {c c' : ClaimMap} {tuple : Option Bytes} (hc : l.inner.lookup indexId = some c)
    (hinner : l'.inner = l.inner.insert indexId c') (hpaired : Paired c.fwd c.byDoc → Paired c'.fwd c'.byDoc)
    (hlookup : ∀ k,c'.byDoc.lookup k = if k = docId then tuple else c.byDoc.lookup k) :
    Sets indexId docId tuple l l' := by
  refine ⟨fun i hi d hd => ?_,fun i => ?_,fun _ => ?_,fun i k hik => ?_⟩
  · rw [hinner,lookup_insert_ite] at hd
    split at hd
    · rename_i hid
      subst hid
      exact Option.some.inj hd ▸ hpaired (hi c hc)
    · exact hi d hd
  · unfold UniqueLedger.isReady
    rw [hinner,lookup_insert_ite]
    split
    · rename_i hi
      rw [hi,hc]
      rfl
    · rfl
  · simp [UniqueLedger.owned,hinner,hlookup]
  · unfold UniqueLedger.owned
    rw [hinner,lookup_insert_ite]
    by_cases hi : i = indexId
    · subst hi
      simp [hc,hlookup,hik]
    · simp [hi]

theorem claim_sets {tuple : Bytes} {undo : List LedgerUndo} (hclaim : l.claim indexId tuple docId = .ok (l',undo)) :
    Sets indexId docId (some tuple) l l' := by
  unfold claim at hclaim
  cases hc : l.inner.lookup indexId with
  | none =>
    simp only [hc] at hclaim
    cases hclaim
  | some c =>
    simp only [hc] at hclaim
    cases howner : c.fwd.lookup tuple with
    | some owner =>
      simp only [howner] at hclaim
      split at hclaim
      · cases hclaim
      · rename_i hsame
        cases hclaim
        -- the document has the tuple already
        refine Sets.of_eq rfl fun hl => ?_
        have hown := (hl c hc tuple owner).1 howner
        rw [not_ne_iff.1 hsame] at hown
        simp [UniqueLedger.owned,hc,hown]
    | none =>
      simp only [howner] at hclaim
      cases hclaim
      refine Sets.of_insert hc rfl (fun hpaired => ?_) fun k => ?_
      · refine (ClaimMap.paired_dropDoc hpaired docId).insert (ClaimMap.fwd_dropDoc_of_none howner docId) ?_
        rw [ClaimMap.lookup_dropDoc,if_pos rfl]
      · refine (lookup_insert_ite _ _ _ _).trans ?_
        rw [ClaimMap.lookup_dropDoc]
        split <;> rfl

theorem releaseDoc_sets (l : UniqueLedger) (indexId : UInt32) (docId : String) :
    Sets indexId docId none l (l.releaseDoc indexId docId).1 := by
  cases hc : l.inner.lookup indexId with
  | none =>
    have hinner : (l.releaseDoc indexId docId).1.inner = l.inner := by
      simp only [releaseDoc,hc]
    refine Sets.of_eq hinner fun _ => ?_
    simp [UniqueLedger.owned,hc]
  | some c =>
    have hinner : (l.releaseDoc indexId docId).1.inner =
        l.inner.insert indexId {c.dropDoc docId with freed := insert docId (c.dropDoc docId).freed} := by
      simp only [releaseDoc,hc]
    refine Sets.of_insert hc hinner (fun hpaired => ?_) (c.lookup_dropDoc docId)
    exact ClaimMap.paired_dropDoc hpaired docId

end UniqueLedger

namespace UniqueIndexes
variable {text : TextOps} {ix : UniqueIndexes} {l : UniqueLedger} {col docId : String} {doc : HakoDoc}

/-- The claims after a call of the gate for one document: in the indexes of its collection they may
have changed for the document itself, nowhere else. -/
structure Gated (ds : List CompositeIndexDefinition) (docId : String) (tuple : CompositeIndexDefinition → Option Bytes)
    (l l' : UniqueLedger) : Prop where
  sound : ∀ i,l.Sound i → l'.Sound i
  isReady : ∀ i,l'.isReady i = l.isReady i
  changed : ∀ d ∈ ds,l.Sound d.id → l'.owned d.id docId = tuple d
  kept : ∀ i k,(i ∈ ds.map CompositeIndexDefinition.id → k ≠ docId) → l'.owned i k = l.owned i k

theorem Gated.nil (docId : String) (tuple : CompositeIndexDefinition → Option Bytes) (l : UniqueLedger) :
    Gated [] docId tuple l l :=
  ⟨fun _ h => h,fun _ => rfl,fun _ hd => absurd hd List.not_mem_nil,fun _ _ _ => rfl⟩

variable {d : CompositeIndexDefinition} {ds : List CompositeIndexDefinition} {l' : UniqueLedger × List LedgerUndo}

theorem Gated.cons {tuple : CompositeIndexDefinition → Option Bytes} {l l1 l2 : UniqueLedger}
    (hnd : d.id ∉ ds.map CompositeIndexDefinition.id) (hfirst : UniqueLedger.Sets d.id docId (tuple d) l l1)
    (hrest : Gated ds docId tuple l1 l2) : Gated (d::ds) docId tuple l l2 := by
  refine ⟨fun i hi => hrest.sound i (hfirst.sound i hi),fun i => (hrest.isReady i).trans (hfirst.isReady i),
    fun e he hs => ?_,fun i k hik => ?_⟩
  · rcases List.mem_cons.1 he with rfl | he
    · rw [hrest.kept e.id docId fun hin => absurd hin hnd,hfirst.owned hs]
    · exact hrest.changed e he (hfirst.sound _ hs)
  · rw [hrest.kept i k fun hin => hik (List.mem_cons_of_mem _ hin),hfirst.kept i k]
    rintro rfl
    exact hik List.mem_cons_self

/-- What one index makes of a document that is admitted; without a tuple the earlier claim stays. -/
theorem admitOne_sets {l : UniqueLedger × List LedgerUndo} (hacceptted : admitOne text col docId doc l d = .ok l') :
    UniqueLedger.Sets d.id docId ((d.claimOf text docId doc).or (l.1.owned d.id docId)) l.1 l'.1 := by
  unfold admitOne at hacceptted
  split at hacceptted
  · cases hacceptted
  · cases hclaim : d.claimOf text docId doc with
    | none =>
      simp only [hclaim] at hacceptted
      cases hacceptted
      exact .of_eq rfl fun _ => rfl
    | some tuple =>
      simp only [hclaim] at hacceptted
      split at hacceptted
      · rename_i l2 undo hok
        cases hacceptted
        exact UniqueLedger.claim_sets hok
      · cases hacceptted

theorem admitAll_gated (hnd : (ds.map CompositeIndexDefinition.id).Nodup) {l : UniqueLedger × List LedgerUndo}
    (hacceptted : ds.foldlM (admitOne text col docId doc) l = .ok l') :
    Gated ds docId (fun d => (d.claimOf text docId doc).or (l.1.owned d.id docId)) l.1 l'.1 := by
  induction ds generalizing l with
  | nil =>
    cases hacceptted
    exact .nil _ _ _
  | cons d ds ih =>
    rw [List.map_cons,List.nodup_cons] at hnd
    rw [List.foldlM_cons] at hacceptted
    obtain ⟨l1,hone,hrest⟩ := bind_eq_ok.1 hacceptted
    have hfirst := admitOne_sets hone
    have hgated := ih hnd.2 hrest
    refine Gated.cons hnd.1 hfirst ⟨hgated.sound,hgated.isReady,fun e he hs => ?_,hgated.kept⟩
    rw [hgated.changed e he hs,hfirst.kept]
    intro hid
    exact absurd (hid ▸ List.mem_map_of_mem he) hnd.1

theorem releaseAll_gated (hnd : (ds.map CompositeIndexDefinition.id).Nodup) (l : UniqueLedger × List LedgerUndo) :
    Gated ds docId (fun _ => none) l.1 (ds.foldl (releaseOne docId) l).1 := by
  induction ds generalizing l with
  | nil => exact .nil _ _ _
  | cons d ds ih =>
    rw [List.map_cons,List.nodup_cons] at hnd
    exact Gated.cons hnd.1 (UniqueLedger.releaseDoc_sets l.1 d.id docId) (ih hnd.2 (releaseOne docId l d))

theorem gate_admitted {l' : UniqueLedger} (hacceptted : (ix.gate text).gateAdmit l col docId doc = .ok l') :
    Gated (ix.defs col) docId (fun d => (d.claimOf text docId doc).or (l.owned d.id docId)) l l' := by
  unfold gate gateAdmit at hacceptted
  cases hok : (ix.defs col).foldlM (admitOne text col docId doc) (l,[]) with
  | error e =>
    simp only [hok] at hacceptted
    cases hacceptted
  | ok r =>
    simp only [hok] at hacceptted
    cases hacceptted
    exact admitAll_gated (ix.nodup col) hok

theorem gate_released (l : UniqueLedger) (col docId : String) :
    Gated (ix.defs col) docId (fun _ => none) l ((ix.gate text).gateRelease l col docId) :=
  releaseAll_gated (ix.nodup col) (l,[])

end UniqueIndexes

end HakoDB
