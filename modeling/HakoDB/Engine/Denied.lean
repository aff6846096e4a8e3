import HakoDB.Engine.Access

/-! What the guards keep out. A read-only engine is left as it is by every call that passes the batch gate, and
a collection whose rules deny batches by every call that names it. -/
namespace HakoDB
open ByteCodec HashMap Attempt

/-- The operation that a mutation is. -/
def BatchMutation.accessOp : BatchMutation → AccessOp
  | put _ _ _ | patch _ _ _ => .put
  | delete _ _ | softDelete _ _ => .delete

namespace Hako
variable {Ledger : Type} {env : Env Ledger} {c : String} {h h1 : Hako Ledger} {nanos now : Int64}

section other

variable {col : String} {s : StorageEngine} {m : BatchMutation} {p : Prep Ledger} {ms : List BatchMutation}
    {faults : String → IoOutcome}

theorem shardOf_getShard (hget : h.getShard col = .ok (s,h1)) (c : String) :
    h1.shardOf c = h.shardOf c := by
  obtain ⟨hs,rfl⟩ := getShard_ok hget
  rw [shardOf_withShard]
  split
  · rename_i hc
    rw [hc,hs]
  · rfl

theorem shardOf_assignId (docId : String) : (h.assignId nanos docId).2.shardOf c = h.shardOf c := by
  obtain ⟨seq,hseq⟩ := h.assignId_eq nanos docId
  rw [hseq]
  rfl

theorem shardOf_resolveDoc {doc : HakoDoc} (hres : h.resolveDoc env m = .ok (h1,doc)) (c : String) :
    h1.shardOf c = h.shardOf c := by
  rcases resolveDoc_cases hres with rfl | ⟨_,_,hget⟩
  · rfl
  · exact shardOf_getShard hget c

theorem shardOf_extractBlobs (hc : c ≠ col) (key : String) (doc : HakoDoc) :
    (Prep.extractBlobs h s col key doc).1.shardOf c = h.shardOf c := by
  unfold Prep.extractBlobs
  split
  · rfl
  · exact (shardOf_withShard h c col _).trans (if_neg hc)

/-- No work for the collection, and its shard is as it was. -/
structure Spares (c : String) (h : Hako Ledger) (p : Prep Ledger) : Prop where
  shard : p.hako.shardOf c = h.shardOf c
  work : p.works.lookup c = none

theorem lookup_setWork (hc : c ≠ col) (w : ShardWork) :
    (p.setWork col w).works.lookup c = p.works.lookup c := by rw [Prep.setWork,lookup_insert_ite,if_neg hc]

/-- The mutation is not for the collection, nor does it keep a record there. -/
def NotFor (c : String) (m : BatchMutation) : Prop :=
  m.collection ≠ c ∧ (c = softdelCollection → ∀ col id,m ≠ .softDelete col id)

namespace Spares
variable {p p' : Prep Ledger} {col docId : String}

theorem pushDelete (hp : Spares c h p) (hcol : col ≠ c) (gate : UniqueGate Ledger) (now : Int64) (docId : String) :
    Spares c h (p.pushDelete gate now col docId) := ⟨hp.shard,(lookup_setWork hcol.symm _).trans hp.work⟩

theorem pushRecord (hp : Spares c h p) (hc : c ≠ softdelCollection) (zstd : Option Zstd) (now : Int64)
    (col docId : String) : Spares c h (p.pushRecord zstd now col docId) := by
  unfold Prep.pushRecord
  split
  · exact hp
  · exact ⟨hp.shard,(lookup_setWork hc _).trans hp.work⟩

theorem pushPut (hp : Spares c h p) (hcol : col ≠ c) {gate : UniqueGate Ledger} {doc : HakoDoc}
    (hpush : p.pushPut gate now col docId doc = .ok p') : Spares c h p' := by
  unfold Prep.pushPut at hpush
  obtain ⟨⟨s,h1⟩,hget,hrest⟩ := bind_eq_ok.1 hpush
  have hshard := (shardOf_extractBlobs hcol.symm docId {doc with time := now} (s := s)).trans (shardOf_getShard hget c)
  simp only at hrest
  split at hrest
  · cases hrest
  · obtain rfl := Except.ok.inj hrest
    exact ⟨hshard.trans hp.shard,(lookup_setWork hcol.symm _).trans hp.work⟩

theorem prepareOne {m : BatchMutation} (hp : Spares c h p) (hm : NotFor c m)
    (hprep : Hako.prepareOne env nanos now p m = .ok p') : Spares c h p' := by
  obtain ⟨h1,doc,id,q,hres,-,rfl,hrest⟩ := prepareOne_cases hprep
  have hassigned : ∀ ids,Spares c h ⟨(h1.assignId nanos m.docId).2,p.works,ids⟩ := fun ids =>
    ⟨((shardOf_assignId _).trans (shardOf_resolveDoc hres c)).trans hp.shard,hp.work⟩
  rcases hrest with rfl | ⟨⟨col,docId,rfl⟩,rfl⟩ | ⟨doc',hput⟩
  · exact (hassigned _).pushDelete hm.1 _ _ _
  · have hc : c ≠ softdelCollection := fun hc => hm.2 hc col docId rfl
    exact ((hassigned _).pushRecord hc _ _ _ _).pushDelete hm.1 _ _ _
  · exact (hassigned _).pushPut hm.1 hput

end Spares

theorem shardOf_abandoned (hc : m.collection ≠ c) :
    (abandoned env nanos now p m).shardOf c = p.hako.shardOf c := by
  unfold abandoned
  split
  · split
    · rename_i hget
      exact shardOf_getShard hget c
    · rfl
  · rename_i h doc hres
    have hassigned : (h.assignId nanos m.docId).2.shardOf c = p.hako.shardOf c :=
      (shardOf_assignId _).trans (shardOf_resolveDoc hres c)
    dsimp only
    split
    · exact hassigned
    · split
      · exact hassigned
      · rename_i hget
        exact (shardOf_extractBlobs hc.symm _ _).trans ((shardOf_getShard hget c).trans hassigned)

theorem shardOf_prepareAllWithFaults (env : Env Ledger) (nanos now : Int64) (hp : Spares c h p)
    (hms : ∀ m ∈ ms,NotFor c m) :
    match prepareAllWithFaults env nanos now p ms with
    | .ok p' => Spares c h p'
    | .error (h',_) => h'.shardOf c = h.shardOf c := by
  induction ms generalizing p with
  | nil => exact hp
  | cons m ms ih =>
    have hm := hms m List.mem_cons_self
    rw [prepareAllWithFaults]
    cases hone : Hako.prepareOne env nanos now p m with
    | ok p1 => exact ih (hp.prepareOne hm hone) fun m' hm' => hms m' (List.mem_cons_of_mem m hm')
    | error e => exact (shardOf_abandoned hm.1).trans hp.shard

theorem shardOf_applyAllWithFaults {instant : ℕ} {liveKeys : List String} {entries : List (String × ShardWork)}
    (hc : ∀ e ∈ entries,e.1 ≠ c) :
    (applyAllWithFaults env faults instant liveKeys entries h).1.shardOf c = h.shardOf c := by
  induction entries generalizing h with
  | nil => rfl
  | cons entry entries ih =>
    have hother : (applyShardWorkWithFaults env faults instant liveKeys h entry).1.shardOf c = h.shardOf c := by
      obtain ⟨col,w⟩ := entry
      have hcol : c ≠ col := (hc _ List.mem_cons_self).symm
      simp only [applyShardWorkWithFaults]
      cases hget : (h.markTouched col w).getShard col with
      | error e => exact congrFun (markTouched_shardOf h col w) c
      | ok r =>
        obtain ⟨s,h1⟩ := r
        have h1shard := (shardOf_getShard hget c).trans (congrFun (markTouched_shardOf h col w) c)
        cases hlog : s.logWork env.crc (faults col) instant w with
        | mk s' failure =>
          simp only [hlog]
          cases failure with
          | some e => exact ((shardOf_withShard h1 c col s').trans (if_neg hcol)).trans h1shard
          | none =>
            simp only
            rw [enqueueIndexUpdate_shardOf,clearVersionsByKeys_shardOf,bumpVersionsByKeys_shardOf]
            exact ((shardOf_withShard h1 c col _).trans (if_neg hcol)).trans h1shard
    rw [applyAllWithFaults]
    cases hone : applyShardWorkWithFaults env faults instant liveKeys h entry with
    | mk h1 failure =>
      rw [hone] at hother
      cases failure with
      | some e => exact hother
      | none => exact (ih fun e he => hc e (List.mem_cons_of_mem entry he)).trans hother

/-- A batch leaves every collection that it is not for, also when it fails. -/
theorem shardOf_writeBatchWithFaults (h : Hako Ledger) (faults : String → IoOutcome) (clock : Clock)
    (hms : ∀ m ∈ ms,NotFor c m) :
    (h.writeBatchWithFaults env faults clock ms).1.shardOf c = h.shardOf c := by
  have hstart : Spares c h ⟨{h with lastTsWatermark := h.stamp clock.nanos},∅,[]⟩ := ⟨rfl,rfl⟩
  unfold writeBatchWithFaults
  dsimp only
  cases hall : prepareAllWithFaults env clock.nanos (h.stamp clock.nanos)
      ⟨{h with lastTsWatermark := h.stamp clock.nanos},∅,[]⟩ ms with
  | error r =>
    have hprep := shardOf_prepareAllWithFaults env clock.nanos (h.stamp clock.nanos) hstart hms
    rw [hall] at hprep
    exact hprep
  | ok p =>
    have hprep := shardOf_prepareAllWithFaults env clock.nanos (h.stamp clock.nanos) hstart hms
    rw [hall] at hprep
    have hentries : ∀ e ∈ env.order.entries p.works,e.1 ≠ c := by
      rintro ⟨col,w⟩ he rfl
      rw [env.order.mem_entries,hprep.work] at he
      cases he
    have happly : ∀ keys,(applyAllWithFaults env faults clock.instant keys (env.order.entries p.works)
        p.hako).1.shardOf c = h.shardOf c := fun keys => (shardOf_applyAllWithFaults hentries).trans hprep.shard
    dsimp only
    split
    · rename_i hr
      exact (congrArg (fun r => r.1.shardOf c) hr.symm).trans (happly _)
    · rename_i hr
      exact (congrArg (fun r => r.1.shardOf c) hr.symm).trans (happly _)

/-- A prepared batch whose logs work and whose shards open reaches the shard. -/
theorem shardOf_writeBatch_of_prepared {clock : Clock} {w : ShardWork}
    (hprep : prepareAllWithFaults env clock.nanos (h.stamp clock.nanos)
      ⟨{h with lastTsWatermark := h.stamp clock.nanos},∅,[]⟩ ms = .ok p)
    (hdone : ∀ col,faults col = .done) (hopen : ∀ col,p.hako.shardOf col ≠ none) (hw : p.works.lookup c = some w)
    (hs : p.hako.shardOf c = some s) :
    (h.writeBatchWithFaults env faults clock ms).1.shardOf c = some (s.applyWork env.crc clock.instant w) := by
  unfold writeBatchWithFaults
  simp only [hprep]
  cases happly : applyAllWithFaults env faults clock.instant
      ((env.order.entries p.works).flatMap fun e => e.2.keys.filter (· ∉ e.2.deleted)) (env.order.entries p.works)
      p.hako with
  | mk h' failure =>
    have hnone : failure = none := by
      have hsecond := congrArg Prod.snd happly
      rw [applyAllWithFaults_of_done (fun e _ => hdone e.1) fun e _ => hopen e.1] at hsecond
      exact hsecond.symm
    subst hnone
    have hshard := shardOf_applyAll (env.order.nodup p.works) (applyAllWithFaults_none happly) c
    rw [env.order.lastValue_entries,hw] at hshard
    obtain ⟨t,ht,hshard⟩ := hshard
    obtain rfl := Option.some.inj (hs.symm.trans ht)
    exact hshard

end other

end Hako

namespace Guarded
variable {Ledger : Type} {env : Env Ledger}

structure SameGuards (g g' : Guarded Ledger) : Prop where
  readOnly : g'.readOnly = g.readOnly
  securityEnabled : g'.securityEnabled = g.securityEnabled
  securityRules : g'.securityRules = g.securityRules

theorem SameGuards.refl (g : Guarded Ledger) : SameGuards g g := ⟨rfl,rfl,rfl⟩

theorem SameGuards.trans {g g1 g2 : Guarded Ledger} (ha : SameGuards g g1) (hb : SameGuards g1 g2) : SameGuards g g2 :=
  ⟨hb.readOnly.trans ha.readOnly,hb.securityEnabled.trans ha.securityEnabled,hb.securityRules.trans ha.securityRules⟩

theorem SameGuards.allowed {g g' : Guarded Ledger} (h : SameGuards g g') (col : String) (op : AccessOp) :
    g'.allowed col op = g.allowed col op := by
  unfold Guarded.allowed
  rw [h.securityEnabled,h.securityRules]

/-- A batch behind the guards leaves every collection that it is not for. -/
theorem shardOf_writeBatchInternal {c : String} {ms : List BatchMutation} (hms : ∀ m ∈ ms,Hako.NotFor c m)
    (g : Guarded Ledger) : (after (writeBatchInternal env ms) g).hako.shardOf c = g.hako.shardOf c :=
  Hako.shardOf_writeBatchWithFaults g.hako _ _ hms

section steps
variable {R : Guarded Ledger → Guarded Ledger → Prop}

/-- The relation allows every step that keeps the guards and the shards. -/
def Idles (R : Guarded Ledger → Guarded Ledger → Prop) : Prop :=
  ∀ ⦃g g'⦄,SameGuards g g' → (∀ col,g'.hako.shardOf col = g.hako.shardOf col) → R g g'

theorem Idles.refl (hR : Idles R) : Std.Refl R := ⟨fun g => hR (.refl g) fun _ => rfl⟩

theorem keeps_getShard (hR : Idles R) (col : String) : Keeps R (getShard col : M Ledger _) := by
  refine keeps_ofStep fun g => ?_
  split
  · rename_i hget
    exact hR ⟨rfl,rfl,rfl⟩ (Hako.shardOf_getShard hget)
  · exact hR (.refl g) fun _ => rfl

variable {col id source target : String}

theorem shardOf_tryGetShardOnDisk {onDisk : String → Bool} {h h' : Hako Ledger} {s : Option StorageEngine}
    (hget : h.tryGetShardOnDisk onDisk col = .ok (s,h')) (c : String) : h'.shardOf c = h.shardOf c := by
  unfold Hako.tryGetShardOnDisk at hget
  split at hget
  · cases hget
    rfl
  · split at hget
    · obtain ⟨⟨t,h1⟩,hopen,hret⟩ := bind_eq_ok.1 hget
      cases hret
      exact Hako.shardOf_getShard hopen c
    · cases hget
      rfl

theorem keeps_read (hR : Idles R) (zstd : Option Zstd) (col id : String) : Keeps R (read zstd col id : M Ledger _) := by
  refine keeps_ofStep fun g => ?_
  split
  · rename_i hget
    exact hR ⟨rfl,rfl,rfl⟩ (shardOf_tryGetShardOnDisk hget)
  · rename_i hget
    exact hR ⟨rfl,rfl,rfl⟩ (shardOf_tryGetShardOnDisk hget)
  · exact hR (.refl g) fun _ => rfl

theorem keeps_getDoc (hR : Idles R) (zstd : Option Zstd) (col id : String) : Keeps R (getDoc zstd col id : M Ledger _) := by
  refine keeps_get fun g => ?_
  split
  · exact hR (.refl g) fun _ => rfl
  · exact keeps_read hR zstd col id g

variable [IsTrans (Guarded Ledger) R]

/-- The calls that end in one batch. -/
theorem keeps_firstId (hR : Idles R) {x : M Ledger (List String)} (hx : Keeps R x) :
    Keeps R (do return firstId (← x)) := by
  have := hR.refl
  exact keeps_bind hx fun _ => keeps_pure _

theorem keeps_patch (hR : Idles R) {updates : List (String × Value)}
    (hx : Keeps R (writeBatch env [.patch col id updates])) : Keeps R (patch env col id updates) := by
  refine keeps_get fun g => ?_
  split
  · exact hR (.refl g) fun _ => rfl
  · exact keeps_firstId hR hx g

theorem keeps_restore (hR : Idles R) (hput : ∀ doc,Keeps R (writeBatch env [.put col id doc]))
    (hdelete : ∀ key,Keeps R (writeBatch env [.delete softdelCollection key])) : Keeps R (restore env col id) := by
  have := hR.refl
  unfold restore
  refine keeps_bind (keeps_getDoc hR _ _ _) fun found => ?_
  split
  · split
    · split
      · split
        · refine keeps_bind (keeps_getShard hR col) fun s => ?_
          split
          · exact keeps_throw _
          · exact keeps_bind (keeps_firstId hR (hput _)) fun _ => keeps_bind (hdelete _) fun _ => keeps_pure _
        · exact keeps_throw _
      · exact keeps_throw _
    · exact keeps_throw _
  · exact keeps_throw _

theorem keeps_dropCollection (hR : Idles R)
    (hdelete : ∀ ids : List String,Keeps R (writeBatch env (ids.map (.delete col))))
    (hunlink : ∀ g,R g (g.unlink col)) :
    Keeps R (dropCollection env col) := by
  have := hR.refl
  refine keeps_get fun g => ?_
  split
  · exact keeps_throw _ g
  split
  · exact keeps_throw _ g
  split
  · exact keeps_throw _ g
  split
  · exact keeps_throw _ g
  split
  · exact keeps_pure _ g
  · refine keeps_bind (keeps_forM fun chunk _ => ?_) (fun _ => ?_) g
    · exact keeps_bind (hdelete chunk) fun _ => keeps_pure _
    · exact keeps_bind (keeps_modify hunlink) fun _ => keeps_pure _

theorem keeps_persistLocalOnly (hR : Idles R) (hput : ∀ doc,Keeps R (writeBatch env [.put systemCollection "local_only" doc])) :
    Keeps R (persistLocalOnly env) := by
  have := hR.refl
  refine keeps_get fun g => ?_
  exact keeps_tryCatch (keeps_bind (keeps_firstId hR (hput _)) fun _ => keeps_pure _) (fun _ => keeps_pure _) g

theorem keeps_setCollectionLocal (hR : Idles R)
    (hput : ∀ doc,Keeps R (writeBatch env [.put systemCollection "local_only" doc])) (col : String) (isLocal : Bool) :
    Keeps R (setCollectionLocal env col isLocal) :=
  keeps_bind (keeps_modify fun _ => hR ⟨rfl,rfl,rfl⟩ fun _ => rfl) fun _ => keeps_persistLocalOnly hR hput

theorem keeps_copies (hR : Idles R) (source target : String) (chunk : List String) :
    Keeps R (copies env source target chunk) := by
  have := hR.refl
  refine keeps_foldlM (fun ms id => ?_) chunk []
  refine keeps_bind (keeps_getDoc hR _ _ _) fun found => ?_
  split
  · exact keeps_pure _
  · exact keeps_pure _

/-- The copies are puts under the new name. -/
theorem yields_copies (env : Env Ledger) (source target : String) (chunk : List String) :
    Yields (fun ms => ∀ m ∈ ms,∃ id doc,m = .put target id doc) (copies env source target chunk) := by
  refine yields_foldlM (fun ms id hms => ?_) chunk (fun m hm => nomatch hm)
  refine yields_bind fun found => ?_
  split
  · rename_i doc
    refine yields_pure fun m hm => ?_
    rcases List.mem_append.1 hm with hm | hm
    · exact hms m hm
    · exact ⟨id,doc,List.mem_singleton.1 hm⟩
  · exact yields_pure hms

theorem keeps_moveAll (hR : Idles R)
    (hput : ∀ ms : List BatchMutation,(∀ m ∈ ms,∃ id doc,m = .put target id doc) → Keeps R (writeBatch env ms))
    (hdelete : ∀ ids : List String,Keeps R (writeBatch env (ids.map (.delete source))))
    (hpersist : ∀ doc,Keeps R (writeBatch env [.put systemCollection "local_only" doc]))
    (hdrop : Keeps R (dropCollection env source)) : Keeps R (moveAll env source target) := by
  have := hR.refl
  have hidle : ∀ f : Guarded Ledger → Guarded Ledger,(∀ g,SameGuards g (f g)) →
      (∀ g col,(f g).hako.shardOf col = g.hako.shardOf col) → Keeps R (modify f : M Ledger _) :=
    fun f hf hs => keeps_modify fun g => hR (hf g) (hs g)
  refine keeps_get fun g => ?_
  refine keeps_bind (keeps_getShard hR source) (fun s => ?_) g
  refine keeps_bind (hidle _ (fun _ => ⟨rfl,rfl,rfl⟩) fun _ _ => rfl) fun _ => ?_
  refine keeps_bind ?_ fun _ => ?_
  · unfold mirrorLocal
    split
    · exact keeps_setCollectionLocal hR hpersist _ _
    · exact keeps_pure _
  refine keeps_bind (keeps_persistLocalOnly hR hpersist) fun _ => ?_
  refine keeps_bind (keeps_forM fun chunk _ => ?_) fun _ => ?_
  · refine keeps_bind_of (keeps_copies hR source target chunk) (yields_copies env source target chunk) fun ms hms => ?_
    unfold writeCopies
    split
    · exact keeps_pure _
    · exact keeps_bind (hput ms hms) fun _ => keeps_pure _
  refine keeps_bind (keeps_forM fun chunk _ => ?_) fun _ => ?_
  · exact keeps_bind (hdelete chunk) fun _ => keeps_pure _
  refine keeps_bind ?_ fun _ => ?_
  · refine hidle _ (fun g => ?_) fun g col => ?_
    · unfold setSchema
      split <;> exact ⟨rfl,rfl,rfl⟩
    · unfold setSchema
      split <;> rfl
  refine keeps_bind (hidle _ (fun _ => ⟨rfl,rfl,rfl⟩) fun _ _ => rfl) fun _ => ?_
  refine keeps_bind (keeps_setCollectionLocal hR hpersist _ _) fun _ => ?_
  exact keeps_bind hdrop fun _ => keeps_pure _

omit [IsTrans (Guarded Ledger) R] in
theorem keeps_renameCollection (hR : Idles R) (hmove : source ≠ target → Keeps R (moveAll env source target)) :
    Keeps R (renameCollection env source target) := by
  have := hR.refl
  refine keeps_get fun g => ?_
  split
  · exact keeps_throw _ g
  split
  · exact keeps_throw _ g
  rename_i hne
  split
  · exact keeps_throw _ g
  split
  · exact keeps_throw _ g
  split
  · exact keeps_throw _ g
  split
  · exact keeps_throw _ g
  split
  · exact keeps_throw _ g
  · exact hmove hne g

end steps

section readOnly

/-- A read-only engine stays read-only, and its shards as they are. -/
def Frozen (g g' : Guarded Ledger) : Prop :=
  g.readOnly = true → g'.readOnly = true ∧ ∀ col,g'.hako.shardOf col = g.hako.shardOf col

theorem idles_frozen : Idles (Frozen : Guarded Ledger → Guarded Ledger → Prop) := fun _ _ hguards hshards hro =>
  ⟨hguards.readOnly.trans hro,hshards⟩

instance : IsTrans (Guarded Ledger) Frozen := ⟨fun _ _ _ ha hb hro =>
  ⟨(hb (ha hro).1).1,fun col => ((hb (ha hro).1).2 col).trans ((ha hro).2 col)⟩⟩

theorem frozen_writeBatch (ms : List BatchMutation) : Keeps Frozen (writeBatch env ms) := by
  refine keeps_get fun g hro => ?_
  rw [if_pos hro]
  exact ⟨hro,fun _ => rfl⟩

theorem frozen_relocateDocs (src dst : String) (ids : List String) : Keeps Frozen (relocateDocs env src dst ids) := by
  refine keeps_get fun g hro => ?_
  rw [if_pos hro]
  split <;> exact ⟨hro,fun _ => rfl⟩

theorem frozen_dropCollection (col : String) : Keeps Frozen (dropCollection env col) := by
  refine keeps_get fun g hro => ?_
  rw [if_pos hro]
  exact ⟨hro,fun _ => rfl⟩

theorem frozen_renameCollection (source target : String) : Keeps Frozen (renameCollection env source target) := by
  refine keeps_get fun g hro => ?_
  rw [if_pos hro]
  exact ⟨hro,fun _ => rfl⟩

end readOnly

section rules

/-- The last rule for the operation denies the collection. -/
def Denies (rules : List SecurityRule) (col : String) (op : AccessOp) : Prop :=
  (lastRule rules col op).map SecurityRule.allow = some false

/-- The rules are those that were set last. -/
def HasRules (g : Guarded Ledger) (rules : List SecurityRule) : Prop :=
  g.securityRules = rules ∧ g.securityEnabled = !rules.isEmpty

variable {g : Guarded Ledger} {ms : List BatchMutation} {ids : List String}

theorem HasRules.allowed_iff {rules : List SecurityRule} (hg : g.HasRules rules) (col : String) (op : AccessOp) :
    g.allowed col op = false ↔ Denies rules col op := by
  unfold Guarded.allowed Denies
  rw [hg.1,hg.2]
  cases rules with
  | nil => simp [lastRule]
  | cons r rules =>
    cases hlast : lastRule (r::rules) col op with
    | none => simp
    | some last => simp

/-- What the index of a collection holds for a key. -/
def entry (g : Guarded Ledger) (col k : String) : Option Pointer :=
  (g.hako.shardOf col).bind fun s => s.index.lookup k

theorem entry_congr {g' : Guarded Ledger} {c : String} (h : g'.hako.shardOf c = g.hako.shardOf c) (k : String) :
    g'.entry c k = g.entry c k := by
  unfold entry
  rw [h]

/-- The guards are kept, and the collection if batches are denied for it. -/
structure Shut (c : String) (g g' : Guarded Ledger) : Prop where
  guards : SameGuards g g'
  entries : g.allowed c .batch = false → ∀ k,g'.entry c k = g.entry c k

variable {c : String}

theorem idles_shut : Idles (Shut c : Guarded Ledger → Guarded Ledger → Prop) := fun _ _ hguards hshards =>
  ⟨hguards,fun _ k => entry_congr (hshards c) k⟩

instance : IsTrans (Guarded Ledger) (Shut c) := ⟨fun _ _ _ ha hb => ⟨ha.guards.trans hb.guards,fun hden k =>
  (hb.entries (ha.guards.allowed c .batch ▸ hden) k).trans (ha.entries hden k)⟩⟩

/-- A batch that is not for the collection leaves it. -/
theorem shut_writeBatch (hms : ∀ m ∈ ms,Hako.NotFor c m) : Keeps (Shut c) (writeBatch env ms) := by
  refine keeps_get fun g => ?_
  split
  · exact idles_shut (.refl g) fun _ => rfl
  split
  · exact idles_shut (.refl g) fun _ => rfl
  · exact ⟨⟨rfl,rfl,rfl⟩,fun _ k => entry_congr (shardOf_writeBatchInternal hms g) k⟩

/-- A batch that is for the collection is refused. -/
theorem shut_writeBatch_of_mem (hms : ∃ m ∈ ms,m.collection = c) :
    Keeps (Shut c) (writeBatch env ms) := by
  refine keeps_get fun g => ?_
  split
  · exact idles_shut (.refl g) fun _ => rfl
  split
  · exact idles_shut (.refl g) fun _ => rfl
  · rename_i hall
    refine ⟨⟨rfl,rfl,rfl⟩,fun hden => ?_⟩
    obtain ⟨m,hm,rfl⟩ := hms
    simp only [Bool.not_eq_true,Bool.not_eq_false',List.all_eq_true] at hall
    rw [hall m hm] at hden
    cases hden

/-- A batch without a soft delete either is for the collection or leaves it. -/
theorem shut_writeBatch_plain (hsoft : ∀ m ∈ ms,∀ d id,m ≠ .softDelete d id) :
    Keeps (Shut c) (writeBatch env ms) := by
  by_cases hmem : ∃ m ∈ ms,m.collection = c
  · exact shut_writeBatch_of_mem hmem
  · exact shut_writeBatch fun m hm => ⟨fun hc => hmem ⟨m,hm,hc⟩,fun _ => hsoft m hm⟩

theorem not_softDelete_map_delete (col : String) (ids : List String) :
    ∀ m ∈ ids.map (BatchMutation.delete col),∀ d id,m ≠ .softDelete d id := by
  intro m hm d id
  obtain ⟨k,-,rfl⟩ := List.mem_map.1 hm
  exact BatchMutation.noConfusion

theorem not_softDelete_singleton {m : BatchMutation} (hm : ∀ d id,m ≠ .softDelete d id) :
    ∀ m' ∈ [m],∀ d id,m' ≠ .softDelete d id := by
  intro m' hm'
  rw [List.mem_singleton.1 hm']
  exact hm

theorem shardOf_unlink (g : Guarded Ledger) {col : String} (hc : c ≠ col) :
    (g.unlink col).hako.shardOf c = g.hako.shardOf c := by
  unfold Hako.shardOf unlink
  simp only [lookup_erase_ite,hc,if_false]

theorem entry_unlink (g : Guarded Ledger) (k : String) : (g.unlink c).entry c k = none := by
  unfold entry Hako.shardOf unlink
  simp only [lookup_erase_ite,if_true,Except.toOption,Option.bind_some]
  rfl

theorem writeBatch_refused (env : Env Ledger) (hden : g.allowed c .batch = false) (hms : ∃ m ∈ ms,m.collection = c) :
    after (writeBatch env ms) g = g ∧ ∃ e,result (writeBatch env ms) g = .error e := by
  have hall : (ms.all fun m => g.allowed m.collection .batch) = false := by
    obtain ⟨m,hm,rfl⟩ := hms
    rw [List.all_eq_false]
    exact ⟨m,hm,by rw [hden]; exact Bool.false_ne_true⟩
  have hthrow : ∃ e : Fault,writeBatch env ms g = (.error e,g) := by
    rw [writeBatch,get_bind_apply,hall]
    split
    · exact ⟨_,rfl⟩
    · exact ⟨_,rfl⟩
  obtain ⟨e,he⟩ := hthrow
  exact ⟨by rw [after,he],e,by rw [result,he]⟩

theorem deleteChunk_refused (env : Env Ledger) (hden : g.allowed c .batch = false) (hids : ids ≠ []) :
    after (deleteChunk env c ids) g = g ∧ ∃ e,result (deleteChunk env c ids) g = .error e := by
  obtain ⟨id,hid⟩ := List.exists_mem_of_ne_nil ids hids
  obtain ⟨hsame,e,hstop⟩ := writeBatch_refused env hden ⟨BatchMutation.delete c id,List.mem_map_of_mem hid,rfl⟩
  exact ⟨(bind_of_error hstop).2.trans hsame,e,(bind_of_error hstop).1⟩

theorem sameGuards_dropCollection (col : String) : Keeps SameGuards (dropCollection env col) := by
  have : IsTrans (Guarded Ledger) SameGuards := ⟨fun _ _ _ => SameGuards.trans⟩
  refine keeps_dropCollection (fun _ _ hguards _ => hguards) (fun ids => ?_) fun g => ⟨rfl,rfl,rfl⟩
  intro g
  exact (shut_writeBatch_plain (c := "") (not_softDelete_map_delete col ids) g).guards

theorem chunks_eq_cons {size : ℕ} (hsize : 0 < size) (hids : ids ≠ []) :
    ∃ rest,chunks size ids = ids.take size::rest := by
  have hlength : 0 < ids.length := List.length_pos_iff.2 hids
  obtain ⟨n,hn⟩ : ∃ n,(ids.length+size-1)/size = n+1 :=
    Nat.exists_eq_succ_of_ne_zero (Nat.div_pos (by omega) hsize).ne'
  unfold chunks
  rw [hn,List.range_succ_eq_map,List.map_cons,Nat.zero_mul,List.drop_zero]
  exact ⟨_,rfl⟩

theorem entry_of_indexKeys {s : StorageEngine} (hs : g.hako.shards.lookup c = some s) (hids : g.indexKeys s = [])
    (k : String) : g.entry c k = none := by
  have hshard : g.hako.shardOf c = some s := by simp only [Hako.shardOf,hs]
  rw [entry,hshard,Option.bind_some]
  cases hk : s.index.lookup k with
  | none => rfl
  | some ptr =>
    have hmem : k ∈ g.indexKeys s := List.mem_map.2 ⟨(k,ptr),(g.indexOrder.mem_entries s.index k ptr).2 hk,rfl⟩
    rw [hids] at hmem
    cases hmem

/-- The drop of a collection for which batches are denied fails at its first delete, if it has one. -/
theorem shut_dropCollection (col : String) : Keeps (Shut c) (dropCollection env col) := by
  by_cases hc : c = col
  · subst hc
    intro g
    refine ⟨sameGuards_dropCollection c g,fun hden k => ?_⟩
    unfold dropCollection
    rw [after_get_bind]
    split
    · rfl
    split
    · rfl
    split
    · rfl
    split
    · rfl
    split
    · rfl
    · rename_i s hs
      simp only
      by_cases hids : g.indexKeys s = []
      · rw [hids]
        rw [entry_of_indexKeys hs hids]
        exact entry_unlink g k
      · obtain ⟨rest,hrest⟩ := chunks_eq_cons (Nat.succ_pos 999) hids
        have hsome : (g.indexKeys s).take 1000 ≠ [] := by simpa using hids
        obtain ⟨hsame,e,hstop⟩ := deleteChunk_refused env hden hsome
        rw [hrest,(bind_of_error (forM_of_error hstop).1).2,(forM_of_error hstop).2,hsame]
  · exact keeps_dropCollection idles_shut (fun ids => shut_writeBatch_plain (not_softDelete_map_delete col ids))
      fun g => ⟨⟨rfl,rfl,rfl⟩,fun _ k => entry_congr (shardOf_unlink g hc) k⟩

/-- A relocation out of or into a collection asks for the rules of the collection itself. -/
theorem relocateDocs_refused (env : Env Ledger) {src dst : String} (ids : List String)
    (hden : g.allowed src .delete = false ∨ g.allowed dst .put = false) :
    after (relocateDocs env src dst ids) g = g := by
  have hboth : (!g.allowed src .delete || !g.allowed dst .put) = true := by
    rcases hden with hden | hden <;> simp [hden]
  rw [relocateDocs,after_get_bind]
  split
  · rfl
  split
  · rfl
  split
  · rfl
  · rfl

end rules

end Guarded

namespace WriteCall
variable {Ledger : Type} {env : Env Ledger}

/-- The call is not the commit of a serializable transaction that writes. -/
def Gated : WriteCall → Prop
  | commitSerializable _ mutations => mutations = []
  | _ => True

open Guarded in
theorem frozen_run (env : Env Ledger) {call : WriteCall} (hgated : call.Gated) (g : Guarded Ledger) : Frozen g (call.run env g) := by
  cases call with
  | put col id doc => exact keeps_firstId idles_frozen (frozen_writeBatch _) g
  | putOwned col id doc => exact keeps_firstId idles_frozen (frozen_writeBatch _) g
  | delete col id => exact keeps_firstId idles_frozen (frozen_writeBatch _) g
  | deleteForce col id => exact keeps_firstId idles_frozen (frozen_writeBatch _) g
  | patch col id updates => exact keeps_patch idles_frozen (frozen_writeBatch _) g
  | writeBatch ms => exact frozen_writeBatch ms g
  | commit ms => exact frozen_writeBatch ms g
  | commitSerializable reads ms =>
    obtain rfl : ms = [] := hgated
    refine keeps_get (fun g => ?_) g
    split
    · exact fun hro => ⟨hro,fun _ => rfl⟩
    · exact fun hro => ⟨hro,fun col => shardOf_writeBatchInternal (fun m hm => absurd hm List.not_mem_nil) _⟩
  | restore col id => exact keeps_restore idles_frozen (fun _ => frozen_writeBatch _) (fun _ => frozen_writeBatch _) g
  | relocateDocs src dst ids => exact frozen_relocateDocs src dst ids g
  | renameCollection source target => exact frozen_renameCollection source target g
  | dropCollection col => exact frozen_dropCollection col g

/-- While the engine is read-only, calls that pass the batch gate change neither a document nor a log. -/
theorem runAll_readOnly {g : Guarded Ledger} (hro : g.readOnly = true) {calls : List WriteCall}
    (hgated : ∀ call ∈ calls,call.Gated) :
    (runAll env calls g).readOnly = true ∧ ∀ col,(runAll env calls g).hako.shardOf col = g.hako.shardOf col := by
  induction calls generalizing g with
  | nil => exact ⟨hro,fun _ => rfl⟩
  | cons call calls ih =>
    obtain ⟨hro1,hshards⟩ := frozen_run env (hgated call List.mem_cons_self) g hro
    obtain ⟨hro2,hrest⟩ := ih hro1 fun c hc => hgated c (List.mem_cons_of_mem call hc)
    exact ⟨hro2,fun col => (hrest col).trans (hshards col)⟩

/-- An engine with one collection, guarded by the rules. -/
def guardedEngine (rules : List SecurityRule) (ro : Bool) : Guarded Unit where
  hako := Hako.oneCollection "c"
  readOnly := ro
  securityEnabled := !rules.isEmpty
  securityRules := rules
  syncExcluded := []
  lazyCollections := []
  localOnlyKeys := []
  dirs := fun _ => false
  encryptionFor := fun _ => none
  indexOrder := .byKey
  turns := fun n => ⟨⟨.ofNat (1000000*(n+1)),0⟩,fun _ => .done⟩
  batches := 0

/-- The same with a document. -/
def filledEngine (rules : List SecurityRule) (ro : Bool) : Guarded Unit :=
  (((WriteCall.put "c" "k" ⟨[("n",.int 1)],0⟩).run Hako.plainEnv (guardedEngine [] false)).setSecurityRules
    rules).setReadOnly ro

def everyCall : List WriteCall :=
  [.put "c" "j" ⟨[],0⟩,.putOwned "c" "k" ⟨[],0⟩,.delete "c" "k",.deleteForce "c" "k",.patch "c" "k" [("m",.int 2)],
   .writeBatch [.put "c" "j" ⟨[],0⟩],.commit [.delete "c" "k"],.commitSerializable [("k",some 0)] [],.restore "c" "k",
   .relocateDocs "c" "d" ["k"],.renameCollection "c" "d",.dropCollection "c"]

theorem runAll_readOnly_everyCall : ((filledEngine [] true).hako.document none "c" "k").isSome = true ∧
    ∀ col,(runAll Hako.plainEnv everyCall (filledEngine [] true)).hako.shardOf col =
      (filledEngine [] true).hako.shardOf col := by
  refine ⟨by decide,(runAll_readOnly rfl fun call hcall => ?_).2⟩
  simp only [everyCall,List.mem_cons,List.not_mem_nil,or_false] at hcall
  rcases hcall with rfl | rfl | rfl | rfl | rfl | rfl | rfl | rfl | rfl | rfl | rfl | rfl <;> trivial

/-- The commit of a serializable transaction writes all the same. -/
theorem commitSerializable_readOnly : (guardedEngine [] true).readOnly = true ∧
    (guardedEngine [] true).hako.document none "c" "j" = none ∧
    (((WriteCall.commitSerializable [] [.put "c" "j" ⟨[("n",.int 2)],0⟩]).run Hako.plainEnv
      (guardedEngine [] true)).hako.document none "c" "j").isSome = true := ⟨rfl,rfl,rfl⟩

/-- The call writes (or deletes) documents of the collection by its arguments. -/
def Does (op : AccessOp) (c : String) : WriteCall → Prop
  | put col _ _ | putOwned col _ _ | patch col _ _ => op = .put ∧ col = c
  | delete col _ | deleteForce col _ | dropCollection col => op = .delete ∧ col = c
  | writeBatch ms | commit ms | commitSerializable _ ms => ∃ m ∈ ms,m.collection = c ∧ m.accessOp = op
  | restore col _ => op = .put ∧ col = c ∨ op = .delete ∧ softdelCollection = c
  | relocateDocs src dst _ => op = .put ∧ dst = c ∨ op = .delete ∧ src = c
  | renameCollection source target => op = .put ∧ target = c ∨ op = .delete ∧ source = c

open Guarded in
theorem shut_run (env : Env Ledger) {g : Guarded Ledger} {c : String} {op : AccessOp} (hden : g.allowed c op = false)
    {call : WriteCall} (hgated : call.Gated) (hdoes : call.Does op c) : Shut c g (call.run env g) := by
  have hsame : ∀ {g' : Guarded Ledger},g' = g → Shut c g g' := by
    rintro g' rfl
    exact idles_shut (.refl g') fun _ => rfl
  have hmem : ∀ m : BatchMutation,m.collection = c → Keeps (Shut c) (Guarded.writeBatch env [m]) := fun m hm =>
    shut_writeBatch_of_mem ⟨m,List.mem_singleton_self m,hm⟩
  have hplain : ∀ {m : BatchMutation},(∀ d id,m ≠ .softDelete d id) → Keeps (Shut c) (Guarded.writeBatch env [m]) :=
    fun hm => shut_writeBatch_plain (not_softDelete_singleton hm)
  cases call with
  | put col id doc => exact keeps_firstId idles_shut (hmem (.put col id doc) hdoes.2) g
  | putOwned col id doc => exact keeps_firstId idles_shut (hmem (.put col id doc) hdoes.2) g
  | delete col id => exact keeps_firstId idles_shut (hmem (.softDelete col id) hdoes.2) g
  | deleteForce col id => exact keeps_firstId idles_shut (hmem (.delete col id) hdoes.2) g
  | patch col id updates => exact keeps_patch idles_shut (hmem (.patch col id updates) hdoes.2) g
  | writeBatch ms =>
    obtain ⟨m,hm,hc,-⟩ := hdoes
    exact shut_writeBatch_of_mem ⟨m,hm,hc⟩ g
  | commit ms =>
    obtain ⟨m,hm,hc,-⟩ := hdoes
    exact shut_writeBatch_of_mem ⟨m,hm,hc⟩ g
  | commitSerializable reads ms =>
    obtain ⟨m,hm,-⟩ := hdoes
    rw [show ms = [] from hgated] at hm
    cases hm
  | restore col id =>
    exact keeps_restore idles_shut (fun _ => hplain fun _ _ => BatchMutation.noConfusion)
      (fun _ => hplain fun _ _ => BatchMutation.noConfusion) g
  | relocateDocs src dst ids =>
    refine hsame (relocateDocs_refused env ids ?_)
    rcases hdoes with ⟨rfl,rfl⟩ | ⟨rfl,rfl⟩
    · exact .inr hden
    · exact .inl hden
  | renameCollection source target =>
    refine keeps_renameCollection idles_shut (fun _ => ?_) g
    refine keeps_moveAll idles_shut (fun ms hms => shut_writeBatch_plain fun m hm d id => ?_)
      (fun ids => shut_writeBatch_plain (not_softDelete_map_delete source ids))
      (fun _ => hplain fun _ _ => BatchMutation.noConfusion) (shut_dropCollection source)
    obtain ⟨k,doc,rfl⟩ := hms m hm
    exact BatchMutation.noConfusion
  | dropCollection col => exact shut_dropCollection col g

section admitted

/-- A guarded engine whose only collection is `c`, with one document. -/
def engineWith (rules : List SecurityRule) (c : String) : Guarded Unit :=
  let shard : StorageEngine := .fresh .default c none 0
  {guardedEngine rules false with
    hako := (Hako.oneCollection c).withShard c {shard with index := shard.index.insert "k" (.inlined [])}}

theorem engineWith_shardOf (rules : List SecurityRule) (c : String) (t : Int64) :
    ({(engineWith rules c).hako with lastTsWatermark := t} : Hako Unit).shardOf c =
      some {(.fresh .default c none 0 : StorageEngine) with
        index := (StorageEngine.fresh .default c none 0).index.insert "k" (.inlined [])} :=
  (Hako.shardOf_withShard (Hako.oneCollection c) c c _).trans (if_pos rfl)

theorem engineWith_opens (rules : List SecurityRule) (c : String) (t : Int64) (col : String) :
    ({(engineWith rules c).hako with lastTsWatermark := t} : Hako Unit).shardOf col ≠ none := by
  intro hnone
  have hshard := (Hako.shardOf_withShard (Hako.oneCollection c) col c _).symm.trans hnone
  split at hshard
  · cases hshard
  · rename_i hcol
    simp [Hako.shardOf,Hako.oneCollection,hcol,Except.toOption] at hshard

theorem engineWith_entry (rules : List SecurityRule) (c : String) : (engineWith rules c).entry c "k" = some (.inlined []) := by
  simp [Guarded.entry,engineWith,Hako.shardOf_withShard]

variable {rules : List SecurityRule} {c : String}

/-- A batch that the rules let pass is written. -/
theorem entry_writeBatch_admitted {m : BatchMutation} {ids : List String} {w : ShardWork}
    (hbatch : (engineWith rules c).allowed m.collection .batch = true)
    (hprep : Hako.prepareAllWithFaults Hako.plainEnv 1000000 1000
      ⟨{(engineWith rules c).hako with lastTsWatermark := 1000},∅,[]⟩ [m] =
        .ok ⟨{(engineWith rules c).hako with lastTsWatermark := 1000},(∅ : HMap String ShardWork).insert c w,ids⟩) :
    (after (Guarded.writeBatch Hako.plainEnv [m]) (engineWith rules c)).entry c "k" =
      (lastValue "k" (w.putUpdates++w.deleteUpdates)).or (some (.inlined [])) := by
  have hwritten : ∃ s : StorageEngine,((engineWith rules c).hako.writeBatchWithFaults Hako.plainEnv (fun _ => .done) ⟨1000000,0⟩
      [m]).1.shardOf c = some (s.applyWork crc32 0 w) ∧ s.index.lookup "k" = some (.inlined []) :=
    ⟨_,Hako.shardOf_writeBatch_of_prepared hprep (fun _ => rfl) (engineWith_opens rules c 1000) (Finmap.lookup_insert _)
      (engineWith_shardOf rules c 1000),Finmap.lookup_insert _⟩
  obtain ⟨s,hshard,hindex⟩ := hwritten
  have hro : (engineWith rules c).readOnly = false := rfl
  have hafter : (after (Guarded.writeBatch Hako.plainEnv [m]) (engineWith rules c)).hako.shardOf c =
      some (s.applyWork crc32 0 w) := by
    unfold Guarded.writeBatch
    rw [after_get_bind,hro,if_neg Bool.false_ne_true,if_neg (by simp [hbatch])]
    exact hshard
  rw [Guarded.entry,hafter,Option.bind_some,(Hako.applyWork_eq crc32 0 s w).1,lookup_insertAll,hindex]

theorem after_firstId (x : Guarded.M Ledger (List String)) (g : Guarded Ledger) :
    after (do return Guarded.firstId (← x)) g = after x g := by
  rw [after_bind]
  cases result x g <;> rfl

theorem put_admitted (hbatch : (engineWith rules c).allowed c .batch = true) :
    ((WriteCall.put c "k" ⟨[],0⟩).run Hako.plainEnv (engineWith rules c)).entry c "k" ≠
      (engineWith rules c).entry c "k" := by
  have hmanager : (StorageEngine.fresh .default c none 0).blobManager = some ⟨[],0⟩ := rfl
  have hextract : ∀ t,(⟨[],0⟩ : BlobManager).extractBlobs c "k" ⟨[],1000⟩ t = (⟨[],0⟩,⟨[],1000⟩,[]) := fun t => rfl
  have hprep : Hako.prepareAllWithFaults Hako.plainEnv 1000000 1000
      ⟨{(engineWith rules c).hako with lastTsWatermark := 1000},∅,[]⟩ [.put c "k" ⟨[],0⟩] =
        .ok ⟨{(engineWith rules c).hako with lastTsWatermark := 1000},(∅ : HMap String ShardWork).insert c
          ⟨[.putInlined "k" (HakoDoc.encode ⟨[],1000⟩)],["k"],[],[("k",⟨[],1000⟩)],[]⟩,["k"]⟩ := by
    simp [Hako.prepareAllWithFaults,Hako.prepareOne,engineWith,Hako.withShard,Hako.oneCollection,Hako.resolveDoc,
      Hako.assignId,BatchMutation.docId,Hako.applySchema,Prep.pushPut,Hako.getShard,Prep.extractBlobs,bind,Except.bind,
      pure,Except.pure,hmanager,hextract,Hako.plainEnv,Prep.setWork,Prep.work,ShardWork.empty]
  have hentry := entry_writeBatch_admitted (m := .put c "k" ⟨[],0⟩) hbatch hprep
  rw [engineWith_entry,run,Guarded.put,Guarded.putOwned,after_firstId,hentry]
  decide

theorem deleteForce_admitted (hbatch : (engineWith rules c).allowed c .batch = true) :
    ((WriteCall.deleteForce c "k").run Hako.plainEnv (engineWith rules c)).entry c "k" ≠
      (engineWith rules c).entry c "k" := by
  have hprep : Hako.prepareAllWithFaults Hako.plainEnv 1000000 1000
      ⟨{(engineWith rules c).hako with lastTsWatermark := 1000},∅,[]⟩ [.delete c "k"] =
        .ok ⟨{(engineWith rules c).hako with lastTsWatermark := 1000},(∅ : HMap String ShardWork).insert c
          ⟨[.delete "k" 1000],["k"],["k"],[],[]⟩,["k"]⟩ := by
    simp [Hako.prepareAllWithFaults,Hako.prepareOne,engineWith,Hako.withShard,Hako.oneCollection,Hako.resolveDoc,
      Hako.assignId,BatchMutation.docId,Prep.pushDelete,bind,Except.bind,pure,Except.pure,Hako.plainEnv,Prep.setWork,
      Prep.work,ShardWork.empty]
  have hentry := entry_writeBatch_admitted (m := .delete c "k") hbatch hprep
  rw [engineWith_entry,run,Guarded.deleteForce,after_firstId,hentry]
  decide

end admitted

open Guarded in
/-- What is denied to puts or deletes of a collection is kept out, by all calls that pass the batch gate, just if
batches are denied as well. -/
theorem denied_call_keeps_collection_iff {rules : List SecurityRule} {c : String} {op : AccessOp}
    (hop : op = .put ∨ op = .delete) (hden : Denies rules c op) :
    (∀ (Ledger : Type) (env : Env Ledger) (g : Guarded Ledger) (call : WriteCall),g.HasRules rules → call.Gated →
      call.Does op c → ∀ k,(call.run env g).entry c k = g.entry c k) ↔ Denies rules c .batch := by
  constructor
  · intro hkept
    have hrules : (engineWith rules c).HasRules rules := ⟨rfl,rfl⟩
    rw [← hrules.allowed_iff]
    by_contra hbatch
    have hbatch : (engineWith rules c).allowed c .batch = true := by simpa using hbatch
    rcases hop with rfl | rfl
    · exact put_admitted hbatch (hkept Unit Hako.plainEnv _ (.put c "k" ⟨[],0⟩) hrules trivial ⟨rfl,rfl⟩ "k")
    · exact deleteForce_admitted hbatch (hkept Unit Hako.plainEnv _ (.deleteForce c "k") hrules trivial ⟨rfl,rfl⟩ "k")
  · intro hbatch Ledger env g call hrules hgated hdoes
    have hshut := shut_run env ((hrules.allowed_iff c op).2 hden) hgated hdoes
    exact hshut.entries ((hrules.allowed_iff c .batch).2 hbatch)

theorem denied_call_keeps_collection_iff_closed :
    (∀ (Ledger : Type) (env : Env Ledger) (g : Guarded Ledger) (call : WriteCall),
      g.HasRules [⟨"c",.put,false⟩,⟨"",.batch,false⟩] → call.Gated → call.Does .put "c" →
      ∀ k,(call.run env g).entry "c" k = g.entry "c" k) ↔
    Guarded.Denies [⟨"c",.put,false⟩,⟨"",.batch,false⟩] "c" .batch :=
  denied_call_keeps_collection_iff (.inl rfl) rfl

/-- The rules deny puts to the collection; a put writes to it. They deny batches too; the commit of a serializable
transaction writes to it. -/
theorem denied_put_written :
    (Guarded.Denies [⟨"c",.put,false⟩] "c" .put ∧
      ((WriteCall.put "c" "k" ⟨[],0⟩).run Hako.plainEnv (guardedEngine [⟨"c",.put,false⟩] false)).entry "c" "k" ≠
        (guardedEngine [⟨"c",.put,false⟩] false).entry "c" "k") ∧
    Guarded.Denies [⟨"c",.put,false⟩,⟨"c",.batch,false⟩] "c" .put ∧
      ((WriteCall.commitSerializable [] [.put "c" "k" ⟨[],0⟩]).run Hako.plainEnv
        (guardedEngine [⟨"c",.put,false⟩,⟨"c",.batch,false⟩] false)).entry "c" "k" ≠
        (guardedEngine [⟨"c",.put,false⟩,⟨"c",.batch,false⟩] false).entry "c" "k" := by
  refine ⟨⟨rfl,?_⟩,rfl,?_⟩
  · decide
  · decide

end WriteCall

end HakoDB
