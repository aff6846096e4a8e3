import HakoDB.Engine.FailedBatch

/-! Ids for documents that come without one: the clock of the batch and a running number, in hexadecimal
digits. The number has four of them. -/
namespace HakoDB
open HashMap

theorem hexDigit_inj {m n : ℕ} : hexDigit m = hexDigit n ↔ m%16 = n%16 := by
  have hchars : ∀ i j : Fin 16,("0123456789abcdef".toList[i.1]?).getD '0' = ("0123456789abcdef".toList[j.1]?).getD '0' →
      i.1 = j.1 := by
    decide
  unfold hexDigit
  constructor
  · exact hchars ⟨m%16,Nat.mod_lt _ (by decide)⟩ ⟨n%16,Nat.mod_lt _ (by decide)⟩
  · intro h
    simp only [h]

theorem hexDigits_succ (width n : ℕ) : hexDigits (width+1) n = hexDigit (n/16^width)::hexDigits width n := by
  simp [hexDigits,List.range_succ]

theorem length_hexDigits (width n : ℕ) : (hexDigits width n).length = width := by
  simp [hexDigits]

theorem hexDigits_inj {width m n : ℕ} : hexDigits width m = hexDigits width n ↔ m%16^width = n%16^width := by
  induction width with
  | zero => simp [hexDigits,Nat.mod_one]
  | succ width ih =>
    rw [hexDigits_succ,hexDigits_succ,List.cons.injEq,hexDigit_inj,ih,Nat.mod_pow_succ,Nat.mod_pow_succ]
    have hm := Nat.mod_lt m (Nat.pow_pos (n := width) (show 0 < 16 by decide))
    have hn := Nat.mod_lt n (Nat.pow_pos (n := width) (show 0 < 16 by decide))
    constructor
    · rintro ⟨hdigit,hrest⟩
      rw [hdigit,hrest]
    · intro h
      have hrest : m%16^width = n%16^width := by
        have := congrArg (·%16^width) h
        simpa [Nat.add_mul_mod_self_left] using this
      refine ⟨?_,hrest⟩
      rw [hrest] at h
      exact Nat.eq_of_mul_eq_mul_left (Nat.pow_pos (show 0 < 16 by decide)) (Nat.add_left_cancel h)

/-- The id of one clock reading and one running number. -/
def sortableId (nanos : Int64) (seq : UInt16) : String := .ofList (hexDigits 16 nanos.toUInt64.toNat++hexDigits 4 seq.toNat)

theorem sortableId_inj {nanos nanos' : Int64} {seq seq' : UInt16} :
    sortableId nanos seq = sortableId nanos' seq' ↔ nanos = nanos' ∧ seq = seq' := by
  refine ⟨fun h => ?_,fun ⟨hn,hs⟩ => by rw [hn,hs]⟩
  obtain ⟨hclock,hseq⟩ := List.append_inj (String.ofList_inj.1 h) (by rw [length_hexDigits,length_hexDigits])
  rw [hexDigits_inj] at hclock hseq
  have hlt : ∀ n : Int64,n.toUInt64.toNat < 16^16 := fun n => n.toUInt64.toNat_lt
  have hlt' : ∀ n : UInt16,n.toNat < 16^4 := fun n => n.toNat_lt
  rw [Nat.mod_eq_of_lt (hlt nanos),Nat.mod_eq_of_lt (hlt nanos')] at hclock
  rw [Nat.mod_eq_of_lt (hlt' seq),Nat.mod_eq_of_lt (hlt' seq')] at hseq
  obtain ⟨bits⟩ := nanos
  obtain ⟨bits'⟩ := nanos'
  exact ⟨congrArg Int64.ofUInt64 (UInt64.toNat_inj.1 hclock),UInt16.toNat_inj.1 hseq⟩

namespace Hako
variable {Ledger : Type}

theorem assignId_unnamed (h : Hako Ledger) (nanos : Int64) : h.assignId nanos "" =
    (sortableId nanos h.idSequence,{h with idSequence := h.idSequence+1}) := rfl

section sequence
variable {env : Env Ledger} {nanos now : Int64} {h h' : Hako Ledger} {p p' : Prep Ledger}
variable {col : String} {m : BatchMutation} {doc : HakoDoc} {id : String}

theorem getShard_idSequence {s : StorageEngine} (hok : h.getShard col = .ok (s,h')) :
    h'.idSequence = h.idSequence := by
  unfold getShard at hok
  split at hok
  · rw [← (Prod.mk.inj (Except.ok.inj hok)).2]
  · obtain ⟨t,-,hok⟩ := bind_eq_ok.1 hok
    rw [← (Prod.mk.inj (Except.ok.inj hok)).2]

theorem resolveDoc_idSequence (hok : h.resolveDoc env m = .ok (h',doc)) :
    h'.idSequence = h.idSequence := by
  rcases resolveDoc_cases hok with rfl | ⟨_,_,hshard⟩
  · rfl
  · exact getShard_idSequence hshard

theorem pushPut_idSequence (hok : p.pushPut env.gate now col id doc = .ok p') :
    p'.hako.idSequence = p.hako.idSequence := by
  obtain ⟨⟨s,h1⟩,hshard,hok⟩ := bind_eq_ok.1 hok
  have hblobs : (Prep.extractBlobs h1 s col id {doc with time := now}).1.idSequence = h1.idSequence := by
    unfold Prep.extractBlobs
    split <;> rfl
  dsimp only at hok
  split at hok
  · cases hok
  · rw [← Except.ok.inj hok]
    exact hblobs.trans (getShard_idSequence hshard)

theorem pushRecord_idSequence {zstd : Option Zstd} :
    (p.pushRecord zstd now col id).hako.idSequence = p.hako.idSequence := by
  unfold Prep.pushRecord
  split <;> rfl

/-- The running number counts the mutations that come without an id. -/
theorem prepareOne_idSequence (hok : prepareOne env nanos now p m = .ok p') :
    p'.hako.idSequence = p.hako.idSequence+if m.docId = "" then 1 else 0 := by
  obtain ⟨h1,doc,id,q,hres,-,rfl,hok⟩ := prepareOne_cases hok
  have hassign : (h1.assignId nanos m.docId).2.idSequence = p.hako.idSequence+if m.docId = "" then 1 else 0 := by
    rw [← resolveDoc_idSequence hres,assignId]
    split <;> simp [generateSortableId]
  rcases hok with rfl | ⟨-,rfl⟩ | ⟨doc',hpush⟩
  · exact hassign
  · exact pushRecord_idSequence.trans hassign
  · exact (pushPut_idSequence hpush).trans hassign

end sequence

/-- The ids that are handed out while a batch is prepared, up to the mutation that cannot be. -/
def handedOut (env : Env Ledger) (nanos now : Int64) : Prep Ledger → List BatchMutation → List String
  | _,[] => []
  | p,m::ms =>
    match p.hako.resolveDoc env m with
    | .error _ => []
    | .ok (h,_) =>
      (if m.docId = "" then [(h.assignId nanos m.docId).1] else [])++
        match prepareOne env nanos now p m with
        | .ok p' => handedOut env nanos now p' ms
        | .error _ => []

/-- So many ids of one clock reading, from one running number on. -/
def idBlock (nanos : Int64) (seq : UInt16) (k : ℕ) : List String := (List.range k).map fun i => sortableId nanos (seq+.ofNat i)

theorem idBlock_succ (nanos : Int64) (seq : UInt16) (k : ℕ) :
    idBlock nanos seq (k+1) = sortableId nanos seq::idBlock nanos (seq+1) k := by
  rw [idBlock,List.range_succ_eq_map,List.map_cons,List.map_map,idBlock]
  refine congrArg₂ List.cons (by simp) (List.map_congr_left fun i _ => ?_)
  have hsum : seq+UInt16.ofNat (i+1) = seq+1+UInt16.ofNat i := by
    rw [UInt16.ofNat_add,add_comm (UInt16.ofNat i),add_assoc]
    rfl
  exact congrArg (sortableId nanos) hsum

variable {nanos : Int64} {seq : UInt16}

theorem sortableId_add_inj {i j : ℕ} :
    sortableId nanos (seq+.ofNat i) = sortableId nanos (seq+.ofNat j) ↔ i%2^16 = j%2^16 := by
  rw [sortableId_inj,and_iff_right rfl,add_right_inj,← UInt16.toNat_inj,UInt16.toNat_ofNat',UInt16.toNat_ofNat']

/-- The running number comes back after four digits. -/
theorem nodup_idBlock {k : ℕ} : (idBlock nanos seq k).Nodup ↔ k ≤ 2^16 := by
  rw [idBlock,List.nodup_map_iff_inj_on List.nodup_range]
  simp only [List.mem_range,sortableId_add_inj]
  constructor
  · intro h
    by_contra hk
    have := h 0 (by omega) (2^16) (by omega) rfl
    omega
  · intro hk i hi j hj hij
    rwa [Nat.mod_eq_of_lt (by omega),Nat.mod_eq_of_lt (by omega)] at hij

def unnamed (ms : List BatchMutation) : ℕ := ms.countP fun m => m.docId = ""

/-- A batch hands out a block of ids; a whole one if it is prepared to its end. -/
theorem handedOut_eq (env : Env Ledger) (nanos now : Int64) (p : Prep Ledger) (ms : List BatchMutation) :
    ∃ k ≤ unnamed ms,handedOut env nanos now p ms = idBlock nanos p.hako.idSequence k ∧
      (∀ p',ms.foldlM (prepareOne env nanos now) p = .ok p' → k = unnamed ms) := by
  induction ms generalizing p with
  | nil => exact ⟨0,le_rfl,rfl,fun _ _ => rfl⟩
  | cons m ms ih =>
    rw [handedOut]
    cases hres : p.hako.resolveDoc env m with
    | error e =>
      refine ⟨0,Nat.zero_le _,rfl,fun p' hall => ?_⟩
      obtain ⟨p1,hone,-⟩ := bind_eq_ok.1 hall
      rw [prepareOne,hres] at hone
      cases hone
    | ok r =>
      obtain ⟨h1,doc⟩ := r
      have hseq := resolveDoc_idSequence hres
      have hcount : unnamed (m::ms) = unnamed ms+if m.docId = "" then 1 else 0 := by
        simp [unnamed,List.countP_cons]
      have hfirst : (if m.docId = "" then [(h1.assignId nanos m.docId).1] else []) =
          idBlock nanos p.hako.idSequence (if m.docId = "" then 1 else 0) := by
        split
        · rename_i hid
          rw [hid,assignId_unnamed,hseq,idBlock_succ]
          rfl
        · rfl
      dsimp only
      cases hone : prepareOne env nanos now p m with
      | error e =>
        refine ⟨if m.docId = "" then 1 else 0,by omega,by rw [hfirst,List.append_nil],fun p' hall => ?_⟩
        obtain ⟨p1,hp1,-⟩ := bind_eq_ok.1 hall
        rw [hone] at hp1
        cases hp1
      | ok p1 =>
        obtain ⟨k,hk,hrest,hwhole⟩ := ih p1
        refine ⟨k+if m.docId = "" then 1 else 0,by omega,?_,fun p' hall => ?_⟩
        · dsimp only
          rw [hfirst,hrest,prepareOne_idSequence hone]
          split
          · rw [idBlock_succ,idBlock_succ]
            rfl
          · simp [idBlock]
        · obtain ⟨p2,hp2,hall⟩ := bind_eq_ok.1 hall
          obtain rfl : p1 = p2 := Except.ok.inj (hone.symm.trans hp2)
          rw [hwhole p' hall,hcount]

end Hako

/-- One call of the write path and what its disks do. -/
structure BatchCall where
  faults : String → IoOutcome
  clock : Clock
  mutations : List BatchMutation

namespace Hako
variable {Ledger : Type}

def batchIds (env : Env Ledger) (h : Hako Ledger) (b : BatchCall) : List String :=
  handedOut env b.clock.nanos (h.stamp b.clock.nanos) ⟨{h with lastTsWatermark := h.stamp b.clock.nanos},∅,[]⟩ b.mutations

/-- The ids of batches that run one after the other, those that fail included. -/
def runIds (env : Env Ledger) : Hako Ledger → List BatchCall → List String
  | _,[] => []
  | h,b::bs => batchIds env h b++runIds env (h.writeBatchWithFaults env b.faults b.clock b.mutations).1 bs

/-- All the batches succeed. -/
def AllAccepted (env : Env Ledger) : Hako Ledger → List BatchCall → Prop
  | _,[] => True
  | h,b::bs => (∃ ids,(h.writeBatchWithFaults env b.faults b.clock b.mutations).2 = .ok ids) ∧
      AllAccepted env (h.writeBatchWithFaults env b.faults b.clock b.mutations).1 bs

theorem batchIds_eq (env : Env Ledger) (h : Hako Ledger) (b : BatchCall) :
    ∃ k ≤ unnamed b.mutations,batchIds env h b = idBlock b.clock.nanos h.idSequence k ∧
      ((∃ ids,(h.writeBatchWithFaults env b.faults b.clock b.mutations).2 = .ok ids) → k = unnamed b.mutations) := by
  obtain ⟨k,hk,hids,hwhole⟩ := handedOut_eq env b.clock.nanos (h.stamp b.clock.nanos)
    ⟨{h with lastTsWatermark := h.stamp b.clock.nanos},∅,[]⟩ b.mutations
  refine ⟨k,hk,hids,fun ⟨ids,hok⟩ => ?_⟩
  unfold writeBatchWithFaults at hok
  dsimp only at hok
  split at hok
  · cases hok
  · rename_i p hprep
    exact hwhole p (prepareAllWithFaults_ok.1 hprep)

variable {id col : String} {p : Prep Unit}

theorem mem_runIds {env : Env Ledger} {h : Hako Ledger} {bs : List BatchCall} (hid : id ∈ runIds env h bs) :
    ∃ b ∈ bs,∃ seq,id = sortableId b.clock.nanos seq := by
  induction bs generalizing h with
  | nil => cases hid
  | cons b bs ih =>
    rcases List.mem_append.1 hid with hid | hid
    · obtain ⟨k,-,hids,-⟩ := batchIds_eq env h b
      rw [hids] at hid
      obtain ⟨i,-,rfl⟩ := List.mem_map.1 hid
      exact ⟨b,List.mem_cons_self,_,rfl⟩
    · obtain ⟨b',hb',hseq⟩ := ih hid
      exact ⟨b',List.mem_cons_of_mem b hb',hseq⟩

/-- Batches at increasing clock readings hand out no id twice if none of them has more than 65536 mutations
without an id; among batches that succeed those are the only ones. -/
theorem nodup_runIds (env : Env Ledger) (h : Hako Ledger) {bs : List BatchCall}
    (hclock : bs.Pairwise fun a b => a.clock.nanos < b.clock.nanos) :
    ((∀ b ∈ bs,unnamed b.mutations ≤ 2^16) → (runIds env h bs).Nodup) ∧
    (AllAccepted env h bs → (runIds env h bs).Nodup → ∀ b ∈ bs,unnamed b.mutations ≤ 2^16) := by
  induction bs generalizing h with
  | nil => exact ⟨fun _ => List.nodup_nil,fun _ _ b hb => absurd hb List.not_mem_nil⟩
  | cons b bs ih =>
    obtain ⟨hlater,hclock⟩ := List.pairwise_cons.1 hclock
    obtain ⟨hfresh,hbound⟩ := ih (h.writeBatchWithFaults env b.faults b.clock b.mutations).1 hclock
    obtain ⟨k,hk,hids,hwhole⟩ := batchIds_eq env h b
    have hdisjoint : List.Disjoint (batchIds env h b)
        (runIds env (h.writeBatchWithFaults env b.faults b.clock b.mutations).1 bs) := by
      intro id hid hlate
      rw [hids] at hid
      obtain ⟨i,-,rfl⟩ := List.mem_map.1 hid
      obtain ⟨b',hb',seq,hseq⟩ := mem_runIds hlate
      exact absurd (sortableId_inj.1 hseq).1 (Int64.ne_of_lt (hlater b' hb'))
    rw [runIds,List.nodup_append',hids,nodup_idBlock,← hids]
    constructor
    · intro hsmall
      exact ⟨hk.trans (hsmall b List.mem_cons_self),hfresh fun b' hb' => hsmall b' (List.mem_cons_of_mem b hb'),hdisjoint⟩
    · rintro ⟨hok,hall⟩ ⟨hblock,hnodup,-⟩ b' hb'
      rcases List.mem_cons.1 hb' with rfl | hb'
      · exact hwhole hok ▸ hblock
      · exact hbound hall hnodup b' hb'

/-- Nothing stands in the way of a put into the collection. -/
def TakesPuts (col : String) (p : Prep Unit) : Prop := p.hako.schemaEnabled = false ∧ ∃ s,p.hako.shards.lookup col = some s

theorem TakesPuts.pushPut (h : TakesPuts col p) (now : Int64) (id : String) (doc : HakoDoc) :
    ∃ p',p.pushPut plainEnv.gate now col id doc = .ok p' ∧ TakesPuts col p' := by
  obtain ⟨hschema,s,hs⟩ := h
  have hshard : p.hako.getShard col = .ok (s,p.hako) := by
    rw [getShard,hs]
  have hblobs : (Prep.extractBlobs p.hako s col id {doc with time := now}).1.schemaEnabled = false ∧
      ∃ t,(Prep.extractBlobs p.hako s col id {doc with time := now}).1.shards.lookup col = some t := by
    unfold Prep.extractBlobs
    split
    · exact ⟨hschema,s,hs⟩
    · exact ⟨hschema,_,Finmap.lookup_insert _⟩
  obtain ⟨p',hp'⟩ : ∃ p',p.pushPut plainEnv.gate now col id doc = .ok p' := by
    rw [Prep.pushPut,hshard]
    exact ⟨_,rfl⟩
  refine ⟨p',hp',?_⟩
  rw [Prep.pushPut,hshard] at hp'
  rw [← Except.ok.inj hp']
  exact hblobs

theorem TakesPuts.prepareOne (h : TakesPuts col p) (nanos now : Int64) (id : String) (doc : HakoDoc) :
    ∃ p',prepareOne plainEnv nanos now p (.put col id doc) = .ok p' ∧ TakesPuts col p' := by
  obtain ⟨seq,hseq⟩ := p.hako.assignId_eq nanos id
  have hassigned : TakesPuts col {p with
      hako := (p.hako.assignId nanos id).2, assignedIds := p.assignedIds++[(p.hako.assignId nanos id).1]} := by
    rw [hseq]
    exact h
  have happly : (p.hako.assignId nanos id).2.applySchema col doc = .ok doc := by
    rw [hseq,applySchema,h.1]
    rfl
  obtain ⟨p',hp',htakes⟩ := hassigned.pushPut now (p.hako.assignId nanos id).1 doc
  refine ⟨p',?_,htakes⟩
  show ((p.hako.assignId nanos id).2.applySchema col doc >>= fun d => Prep.pushPut plainEnv.gate now {p with
    hako := (p.hako.assignId nanos id).2, assignedIds := p.assignedIds++[(p.hako.assignId nanos id).1]} col
      (p.hako.assignId nanos id).1 d) = .ok p'
  rw [happly]
  exact hp'

theorem TakesPuts.prepareAll (h : TakesPuts col p) (nanos now : Int64) (doc : HakoDoc) (n : ℕ) :
    ∃ p',(List.replicate n (.put col id doc)).foldlM (Hako.prepareOne plainEnv nanos now) p = .ok p' := by
  induction n generalizing p with
  | zero => exact ⟨p,rfl⟩
  | succ n ih =>
    obtain ⟨p1,hp1,h1⟩ := h.prepareOne nanos now id doc
    obtain ⟨p2,hp2⟩ := ih h1
    exact ⟨p2,bind_eq_ok.2 ⟨p1,hp1,hp2⟩⟩

/-- So many puts without an id. -/
def manyPuts (n : ℕ) : BatchCall := ⟨fun _ => .done,⟨1000000,0⟩,List.replicate n (.put "c" "" ⟨[("n",.int 1)],0⟩)⟩

theorem batchIds_manyPuts (n : ℕ) : batchIds plainEnv (oneCollection "c") (manyPuts n) = idBlock 1000000 0 n := by
  have hready : TakesPuts "c" ⟨{oneCollection "c" with lastTsWatermark := (oneCollection "c").stamp 1000000},∅,[]⟩ :=
    ⟨rfl,_,Finmap.lookup_insert _⟩
  obtain ⟨k,-,hids,hwhole⟩ := handedOut_eq plainEnv 1000000 ((oneCollection "c").stamp 1000000)
    ⟨{oneCollection "c" with lastTsWatermark := (oneCollection "c").stamp 1000000},∅,[]⟩ (manyPuts n).mutations
  obtain ⟨p',hp'⟩ := hready.prepareAll 1000000 ((oneCollection "c").stamp 1000000) ⟨[("n",.int 1)],0⟩ n
  have hk : k = unnamed (manyPuts n).mutations := hwhole p' hp'
  have hn : unnamed (manyPuts n).mutations = n := by
    simp [unnamed,manyPuts,BatchMutation.docId,List.countP_replicate]
  rw [hk.trans hn] at hids
  exact hids

/-- The last of 65537 puts in one batch has the id of the first. -/
theorem runIds_repeats : ¬(runIds plainEnv (oneCollection "c") [manyPuts 65537]).Nodup := by
  rw [runIds,runIds,List.append_nil,batchIds_manyPuts,nodup_idBlock]
  decide

theorem nodup_runIds_twoBatches :
    unnamed (manyPuts 2).mutations ≤ 2^16 ∧ unnamed [BatchMutation.put "c" "" ⟨[],0⟩] ≤ 2^16 ∧
    (runIds plainEnv (oneCollection "c") [manyPuts 2,⟨fun _ => .done,⟨2000000,0⟩,[.put "c" "" ⟨[],0⟩]⟩]).Nodup := by
  refine ⟨by decide,by decide,(nodup_runIds plainEnv (oneCollection "c") ?_).1 ?_⟩
  · simp [manyPuts]
  · simp [manyPuts,unnamed,BatchMutation.docId]

end Hako

end HakoDB
