import HakoDB.Storage.Crc32
import HakoDB.Storage.Housekeeping
import HakoDB.Storage.Recovery
import HakoDB.Storage.SortedView

/-! Crashes during maintenance. A crash loses the memory and leaves the files as they are at that
moment; the log's file is empty from the reset of a rewrite until its snapshot is written, so a crash
in between leaves no document at all. -/
namespace HakoDB
open ByteCodec FramedLog HashMap

/-- The files of a shard: the log, the blobs and the segments by their ids. -/
structure ShardFiles where
  wal : Bytes
  blobs : Bytes
  segments : HMap UInt64 SegmentMeta

def StorageEngine.files (s : StorageEngine) : ShardFiles :=
  ⟨s.wal.file,(s.blobManager.map BlobManager.file).getD [],s.segments⟩

/-- How a shard is opened: its settings, name and key, the clock, and the order in which the directory
lists the segments. -/
structure OpenArgs where
  cfg : HakoConfig
  logicalName : String
  encryption : Option EncryptionContext
  now : ℕ
  dirOrder : HashOrder UInt64 SegmentMeta

namespace ShardFiles

/-- The segments found in the directory, or a first one. -/
def foundSegments (a : OpenArgs) (f : ShardFiles) : HMap UInt64 SegmentMeta :=
  if a.dirOrder.entries f.segments = [] then StorageEngine.firstSegment a.encryption else f.segments

def maxId (a : OpenArgs) (f : ShardFiles) : UInt64 :=
  (a.dirOrder.entries f.segments).foldl (fun m e => if m < e.1 then e.1 else m) 0

def unrecovered (a : OpenArgs) (f : ShardFiles) : StorageEngine :=
  .unrecovered a.cfg a.logicalName a.encryption a.now f.wal f.blobs (f.foundSegments a) (f.maxId a)

/-- The live documents that a replay of the files brings back. -/
def liveBytes (crc : Bytes → UInt32) (zstd : Option Zstd) (a : OpenArgs) (f : ShardFiles) (k : String) :
    Option Bytes :=
  match (f.unrecovered a).recover crc with
  | .ok (_,s) => s.liveBytes zstd k
  | .error _ => none

end ShardFiles

namespace StorageEngine
variable (crc : Bytes → UInt32) (zstd : Option Zstd) (orders : TableOrders)

/-- The files during a rewrite of the log: cut to nothing, reserved again, and with what the snapshot's
append has written by its flush rule. -/
def rewriteStates (now : ℕ) (s : StorageEngine) : List ShardFiles :=
  [{s.files with wal := []},{s.files with wal := s.wal.reset.file},
    (s.rewriteWalSnapshot crc orders now).files]

/-- The files while a new segment is filled, entry by entry. -/
def targetStates (s : StorageEngine) (level : ℕ) (id : UInt64) (entries : List (String × Bytes)) :
    List ShardFiles :=
  (List.range (entries.length+1)).map fun n =>
    let target := (Segment.compactEntries zstd s.useCompression id (Segment.openFile [] id s.encryption)
      (entries.take n)).2
    {s.files with segments := s.segments.insert id ⟨level,target⟩}

/-- The files while segments are deleted one by one. -/
def removalStates (s : StorageEngine) (ids : List UInt64) : List ShardFiles :=
  (List.range (ids.length+1)).map fun n => (s.eraseSegments (ids.take n)).files

def checkpointStates (now : ℕ) (s : StorageEngine) : List ShardFiles :=
  if s.checkpointDue orders then
    s.targetStates zstd 0 s.nextSegmentId (s.inlinedEntries orders)++
      (s.spilled zstd orders).rewriteStates crc orders now
  else []

def compactStates (now : ℕ) (s : StorageEngine) : List ShardFiles :=
  let s := s.forceRotation
  let ids := s.immutableIds orders
  s.files::
    if ids = [] then
      if s.walSnapshotWorthwhile then s.rewriteStates crc orders now else []
    else match s.segmentEntries zstd orders ids with
      | .error _ => []
      | .ok entries =>
        let target := (s.compactionTarget zstd entries).2
        s.targetStates zstd 1 s.nextSegmentId entries++
        ({s with segments := s.segments.insert s.nextSegmentId ⟨1,target⟩} : StorageEngine).removalStates ids++
        (s.compacted zstd orders ids entries).rewriteStates crc orders now

/-- The old segments stay on the disk until the new log is flushed. -/
def tierStates (now : ℕ) (s : StorageEngine) : List ShardFiles :=
  match s.tierPrepare orders with
  | none => []
  | some (prep,s) =>
    match s.segmentEntries zstd orders [prep.s1,prep.s2] with
    | .error _ => []
    | .ok entries =>
      let (pointers,target) := Segment.compactSegment zstd (Segment.openFile [] prep.targetId s.encryption)
        entries prep.targetId s.useCompression
      let onDisk := s.segments.insert prep.targetId ⟨prep.level+1,target⟩
      let s' := s.merged orders prep pointers target
      let s'' := {(s'.rewriteWalSnapshot crc orders now).flushWal now with segments := onDisk}
      s.targetStates zstd (prep.level+1) prep.targetId entries++
        if s.sourcesOk prep then
          ({s' with segments := onDisk} : StorageEngine).rewriteStates crc orders now++
            s''.removalStates [prep.s1,prep.s2]
        else [s.files]

def openRewriteStates (now : ℕ) (s : StorageEngine) : List ShardFiles :=
  if s.walSnapshotWorthwhile then
    s.rewriteStates crc orders now++[((s.rewriteWalSnapshot crc orders now).flushWal now).files]
  else []

end StorageEngine

inductive MaintenanceOp
  | checkpointInlinedData
  | compact
  | tryCompactTiers
  | openRewrite

namespace StorageEngine
variable (crc : Bytes → UInt32) (zstd : Option Zstd) (orders : TableOrders)

/-- What a crash can leave from the start of the operation until after its end. -/
def crashStates (now : ℕ) (s : StorageEngine) (op : MaintenanceOp) : List ShardFiles :=
  s.files::match op with
    | .checkpointInlinedData => s.checkpointStates crc zstd orders now
    | .compact => s.compactStates crc zstd orders now
    | .tryCompactTiers => s.tierStates crc zstd orders now
    | .openRewrite => s.openRewriteStates crc orders now

/-- The operation comes to the point where it rewrites the log. -/
def rewritesLog (s : StorageEngine) : MaintenanceOp → Bool
  | .checkpointInlinedData => s.checkpointDue orders
  | .compact =>
    let s := s.forceRotation
    if s.immutableIds orders = [] then s.walSnapshotWorthwhile
    else (s.segmentEntries zstd orders (s.immutableIds orders)).isOk
  | .tryCompactTiers =>
    match s.tierPrepare orders with
    | none => false
    | some (prep,s) => (s.segmentEntries zstd orders [prep.s1,prep.s2]).isOk && s.sourcesOk prep
  | .openRewrite => s.walSnapshotWorthwhile

end StorageEngine

section preserved
variable {crc : Bytes → UInt32} {zstd : Option Zstd} {orders : TableOrders} {a : OpenArgs}

theorem StorageEngine.readPointer_mono {s t : StorageEngine} {p : Pointer} {b : Bytes}
    (hseg : ∀ id m,s.segments.lookup id = some m → t.segments.lookup id = some m)
    (hblob : t.blobManager = s.blobManager) (h : s.readPointer zstd p = .ok (some b)) :
    t.readPointer zstd p = .ok (some b) := by
  cases p with
  | segment id offset len =>
    cases hs : s.segments.lookup id with
    | none => simp [StorageEngine.readPointer,hs] at h
    | some m => simpa [StorageEngine.readPointer,hs,hseg id m hs] using h
  | blob offset len => simpa [StorageEngine.readPointer,hblob] using h
  | _ => exact h

theorem StorageEngine.liveBytes_eq_some {s : StorageEngine} {k : String} {b : Bytes} :
    s.liveBytes zstd k = some b ↔ ∃ p,s.index.lookup k = some p ∧ s.readPointer zstd p = .ok (some b) := by
  unfold StorageEngine.liveBytes StorageEngine.get
  cases s.index.lookup k with
  | none => simp
  | some p =>
    cases hr : s.readPointer zstd p with
    | error e => simp [hr]
    | ok v => simp [hr]

namespace ShardFiles

/-- Segments that join the others take nothing away. -/
theorem liveBytes_mono {f g : ShardFiles} (hwal : f.wal = g.wal) (hblobs : f.blobs = g.blobs)
    (hseg : ∀ id m,g.segments.lookup id = some m → f.segments.lookup id = some m)
    (hne : ∃ id m,g.segments.lookup id = some m) {k : String} {b : Bytes}
    (h : g.liveBytes crc zstd a k = some b) : f.liveBytes crc zstd a k = some b := by
  have hfound : ∀ (e : ShardFiles) id m,e.segments.lookup id = some m → e.foundSegments a = e.segments := by
    intro e id m he
    have hmem := (a.dirOrder.mem_entries e.segments id m).2 he
    exact if_neg (List.ne_nil_of_mem hmem)
  obtain ⟨id,m,hm⟩ := hne
  unfold liveBytes at h ⊢
  have hreplay : (f.unrecovered a).wal = (g.unrecovered a).wal := by
    simp [unrecovered,StorageEngine.unrecovered,hwal]
  unfold StorageEngine.recover at h ⊢
  rw [hreplay]
  cases hr : (g.unrecovered a).wal.replay crc with
  | error e =>
    rw [hr] at h
    cases h
  | ok r =>
    obtain ⟨ops,w⟩ := r
    rw [hr] at h
    obtain ⟨bytes,hfoldg⟩ := StorageEngine.foldl_replayOp ops {g.unrecovered a with wal := w}
    obtain ⟨bytes',hfoldf⟩ := StorageEngine.foldl_replayOp ops {f.unrecovered a with wal := w}
    simp only [bind,Except.bind,pure,Except.pure,hfoldg] at h
    simp only [bind,Except.bind,pure,Except.pure,hfoldf]
    rw [StorageEngine.liveBytes_eq_some] at h ⊢
    obtain ⟨p,hp,hread⟩ := h
    refine ⟨p,hp,StorageEngine.readPointer_mono ?_ ?_ hread⟩
    · intro id' m' hm'
      have hg : (g.foundSegments a).lookup id' = some m' := hm'
      rw [hfound g id m hm] at hg
      change (f.foundSegments a).lookup id' = some m'
      rw [hfound f id m (hseg id m hm)]
      exact hseg id' m' hg
    · simp [unrecovered,StorageEngine.unrecovered,hblobs]

/-- Opening adds at most zeros to the log. -/
theorem unrecovered_wal_file (a : OpenArgs) (f : ShardFiles) :
    ∃ z,(f.unrecovered a).wal.file = f.wal++List.replicate z 0 := by
  by_cases hr : reservesForMode a.cfg.durabilityMode ∧
      0 < (if a.logicalName.startsWith "__" then 0 else a.cfg.walReserveBytes) ∧
      f.wal.length < (if a.logicalName.startsWith "__" then 0 else a.cfg.walReserveBytes)
  · refine ⟨(if a.logicalName.startsWith "__" then 0 else a.cfg.walReserveBytes)-f.wal.length,
      (if_pos hr).trans ?_⟩
    rw [setLen,List.take_of_length_le hr.2.2.le]
  · exact ⟨0,(if_neg hr).trans (by simp)⟩

/-- A log of whole records gives back what its committed records say. -/
theorem liveBytes_of_image {cipher : Option Cipher} (hc : a.encryption.map EncryptionContext.cipher = cipher)
    {log : List (LogEntry cipher)} {f : ShardFiles} {n : ℕ} (h : f.wal = image crc log++List.replicate n 0)
    (k : String) :
    f.liveBytes crc zstd a k =
      ((committedIndex (log.map Entry.value)).lookup k).bind fun p =>
        match (f.unrecovered a).readPointer zstd p with
        | .ok b => b
        | .error _ => none := by
  obtain ⟨z,hz⟩ := unrecovered_wal_file a f
  rw [h,List.append_assoc,← List.replicate_add] at hz
  obtain ⟨c,t,ht,hrec⟩ := StorageEngine.recover_of_image (s := f.unrecovered a) hc rfl hz
  have hindex : t.index = committedIndex (log.map Entry.value) := hrec.index
  have hread : ∀ p,t.readPointer zstd p = (f.unrecovered a).readPointer zstd p :=
    StorageEngine.readPointer_congr hrec.segments (by rw [hrec.blobManager])
  unfold liveBytes
  rw [ht]
  simp only [StorageEngine.liveBytes,StorageEngine.get,hindex]
  cases (committedIndex (log.map Entry.value)).lookup k with
  | none => rfl
  | some p =>
    have hp := hread p
    cases hr : (f.unrecovered a).readPointer zstd p with
    | error e => simp [hp,hr]
    | ok b => simp [hp,hr]

/-- Nothing is recovered from a log of zeros. -/
theorem liveBytes_zeros (crc : Bytes → UInt32) (zstd : Option Zstd) (a : OpenArgs) {f : ShardFiles} {n : ℕ}
    (h : f.wal = List.replicate n 0) (k : String) : f.liveBytes crc zstd a k = none := by
  have himage : f.wal = image crc ([] : List (LogEntry (a.encryption.map EncryptionContext.cipher)))++
      List.replicate n 0 := h
  rw [liveBytes_of_image rfl himage k]
  rfl

end ShardFiles

namespace StorageEngine
variable {s : StorageEngine} {now : ℕ}

/-- The first file of a rewrite is an empty log. -/
theorem exists_emptyLog (crc : Bytes → UInt32) (now : ℕ) {op : MaintenanceOp} (h : s.rewritesLog zstd orders op = true) :
    ∃ f ∈ s.crashStates crc zstd orders now op,f.wal = [] := by
  have hrewrite : ∀ t : StorageEngine,∃ f ∈ t.rewriteStates crc orders now,f.wal = [] := fun t =>
    ⟨{t.files with wal := []},by simp [rewriteStates],rfl⟩
  cases op with
  | checkpointInlinedData =>
    obtain ⟨f,hf,hwal⟩ := hrewrite (s.spilled zstd orders)
    have hdue : s.checkpointDue orders = true := h
    exact ⟨f,by simp [crashStates,checkpointStates,hdue,hf],hwal⟩
  | compact =>
    simp only [rewritesLog] at h
    by_cases hids : s.forceRotation.immutableIds orders = []
    · rw [if_pos hids] at h
      obtain ⟨f,hf,hwal⟩ := hrewrite s.forceRotation
      exact ⟨f,by simp [crashStates,compactStates,hids,h,hf],hwal⟩
    · rw [if_neg hids] at h
      cases he : s.forceRotation.segmentEntries zstd orders (s.forceRotation.immutableIds orders) with
      | error e => simp [he,Except.isOk,Except.toBool] at h
      | ok entries =>
        obtain ⟨f,hf,hwal⟩ := hrewrite
          (s.forceRotation.compacted zstd orders (s.forceRotation.immutableIds orders) entries)
        exact ⟨f,by simp [crashStates,compactStates,hids,he,hf],hwal⟩
  | tryCompactTiers =>
    simp only [rewritesLog] at h
    cases hp : s.tierPrepare orders with
    | none => simp [hp] at h
    | some r =>
      obtain ⟨prep,s1⟩ := r
      simp only [hp,Bool.and_eq_true] at h
      cases he : s1.segmentEntries zstd orders [prep.s1,prep.s2] with
      | error e => simp [he,Except.isOk,Except.toBool] at h
      | ok entries =>
        obtain ⟨f,hf,hwal⟩ := hrewrite {s1.merged orders prep
          (Segment.compactSegment zstd (Segment.openFile [] prep.targetId s1.encryption)
            entries prep.targetId s1.useCompression).1
          (Segment.compactSegment zstd (Segment.openFile [] prep.targetId s1.encryption)
            entries prep.targetId s1.useCompression).2 with
          segments := s1.segments.insert prep.targetId ⟨prep.level+1,
            (Segment.compactSegment zstd (Segment.openFile [] prep.targetId s1.encryption)
              entries prep.targetId s1.useCompression).2⟩}
        exact ⟨f,by simp [crashStates,tierStates,hp,he,h.2,hf],hwal⟩
  | openRewrite =>
    obtain ⟨f,hf,hwal⟩ := hrewrite s
    have hworth : s.walSnapshotWorthwhile = true := h
    exact ⟨f,by simp [crashStates,openRewriteStates,hworth,hf],hwal⟩

/-- The files still have the log, the blobs and every segment. -/
structure Extends (f g : ShardFiles) : Prop where
  wal : f.wal = g.wal
  blobs : f.blobs = g.blobs
  segments : ∀ id m,g.segments.lookup id = some m → f.segments.lookup id = some m

theorem extends_refl (f : ShardFiles) : Extends f f := ⟨rfl,rfl,fun _ _ h => h⟩

theorem extends_insert {id : UInt64} {m : SegmentMeta} (hfresh : s.segments.lookup id = none) :
    Extends {s.files with segments := s.segments.insert id m} s.files := by
  refine ⟨rfl,rfl,fun id' m' h => ?_⟩
  have hne : id' ≠ id := by
    rintro rfl
    rw [show s.files.segments = s.segments from rfl,hfresh] at h
    cases h
  simpa [hne,files] using h

theorem tierPrepare_some {prep : TierPrep} {s1 : StorageEngine} (h : s.tierPrepare orders = some (prep,s1)) :
    prep.targetId = s.nextSegmentId ∧ s1 = {s with nextSegmentId := s.nextSegmentId+1} ∧
      ∃ id m,s.segments.lookup id = some m := by
  unfold tierPrepare at h
  obtain ⟨⟨level,i,j⟩,hc,heq⟩ := Option.map_eq_some_iff.1 h
  cases heq
  refine ⟨rfl,rfl,?_⟩
  -- without segments there is no level to choose from
  by_contra hnone
  push Not at hnone
  have hempty : orders.segments.entries s.segments = [] := by
    refine List.eq_nil_iff_forall_not_mem.2 fun e he => ?_
    exact hnone e.1 e.2 ((orders.segments.mem_entries s.segments e.1 e.2).1 he)
  have hlevels : orders.levels.entries ∅ = [] := by
    refine List.eq_nil_iff_forall_not_mem.2 fun e he => ?_
    have := (orders.levels.mem_entries ∅ e.1 e.2).1 he
    simp at this
  simp [tierCandidate,byLevel,hempty,hlevels] at hc

/-- As long as the log is not rewritten, only segments with new ids appear. -/
theorem crashStates_extend {op : MaintenanceOp} (hfresh : s.segments.lookup s.nextSegmentId = none)
    (h : s.rewritesLog zstd orders op = false) {f : ShardFiles}
    (hf : f ∈ s.crashStates crc zstd orders now op) :
    f = s.files ∨ Extends f s.files ∧ ∃ id m,s.segments.lookup id = some m := by
  rcases List.mem_cons.1 hf with rfl | hf
  · exact .inl rfl
  cases op with
  | checkpointInlinedData =>
    have hdue : s.checkpointDue orders = false := h
    simp [checkpointStates,hdue] at hf
  | compact =>
    have hf : f = s.forceRotation.files := by
      simp only [rewritesLog] at h
      rcases List.mem_cons.1 hf with rfl | hf
      · rfl
      by_cases hids : s.forceRotation.immutableIds orders = []
      · rw [if_pos hids] at h
        simp [hids,h] at hf
      · rw [if_neg hids] at h
        cases he : s.forceRotation.segmentEntries zstd orders (s.forceRotation.immutableIds orders) with
        | error e => simp [hids,he] at hf
        | ok entries => simp [he,Except.isOk,Except.toBool] at h
    cases hactive : s.segments.lookup s.activeSegmentId with
    | none => exact .inl (by rw [hf,forceRotation,hactive]; rfl)
    | some m =>
      by_cases hsize : 0 < m.segment.currentSize
      · have hrotate : s.forceRotation = s.rotate := by simp [forceRotation,hactive,hsize]
        rw [hf,hrotate]
        exact .inr ⟨extends_insert hfresh,s.activeSegmentId,m,hactive⟩
      · exact .inl (by simp [hf,forceRotation,hactive,hsize])
  | tryCompactTiers =>
    simp only [rewritesLog] at h
    cases hp : s.tierPrepare orders with
    | none => simp [tierStates,hp] at hf
    | some r =>
      obtain ⟨prep,s1⟩ := r
      obtain ⟨htarget,hs1,hne⟩ := tierPrepare_some hp
      simp only [hp] at h
      cases he : s1.segmentEntries zstd orders [prep.s1,prep.s2] with
      | error e => simp [tierStates,hp,he] at hf
      | ok entries =>
        have hsources : s1.sourcesOk prep = false := by simpa [he,Except.isOk,Except.toBool] using h
        simp only [tierStates,hp,he,hsources] at hf
        refine .inr ⟨?_,hne⟩
        rcases List.mem_append.1 hf with hf | hf
        · obtain ⟨n,-,rfl⟩ := List.mem_map.1 hf
          subst hs1
          rw [htarget]
          exact extends_insert hfresh
        · obtain rfl : f = s1.files := by simpa using hf
          subst hs1
          exact extends_refl _
  | openRewrite =>
    have hworth : s.walSnapshotWorthwhile = false := h
    simp [openRewriteStates,hworth] at hf

variable (crc zstd orders now) in
/-- What was recoverable before a maintenance operation is recoverable after a crash at any point of it,
exactly if the operation does not come to rewrite the log, or nothing was recoverable. -/
theorem crashStates_recover_iff (crc : Bytes → UInt32) (zstd : Option Zstd) (orders : TableOrders) (a : OpenArgs)
    (now : ℕ) {s : StorageEngine} (hfresh : s.segments.lookup s.nextSegmentId = none) (op : MaintenanceOp) :
    (∀ f ∈ s.crashStates crc zstd orders now op,∀ k b,
      s.files.liveBytes crc zstd a k = some b → f.liveBytes crc zstd a k = some b) ↔
    s.rewritesLog zstd orders op = false ∨ ∀ k,s.files.liveBytes crc zstd a k = none := by
  constructor
  · intro hall
    cases hr : s.rewritesLog zstd orders op with
    | false => exact .inl rfl
    | true =>
      obtain ⟨f,hf,hwal⟩ := exists_emptyLog crc now hr
      refine .inr fun k => ?_
      cases hb : s.files.liveBytes crc zstd a k with
      | none => rfl
      | some b =>
        have hnone := ShardFiles.liveBytes_zeros crc zstd a (n := 0) hwal k
        rw [hall f hf k b hb] at hnone
        cases hnone
  · rintro (hr | hnone) f hf k b hb
    · rcases crashStates_extend hfresh hr hf with rfl | ⟨hext,hne⟩
      · exact hb
      · exact ShardFiles.liveBytes_mono hext.wal hext.blobs hext.segments hne hb
    · rw [hnone k] at hb
      cases hb

end StorageEngine

end preserved

/-- Segment ids in increasing order. -/
@[reducible] def idOrder : LinearOrder UInt64 where
  le_refl a := by simp
  le_trans a b c := by simp only [UInt64.le_iff_toNat_le]; omega
  lt_iff_le_not_ge a b := by simp only [UInt64.le_iff_toNat_le,UInt64.lt_iff_toNat_lt]; omega
  le_antisymm a b := by
    simp only [UInt64.le_iff_toNat_le]
    exact fun h h' => UInt64.toNat_inj.1 (by omega)
  le_total a b := by simp only [UInt64.le_iff_toNat_le]; omega
  toDecidableLE := inferInstance
  toDecidableLT := inferInstance
  toDecidableEq := inferInstance

def byKeyOrders : TableOrders := ⟨.byKey,@HashOrder.byKey _ _ idOrder,.byKey⟩

/-- Every batch is flushed, and any inlined document is over the memory limit. -/
def spillConfig : HakoConfig :=
  {HakoConfig.default with durabilityMode := .always, walReserveBytes := 0, maxInlinedMemoryBytes := 0}

def spillArgs : OpenArgs := ⟨spillConfig,"c",none,0,@HashOrder.byKey _ _ idOrder⟩

theorem Wal.replay_empty {crc : Bytes → UInt32} {w : Wal} (hfile : w.file = []) (hcursor : w.cursor = 0)
    (hlen : w.dataLen = 0) : w.replay crc = .ok ([],w) := by
  unfold Wal.replay
  cases w
  simp only at hfile hcursor hlen
  subst hfile hcursor hlen
  rw [scan]
  rfl

/-- An empty directory, opened without a reserve. -/
def emptyFiles : ShardFiles := ⟨[],[],∅⟩

theorem emptyFiles_openRecovered (name : String) :
    (emptyFiles.unrecovered {spillArgs with logicalName := name}).openRecovered crc32 byKeyOrders 0 =
      .ok (.fresh spillConfig name none 0) := by
  have hfile : (emptyFiles.unrecovered {spillArgs with logicalName := name}).wal.file = [] := by
    simp [emptyFiles,ShardFiles.unrecovered,StorageEngine.unrecovered,Wal.openFile,Wal.setGroupCommitInterval,
      spillArgs,spillConfig]
  have hlen : (emptyFiles.unrecovered {spillArgs with logicalName := name}).wal.dataLen = 0 := by
    simp [emptyFiles,ShardFiles.unrecovered,StorageEngine.unrecovered,Wal.openFile,Wal.setGroupCommitInterval,
      spillArgs,spillConfig]
  unfold StorageEngine.openRecovered StorageEngine.recover
  rw [Wal.replay_empty hfile rfl hlen]
  rfl

def savedDoc : HakoDoc := ⟨[("n",.int 1)],1⟩

def savedShard : StorageEngine :=
  (StorageEngine.fresh spillConfig "c" none 0).applyTimestamped crc32 0 [.putInlined "k" savedDoc.encode]

theorem savedShard_liveBytes :
    savedShard.files.liveBytes crc32 none spillArgs "k" = some savedDoc.encode := by
  have hfresh : (StorageEngine.fresh spillConfig "c" none 0).wal.Holds crc32 ([] : List (LogEntry none)) :=
    ⟨rfl,rfl,le_rfl,by simp [StorageEngine.fresh,StorageEngine.unrecovered,Wal.openFile,spillConfig,
      Wal.setGroupCommitInterval]⟩
  have hfits : ∀ op ∈ [WalOp.putInlined "k" savedDoc.encode],RecordFits none op := by
    simp only [List.mem_singleton,forall_eq]
    exact ⟨by rintro _ ⟨⟩; decide,by decide⟩
  obtain ⟨es,hes,hholds⟩ := hfresh.appendBatchFast 0 1 true hfits
  obtain ⟨bytes,counts,view,hset⟩ := StorageEngine.setAll_eq ({StorageEngine.fresh spillConfig "c" none 0 with
      nextTxId := 2
      wal := (StorageEngine.fresh spillConfig "c" none 0).wal.appendBatchFast crc32 0 1
        [.putInlined "k" savedDoc.encode] true}) [("k",.inlined savedDoc.encode)]
  have hwal : savedShard.wal = (StorageEngine.fresh spillConfig "c" none 0).wal.appendBatchFast crc32 0 1
      [.putInlined "k" savedDoc.encode] true := congrArg StorageEngine.wal hset
  have hbuf : savedShard.wal.writeBuffer = [] := by
    rfl
  have hfile := (hwal ▸ hholds : savedShard.wal.Holds crc32 ([]++es)).file_eq hbuf
  have hcipher : spillArgs.encryption.map EncryptionContext.cipher = none := rfl
  rw [ShardFiles.liveBytes_of_image hcipher hfile,List.nil_append,hes]
  rfl

theorem crashStates_recover_iff_savedShard :
    savedShard.segments.lookup savedShard.nextSegmentId = none ∧
    savedShard.rewritesLog none byKeyOrders .tryCompactTiers = false ∧
    ∀ f ∈ savedShard.crashStates crc32 none byKeyOrders 0 .tryCompactTiers,∀ k b,
      savedShard.files.liveBytes crc32 none spillArgs k = some b → f.liveBytes crc32 none spillArgs k = some b := by
  have hfresh : savedShard.segments.lookup savedShard.nextSegmentId = none := by decide
  have hrewrite : savedShard.rewritesLog none byKeyOrders .tryCompactTiers = false := by decide
  exact ⟨hfresh,hrewrite,(StorageEngine.crashStates_recover_iff crc32 none byKeyOrders spillArgs 0 hfresh
    .tryCompactTiers).2 (.inl hrewrite)⟩

/-- A checkpoint of the only document, cut short right after the log was emptied. -/
theorem savedShard_checkpoint_crash :
    savedShard.files.liveBytes crc32 none spillArgs "k" = some savedDoc.encode ∧
    ∃ f ∈ savedShard.crashStates crc32 none byKeyOrders 0 .checkpointInlinedData,
      f.liveBytes crc32 none spillArgs "k" = none := by
  refine ⟨savedShard_liveBytes,?_⟩
  obtain ⟨f,hf,hwal⟩ := StorageEngine.exists_emptyLog crc32 0
    (by decide : savedShard.rewritesLog none byKeyOrders .checkpointInlinedData = true)
  exact ⟨f,hf,ShardFiles.liveBytes_zeros crc32 none spillArgs (n := 0) hwal "k"⟩

end HakoDB
