import HakoDB.Storage.Crc32
import HakoDB.Storage.WalLog

/-! Histories of log sessions. Each session opens the log, replays it, appends batches and ends
with the file cut anywhere; the ledger remembers the batches whose commit record is still there. -/
namespace HakoDB
open ByteCodec FramedLog

/-- A logged batch with the file offset at which its commit record ends. -/
structure Logged where
  ops : List WalOp
  stop : ℕ

/-- What happens between the replay and the end of a session. Transaction ids are arbitrary, so
they may start again from one. -/
inductive SessionAct
  | batch (now : ℕ) (txId : UInt64) (ops : List WalOp) (isRemote : Bool)
  | flush (now : ℕ)
  | setDurabilityMode (mode : DurabilityMode)
  | setGroupCommitInterval (ms : ℕ)

structure Session where
  mode : DurabilityMode
  groupCommitMaxOps : ℕ
  reserveBytes : ℕ
  noncePrefix : UInt32
  openedAt : ℕ
  acts : List SessionAct
  cut : ℕ

structure Disk where
  file : Bytes
  ledger : List Logged

def Disk.empty : Disk := ⟨[],[]⟩

/-- The batches whose commit record ends within the file. -/
def Disk.ofCut (file : Bytes) (ledger : List Logged) : Disk :=
  ⟨file,ledger.filter (fun l => decide (l.stop ≤ file.length))⟩

namespace Session

def NotPreallocated (s : Session) : Prop := ¬ (reservesForMode s.mode ∧ 0 < s.reserveBytes)

def openWal (cipher : Option Cipher) (s : Session) (file : Bytes) : Wal :=
  .openFile file s.mode s.groupCommitMaxOps (cipher.map fun c => ⟨c,s.noncePrefix,0⟩) s.reserveBytes s.openedAt

variable (crc : Bytes → UInt32)

def runAct (st : Wal × List Logged) : SessionAct → Wal × List Logged
  | .batch now txId ops isRemote =>
    let w := st.1.appendBatchFast crc now txId ops isRemote
    (w,st.2++[⟨ops,w.cursor+w.writeBuffer.length⟩])
  | .flush now => (st.1.flush now,st.2)
  | .setDurabilityMode mode => (st.1.setDurabilityMode mode,st.2)
  | .setGroupCommitInterval ms => (st.1.setGroupCommitInterval ms,st.2)

/-- What the buffer still holds at the end is lost, and the file is cut. -/
def run (cipher : Option Cipher) (d : Disk) (s : Session) : Res Disk := do
  let (_,w) ← (s.openWal cipher d.file).replay crc
  let st := s.acts.foldl (runAct crc) (w,d.ledger)
  return .ofCut (st.1.file.take s.cut) st.2

/-- The records that a session logs are data records whose lengths fit. -/
def Fits (cipher : Option Cipher) (s : Session) : Prop :=
  ∀ now txId ops isRemote, SessionAct.batch now txId ops isRemote ∈ s.acts →
    ∀ op ∈ ops, op.isData ∧ RecordFits cipher op

end Session

/-- A log made of whole batches, which the ledger lists, and of front parts of others. -/
inductive Layout (crc : Bytes → UInt32) {cipher : Option Cipher} :
    List (LogEntry cipher) → List Logged → Prop
  | nil : Layout crc [] []
  | batch {log es : List (LogEntry cipher)} {ledger : List Logged} {txId : UInt64} {ops : List WalOp}
      (h : Layout crc log ledger) (hd : ∀ op ∈ ops, op.isData)
      (hv : es.map Entry.value = txRecords txId ops) :
      Layout crc (log++es) (ledger++[⟨ops,(image crc (log++es)).length⟩])
  | torn {log es : List (LogEntry cipher)} {ledger : List Logged} {txId : UInt64} {ops : List WalOp}
      (h : Layout crc log ledger) (hd : ∀ op ∈ ops, op.isData)
      (hp : es.map Entry.value <+: txRecords txId ops) (hn : es.map Entry.value ≠ txRecords txId ops) :
      Layout crc (log++es) ledger

namespace Layout
variable {crc : Bytes → UInt32} {cipher : Option Cipher} {log : List (LogEntry cipher)} {ledger : List Logged}

theorem stop_le (h : Layout crc log ledger) : ∀ l ∈ ledger, l.stop ≤ (image crc log).length := by
  induction h with
  | nil => simp
  | batch h hd hv ih =>
    intro l hl
    rcases List.mem_append.mp hl with hl | hl
    · have := ih l hl
      simp only [image_append,List.length_append]
      omega
    · simp only [List.mem_singleton] at hl
      rw [hl]
  | torn h hd hp hn ih =>
    intro l hl
    have := ih l hl
    simp only [image_append,List.length_append]
    omega

/-- The filter lets the operations of the whole batches through, in order. -/
theorem committed (h : Layout crc log ledger) :
    filterCommittedOps (log.map Entry.value) = ledger.flatMap Logged.ops := by
  unfold filterCommittedOps
  induction h with
  | nil => rfl
  | batch h hd hv ih =>
    rw [List.map_append,List.foldl_append,hv,TxFilter.foldl_txRecords hd,ih,List.flatMap_append]
    simp
  | torn h hd hp hn ih =>
    rw [List.map_append,List.foldl_append,TxFilter.foldl_torn hd _ hp hn,ih]

theorem filter_stop_le (h : Layout crc log ledger) {n : ℕ} (hn : (image crc log).length ≤ n) :
    ledger.filter (fun l => decide (l.stop ≤ n)) = ledger := by
  refine List.filter_eq_self.mpr fun l hl => ?_
  have := h.stop_le l hl
  simp
  omega

/-- The front part of a batch that the cut leaves behind is torn. -/
theorem torn_wholeWithin (h : Layout crc log ledger) {es : List (LogEntry cipher)} {txId : UInt64}
    {ops : List WalOp} (hd : ∀ op ∈ ops, op.isData) (hp : es.map Entry.value <+: txRecords txId ops)
    {n : ℕ} (hn : es.map Entry.value ≠ txRecords txId ops ∨ n < (image crc es).length) :
    Layout crc (log++wholeWithin n es) ledger := by
  have hpre := (wholeWithin_isPrefix es n).map Entry.value
  refine h.torn hd (hpre.trans hp) fun heq => ?_
  have hfull : es.map Entry.value = txRecords txId ops :=
    hp.eq_of_length_le (by rw [← heq]; exact hpre.length_le)
  rcases hn with hne | hlt
  · exact hne hfull
  · have hww : wholeWithin n es = es := by
      refine (wholeWithin_isPrefix es n).eq_of_length_le ?_
      have := congrArg List.length (hfull.trans heq.symm)
      simp only [List.length_map] at this
      omega
    have := wholeWithin_image_length crc es n
    rw [hww] at this
    omega

/-- A cut leaves a log of the same kind, with the batches that end before it. -/
theorem cut (h : Layout crc log ledger) (n : ℕ) :
    Layout crc (wholeWithin n log) (ledger.filter fun l => decide (l.stop ≤ n)) := by
  induction h with
  | nil => exact .nil
  | @batch log es ledger txId ops h hd hv ih =>
    rw [wholeWithin_append crc]
    by_cases hlog : (image crc log).length ≤ n
    · rw [if_pos hlog,List.filter_append,h.filter_stop_le hlog]
      by_cases hes : (image crc (log++es)).length ≤ n
      · have hw : wholeWithin (n-(image crc log).length) es = es :=
          wholeWithin_of_le crc (by simp only [image_append,List.length_append] at hes; omega)
        rw [hw,List.filter_cons_of_pos (by simpa using hes)]
        exact h.batch hd hv
      · rw [List.filter_cons_of_neg (by simpa using hes),List.filter_nil,List.append_nil]
        exact h.torn_wholeWithin hd (by rw [hv])
          (Or.inr (by simp only [image_append,List.length_append] at hes; omega))
    · have hes : ¬ (image crc (log++es)).length ≤ n := by
        simp only [image_append,List.length_append]
        omega
      rw [if_neg hlog,List.filter_append,List.filter_cons_of_neg (by simpa using hes),List.filter_nil,
        List.append_nil]
      exact ih
  | @torn log es ledger txId ops h hd hp hn ih =>
    rw [wholeWithin_append crc]
    by_cases hlog : (image crc log).length ≤ n
    · rw [if_pos hlog,h.filter_stop_le hlog]
      exact h.torn_wholeWithin hd hp (Or.inl hn)
    · rw [if_neg hlog]
      exact ih

end Layout

namespace Session
variable {crc : Bytes → UInt32} {cipher : Option Cipher}

/-- Between sessions the file is a cut log, and the ledger has the batches that end in it. -/
def OnDisk (crc : Bytes → UInt32) (cipher : Option Cipher) (d : Disk) : Prop :=
  ∃ (log : List (LogEntry cipher)) (ledger : List Logged), Layout crc log ledger ∧
    d.file = (image crc log).take d.file.length ∧ d = .ofCut d.file ledger

/-- During a session the file ends at the cursor, with whole records in it and in the buffer. -/
def InSession (crc : Bytes → UInt32) (cipher : Option Cipher) (st : Wal × List Logged) : Prop :=
  ∃ log : List (LogEntry cipher), st.1.Holds crc log ∧ st.1.file.length = st.1.cursor ∧ Layout crc log st.2

theorem onDisk_empty : OnDisk crc cipher .empty := ⟨[],[],.nil,rfl,rfl⟩

variable {s : Session} {d : Disk} {w : Wal} {st : Wal × List Logged} {key : String}

theorem openWal_file (hs : s.NotPreallocated) (file : Bytes) :
    (s.openWal cipher file).file = file := by
  unfold NotPreallocated at hs
  simp only [openWal,Wal.openFile]
  rw [if_neg]
  exact fun h => hs ⟨h.1,h.2.1⟩

theorem openWal_holds (hs : s.NotPreallocated) (log : List (LogEntry cipher)) :
    (s.openWal cipher (image crc log)).Holds crc log := by
  refine ⟨by cases cipher <;> rfl,?_,?_,?_⟩
  all_goals rw [openWal_file hs]
  all_goals simp [openWal,Wal.openFile]

/-- The replay of a cut log returns the surviving batches and drops the torn rest of the file. -/
theorem replay_cut (hd : OnDisk crc cipher d) (hs : s.NotPreallocated) :
    ∃ w, (s.openWal cipher d.file).replay crc = .ok (d.ledger.flatMap Logged.ops,w) ∧
      InSession crc cipher (w,d.ledger) := by
  obtain ⟨log,ledger,hl,hf,hdisk⟩ := hd
  have hledger : d.ledger = ledger.filter (fun l => decide (l.stop ≤ d.file.length)) :=
    congrArg Disk.ledger hdisk
  have hcut := hl.cut d.file.length
  rw [← hledger] at hcut
  obtain ⟨stop,hscan,hstop⟩ := scan_cut crc log d.file.length
  rw [← hf] at hscan
  have hcipher : (s.openWal cipher d.file).encryption.map EncryptionContext.cipher = cipher := by
    cases cipher <;> rfl
  have hpad : stop ≠ .padding := by
    rintro rfl
    simp at hstop
  -- The whole records come first in the file, so cutting behind them leaves exactly their bytes.
  have hfile : d.file.take (image crc (wholeWithin d.file.length log)).length =
      image crc (wholeWithin d.file.length log) := by
    obtain ⟨rest,hrest⟩ := wholeWithin_isPrefix log d.file.length
    have hle := wholeWithin_image_length crc log d.file.length
    have himg : image crc log = image crc (wholeWithin d.file.length log)++image crc rest := by
      rw [← image_append,hrest]
    have hleft : (image crc (wholeWithin d.file.length log)++image crc rest).take
        (image crc (wholeWithin d.file.length log)).length = image crc (wholeWithin d.file.length log) :=
      List.take_left
    rw [hf,List.take_take,← hf,Nat.min_eq_left hle]
    rwa [← himg] at hleft
  unfold Wal.replay
  rw [hcipher,openWal_file hs,hscan]
  simp only [bind,Except.bind,pure,Except.pure,hcut.committed,ne_eq,hpad,not_false_eq_true,and_true,
    Except.ok.injEq,Prod.mk.injEq,true_and,exists_eq_left']
  have hle := wholeWithin_image_length crc log d.file.length
  have hcurrent : (if (image crc (wholeWithin d.file.length log)).length < d.file.length then
      d.file.take (image crc (wholeWithin d.file.length log)).length else d.file) =
      image crc (wholeWithin d.file.length log) := by
    split
    · exact hfile
    · rw [← hfile,List.take_of_length_le (by omega)]
  refine ⟨wholeWithin d.file.length log,⟨hcipher,?_,?_,?_⟩,?_,hcut⟩
  all_goals simp only [hcurrent]
  · simp [openWal,Wal.openFile]
  · exact le_rfl
  · simp

theorem writeAll_atEnd (h : w.file.length = w.cursor) :
    w.writeAll.file.length = w.writeAll.cursor := by
  simp [Wal.writeAll,writeAt,setLen,h]

theorem flush_atEnd (h : w.file.length = w.cursor) (now : ℕ) :
    (w.flush now).file.length = (w.flush now).cursor := by
  unfold Wal.flush
  split
  · exact h
  · exact writeAll_atEnd h

theorem foldl_appendToBuffer_file (crc : Bytes → UInt32) (ops : List WalOp) (w : Wal) :
    (ops.foldl (Wal.appendToBuffer crc) w).file = w.file ∧
      (ops.foldl (Wal.appendToBuffer crc) w).cursor = w.cursor := by
  induction ops generalizing w with
  | nil => exact ⟨rfl,rfl⟩
  | cons op ops ih => exact ih (w.appendToBuffer crc op)

theorem appendBatchFast_atEnd (h : w.file.length = w.cursor) (now : ℕ) (txId : UInt64) (ops : List WalOp)
    (isRemote : Bool) :
    (w.appendBatchFast crc now txId ops isRemote).file.length =
      (w.appendBatchFast crc now txId ops isRemote).cursor := by
  obtain ⟨hf,hc⟩ := foldl_appendToBuffer_file crc (txRecords txId ops) w
  have h1 := (congrArg List.length hf).trans (h.trans hc.symm)
  unfold Wal.appendBatchFast Wal.maybeSync
  split
  · exact writeAll_atEnd h1
  · split
    · exact flush_atEnd h1 now
    · exact h1

theorem runAct_inSession (h : InSession crc cipher st) {a : SessionAct}
    (ha : ∀ now txId ops isRemote, a = .batch now txId ops isRemote →
      ∀ op ∈ ops, op.isData ∧ RecordFits cipher op) : InSession crc cipher (runAct crc st a) := by
  obtain ⟨log,hw,hend,hl⟩ := h
  cases a with
  | batch now txId ops isRemote =>
    have hops := ha now txId ops isRemote rfl
    obtain ⟨es,hes,hw1⟩ := hw.appendBatchFast now txId isRemote (fun op hop => (hops op hop).2)
    refine ⟨log++es,hw1,appendBatchFast_atEnd hend now txId ops isRemote,?_⟩
    simp only [runAct]
    rw [hw1.end_eq]
    exact hl.batch (fun op hop => (hops op hop).1) hes
  | flush now => exact ⟨log,hw.flush now,flush_atEnd hend now,hl⟩
  | setDurabilityMode mode => exact ⟨log,⟨hw.cipher_eq,hw.bytes,hw.cursor_le,hw.padding⟩,hend,hl⟩
  | setGroupCommitInterval ms => exact ⟨log,⟨hw.cipher_eq,hw.bytes,hw.cursor_le,hw.padding⟩,hend,hl⟩

theorem runActs_inSession {acts : List SessionAct} (h : InSession crc cipher st)
    (ha : ∀ now txId ops isRemote, SessionAct.batch now txId ops isRemote ∈ acts →
      ∀ op ∈ ops, op.isData ∧ RecordFits cipher op) :
    InSession crc cipher (acts.foldl (runAct crc) st) := by
  induction acts generalizing st with
  | nil => exact h
  | cons a acts ih =>
    refine ih (runAct_inSession h ?_) fun now txId ops isRemote hm =>
      ha now txId ops isRemote (List.mem_cons_of_mem _ hm)
    rintro now txId ops isRemote rfl
    exact ha now txId ops isRemote List.mem_cons_self

/-- A crash leaves a cut log, whatever part of it had reached the file. -/
theorem onDisk_cut (h : InSession crc cipher st) (n : ℕ) :
    OnDisk crc cipher (.ofCut (st.1.file.take n) st.2) := by
  obtain ⟨log,hw,hend,hl⟩ := h
  refine ⟨log,st.2,hl,?_,rfl⟩
  have hb := hw.bytes
  rw [← hend,List.take_length] at hb
  simp only [Disk.ofCut,← hb,List.length_take]
  rw [List.take_append_of_le_length (by omega),List.take_eq_take_iff]
  omega

theorem run_onDisk (hd : OnDisk crc cipher d) (hs : s.NotPreallocated) (hf : s.Fits cipher) :
    ∃ d', s.run crc cipher d = .ok d' ∧ OnDisk crc cipher d' := by
  obtain ⟨w,hw,hin⟩ := replay_cut hd hs
  refine ⟨_,?_,onDisk_cut (runActs_inSession hin hf) s.cut⟩
  simp [run,hw,bind,Except.bind,pure,Except.pure]

theorem runAll_onDisk {history : List Session} (hd : OnDisk crc cipher d) (hs : ∀ s ∈ history, s.NotPreallocated)
    (hf : ∀ s ∈ history, s.Fits cipher) :
    ∃ d', history.foldlM (fun d s => s.run crc cipher d) d = .ok d' ∧ OnDisk crc cipher d' := by
  induction history generalizing d with
  | nil => exact ⟨d,rfl,hd⟩
  | cons s history ih =>
    obtain ⟨d1,hrun,hd1⟩ := run_onDisk hd (hs s List.mem_cons_self) (hf s List.mem_cons_self)
    obtain ⟨d2,hruns,hd2⟩ := ih hd1 (fun t ht => hs t (List.mem_cons_of_mem _ ht))
      (fun t ht => hf t (List.mem_cons_of_mem _ ht))
    exact ⟨d2,by simp [List.foldlM_cons,hrun,bind,Except.bind,hruns],hd2⟩

/-- After any history of crashed sessions whose records fit, the next replay returns exactly the
operations of the batches whose commit record survived, in the order they were appended. -/
theorem replay_survivors (crc : Bytes → UInt32) (cipher : Option Cipher) (history : List Session)
    (last : Session) (hs : ∀ s ∈ history, s.NotPreallocated) (hlast : last.NotPreallocated)
    (hf : ∀ s ∈ history, s.Fits cipher) :
    ∃ d, history.foldlM (fun d s => s.run crc cipher d) Disk.empty = .ok d ∧
      ∃ w, (last.openWal cipher d.file).replay crc = .ok (d.ledger.flatMap Logged.ops,w) := by
  obtain ⟨d,hrun,hd⟩ := runAll_onDisk onDisk_empty hs hf
  obtain ⟨w,hw,-⟩ := replay_cut hd hlast
  exact ⟨d,hrun,w,hw⟩

/-- A session of one batch with one delete, all of it flushed. -/
def deleteSession (key : String) : Session where
  mode := .manual
  groupCommitMaxOps := 128
  reserveBytes := 0
  noncePrefix := 0
  openedAt := 0
  acts := [.batch 0 1 [.delete key 0] false,.flush 0]
  cut := 2^20

/-- A session that logs one batch, flushes it and is cut within its second batch. -/
def cutSession : Session where
  mode := .manual
  groupCommitMaxOps := 128
  reserveBytes := 0
  noncePrefix := 0
  openedAt := 0
  acts := [.batch 0 1 [.putInlined "a" [1]] false,.batch 0 2 [.delete "a" 7] false,.flush 0]
  cut := 70

theorem cutSession_notPreallocated : cutSession.NotPreallocated := by simp [NotPreallocated,cutSession]

theorem cutSession_fits : cutSession.Fits none := by
  intro now txId ops isRemote hm op hop
  simp only [cutSession,List.mem_cons,SessionAct.batch.injEq,reduceCtorEq,List.not_mem_nil,or_false] at hm
  rcases hm with ⟨-,-,rfl,-⟩ | ⟨-,-,rfl,-⟩ <;> simp only [List.mem_singleton] at hop <;> subst hop
  all_goals exact ⟨rfl,by simp [WalOp.key?]; decide,by decide⟩

/-- Two sessions that both tear their second batch and use the same transaction ids. -/
theorem replay_survivors_cutSession :
    ∃ d, [cutSession,cutSession].foldlM (fun d s => s.run crc32 none d) Disk.empty = .ok d ∧
      ∃ w, (cutSession.openWal none d.file).replay crc32 = .ok (d.ledger.flatMap Logged.ops,w) :=
  replay_survivors crc32 none [cutSession,cutSession] cutSession
    (by simp [cutSession_notPreallocated]) cutSession_notPreallocated (by simp [cutSession_fits])

/-- A key of 65536 letters: its length does not fit in sixteen bits. -/
def longKey : String := String.ofList (List.replicate 65536 'a')

theorem asBytes_letters (n : ℕ) : asBytes (String.ofList (List.replicate n 'a')) = List.replicate n 97 := by
  have ha : String.utf8EncodeChar 'a' = [97] := by decide
  rw [asBytes_ofList]
  induction n with
  | zero => rfl
  | succ n ih =>
    rw [List.replicate_succ,List.flatMap_cons,ih,ha]
    rfl

theorem letters_length (n : ℕ) : (asBytes (String.ofList (List.replicate n 'a'))).length = n := by
  rw [asBytes_letters,List.length_replicate]

theorem longKey_length : (asBytes longKey).length = 65536 := letters_length 65536

theorem longKey_ne_empty : longKey ≠ "" := by
  intro h
  have hl := longKey_length
  rw [h] at hl
  exact absurd hl (by decide)

theorem decodePayload_wrapped (h : (asBytes key).length % 2^16 = 0) (h8 : 8 ≤ (asBytes key).length) :
    decodePayload none (WalOp.delete key 0).encodeInto =
      .record (.delete "" (bytesI64 ((asBytes key).take 8))) := by
  rw [decodePayload,WalOp.decode_delete_wrapped 0 h h8]

theorem delete_encodeInto_length (key : String) :
    (WalOp.delete key 0).encodeInto.length = (asBytes key).length+11 := by
  simp only [WalOp.encodeInto,WalOp.encodeKey,List.length_cons,List.length_append,leBytes_length,
    i64Bytes_length]
  omega

/-- The delete of a key whose length is a multiple of 65536, as a reader finds it. -/
def wrappedEntry {key : String} (h : (asBytes key).length % 2^16 = 0) (h8 : 8 ≤ (asBytes key).length)
    (hs : (asBytes key).length+11 < 2^32) : LogEntry none where
  payload := (WalOp.delete key 0).encodeInto
  value := .delete "" (bytesI64 ((asBytes key).take 8))
  decodes := decodePayload_wrapped h h8
  nonempty := WalOp.encodeInto_length_pos _
  small := (delete_encodeInto_length key).trans_lt hs

theorem deleteSession_notPreallocated (key : String) : (deleteSession key).NotPreallocated := by
  simp [NotPreallocated,deleteSession]

/-- Such a delete survives in the log, but the replay returns another operation. -/
theorem replay_wrapped (crc : Bytes → UInt32) (h : (asBytes key).length % 2^16 = 0) (h8 : 8 ≤ (asBytes key).length)
    (hlen : (asBytes key).length < 2^19) :
    ∃ d, (deleteSession key).run crc none Disk.empty = .ok d ∧
      d.ledger.flatMap Logged.ops = [.delete key 0] ∧
      ∃ w, ((deleteSession key).openWal none d.file).replay crc =
        .ok ([.delete "" (bytesI64 ((asBytes key).take 8))],w) := by
  have hopen : ((deleteSession key).openWal none []).Holds crc ([] : List (LogEntry none)) :=
    openWal_holds (deleteSession_notPreallocated key) []
  have hs : (asBytes key).length+11 < 2^32 := by omega
  obtain ⟨w0,hw0,h0,-⟩ := hopen.replay rfl
  have hm : w0.mode = .manual ∧ w0.encryption = none ∧ w0.file = [] := by
    unfold Wal.replay at hw0
    simp only [bind,Except.bind,pure,Except.pure] at hw0
    split at hw0
    · simp at hw0
    · simp only [Except.ok.injEq,Prod.mk.injEq] at hw0
      rw [← hw0.2]
      exact ⟨rfl,rfl,by simp [openWal_file (deleteSession_notPreallocated key)]⟩
  obtain ⟨hmode,henc,hfile⟩ := hm
  let e1 : LogEntry none := logEntry none (.beginTx 1) (recordFits_marker rfl)
  let e3 : LogEntry none := logEntry none (.commitTx 1) (recordFits_marker rfl)
  let log := [e1,wrappedEntry h h8 hs,e3]
  let w1 := (txRecords 1 [WalOp.delete key 0]).foldl (Wal.appendToBuffer crc) w0
  have h1 : w1.Holds crc log := by
    have ha : (w0.appendToBuffer crc (.beginTx 1)).Holds crc [e1] :=
      h0.appendEntry (by rw [henc]; rfl)
    have hb : ((w0.appendToBuffer crc (.beginTx 1)).appendToBuffer crc (.delete key 0)).Holds crc
        [e1,wrappedEntry h h8 hs] :=
      ha.appendEntry (by simp [Wal.appendToBuffer,henc,Wal.sealPayload,wrappedEntry])
    exact hb.appendEntry (by simp [Wal.appendToBuffer,henc]; rfl)
  have hrun : (deleteSession key).run crc none Disk.empty = .ok
      (.ofCut ((w1.flush 0).file.take (2^20)) [⟨[.delete key 0],w1.cursor+w1.writeBuffer.length⟩]) := by
    have hsync : w1.maybeSync 0 true false = w1 := by
      have : w1.mode = .manual := hmode
      simp [Wal.maybeSync,Wal.shouldFlush,this]
    have hrep : ((deleteSession key).openWal none Disk.empty.file).replay crc =
      .ok (filterCommittedOps [],w0) := hw0
    simp only [run,hrep,bind,Except.bind,pure,Except.pure]
    simp only [deleteSession,List.foldl_cons,List.foldl_nil,runAct,Wal.appendBatchFast]
    rw [hsync]
    rfl
  have hw1end : w1.file.length = w1.cursor := by
    have hle : w0.cursor ≤ w0.file.length := h0.cursor_le
    show w0.file.length = w0.cursor
    simp only [hfile,List.length_nil] at hle ⊢
    omega
  have himg : (w1.flush 0).file = image crc log := by
    have hb := (h1.flush 0).bytes
    have hend : (w1.flush 0).file.length = (w1.flush 0).cursor := flush_atEnd hw1end 0
    rwa [← hend,List.take_length,Wal.flush_writeBuffer,List.append_nil] at hb
  have hfit : (image crc log).length ≤ 2^20 := by
    simp [log,e1,e3,logEntry,wrappedEntry,Wal.sealPayload,WalOp.encodeInto,WalOp.encodeKey]
    omega
  rw [himg,List.take_of_length_le hfit,h1.end_eq] at hrun
  refine ⟨_,hrun,by simp [Disk.ofCut],?_⟩
  have hlog : ((deleteSession key).openWal none (image crc log)).Holds crc log :=
    openWal_holds (deleteSession_notPreallocated key) log
  obtain ⟨w,hw,-⟩ := hlog.replay rfl
  exact ⟨w,hw⟩

/-- The delete of a 65536-byte key is committed and survives, but the next replay returns the delete
of the empty key. -/
theorem replay_longKey :
    ∃ d, [deleteSession longKey].foldlM (fun d s => s.run crc32 none d) Disk.empty = .ok d ∧
      d.ledger.flatMap Logged.ops = [.delete longKey 0] ∧
      ∀ w, ((deleteSession longKey).openWal none d.file).replay crc32 ≠
        .ok (d.ledger.flatMap Logged.ops,w) := by
  have hl := longKey_length
  obtain ⟨d,hrun,hled,w,hw⟩ := replay_wrapped crc32 (show (asBytes longKey).length % 2^16 = 0 by omega)
    (by omega) (by omega)
  refine ⟨d,by simp [hrun,bind,Except.bind,pure,Except.pure],hled,fun w' hw' => ?_⟩
  rw [hw,hled] at hw'
  simp only [Except.ok.injEq,Prod.mk.injEq,List.cons.injEq,WalOp.delete.injEq] at hw'
  exact longKey_ne_empty hw'.1.1.1.symm

end Session

end HakoDB
