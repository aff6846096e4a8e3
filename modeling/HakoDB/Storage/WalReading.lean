import HakoDB.Lib.LogReader
import HakoDB.Storage.Crc32
import HakoDB.Storage.WalTail

/-! Reading a log whose bytes are not its own: where the decoder of a record slices beyond the record's end, and what
a replay leaves of the file. -/
namespace HakoDB
open ByteCodec FramedLog

/-- A byte that is not zero counts. -/
theorem leNat_pos_of_ne {b : UInt8} {bs : Bytes} (hb : b ∈ bs) (hne : b ≠ 0) : 0 < leNat bs := by
  induction bs with
  | nil => cases hb
  | cons c bs ih =>
    rw [leNat]
    rcases List.mem_cons.1 hb with rfl | hmem
    · have hpos : b.toNat ≠ 0 := fun h => hne (UInt8.toNat_inj.1 h)
      omega
    · have := ih hmem
      omega

namespace WalOp

/-- A key of the length that stands before it, and fewer than `n` bytes behind it. -/
def ShortBehindKey (n : ℕ) (bs : Bytes) : Prop :=
  bs.length < 2 ∨ 2+leNat (bs.take 2) ≤ bs.length ∧ (fromUtf8 ((bs.drop 2).take (leNat (bs.take 2)))).isSome = true ∧
    bs.length < 2+leNat (bs.take 2)+n

/-- A record that ends within a number that its tag announces. -/
def CutShort : Bytes → Prop
  | [] => False
  | tag::bs =>
    match tag.toNat with
    | 0 | 3 => bs.length < 8
    | 1 => ShortBehindKey 20 bs
    | 2 => ShortBehindKey 8 bs
    | 4 => ShortBehindKey 4 bs
    | 5 => ShortBehindKey 12 bs
    | _ => False

theorem slice_eq (n : ℕ) (bs : Bytes) :
    slice n bs = if n ≤ bs.length then .ok (bs.take n,bs.drop n) else .error .panic := by
  unfold slice take?
  split_ifs <;> rfl

variable {n : ℕ} {bs : Bytes} {α : Type} {f : Bytes × Bytes → Res α}

theorem slice_panic : slice n bs = .error .panic ↔ bs.length < n := by
  rw [slice_eq]
  split_ifs with h
  · exact iff_of_false nofun (by omega)
  · exact iff_of_true rfl (by omega)

theorem slice_ok {r : Bytes × Bytes} (h : slice n bs = .ok r) : n ≤ bs.length ∧ r = (bs.take n,bs.drop n) := by
  rw [slice_eq] at h
  split_ifs at h with hn
  exact ⟨hn,(Except.ok.inj h).symm⟩

/-- A slice before other reads: the reads panic where the slice or they do. -/
theorem slice_bind_panic {m : ℕ} (hf : ∀ a rest,f (a,rest) = .error .panic ↔ rest.length < m) :
    slice n bs >>= f = .error .panic ↔ bs.length < n+m := by
  rw [bind_eq_error,slice_panic]
  constructor
  · rintro (hshort | ⟨⟨a,rest⟩,hslice,hrest⟩)
    · omega
    · obtain ⟨hn,hr⟩ := slice_ok hslice
      obtain ⟨rfl,rfl⟩ := Prod.mk.inj hr
      rw [hf,List.length_drop] at hrest
      omega
  · intro hlen
    by_cases hn : bs.length < n
    · exact .inl hn
    · refine .inr ⟨(bs.take n,bs.drop n),by rw [slice_eq,if_pos (by omega)],?_⟩
      rw [hf,List.length_drop]
      omega

/-- The last slice, before what cannot panic. -/
theorem slice_last_panic (hf : ∀ r,f r ≠ .error .panic) :
    slice n bs >>= f = .error .panic ↔ bs.length < n := by
  rw [bind_eq_error,slice_panic]
  refine or_iff_left ?_
  rintro ⟨r,-,hr⟩
  exact hf r hr

theorem decodeKey_eq (m1 m2 : String) (bs : Bytes) : decodeKey m1 m2 bs =
    if bs.length < 2 then .error .panic
    else if bs.length < 2+leNat (bs.take 2) then corrupt m1
    else (okOr (.error (.corrupt m2)) (fromUtf8 ((bs.drop 2).take (leNat (bs.take 2))))).map fun key =>
      (key,bs.drop (2+leNat (bs.take 2))) := by
  unfold decodeKey
  rw [slice_eq]
  by_cases h2 : bs.length < 2
  · rw [if_neg (by omega),if_pos h2]
    rfl
  rw [if_pos (by omega),if_neg h2]
  simp only [bind,Except.bind,checkedSlice,take?,List.length_drop]
  by_cases hkey : bs.length < 2+leNat (bs.take 2)
  · rw [if_neg (by omega),if_pos hkey]
    rfl
  · rw [if_pos (by omega),if_neg hkey]
    simp only [List.drop_drop,okOr_some]
    generalize fromUtf8 ((bs.drop 2).take (leNat (bs.take 2))) = key
    cases key <;> rfl

theorem decodeKey_bind_panic {m1 m2 : String} {f : String × Bytes → Res α}
    (hf : ∀ key rest,f (key,rest) = .error .panic ↔ rest.length < n) :
    decodeKey m1 m2 bs >>= f = .error .panic ↔ ShortBehindKey n bs := by
  unfold ShortBehindKey
  rw [decodeKey_eq]
  split_ifs with h1 h2
  · exact iff_of_true rfl (.inl h1)
  · exact iff_of_false nofun (by omega)
  · cases hkey : fromUtf8 ((bs.drop 2).take (leNat (bs.take 2))) with
    | none => exact iff_of_false nofun (by simp; omega)
    | some key =>
      have hrest := hf key (bs.drop (2+leNat (bs.take 2)))
      rw [List.length_drop] at hrest
      simp only [okOr,Except.map,bind,Except.bind,hrest,Option.isSome_some,true_and]
      omega

/-- The decoder panics exactly on the records that are cut short. -/
theorem decode_panic (payload : Bytes) : decode payload = .error .panic ↔ CutShort payload := by
  have hok : ∀ op : WalOp,(.ok op : Res WalOp) ≠ .error .panic := by simp
  cases payload with
  | nil => exact iff_of_false (by simp [decode,corrupt]) id
  | cons tag bs =>
    simp only [decode,CutShort]
    generalize tag.toNat = t
    rcases t with _ | _ | _ | _ | _ | _ | t
    · exact slice_last_panic fun _ => hok _
    · exact decodeKey_bind_panic (n := 8+(8+4)) fun _ _ => slice_bind_panic fun _ _ => slice_bind_panic fun _ _ =>
        slice_last_panic fun _ => hok _
    · exact decodeKey_bind_panic fun _ _ => slice_last_panic fun _ => hok _
    · exact slice_last_panic fun _ => hok _
    · refine decodeKey_bind_panic fun _ _ => slice_last_panic fun r hpanic => ?_
      obtain ⟨l,rest⟩ := r
      simp only [checkedSlice,take?] at hpanic
      split_ifs at hpanic
      all_goals cases hpanic
    · exact decodeKey_bind_panic (n := 8+4) fun _ _ => slice_bind_panic fun _ _ => slice_last_panic fun _ => hok _
    · exact iff_of_false (by simp [corrupt]) id

end WalOp

/-- The content of a record without its encryption. -/
def plaintext (cipher : Option Cipher) (payload : Bytes) : Option Bytes :=
  match cipher with
  | some cipher => (cipher.open' payload).toOption
  | none => some payload

theorem open'_ne_panic (cipher : Cipher) (payload : Bytes) : cipher.open' payload ≠ .error .panic := by
  unfold Cipher.open'
  split
  · exact nofun
  · split <;> exact nofun

theorem decodePayload_panic (cipher : Option Cipher) (payload : Bytes) : decodePayload cipher payload = .fail .panic ↔
    ∃ p,plaintext cipher payload = some p ∧ WalOp.CutShort p := by
  cases cipher with
  | none =>
    simp only [plaintext,Option.some.injEq,exists_eq_left',← WalOp.decode_panic,decodePayload]
    rcases WalOp.decode payload with (e | -) | op <;> simp
  | some cipher =>
    simp only [plaintext,decodePayload]
    cases cipher.open' payload with
    | error e => simp [Except.toOption]
    | ok p =>
      simp only [Except.toOption,Option.some.injEq,exists_eq_left',← WalOp.decode_panic]
      rcases WalOp.decode p with (e | -) | op <;> simp

variable {cipher : Option Cipher} {payload : Bytes} {op : WalOp}

theorem decodePayload_record (h : decodePayload cipher payload = .record op) :
    ∃ p,plaintext cipher payload = some p ∧ WalOp.decode p = .ok op := by
  cases cipher with
  | none =>
    simp only [decodePayload] at h
    refine ⟨payload,rfl,?_⟩
    rcases hdecode : WalOp.decode payload with (e | -) | a <;> rw [hdecode] at h <;> cases h
    rfl
  | some cipher =>
    simp only [plaintext]
    simp only [decodePayload] at h
    cases hopen : cipher.open' payload with
    | error e =>
      rw [hopen] at h
      cases h
    | ok p =>
      simp only [hopen] at h
      refine ⟨p,rfl,?_⟩
      rcases hdecode : WalOp.decode p with (e | -) | a <;> rw [hdecode] at h <;> cases h
      rfl

/-- Only an encrypted record that is decrypted can end a replay without failing it. -/
theorem decodePayload_stop (cipher : Option Cipher) (payload : Bytes) : decodePayload cipher payload = .stop ↔
    cipher.isSome = true ∧ ∃ p e,plaintext cipher payload = some p ∧ WalOp.decode p = .error (.error e) := by
  cases cipher with
  | none =>
    refine iff_of_false (fun h => ?_) nofun
    simp only [decodePayload] at h
    rcases hdecode : WalOp.decode payload with (e | -) | a <;> rw [hdecode] at h <;> cases h
  | some cipher =>
    simp only [plaintext,decodePayload,Option.isSome_some,true_and]
    cases cipher.open' payload with
    | error e => simp [Except.toOption]
    | ok p =>
      simp only [Except.toOption,Option.some.injEq,exists_and_left,exists_eq_left']
      rcases WalOp.decode p with (e | -) | a <;> simp

theorem tailPayload_panic (cipher : Option Cipher) (payload : Bytes) : tailPayload cipher payload = .fail .panic ↔
    ∃ p,plaintext cipher payload = some p ∧ WalOp.CutShort p := by
  cases cipher with
  | none =>
    simp only [plaintext,Option.some.injEq,exists_eq_left',← WalOp.decode_panic,tailPayload,Except.bind]
    rcases WalOp.decode payload with e | op <;> simp
  | some cipher =>
    have hopen := open'_ne_panic cipher payload
    simp only [plaintext,tailPayload]
    cases hp : cipher.open' payload with
    | error e =>
      rw [hp] at hopen
      simpa [Except.toOption,Except.bind] using fun he : e = .panic => hopen (by rw [he])
    | ok p =>
      simp only [Except.toOption,Option.some.injEq,exists_eq_left',← WalOp.decode_panic,Except.bind]
      rcases WalOp.decode p with e | op <;> simp

/-- Both readers accept the same records. -/
theorem decodePayload_of_tail (h : tailPayload cipher payload = .record op) :
    decodePayload cipher payload = .record op := by
  cases cipher with
  | none =>
    simp only [tailPayload,Except.bind] at h
    simp only [decodePayload]
    rcases hdecode : WalOp.decode payload with e | a <;> rw [hdecode] at h <;> cases h
    rfl
  | some cipher =>
    simp only [tailPayload] at h
    simp only [decodePayload]
    cases hopen : cipher.open' payload with
    | error e =>
      rw [hopen] at h
      cases h
    | ok p =>
      simp only [hopen,Except.bind] at h
      dsimp only
      rcases hdecode : WalOp.decode p with e | a <;> rw [hdecode] at h <;> cases h
      rfl

def logEntryOfTail {cipher : Option Cipher} (e : Entry (tailPayload cipher)) : LogEntry cipher :=
  ⟨e.payload,e.value,decodePayload_of_tail e.decodes,e.nonempty,e.small⟩

theorem image_logEntryOfTail (crc : Bytes → UInt32) (log : List (Entry (tailPayload cipher))) :
    image crc (log.map logEntryOfTail) = image crc log := by
  rw [image,List.flatMap_map]
  rfl

namespace Wal
variable (crc : Bytes → UInt32)

abbrev cipher? (w : Wal) : Option Cipher := w.encryption.map EncryptionContext.cipher

/-- Behind records that decode stands a whole one, with its checksum, that is cut short. -/
def MeetsCut (cipher : Option Cipher) (bs : Bytes) : Prop :=
  ∃ (log : List (LogEntry cipher)) (payload rest p : Bytes),Framable payload ∧ bs = image crc log++(frame crc payload++rest) ∧
    plaintext cipher payload = some p ∧ WalOp.CutShort p

theorem replay_panic (w : Wal) : w.replay crc = .error .panic ↔ MeetsCut crc w.cipher? w.file := by
  unfold replay
  rw [bind_eq_error,scan_error_iff]
  constructor
  · rintro (⟨log,payload,rest,hp,hfile,hfail⟩ | ⟨s,-,hs⟩)
    · obtain ⟨p,hplain,hcut⟩ := (decodePayload_panic _ _).1 hfail
      exact ⟨log,payload,rest,p,hp,hfile,hplain,hcut⟩
    · cases hs
  · rintro ⟨log,payload,rest,p,hp,hfile,hplain,hcut⟩
    exact .inl ⟨log,payload,rest,hp,hfile,(decodePayload_panic _ _).2 ⟨p,hplain,hcut⟩⟩

theorem tail_panic (w : Wal) (offset : ℕ) :
    w.tail crc offset = .error .panic ↔ MeetsCut crc w.cipher? (w.file.drop (w.tailStart offset)) := by
  unfold tail
  dsimp only
  split_ifs with hend
  · refine iff_of_false nofun ?_
    rintro ⟨log,payload,rest,p,hp,hfile,-⟩
    rw [List.drop_of_length_le hend] at hfile
    have hlength := congrArg List.length hfile
    simp at hlength
    omega
  rw [bind_eq_error,scan_error_iff]
  constructor
  · rintro (⟨log,payload,rest,hp,hfile,hfail⟩ | ⟨s,-,hs⟩)
    · obtain ⟨p,hplain,hcut⟩ := (tailPayload_panic _ _).1 hfail
      exact ⟨log.map logEntryOfTail,payload,rest,p,hp,by rw [image_logEntryOfTail]; exact hfile,hplain,hcut⟩
    · cases hs
  · rintro ⟨log,payload,rest,p,hp,hfile,hplain,hcut⟩
    refine .inl ⟨log.map tailEntry,payload,rest,hp,?_,(tailPayload_panic _ _).2 ⟨p,hplain,hcut⟩⟩
    rw [image_tailEntry]
    exact hfile

/-- The decoder slices beyond a record exactly if the record is cut short; a replay and a tailing reader end normally
exactly if they meet no such record, with its checksum, behind records that decode. -/
theorem reading_returns_iff (payload : Bytes) (w : Wal) (offset : ℕ) :
    (WalOp.decode payload ≠ .error .panic ↔ ¬WalOp.CutShort payload) ∧
    (w.replay crc ≠ .error .panic ↔ ¬MeetsCut crc w.cipher? w.file) ∧
    (w.tail crc offset ≠ .error .panic ↔ ¬MeetsCut crc w.cipher? (w.file.drop (w.tailStart offset))) :=
  ⟨not_congr (WalOp.decode_panic payload),not_congr (replay_panic crc w),not_congr (tail_panic crc w offset)⟩

/-- A log of one record: the tag of a begin, and nothing behind it. -/
def bareTag : Wal := {LogHistory.newLog with file := frame crc32 [0]}

theorem bareTag_meetsCut : MeetsCut crc32 bareTag.cipher? bareTag.file :=
  ⟨[],[0],[],[0],⟨by decide,by decide⟩,by simp [bareTag],rfl,by simp [WalOp.CutShort]⟩

theorem replay_bareTag : WalOp.decode [0] = .error .panic ∧ bareTag.replay crc32 = .error .panic ∧
    bareTag.tail crc32 0 = .error .panic :=
  ⟨rfl,(replay_panic crc32 bareTag).2 bareTag_meetsCut,(tail_panic crc32 bareTag 0).2 bareTag_meetsCut⟩

section truncation
variable {crc}

/-- The file after a replay; one that fails has not touched it. -/
def replayFile (crc : Bytes → UInt32) (w : Wal) : Bytes :=
  match w.replay crc with
  | .ok r => r.2.file
  | .error _ => w.file

/-- A record that is not read: its decryption or its decoding fails. -/
def Unreadable (cipher : Option Cipher) (payload : Bytes) : Prop :=
  ∀ p op,plaintext cipher payload = some p → WalOp.decode p ≠ .ok op

/-- What a replay may do to the file: cut off an incomplete record or one with another checksum, behind whole ones with
theirs, and nothing where such a record is not read. -/
structure CutsSoundly (crc : Bytes → UInt32) (w : Wal) : Prop where
  shortens : w.replayFile crc ≠ w.file → ∃ (payloads : List Bytes) (rest : Bytes),(∀ p ∈ payloads,Framable p) ∧
    w.file = payloads.flatMap (frame crc)++rest ∧ w.replayFile crc = payloads.flatMap (frame crc) ∧
    (Incomplete rest ∨ Mismatched crc rest)
  keeps : ∀ (log : List (LogEntry w.cipher?)) payload rest,Framable payload →
    w.file = image crc log++(frame crc payload++rest) → Unreadable w.cipher? payload → w.replayFile crc = w.file

/-- Behind records that decode stands an encrypted one that is decrypted but not decoded. -/
def MeetsUndecoded (crc : Bytes → UInt32) (w : Wal) : Prop :=
  ∃ (log : List (LogEntry w.cipher?)) (payload rest p : Bytes) (e : HakoError),Framable payload ∧
    w.file = image crc log++(frame crc payload++rest) ∧ w.cipher?.isSome = true ∧ plaintext w.cipher? payload = some p ∧
    WalOp.decode p = .error (.error e)

variable {w : Wal}

theorem replayFile_of_scan {s : Scan WalOp} (h : scan crc (decodePayload w.cipher?) w.file = .ok s) :
    w.replayFile crc = if s.consumed < w.file.length ∧ s.stop ≠ .padding then w.file.take s.consumed else w.file := by
  simp only [replayFile,replay,h]
  rfl

theorem replayFile_of_error {e : Fault} (h : scan crc (decodePayload w.cipher?) w.file = .error e) :
    w.replayFile crc = w.file := by
  simp only [replayFile,replay,h]
  rfl

theorem image_eq_flatMap {cipher : Option Cipher} (log : List (LogEntry cipher)) :
    image crc log = (log.map Entry.payload).flatMap (frame crc) := by
  rw [image,List.flatMap_map]
  rfl

/-- A header without a length is padding or has a checksum that is not the one of nothing. -/
theorem mismatched_of_empty (hempty : crc [] = 0) {bs : Bytes} (h8 : 8 ≤ bs.length)
    (hzero : (bs.take 8).all (· == 0) = false) (hlen : announced bs = 0) : Mismatched crc bs := by
  refine ⟨by omega,?_⟩
  rw [content,hlen,List.take_zero,hempty]
  intro hsum
  have hall : ∀ b ∈ bs.take 8,b = 0 := by
    intro b hb
    rw [show bs.take 8 = bs.take 4++(bs.drop 4).take 4 by rw [← List.take_add]] at hb
    by_contra hne
    rcases List.mem_append.1 hb with hb | hb
    · have hpos := leNat_pos_of_ne hb hne
      unfold announced at hlen
      omega
    · have hpos := leNat_pos_of_ne hb hne
      unfold storedSum at hsum
      simp at hsum
      omega
  rw [List.all_eq_true.2 fun b hb => by simp [hall b hb]] at hzero
  cases hzero

/-- Such a record is cut off, with all that follows it. -/
theorem MeetsUndecoded.not_cutsSoundly (h : MeetsUndecoded crc w) : ¬CutsSoundly crc w := by
  obtain ⟨log,payload,rest,p,e,hp,hfile,hcipher,hplain,hdecode⟩ := h
  intro hsound
  have hstop := (decodePayload_stop w.cipher? payload).2 ⟨hcipher,p,e,hplain,hdecode⟩
  have hscan : scan crc (decodePayload w.cipher?) w.file = .ok ⟨log.map Entry.value,(image crc log).length,.undecodable⟩ := by
    rw [hfile]
    exact scan_undecodable log hp rest hstop
  have hkept := hsound.keeps log payload rest hp hfile fun q op hq hop => by
    rw [hplain] at hq
    rw [← Option.some.inj hq,hdecode] at hop
    cases hop
  have hlength : w.file.length = (image crc log).length+(8+payload.length+rest.length) := by
    rw [hfile]
    simp
  rw [replayFile_of_scan hscan,if_pos ⟨by simp only; omega,nofun⟩] at hkept
  have hcut : (w.file.take (image crc log).length).length = w.file.length := congrArg List.length hkept
  rw [List.length_take] at hcut
  omega

theorem cutsSoundly_of_not_meets (hempty : crc [] = 0) (hnone : ¬MeetsUndecoded crc w) : CutsSoundly crc w := by
  refine ⟨fun hcut => ?_,fun log payload rest hp hfile hunread => ?_⟩
  · cases hscan : scan crc (decodePayload w.cipher?) w.file with
    | error e => exact absurd (replayFile_of_error hscan) hcut
    | ok s =>
      rw [replayFile_of_scan hscan] at hcut ⊢
      have hcond : s.consumed < w.file.length ∧ s.stop ≠ .padding := by
        by_contra hnot
        exact hcut (if_neg hnot)
      obtain ⟨log,rest,hfile,hconsumed,hstop⟩ := scan_ok hscan
      refine ⟨log.map Entry.payload,rest,?_,by rw [← image_eq_flatMap]; exact hfile,?_,?_⟩
      · intro p hp
        obtain ⟨entry,-,rfl⟩ := List.mem_map.1 hp
        exact ⟨entry.nonempty,entry.small⟩
      · rw [if_pos hcond,hconsumed,← image_eq_flatMap]
        conv_lhs => rw [hfile]
        rw [List.take_left]
      · -- the reader stopped for one of the reasons that allow a cut
        cases hs : s.stop <;> rw [hs] at hstop
        case shortHeader => exact .inl (lt_of_lt_of_le hstop (Nat.le_add_right _ _))
        case padding => exact absurd hs hcond.2
        case emptyRecord => exact .inr (mismatched_of_empty hempty hstop.1 hstop.2.1 hstop.2.2)
        case shortPayload => exact .inl hstop.2
        case badChecksum => exact .inr hstop.2
        case undecodable =>
          obtain ⟨p,back,hp,rfl,hdecode⟩ := hstop
          obtain ⟨hcipher,q,e,hplain,herr⟩ := (decodePayload_stop _ _).1 hdecode
          exact absurd ⟨log,p,back,q,e,hp,hfile,hcipher,hplain,herr⟩ hnone
  · have hscan : scan crc (decodePayload w.cipher?) w.file =
        (resume (scan crc (decodePayload w.cipher?) rest) (8+payload.length) (decodePayload w.cipher? payload)).map
          (Scan.behind crc log) := by rw [← scan_frame hp,← scan_image,← hfile]
    cases hdecode : decodePayload w.cipher? payload with
    | record op =>
      obtain ⟨p,hplain,hop⟩ := decodePayload_record hdecode
      exact absurd hop (hunread p op hplain)
    | stop =>
      obtain ⟨hcipher,q,e,hplain,herr⟩ := (decodePayload_stop _ _).1 hdecode
      exact absurd ⟨log,payload,rest,q,e,hp,hfile,hcipher,hplain,herr⟩ hnone
    | fail e =>
      rw [hdecode] at hscan
      exact replayFile_of_error hscan

/-- A replay cuts the file as it may unless an encrypted record, with its checksum, is decrypted but not decoded. -/
theorem cutsSoundly_iff (hempty : crc [] = 0) (w : Wal) : CutsSoundly crc w ↔ ¬MeetsUndecoded crc w :=
  ⟨fun hsound hmeets => hmeets.not_cutsSoundly hsound,cutsSoundly_of_not_meets hempty⟩

end truncation

/-- Half a record: its header tells more bytes than follow. -/
def halfRecord : Wal := {LogHistory.newLog with file := [1,0,0,0,0,0,0,0]}

theorem cutsSoundly_halfRecord : CutsSoundly crc32 halfRecord := by
  refine (cutsSoundly_iff (by decide) halfRecord).2 ?_
  rintro ⟨log,payload,rest,p,e,hp,hfile,hcipher,-⟩
  cases hcipher

/-- A cipher that only appends its tag. -/
def tagCipher : Cipher where
  encrypt _ p := p++List.replicate 16 0
  decrypt _ c := if 16 ≤ c.length then some (c.take (c.length-16)) else none
  decrypt_encrypt nonce p := by simp
  encrypt_length nonce p := by simp

/-- A record that is decrypted to a tag which no record has. -/
def unknownRecord : Wal :=
  {LogHistory.newLog with
    encryption := some ⟨tagCipher,0,0⟩
    file := frame crc32 (List.replicate 12 0++9::List.replicate 16 0)}

theorem not_cutsSoundly_unknownRecord : ¬CutsSoundly crc32 unknownRecord := by
  refine MeetsUndecoded.not_cutsSoundly ⟨[],List.replicate 12 0++9::List.replicate 16 0,[],[9],.corrupt "unknown wal op",
    ⟨by decide,by decide⟩,?_,rfl,rfl,rfl⟩
  simp [unknownRecord]

end Wal

end HakoDB
