import HakoDB.Document.Accepted
import HakoDB.Engine.Sequential
import HakoDB.Storage.WalReading
import HakoDB.Storage.WalSessions

/-! Which records of the log read back as they were written, and which of those the write path logs. -/
namespace HakoDB
open ByteCodec HashMap

namespace WalOp

variable {bs : Bytes} {op : WalOp}

theorem decodeKey_ok {m1 m2 : String} {r : String × Bytes} (h : decodeKey m1 m2 bs = .ok r) :
    (asBytes r.1).length < 2^16 := by
  rw [decodeKey_eq] at h
  split_ifs at h with h2 hkey
  · cases h
  cases htext : fromUtf8 ((bs.drop 2).take (leNat (bs.take 2))) with
  | none =>
    rw [htext] at h
    cases h
  | some key =>
    rw [htext] at h
    obtain rfl := Except.ok.inj h
    have hlt := leNat_lt (bs.take 2)
    have hpow : 256^(bs.take 2).length ≤ 256^2 := Nat.pow_le_pow_right (by omega) (by simp)
    rw [asBytes_of_fromUtf8 htext,List.length_take]
    omega

theorem fits_of_key {key : String} (hkey : op.key? = some key) (hlen : (asBytes key).length < 2^16)
    (hvalue : ∀ key value,op = putInlined key value → value.length < 2^32) : op.Fits :=
  ⟨fun k hk => by rw [hkey] at hk; rwa [← Option.some.inj hk],hvalue⟩

theorem fits_of_marker (h : op.key? = none) : op.Fits := by
  constructor
  · intro key hkey
    rw [h] at hkey
    cases hkey
  · intro key value hop
    rw [hop] at h
    cases h

/-- Every record that the decoder returns has lengths that fit. -/
theorem decode_fits (h : decode bs = .ok op) : op.Fits := by
  cases bs with
  | nil => cases h
  | cons tag bs =>
    simp only [decode] at h
    revert h
    generalize tag.toNat = t
    rcases t with _ | _ | _ | _ | _ | _ | t <;> intro h
    · obtain ⟨r,-,hr⟩ := bind_eq_ok.1 h
      obtain rfl := Except.ok.inj hr
      exact fits_of_marker rfl
    · obtain ⟨r,hkey,hr⟩ := bind_eq_ok.1 h
      obtain ⟨r1,-,hr⟩ := bind_eq_ok.1 hr
      obtain ⟨r2,-,hr⟩ := bind_eq_ok.1 hr
      obtain ⟨r3,-,hr⟩ := bind_eq_ok.1 hr
      obtain rfl := Except.ok.inj hr
      exact fits_of_key rfl (decodeKey_ok hkey) (by simp)
    · obtain ⟨r,hkey,hr⟩ := bind_eq_ok.1 h
      obtain ⟨r1,-,hr⟩ := bind_eq_ok.1 hr
      obtain rfl := Except.ok.inj hr
      exact fits_of_key rfl (decodeKey_ok hkey) (by simp)
    · obtain ⟨r,-,hr⟩ := bind_eq_ok.1 h
      obtain rfl := Except.ok.inj hr
      exact fits_of_marker rfl
    · obtain ⟨r,hkey,hr⟩ := bind_eq_ok.1 h
      obtain ⟨r1,hlen,hr⟩ := bind_eq_ok.1 hr
      obtain ⟨r2,hvalue,hr⟩ := bind_eq_ok.1 hr
      obtain rfl := Except.ok.inj hr
      refine fits_of_key rfl (decodeKey_ok hkey) fun key value hop => ?_
      obtain ⟨-,rfl⟩ := WalOp.putInlined.inj hop
      obtain ⟨h4,rfl⟩ := slice_ok hlen
      have hlt := leNat_lt (r.2.take 4)
      have hpow : 256^(r.2.take 4).length ≤ 256^4 := Nat.pow_le_pow_right (by omega) (by simp)
      simp only [checkedSlice,take?] at hvalue
      split_ifs at hvalue
      · obtain rfl := Except.ok.inj hvalue
        simp only [List.length_take]
        omega
      · cases hvalue
    · obtain ⟨r,hkey,hr⟩ := bind_eq_ok.1 h
      obtain ⟨r1,-,hr⟩ := bind_eq_ok.1 hr
      obtain ⟨r2,-,hr⟩ := bind_eq_ok.1 hr
      obtain rfl := Except.ok.inj hr
      exact fits_of_key rfl (decodeKey_ok hkey) (by simp)
    · cases h

end WalOp

namespace Hako
variable {Ledger : Type} {env : Env Ledger} {nanos now : Int64} {p p' : Prep Ledger} {m : BatchMutation}

theorem generated_length (h : Hako Ledger) (nanos : Int64) : (asBytes (h.generateSortableId nanos).1).length < 2^16 := by
  have hbytes : ∀ cs : List Char,(asBytes (String.ofList cs)).length ≤ 4*cs.length := by
    intro cs
    rw [asBytes_ofList]
    induction cs with
    | nil => simp
    | cons c cs ih =>
      have hc := c.utf8Size_le_four
      rw [List.flatMap_cons,List.length_append,String.length_utf8EncodeChar,List.length_cons]
      omega
  have hle := hbytes (hexDigits 16 nanos.toUInt64.toNat++hexDigits 4 h.idSequence.toNat)
  have hlen : (hexDigits 16 nanos.toUInt64.toNat++hexDigits 4 h.idSequence.toNat).length = 20 := by simp [hexDigits]
  exact lt_of_le_of_lt hle (by omega)

/-- An id that the engine makes up fits; any other is taken as it is. -/
theorem assigned_length (h : Hako Ledger) (nanos : Int64) (docId : String) :
    (asBytes (h.assignId nanos docId).1).length < 2^16 ↔ (asBytes docId).length < 2^16 := by
  unfold assignId
  split_ifs with hempty
  · subst hempty
    exact iff_of_true (generated_length h nanos) (by decide)
  · rfl

/-- The record of a mutation stands last in the work of its collection, under the id that it was given or assigned. -/
theorem prepareOne_logs (hprep : prepareOne env nanos now p m = .ok p') : ∃ (h : Hako Ledger) (front : List WalOp) (op : WalOp),
    (p'.work m.collection).ops = front++[op] ∧ op.key? = some (h.assignId nanos m.docId).1 := by
  obtain ⟨h,doc,id,q,-,rfl,-,hrest⟩ := prepareOne_cases hprep
  refine ⟨h,?_⟩
  have hput : ∀ {q : Prep Ledger} {col docId : String} {doc : HakoDoc},q.pushPut env.gate now col docId doc = .ok p' →
      ∃ front op,(p'.work col).ops = front++[op] ∧ op.key? = some docId := by
    intro q col docId doc hpush
    unfold Prep.pushPut at hpush
    obtain ⟨⟨s,h1⟩,-,hpush⟩ := bind_eq_ok.1 hpush
    dsimp only at hpush
    split at hpush
    · cases hpush
    · obtain rfl := Except.ok.inj hpush
      exact ⟨_,_,congrArg ShardWork.ops (work_setWork_self _ _ _ _),rfl⟩
  rcases hrest with rfl | ⟨-,rfl⟩ | ⟨doc',hpush⟩
  · exact ⟨_,_,congrArg ShardWork.ops (work_setWork_self _ _ _ _),rfl⟩
  · exact ⟨_,_,congrArg ShardWork.ops (work_setWork_self _ _ _ _),rfl⟩
  · exact hput hpush

/-- A record reads back exactly if its key and its value are shorter than their length fields count; of the records that
the write path logs these are the ones under ids shorter than 65536 bytes. -/
theorem logged_decodes_iff (op : WalOp) (hprep : prepareOne env nanos now p m = .ok p') :
    (WalOp.decode op.encodeInto = .ok op ↔ op.Fits) ∧ ∃ front logged,(p'.work m.collection).ops = front++[logged] ∧
      (WalOp.decode logged.encodeInto = .ok logged ↔
        (asBytes m.docId).length < 2^16 ∧ ∀ key value,logged = .putInlined key value → value.length < 2^32) := by
  have hread : ∀ op : WalOp,WalOp.decode op.encodeInto = .ok op ↔ op.Fits := fun op => ⟨WalOp.decode_fits,WalOp.decode_encodeInto⟩
  obtain ⟨h,front,logged,hops,hkey⟩ := prepareOne_logs hprep
  refine ⟨hread op,front,logged,hops,(hread logged).trans ?_⟩
  rw [← assigned_length h nanos m.docId]
  exact ⟨fun hfits => ⟨hfits.1 _ hkey,hfits.2⟩,fun hshort => WalOp.fits_of_key hkey hshort.1 hshort.2⟩

theorem prepareOne_delete {key : String} (hkey : key ≠ "") :
    prepareOne plainEnv 0 1 ⟨oneCollection "c",∅,[]⟩ (.delete "c" key) =
      .ok ((⟨oneCollection "c",∅,[key]⟩ : Prep Unit).pushDelete plainEnv.gate 1 "c" key) := by
  simp [prepareOne,resolveDoc,assignId,BatchMutation.docId,hkey,bind,Except.bind,pure,Except.pure]

theorem logged_shortKey : ∃ front op,
    (((⟨oneCollection "c",∅,["k"]⟩ : Prep Unit).pushDelete plainEnv.gate 1 "c" "k").work "c").ops = front++[op] ∧
      WalOp.decode op.encodeInto = .ok op := by
  have hkey : "k" ≠ "" := by decide
  obtain ⟨-,front,op,hops,hread⟩ := logged_decodes_iff (.beginTx 0) (prepareOne_delete hkey)
  refine ⟨front,op,hops,hread.2 ⟨by decide,fun key value hop => ?_⟩⟩
  have hlast : front++[op] = []++[WalOp.delete "k" 1] := hops.symm
  obtain ⟨-,hone⟩ := List.append_inj' hlast rfl
  cases hop.symm.trans (List.cons.inj hone).1

/-- The id has 65536 bytes. The record of its delete reads back as the delete of another id. -/
theorem logged_longKey : ∃ p',prepareOne plainEnv 0 1 ⟨oneCollection "c",∅,[]⟩ (.delete "c" Session.longKey) = .ok p' ∧
    (p'.work "c").ops = [.delete Session.longKey 1] ∧
    WalOp.decode (WalOp.delete Session.longKey 1).encodeInto ≠ .ok (.delete Session.longKey 1) := by
  refine ⟨_,prepareOne_delete Session.longKey_ne_empty,congrArg ShardWork.ops (work_setWork_self _ _ _ _),fun h => ?_⟩
  have hfits := (WalOp.decode_fits h).1 Session.longKey rfl
  rw [Session.longKey_length] at hfits
  omega

end Hako

end HakoDB
