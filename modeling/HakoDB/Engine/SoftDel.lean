import HakoDB.Engine.WriteBatch
import HakoDB.Storage.Crash

/-! The sweep over the records of soft-deleted documents. The records are summed up from the oldest on, and what lies behind
the caps is evicted, which is the newest. -/
namespace HakoDB
open ByteCodec HashMap

structure SoftDelEntry where
  col : String
  id : String
  deletedAt : Int64
  scheduledAt : Int64
  bytes : ℕ

abbrev SoftDelRecord := String × SoftDelEntry

namespace StorageEngine
variable (crc : Bytes → UInt32) (zstd : Option Zstd) (orders : TableOrders)

def decodeRecord (s : StorageEngine) (ptr : Pointer) : Option SoftDelEntry :=
  match s.readPointer zstd ptr with
  | .ok (some bytes) => do
    let doc ← HakoDoc.decode bytes
    match ← doc.get "col",← doc.get "id" with
    | .string col,.string id =>
      match ← doc.get "deleted_at",← doc.get "scheduled_at" with
      | .int deletedAt,.int scheduledAt =>
        match ← doc.get "payload" with
        | .binary payload => some ⟨col,id,deletedAt,scheduledAt,payload.length⟩
        | _ => none
      | _,_ => none
    | _,_ => none
  | _ => none

/-- The records, from the oldest on. -/
def softDelRecords (s : StorageEngine) : List SoftDelRecord :=
  ((orders.index.entries s.index).filterMap fun e => (s.decodeRecord zstd e.2).map fun r => (e.1,r)).insertionSort
    fun a b => a.2.deletedAt.toInt ≤ b.2.deletedAt.toInt

end StorageEngine

/-- What a record is counted with, its key and stamps included. -/
def SoftDelEntry.size (e : SoftDelEntry) : ℕ := e.bytes+96

def SoftDelEntry.due (now : Int64) (e : SoftDelEntry) : Bool := e.scheduledAt.toInt ≤ now.toInt

/-- The records whose time has not come. -/
def notDue (now : Int64) (records : List SoftDelRecord) : List SoftDelRecord := records.filter fun r => !r.2.due now

/-- The caps on the bytes and on the number of the records. -/
structure SoftDelCaps where
  maxBytes : UInt64
  maxCount : UInt64

namespace SoftDelCaps
variable (caps : SoftDelCaps)

/-- The loop over the records with its running sums. -/
def evict : List SoftDelRecord → ℕ → ℕ → List String
  | [],_,_ => []
  | (key,e)::records,total,count =>
    if caps.maxBytes.toNat < total+e.size ∨ caps.maxCount.toNat < count+1 then key::evict records (total+e.size) (count+1)
    else evict records (total+e.size) (count+1)

/-- The keys that a sweep removes: those evicted, and the others that are due. -/
def forget (now : Int64) (records : List SoftDelRecord) : List String :=
  let evicted := caps.evict records 0 0
  evicted++(records.filter fun r => r.2.due now && !evicted.contains r.1).map Prod.fst

/-- The records keep to the caps. -/
def Within (records : List SoftDelRecord) : Prop :=
  (records.map fun r => r.2.size).sum ≤ caps.maxBytes.toNat ∧ records.length ≤ caps.maxCount.toNat

instance (records : List SoftDelRecord) : Decidable (caps.Within records) := inferInstanceAs (Decidable (_ ∧ _))

end SoftDelCaps

/-- The parts of a list of that length, the last one maybe shorter. -/
def chunks {α : Type} (n : ℕ) (xs : List α) : List (List α) :=
  (List.range ((xs.length+n-1)/n)).map fun i => (xs.drop (i*n)).take n

/-- One pass at the time `now`; the records of its deletes have a stamp of their own. -/
def StorageEngine.sweepPass (crc : Bytes → UInt32) (zstd : Option Zstd) (orders : TableOrders) (instant : ℕ) (now stamp : Int64)
    (caps : SoftDelCaps) (chunk : ℕ) (s : StorageEngine) : StorageEngine :=
  (chunks (max chunk 1) (caps.forget now (s.softDelRecords zstd orders))).foldl
    (fun s keys => s.hardDeleteKeys crc instant stamp keys) s

theorem mem_chunks {α : Type} {n : ℕ} (hn : 0 < n) (xs : List α) (x : α) : (∃ c ∈ chunks n xs,x ∈ c) ↔ x ∈ xs := by
  simp only [chunks,List.mem_map,List.mem_range,exists_exists_and_eq_and]
  constructor
  · rintro ⟨i,-,hx⟩
    exact List.mem_of_mem_drop (List.mem_of_mem_take hx)
  · intro hx
    obtain ⟨j,hj,rfl⟩ := List.getElem_of_mem hx
    have hdiv := Nat.div_add_mod j n
    have hmod := Nat.mod_lt j hn
    refine ⟨j/n,?_,?_⟩
    · rw [Nat.lt_div_iff_mul_lt hn]
      have := Nat.mul_comm n (j/n)
      omega
    · rw [List.mem_take_iff_getElem]
      refine ⟨j%n,by rw [List.length_drop,Nat.mul_comm]; omega,?_⟩
      rw [List.getElem_drop]
      congr 1
      rw [Nat.mul_comm]
      exact hdiv

theorem StorageEngine.lookup_foldl_hardDeleteKeys (crc : Bytes → UInt32) (instant : ℕ) (stamp : Int64) (parts : List (List String))
    (s : StorageEngine) (k : String) :
    (parts.foldl (fun s keys => s.hardDeleteKeys crc instant stamp keys) s).index.lookup k =
      if ∃ c ∈ parts,k ∈ c then none else s.index.lookup k := by
  induction parts generalizing s with
  | nil => simp
  | cons keys parts ih =>
    have hone : (s.hardDeleteKeys crc instant stamp keys).index.lookup k = if k ∈ keys then none else s.index.lookup k := by
      by_cases hnil : keys = [] <;> simp [hardDeleteKeys,hnil,lookup_eraseAll]
    rw [List.foldl_cons,ih,hone]
    by_cases hk : k ∈ keys <;> simp [hk]

/-- A sweep removes what it means to forget and nothing else. -/
theorem StorageEngine.lookup_sweepPass (crc : Bytes → UInt32) (zstd : Option Zstd) (orders : TableOrders) (instant : ℕ)
    (now stamp : Int64) (caps : SoftDelCaps) (chunk : ℕ) (s : StorageEngine) (k : String) :
    (s.sweepPass crc zstd orders instant now stamp caps chunk).index.lookup k =
      if k ∈ caps.forget now (s.softDelRecords zstd orders) then none else s.index.lookup k := by
  rw [sweepPass,lookup_foldl_hardDeleteKeys]
  simp only [mem_chunks (Nat.lt_of_lt_of_le Nat.zero_lt_one (Nat.le_max_right chunk 1))]

namespace SoftDelCaps
variable {caps : SoftDelCaps} {records older newer : List SoftDelRecord} {r : SoftDelRecord} {total count : ℕ}

theorem Within.sublist (h : caps.Within records) (hsub : older.Sublist records) : caps.Within older :=
  ⟨((hsub.map _).sum_le_sum fun _ _ => Nat.zero_le _).trans h.1,hsub.length_le.trans h.2⟩

/-- Once a sum is over its cap, everything is evicted. -/
theorem evict_over (h : ¬(total ≤ caps.maxBytes.toNat ∧ count ≤ caps.maxCount.toNat)) :
    caps.evict records total count = records.map Prod.fst := by
  induction records generalizing total count with
  | nil => rfl
  | cons r records ih => rw [evict,if_pos (by omega),ih (by omega),List.map_cons]

/-- The first records that keep to the caps together stay, the others go. -/
theorem evict_split (records : List SoftDelRecord) (total count : ℕ)
    (h : total ≤ caps.maxBytes.toNat ∧ count ≤ caps.maxCount.toNat) : ∃ kept evicted,records = kept++evicted ∧
      caps.evict records total count = evicted.map Prod.fst ∧
      (total+(kept.map fun r => r.2.size).sum ≤ caps.maxBytes.toNat ∧ count+kept.length ≤ caps.maxCount.toNat) ∧
      ∀ r ∈ evicted.head?,¬(total+(kept.map fun r => r.2.size).sum+r.2.size ≤ caps.maxBytes.toNat ∧
        count+kept.length+1 ≤ caps.maxCount.toNat) := by
  induction records generalizing total count with
  | nil => exact ⟨[],[],rfl,rfl,by simpa using h,by simp⟩
  | cons r records ih =>
    by_cases hover : caps.maxBytes.toNat < total+r.2.size ∨ caps.maxCount.toNat < count+1
    · refine ⟨[],r::records,rfl,?_,by simpa using h,by simp; omega⟩
      rw [evict,if_pos hover,evict_over (by omega),List.map_cons]
    · obtain ⟨kept,evicted,rfl,hevict,hkept,hnext⟩ := ih (total+r.2.size) (count+1) (by omega)
      refine ⟨r::kept,evicted,rfl,by rw [evict,if_neg hover,hevict],?_,?_⟩
      · simp only [List.map_cons,List.sum_cons,List.length_cons]
        omega
      · intro e he hfits
        refine hnext e he ?_
        simp only [List.map_cons,List.sum_cons,List.length_cons] at hfits
        omega

theorem exists_split (caps : SoftDelCaps) (records : List SoftDelRecord) : ∃ kept evicted,records = kept++evicted ∧
    caps.evict records 0 0 = evicted.map Prod.fst ∧ caps.Within kept ∧ ∀ r ∈ evicted.head?,¬caps.Within (kept++[r]) := by
  obtain ⟨kept,evicted,hsplit,hevict,hkept,hnext⟩ := caps.evict_split records 0 0 (by omega)
  refine ⟨kept,evicted,hsplit,hevict,by simpa [Within] using hkept,fun r hr hwithin => hnext r hr ?_⟩
  simpa [Within] using hwithin

/-- A record and all older ones keep to the caps exactly if it stays. -/
theorem within_older_iff {kept evicted : List SoftDelRecord} (hkept : caps.Within kept)
    (hnext : ∀ r ∈ evicted.head?,¬caps.Within (kept++[r])) (h : kept++evicted = older++r::newer) :
    caps.Within (older++[r]) ↔ older.length < kept.length := by
  constructor
  · intro hwithin
    by_contra hlen
    obtain ⟨between,rfl⟩ : ∃ between,older = kept++between :=
      ⟨_,(List.prefix_iff_eq_append.1 (List.prefix_of_prefix_length_le (List.prefix_append kept evicted)
        (h ▸ List.prefix_append older _) (not_lt.1 hlen))).symm⟩
    rw [List.append_assoc,List.append_cancel_left_eq] at h
    cases between with
    | nil => exact hnext r (by simp [h]) (by simpa using hwithin)
    | cons e between =>
      refine hnext e (by simp [h]) (hwithin.sublist ?_)
      simp
  · intro hlen
    refine hkept.sublist (List.IsPrefix.sublist ?_)
    have hfront : older++[r] <+: kept++evicted := by
      rw [h]
      simp
    exact List.prefix_of_prefix_length_le hfront (List.prefix_append kept evicted) (by simpa using hlen)

end SoftDelCaps

theorem mem_take_iff_behind {α : Type} {front back : List α} (h : (front++back).Nodup) (n : ℕ) :
    (∀ r ∈ front++back,r ∈ back ↔ r ∈ (front++back).take n) ↔ (n = 0 ∧ back = []) ∨ (front = [] ∧ back.length ≤ n) := by
  constructor
  · intro hall
    cases n with
    | zero => exact .inl ⟨rfl,List.eq_nil_iff_forall_not_mem.2 fun r hr => by simpa using (hall r (by simp [hr])).1 hr⟩
    | succ n =>
      have hfront : front = [] := by
        cases front with
        | nil => rfl
        | cons a front =>
          have ha := (hall a (by simp)).2 (by simp)
          rw [List.cons_append,List.nodup_cons,List.mem_append] at h
          exact absurd (.inr ha) h.1
      subst hfront
      rw [List.nil_append] at h hall
      refine .inr ⟨rfl,?_⟩
      have hsub : back ⊆ back.take (n+1) := fun r hr => (hall r hr).1 hr
      have hlen := (List.subperm_of_subset h hsub).length_le
      rw [List.length_take] at hlen
      omega
  · rintro (⟨rfl,rfl⟩ | ⟨rfl,hlen⟩) r hr
    · simp
    · simp [List.take_of_length_le hlen]

namespace StorageEngine
variable {crc : Bytes → UInt32} {zstd : Option Zstd} {orders : TableOrders} {s : StorageEngine}

theorem nodup_softDelRecords : ((s.softDelRecords zstd orders).map Prod.fst).Nodup := by
  have hperm := (List.perm_insertionSort (fun a b : SoftDelRecord => a.2.deletedAt.toInt ≤ b.2.deletedAt.toInt)
    ((orders.index.entries s.index).filterMap fun e => (s.decodeRecord zstd e.2).map fun r => (e.1,r))).map Prod.fst
  refine hperm.nodup_iff.2 ((orders.index.nodup s.index).sublist ?_)
  rw [List.map_filterMap]
  generalize orders.index.entries s.index = entries
  induction entries with
  | nil => simp
  | cons e entries ih =>
    cases hdecode : s.decodeRecord zstd e.2 with
    | none => simpa [hdecode] using ih.cons e.1
    | some r => simpa [hdecode] using ih

theorem lookup_softDelRecords {r : SoftDelRecord} (h : r ∈ s.softDelRecords zstd orders) : s.index.lookup r.1 ≠ none := by
  have hmem := (List.mem_insertionSort _).1 h
  obtain ⟨⟨k,p⟩,hentry,hdecode⟩ := List.mem_filterMap.1 hmem
  obtain ⟨e,-,rfl⟩ := Option.map_eq_some_iff.1 hdecode
  rw [(orders.index.mem_entries s.index k p).1 hentry]
  simp

end StorageEngine

theorem SoftDelCaps.exists_of_mem_forget {caps : SoftDelCaps} {now : Int64} {records : List SoftDelRecord} {k : String}
    (h : k ∈ caps.forget now records) : ∃ r ∈ records,r.1 = k := by
  obtain ⟨kept,evicted,hsplit,hevict,-⟩ := caps.exists_split records
  rw [forget,hevict,List.mem_append] at h
  rcases h with h | h
  · obtain ⟨r,hr,rfl⟩ := List.mem_map.1 h
    exact ⟨r,hsplit ▸ List.mem_append_right kept hr,rfl⟩
  · obtain ⟨r,hr,rfl⟩ := List.mem_map.1 h
    exact ⟨r,List.mem_of_mem_filter hr,rfl⟩

theorem SoftDelCaps.mem_forget {caps : SoftDelCaps} {now : Int64} {records evicted : List SoftDelRecord}
    (hnodup : (records.map Prod.fst).Nodup) (hevict : caps.evict records 0 0 = evicted.map Prod.fst)
    (hsub : evicted ⊆ records) {r : SoftDelRecord} (hr : r ∈ records) :
    r.1 ∈ caps.forget now records ↔ r.2.due now ∨ r ∈ evicted := by
  have hkey : r.1 ∈ evicted.map Prod.fst ↔ r ∈ evicted := by
    constructor
    · intro h
      obtain ⟨e,he,heq⟩ := List.mem_map.1 h
      rwa [← List.inj_on_of_nodup_map hnodup (hsub he) hr heq]
    · exact List.mem_map_of_mem
  have hmem : r.1 ∈ (records.filter fun r => r.2.due now && !(evicted.map Prod.fst).contains r.1).map Prod.fst ↔
      r.2.due now ∧ r.1 ∉ evicted.map Prod.fst := by
    constructor
    · intro h
      obtain ⟨e,he,heq⟩ := List.mem_map.1 h
      obtain ⟨he,hdue⟩ := List.mem_filter.1 he
      rw [List.inj_on_of_nodup_map hnodup he hr heq] at hdue
      simpa using hdue
    · intro h
      exact List.mem_map_of_mem (List.mem_filter.2 ⟨hr,by simpa using h⟩)
  rw [forget,hevict,List.mem_append,hmem,hkey]
  tauto

/-- The keys of the records that are due, and of so many oldest others. -/
def oldest (now : Int64) (n : ℕ) (records : List SoftDelRecord) : List String :=
  ((records.filter fun r => r.2.due now)++(notDue now records).take n).map Prod.fst

theorem mem_oldest {now : Int64} {n : ℕ} {records : List SoftDelRecord} (hnodup : (records.map Prod.fst).Nodup)
    {r : SoftDelRecord} (hr : r ∈ records) : r.1 ∈ oldest now n records ↔ r.2.due now ∨ r ∈ (notDue now records).take n := by
  constructor
  · intro h
    obtain ⟨e,he,heq⟩ := List.mem_map.1 h
    have he' : e ∈ records ∧ (e.2.due now ∨ e ∈ (notDue now records).take n) := by
      rcases List.mem_append.1 he with he | he
      · exact ⟨List.mem_of_mem_filter he,.inl (List.mem_filter.1 he).2⟩
      · exact ⟨List.mem_of_mem_filter (List.mem_of_mem_take he),.inr he⟩
    rw [← List.inj_on_of_nodup_map hnodup he'.1 hr heq]
    exact he'.2
  · rintro (hdue | htake)
    · exact List.mem_map_of_mem (List.mem_append_left _ (List.mem_filter.2 ⟨hr,hdue⟩))
    · exact List.mem_map_of_mem (List.mem_append_right _ htake)

namespace SoftDelCaps
variable {caps : SoftDelCaps} {now : Int64} {records : List SoftDelRecord}

theorem split_cases {kept evicted older newer : List SoftDelRecord} {r : SoftDelRecord} (h : kept++evicted = older++r::newer) :
    older.length < kept.length ∧ r ∈ kept ∨ kept.length ≤ older.length ∧ r ∈ evicted := by
  rcases List.append_eq_append_iff.1 h with ⟨between,rfl,rfl⟩ | ⟨between,rfl,hnewer⟩
  · exact .inr (by simp)
  · cases between with
    | nil =>
      obtain rfl : r::newer = evicted := hnewer
      exact .inr (by simp)
    | cons e between =>
      obtain ⟨rfl,-⟩ := List.cons.inj hnewer
      exact .inl (by simp)

theorem forget_oldest_iff (hnodup : (records.map Prod.fst).Nodup) :
    (∃ n,(∀ r ∈ records,r.1 ∈ caps.forget now records ↔ r.1 ∈ oldest now n records) ∧
      caps.Within ((notDue now records).drop n) ∧ ∀ m < n,¬caps.Within ((notDue now records).drop m)) ↔
      (∀ older r newer,records = older++r::newer → r.2.due now = false → caps.Within (older++[r])) ∨
        (∀ older r newer,records = older++r::newer → r.2.due now = false → ¬caps.Within (older++[r])) ∧
          ∀ r ∈ (notDue now records).getLast?,¬caps.Within [r] := by
  obtain ⟨kept,evicted,hsplit,hevict,hkept,hnext⟩ := caps.exists_split records
  have hsub : evicted ⊆ records := fun r hr => hsplit ▸ List.mem_append_right kept hr
  have hdistinct : (kept++evicted).Nodup := hsplit ▸ List.Nodup.of_map Prod.fst hnodup
  have hlive : notDue now records = notDue now kept++notDue now evicted := by rw [hsplit,notDue,List.filter_append]; rfl
  have hlivedistinct : (notDue now kept++notDue now evicted).Nodup := hlive ▸ (hsplit ▸ hdistinct).filter _
  -- of the records that are not due, the older ones stay and the newer ones go
  have hgone : ∀ n,(∀ r ∈ records,r.1 ∈ caps.forget now records ↔ r.1 ∈ oldest now n records) ↔
      (n = 0 ∧ notDue now evicted = []) ∨ (notDue now kept = [] ∧ (notDue now evicted).length ≤ n) := by
    intro n
    rw [← mem_take_iff_behind hlivedistinct n,← hlive]
    have hrecord : ∀ r ∈ records,(r.1 ∈ caps.forget now records ↔ r.1 ∈ oldest now n records) ↔
        (r.2.due now ∨ r ∈ evicted ↔ r.2.due now ∨ r ∈ (notDue now records).take n) := fun r hr => by
      rw [mem_forget hnodup hevict hsub hr,mem_oldest hnodup hr]
    constructor
    · intro h r hr
      obtain ⟨hr,hdue⟩ := List.mem_filter.1 hr
      have hiff := (hrecord r hr).1 (h r hr)
      simp_all [notDue]
    · intro h r hr
      rw [hrecord r hr]
      by_cases hdue : r.2.due now
      · simp [hdue]
      · have hiff := h r (List.mem_filter.2 ⟨hr,by simpa using hdue⟩)
        simp_all [notDue]
  have hfits : (∀ older r newer,records = older++r::newer → r.2.due now = false → caps.Within (older++[r])) ↔
      notDue now evicted = [] := by
    constructor
    · intro h
      refine List.filter_eq_nil_iff.2 fun r hr hdue => ?_
      obtain ⟨a,b,rfl⟩ := List.append_of_mem hr
      have hfit := h (kept++a) r b (by simpa using hsplit) (by simpa using hdue)
      have hlen := (within_older_iff hkept hnext (List.append_assoc kept a (r::b)).symm).1 hfit
      simp at hlen
    · intro h older r newer heq hdue
      rcases split_cases (hsplit.symm.trans heq) with ⟨hlen,-⟩ | ⟨-,hr⟩
      · exact (within_older_iff hkept hnext (hsplit.symm.trans heq)).2 hlen
      · exact absurd hdue (by simpa using List.filter_eq_nil_iff.1 h r hr)
  have hmisses : (∀ older r newer,records = older++r::newer → r.2.due now = false → ¬caps.Within (older++[r])) ↔
      notDue now kept = [] := by
    constructor
    · intro h
      refine List.filter_eq_nil_iff.2 fun r hr hdue => ?_
      obtain ⟨a,b,rfl⟩ := List.append_of_mem hr
      refine h a r (b++evicted) (by simpa using hsplit) (by simpa using hdue) (hkept.sublist ?_)
      simp
    · intro h older r newer heq hdue hfit
      have hlen := (within_older_iff hkept hnext (hsplit.symm.trans heq)).1 hfit
      rcases split_cases (hsplit.symm.trans heq) with ⟨-,hr⟩ | ⟨hle,-⟩
      · exact absurd hdue (by simpa using List.filter_eq_nil_iff.1 h r hr)
      · omega
  rw [hfits,hmisses]
  simp only [hgone]
  rw [hlive]
  have hstay : caps.Within (notDue now kept) := hkept.sublist List.filter_sublist
  generalize notDue now kept = front at hstay
  generalize notDue now evicted = back
  constructor
  · rintro ⟨n,⟨-,hback⟩ | ⟨rfl,hlen⟩,-,hleast⟩
    · exact .inl hback
    · refine .inr ⟨rfl,fun r hr => ?_⟩
      obtain ⟨before,rfl⟩ := List.getLast?_eq_some_iff.1 hr
      have hone := hleast before.length (by simp at hlen; omega)
      simpa using hone
  · rintro (rfl | ⟨rfl,hlast⟩)
    · exact ⟨0,.inl ⟨rfl,rfl⟩,by simpa using hstay,by simp⟩
    · refine ⟨back.length,.inr ⟨rfl,le_rfl⟩,by simp [Within],fun m hm hfit => ?_⟩
      obtain ⟨r,hr⟩ : ∃ r,(back.drop m).getLast? = some r :=
        Option.isSome_iff_exists.1 (by simp [List.getLast?_isSome]; omega)
      obtain ⟨before,hdrop⟩ := List.getLast?_eq_some_iff.1 hr
      refine hlast r ?_ (hfit.sublist (by simp [hdrop]))
      rw [List.nil_append,← List.take_append_drop m back,hdrop]
      simp

end SoftDelCaps

/-- A pass removes what is due and the oldest others, no more than the caps ask for, exactly if every record that is not
due keeps to the caps together with all older ones, or if none does and the newest is too much alone. -/
theorem StorageEngine.sweepPass_oldest_iff (crc : Bytes → UInt32) (zstd : Option Zstd) (orders : TableOrders) (instant : ℕ)
    (now stamp : Int64) (caps : SoftDelCaps) (chunk : ℕ) (s : StorageEngine) :
    (∃ n,(∀ k,(s.sweepPass crc zstd orders instant now stamp caps chunk).index.lookup k =
        if k ∈ oldest now n (s.softDelRecords zstd orders) then none else s.index.lookup k) ∧
        caps.Within ((notDue now (s.softDelRecords zstd orders)).drop n) ∧
        ∀ m < n,¬caps.Within ((notDue now (s.softDelRecords zstd orders)).drop m)) ↔
      (∀ older r newer,s.softDelRecords zstd orders = older++r::newer → r.2.due now = false → caps.Within (older++[r])) ∨
        (∀ older r newer,s.softDelRecords zstd orders = older++r::newer → r.2.due now = false → ¬caps.Within (older++[r])) ∧
          ∀ r ∈ (notDue now (s.softDelRecords zstd orders)).getLast?,¬caps.Within [r] := by
  rw [← SoftDelCaps.forget_oldest_iff nodup_softDelRecords]
  refine exists_congr fun n => and_congr_left fun _ => ?_
  simp only [lookup_sweepPass]
  constructor
  · intro h r hr
    have hk := h r.1
    have hthere := lookup_softDelRecords hr
    split_ifs at hk <;> simp_all
  · intro h k
    by_cases hk : ∃ r ∈ s.softDelRecords zstd orders,r.1 = k
    · obtain ⟨r,hr,rfl⟩ := hk
      simp only [h r hr]
    · have habsent : k ∉ oldest now n (s.softDelRecords zstd orders) := fun hold => hk ?_
      · rw [if_neg fun hforget => hk (SoftDelCaps.exists_of_mem_forget hforget),if_neg habsent]
      · obtain ⟨r,hr,rfl⟩ := List.mem_map.1 hold
        rcases List.mem_append.1 hr with hr | hr
        · exact ⟨r,List.mem_of_mem_filter hr,rfl⟩
        · exact ⟨r,List.mem_of_mem_filter (List.mem_of_mem_take hr),rfl⟩

/-- Two documents deleted one after the other, both to be kept until the time 1000. -/
def twoDeleted : StorageEngine :=
  {StorageEngine.fresh .default softdelCollection none 0 with
    index := insertAll ∅ [("t/1",.inlined (buildRecord "t" "1" 10 1000 []).encode),
      ("t/2",.inlined (buildRecord "t" "2" 20 1000 []).encode)]}

/-- Room for one record: the newer one goes. -/
theorem sweepPass_twoDeleted :
    let swept := twoDeleted.sweepPass (fun _ => 0) none byKeyOrders 0 100 100 ⟨1000,1⟩ 1000
    (swept.index.lookup "t/1").isSome = true ∧ (swept.index.lookup "t/2").isSome = false := by
  decide +kernel

end HakoDB
