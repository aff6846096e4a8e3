import HakoDB.Query.Executor

/-! What the lanes of the executor have in common: stopping early leaves the page as it is, and the lanes of
a plan that the index satisfies show the rows of the scan. -/
namespace HakoDB
open ByteCodec HashMap

variable {env : QueryEnv} {s : StorageEngine} {p : QueryPlan}

theorem decodeUntil_none (rows : Rows) (out : Docs) :
    decodeUntil env s p none rows out = out++rows.filterMap (decodeRow env s p) := by
  induction rows generalizing out with
  | nil => simp [decodeUntil]
  | cons row rows ih => cases h : decodeRow env s p row <;> simp [decodeUntil,h,ih]

/-- The rows that the small lane leaves out are not of the page. -/
theorem take_decodeUntil (n : ℕ) (rows : Rows) (out : Docs) :
    (decodeUntil env s p (some n) rows out).take n = (out++rows.filterMap (decodeRow env s p)).take n := by
  induction rows generalizing out with
  | nil => simp [decodeUntil]
  | cons row rows ih =>
    have hcons : out++(row::rows).filterMap (decodeRow env s p) =
        (out++(decodeRow env s p row).toList)++rows.filterMap (decodeRow env s p) := by
      cases h : decodeRow env s p row <;> simp [h]
    rw [hcons,decodeUntil]
    simp only [Option.any_some,decide_eq_true_eq]
    split_ifs with hfull
    · exact (List.take_append_of_le_length hfull).symm
    · exact ih _

/-- The page of the plan ends below the largest number. -/
def QueryPlan.PageFits (p : QueryPlan) : Prop := ∀ l,p.limit = some l → l.toNat+(p.offset.getD 0).toNat < 2^64

variable {α : Type} {xs ys : List α} {β : Type} {rows : Rows}

theorem QueryPlan.cut_congr (hnone : p.limit = none → xs = ys)
    (hsome : ∀ l,p.limit = some l → xs.take (l.toNat+p.skipLater) = ys.take (l.toNat+p.skipLater)) :
    p.cut xs = p.cut ys := by
  unfold QueryPlan.cut takeUpTo
  cases hl : p.limit with
  | none => rw [hnone hl]
  | some l =>
    have h := congrArg (List.drop p.skipLater) (hsome l hl)
    rw [List.drop_take,List.drop_take,Nat.add_sub_cancel] at h
    exact h

theorem QueryPlan.skipLater_le (p : QueryPlan) : p.skipLater ≤ (p.offset.getD 0).toNat := by
  unfold QueryPlan.skipLater
  split <;> simp

theorem QueryPlan.le_earlyNeed (hfits : p.PageFits) {n : ℕ} (hn : p.earlyNeed = some n) {l : UInt64} (hl : p.limit = some l) :
    l.toNat+p.skipLater ≤ n := by
  unfold QueryPlan.earlyNeed at hn
  split at hn
  · rw [hl,Option.map_some,Option.some.injEq] at hn
    have hsum := hfits l hl
    have hskip := p.skipLater_le
    rw [← hn,UInt64.toNat_add,Nat.mod_eq_of_lt (by simpa using hsum)]
    omega
  · cases hn

theorem QueryPlan.earlyNeed_eq_none (hl : p.limit = none) : p.earlyNeed = none := by
  unfold QueryPlan.earlyNeed
  rw [hl,Option.map_none,ite_self]

/-- A list that agrees with another up to the early need gives the same page. -/
theorem QueryPlan.cut_of_earlyNeed (hfits : p.PageFits) (hnone : p.earlyNeed = none → xs = ys)
    (hsome : ∀ n,p.earlyNeed = some n → xs.take n = ys.take n) : p.cut xs = p.cut ys := by
  refine QueryPlan.cut_congr (fun hl => hnone (QueryPlan.earlyNeed_eq_none hl)) fun l hl => ?_
  cases hneed : p.earlyNeed with
  | none => rw [hnone hneed]
  | some n =>
    have hle := QueryPlan.le_earlyNeed hfits hneed hl
    have h := congrArg (List.take (l.toNat+p.skipLater)) (hsome n hneed)
    rwa [List.take_take,List.take_take,Nat.min_eq_left hle] at h

theorem take_map_decodeUntil (f : String × HakoDoc → β) (n : ℕ) (rows : Rows) :
    ((decodeUntil env s p (some n) rows []).map f).take n = ((rows.filterMap (decodeRow env s p)).map f).take n := by
  rw [← List.map_take,← List.map_take,take_decodeUntil,List.nil_append]

theorem executeSmall_of_ordered (hord : p.unsorted = false) (hfits : p.PageFits) (rows : Rows) :
    executeSmall env s p rows = p.cut (runTask env s p rows) := by
  unfold executeSmall runTask
  rw [hord]
  refine QueryPlan.cut_of_earlyNeed hfits (fun hneed => ?_) fun n hneed => ?_
  · rw [hneed,decodeUntil_none]
    rfl
  · rw [hneed]
    exact take_map_decodeUntil _ n rows

/-- The row can be read and decoded. -/
def Readable (env : QueryEnv) (s : StorageEngine) (row : String × Pointer) : Prop :=
  ∃ bytes doc,s.readPointer env.zstd row.2 = .ok (some bytes) ∧ HakoDoc.decode bytes = some doc

theorem readRows_eq (hread : ∀ row ∈ rows,∃ b,s.readPointer env.zstd row.2 = .ok b) :
    readRows env s rows = .ok (rows.filterMap (rowBytes env s)) := by
  induction rows with
  | nil => rfl
  | cons row rows ih =>
    obtain ⟨b,hb⟩ := hread row List.mem_cons_self
    have hrest := ih fun r hr => hread r (List.mem_cons_of_mem row hr)
    unfold readRows at hrest ⊢
    obtain ⟨found,hfound,heq⟩ := bind_eq_ok.1 hrest
    have hids : found.filterMap (fun x => x) = rows.filterMap (rowBytes env s) := Except.ok.inj heq
    simp only [List.mapM_cons,hb,hfound]
    cases b <;> simp [bind,Except.bind,pure,Except.pure,rowBytes,hb,hids]

theorem filterMap_take_of_isSome {f : α → Option β} (h : ∀ x ∈ xs,(f x).isSome) (n : ℕ) :
    (xs.take n).filterMap f = (xs.filterMap f).take n := by
  induction xs generalizing n with
  | nil => simp
  | cons x xs ih =>
    obtain ⟨y,hy⟩ := Option.isSome_iff_exists.1 (h x List.mem_cons_self)
    cases n with
    | zero => simp
    | succ n => simp [hy,ih fun z hz => h z (List.mem_cons_of_mem x hz)]

theorem decodeRow_of_satisfied (hsat : p.filtersSatisfiedByIndex = true) (row : String × Pointer) :
    decodeRow env s p row = (rowBytes env s row).bind fun r => (HakoDoc.decode r.2).map fun doc => (r.1,doc) := by
  simp [decodeRow,hsat]

theorem executeSatisfiedParallel_eq (hsat : p.filtersSatisfiedByIndex = true) (hfits : p.PageFits)
    (hread : ∀ row ∈ rows,Readable env s row) :
    executeSatisfiedParallel env s p rows = .ok (p.cut (runTask env s p rows)) := by
  have hrows := readRows_eq fun row hrow => let ⟨bytes,_,hb,_⟩ := hread row hrow; ⟨some bytes,hb⟩
  have hdecodes : ∀ r ∈ rows.filterMap (rowBytes env s),((HakoDoc.decode r.2).map fun doc => (r.1,doc)).isSome := by
    intro r hr
    obtain ⟨row,hrow,hbytes⟩ := List.mem_filterMap.1 hr
    obtain ⟨bytes,doc,hb,hdoc⟩ := hread row hrow
    rw [rowBytes,hb] at hbytes
    obtain rfl := Option.some.inj hbytes
    simp [hdoc]
  have htask : runTask env s p rows =
      showRows s p ((rows.filterMap (rowBytes env s)).filterMap fun r => (HakoDoc.decode r.2).map fun doc => (r.1,doc)) := by
    rw [runTask,List.filterMap_filterMap]
    exact congrArg (showRows s p) (List.filterMap_congr fun row _ => decodeRow_of_satisfied hsat row)
  unfold executeSatisfiedParallel
  rw [hrows]
  refine congrArg Except.ok (QueryPlan.cut_of_earlyNeed hfits (fun hneed => ?_) fun n hneed => ?_)
  · simp only [hneed,htask]
  · simp only [hneed,htask,showRows,← List.map_take,filterMap_take_of_isSome hdecodes,List.take_take,Nat.min_self]

/-- All three lanes of a plan that the index satisfies show its rows in the order of the scan. -/
theorem executeLanes_of_satisfied (hsat : p.satisfied = true) (hfits : p.PageFits)
    (hread : ∀ row ∈ rows,Readable env s row) :
    executeLanes env s p rows = .ok (p.cut (runTask env s p rows)) := by
  obtain ⟨hord,hfil⟩ := (Bool.and_eq_true _ _).mp hsat
  have hsorted : p.unsorted = false := by simp [QueryPlan.unsorted,hord]
  unfold executeLanes
  simp only [QueryPlan.takesTop,hsorted,hsat,Bool.false_and,Bool.false_eq_true,if_false,if_true]
  split_ifs with hempty hsmall
  · have hrows : rows = [] := List.isEmpty_iff.1 hempty
    subst hrows
    cases hl : p.limit <;> simp [runTask,showRows,QueryPlan.cut,takeUpTo,hl]
  · rw [executeSmall_of_ordered hsorted hfits]
  · exact executeSatisfiedParallel_eq hfil hfits hread

end HakoDB
