import HakoDB.Document.Views
import HakoDB.Lib.GroupFold
import HakoDB.Lib.HashMap
import HakoDB.Lib.OrderedMap
import HakoDB.Lib.SaturatingSum
import HakoDB.Query.ValueOrder

/-! The group stage of a pipeline: the rows of one key go through the accumulators one after another, and each group becomes
a document. Integers are summed within the bounds of a 64-bit number, so that the order of the rows can show. -/
namespace HakoDB
open GroupFold SaturatingSum

inductive Accum
  | count
  | sum (field : String)
  | min (field : String)
  | max (field : String)
  | avg (field : String)
  deriving DecidableEq

structure AccumSpec where
  out : String
  op : Accum
  deriving DecidableEq

/-- The arithmetic of doubles, which is not looked into. -/
structure FloatOps where
  add : F64 → F64 → F64
  div : F64 → F64 → F64
  ofCount : ℕ → F64

def i64Min : ℤ := -2^63

def i64Max : ℤ := 2^63-1

def saturatingAdd (a b : Int64) : Int64 := Int64.ofInt (clamp i64Min i64Max (a.toInt+b.toInt))

theorem toInt_saturatingAdd (a b : Int64) : (saturatingAdd a b).toInt = clamp i64Min i64Max (a.toInt+b.toInt) := by
  have hbounds : i64Min ≤ i64Max := by decide
  obtain ⟨hlo,hhi⟩ := clamp_within hbounds (a.toInt+b.toInt)
  exact Int64.toInt_ofInt_of_le hlo (Int.lt_add_one_of_le hhi)

/-- The running state of an accumulator. -/
structure AccState where
  rows : ℕ
  numeric : ℕ
  sumF : F64
  sumI : Int64
  allInt : Bool
  min : Option Value
  max : Option Value

/-- A value takes the place of the one that is kept if it compares so with it. -/
def improve (ord : Ordering) (best : Option Value) (v : Value) : Option Value :=
  if best.all fun m => v.cmp m = ord then some v else best

namespace AccState

def new : AccState := ⟨0,0,⟨0⟩,0,true,none,none⟩

variable (fl : FloatOps)

def pushNumber (s : AccState) : Value → AccState
  | .int i => {s with numeric := s.numeric+1, sumI := saturatingAdd s.sumI i, sumF := fl.add s.sumF (F64.ofInt64 i)}
  | .float f => {s with numeric := s.numeric+1, allInt := false, sumF := fl.add s.sumF f}
  | _ => s

def pushValue (s : AccState) (v : Value) : Accum → AccState
  | .count => s
  | .sum _ | .avg _ => s.pushNumber fl v
  | .min _ => {s with min := improve .lt s.min v}
  | .max _ => {s with max := improve .gt s.max v}

def push (s : AccState) (op : Accum) (doc : HakoDoc) : AccState :=
  let s := {s with rows := s.rows+1}
  match op with
  | .count => s
  | .sum field | .min field | .max field | .avg field =>
    match doc.getPath field with
    | some v => s.pushValue fl v op
    | none => s

def value (s : AccState) : Accum → Value
  | .count => .int (Int64.ofNat s.rows)
  | .sum _ => if s.numeric = 0 then .int 0 else if s.allInt then .int s.sumI else .float s.sumF
  | .avg _ => if s.numeric = 0 then .null else .float (fl.div s.sumF (fl.ofCount s.numeric))
  | .min _ => s.min.getD .null
  | .max _ => s.max.getD .null

end AccState

/-- A row without the key comes before all values. -/
def cmpGroupKey : Option Value → Option Value → Ordering
  | none,none => .eq
  | none,some _ => .lt
  | some _,none => .gt
  | some v,some w => v.cmp w

section stage
variable (fl : FloatOps) (debug : Value → String) (key : Option String) (accums : List AccumSpec)

def groupKey (row : String × HakoDoc) : Option Value := key.bind fun path => row.2.getPath path

def pushRow (row : String × HakoDoc) (states : List AccState) : List AccState :=
  List.zipWith (fun s spec => s.push fl spec.op row.2) states accums

/-- The groups by their keys, as the tree keeps them. -/
def groups (rows : List (String × HakoDoc)) : List (Option Value × List AccState) :=
  gather cmpGroupKey (groupKey key) (pushRow fl accums) (accums.map fun _ => AccState.new) rows

def groupId : Value → String
  | .string s => s
  | v => debug v

/-- The last segment of the path names the key. -/
def keyField : Option String := key.map fun k => (pathSegments k).getLast?.getD k

def groupBase (k : Option Value) : HakoDoc :=
  match keyField key with
  | some name => HakoDoc.empty.insert name (k.getD .null)
  | none => .empty

def groupDoc (k : Option Value) (states : List AccState) : HakoDoc :=
  (states.zip accums).foldl (fun doc e => doc.insert e.2.out (e.1.value fl e.2.op)) (groupBase key k)

def groupStage (rows : List (String × HakoDoc)) : List (String × HakoDoc) :=
  (groups fl key accums rows).map fun g => (groupId debug (g.1.getD (.string "$all")),groupDoc fl key accums g.1 g.2)

end stage

namespace Value

/-- Neither doubles nor nested values, binaries or references. -/
def isPlain : Value → Bool
  | null | bool _ | int _ | string _ | timestamp _ => true
  | _ => false

variable {a b c : Value}

theorem builtFrom_plain (h : a.isPlain) : BuiltFrom {v | v.isPlain} a := by
  refine .leaf ?_ ?_ h
  · cases a <;> first | rfl | cases h
  · cases a <;> first | rfl | cases h

theorem unmixed_plain : Unmixed {v | v.isPlain} := fun _ _ h => nomatch h

theorem cmp_lt_trans (ha : a.isPlain) (hb : b.isPlain) (hc : c.isPlain) {ord : Ordering} (hab : a.cmp b = ord)
    (hbc : b.cmp c = ord) : a.cmp c = ord :=
  ((cmp_fits unmixed_plain (builtFrom_plain ha) (builtFrom_plain hb) (builtFrom_plain hc)).both (hab.trans hbc.symm)).trans hab

theorem cmp_eq_iff (ha : a.isPlain) (hb : b.isPlain) : a.cmp b = .eq ↔ a = b :=
  ⟨eq_of_cmp unmixed_plain (builtFrom_plain ha) (builtFrom_plain hb),fun h => h ▸ cmp_self a⟩

end Value

def PlainKey (k : Option Value) : Prop := ∀ v ∈ k,v.isPlain

theorem orderOn_cmpGroupKey : OrderOn cmpGroupKey {k | PlainKey k} where
  eq_iff := by
    intro a ha b hb
    cases a <;> cases b
    · exact ⟨fun _ => rfl,fun _ => rfl⟩
    · simp [cmpGroupKey]
    · simp [cmpGroupKey]
    · rw [Option.some.injEq]
      exact Value.cmp_eq_iff (ha _ rfl) (hb _ rfl)
  swap := by
    intro a _ b _
    cases a <;> cases b
    · rfl
    · rfl
    · rfl
    · exact Value.cmp_swap _ _
  trans := by
    intro a ha b hb c hc hab hbc
    cases c with
    | none => cases b <;> cases hbc
    | some c =>
      cases a with
      | none => rfl
      | some a =>
        cases b with
        | none => cases hab
        | some b => exact Value.cmp_lt_trans (ha a rfl) (hb b rfl) (hc c rfl) hab hbc

/-- No field holds a double, a nested value, a binary or a reference. -/
def HakoDoc.Plain (doc : HakoDoc) : Prop := ∀ f ∈ doc.fields,f.2.isPlain

theorem HakoDoc.Plain.getPath {doc : HakoDoc} {path : String} {v : Value} (h : doc.Plain) (hv : doc.getPath path = some v) :
    v.isPlain := by
  have hget : ∀ name w,doc.get name = some w → w.isPlain := by
    intro name w hw
    rw [HakoDoc.get] at hw
    split at hw
    · obtain ⟨f,hf,rfl⟩ := Option.map_eq_some_iff.1 hw
      exact h f (List.mem_of_getElem? hf)
    · cases hw
  rw [HakoDoc.getPath] at hv
  split at hv
  · cases hv
  · next first segs _ =>
    split_ifs at hv
    obtain ⟨w,hw,hv⟩ := Option.bind_eq_some_iff.1 hv
    have hplain := hget first w hw
    cases segs with
    | nil => exact Option.some.inj hv ▸ hplain
    | cons seg segs =>
      cases w with
      | map fields => cases hplain
      | _ => simp [Value.descend] at hv

section values
variable {fl : FloatOps} {rows rows' : List (String × HakoDoc)} {field : String} {xs ys : List Value} {ord : Ordering}

/-- The rows of a group as one accumulator sees them. -/
def accState (fl : FloatOps) (op : Accum) (rows : List (String × HakoDoc)) : AccState :=
  rows.foldl (fun s row => s.push fl op row.2) .new

theorem accState_concat (op : Accum) (rows : List (String × HakoDoc)) (row : String × HakoDoc) :
    accState fl op (rows++[row]) = (accState fl op rows).push fl op row.2 := List.foldl_append

def valueAt (field : String) (row : String × HakoDoc) : Option Value := row.2.getPath field

def integerAt (field : String) (row : String × HakoDoc) : Option ℤ :=
  match valueAt field row with
  | some (.int i) => some i.toInt
  | _ => none

/-- The integers that a field has in the rows. -/
def intsOf (field : String) (rows : List (String × HakoDoc)) : List ℤ := rows.filterMap (integerAt field)

theorem rows_accState (op : Accum) (rows : List (String × HakoDoc)) : (accState fl op rows).rows = rows.length := by
  induction rows using List.reverseRecOn with
  | nil => rfl
  | append_singleton rows row ih =>
    have hpush : ((accState fl op rows).push fl op row.2).rows = (accState fl op rows).rows+1 := by
      cases op <;> rw [AccState.push]
      all_goals
        cases row.2.getPath _ with
        | none => rfl
        | some v => cases v <;> rfl
    rw [accState_concat,hpush,ih,List.length_append,List.length_singleton]

theorem sum_accState (fl : FloatOps) (field : String) (h : ∀ row ∈ rows,row.2.Plain) :
    (accState fl (.sum field) rows).sumI.toInt = satSum i64Min i64Max 0 (intsOf field rows) ∧
    (accState fl (.sum field) rows).allInt = true ∧
    (accState fl (.sum field) rows).numeric = (intsOf field rows).length := by
  induction rows using List.reverseRecOn with
  | nil => exact ⟨rfl,rfl,rfl⟩
  | append_singleton rows row ih =>
    obtain ⟨hsum,hall,hnum⟩ := ih fun r hr => h r (List.mem_append_left _ hr)
    have hplain := h row (by simp)
    have hints : intsOf field (rows++[row]) = intsOf field rows++(integerAt field row).toList := by
      rw [intsOf,List.filterMap_append]
      cases hint : integerAt field row <;> simp [hint,intsOf]
    rw [accState_concat,hints,AccState.push]
    cases hv : row.2.getPath field with
    | none => simp [integerAt,valueAt,hv,hsum,hall,hnum]
    | some v =>
      have hvp := hplain.getPath hv
      cases v with
      | int i =>
        simp only [integerAt,valueAt,hv,AccState.pushValue,AccState.pushNumber,Option.toList_some,satSum_append,hall,hnum,
          List.length_append,List.length_singleton,toInt_saturatingAdd,hsum]
        exact ⟨rfl,trivial,trivial⟩
      | float f => cases hvp
      | _ => simp [integerAt,valueAt,hv,AccState.pushValue,AccState.pushNumber,hsum,hall,hnum]

def valuesOf (field : String) (rows : List (String × HakoDoc)) : List Value := rows.filterMap (valueAt field)

theorem extremes_accState (rows : List (String × HakoDoc)) :
    (accState fl (.min field) rows).min = (valuesOf field rows).foldl (improve .lt) none ∧
    (accState fl (.max field) rows).max = (valuesOf field rows).foldl (improve .gt) none := by
  induction rows using List.reverseRecOn with
  | nil => exact ⟨rfl,rfl⟩
  | append_singleton rows row ih =>
    rw [accState_concat,accState_concat,AccState.push,AccState.push,valuesOf,List.filterMap_append,← valuesOf]
    cases hv : row.2.getPath field with
    | none => simpa [valueAt,hv] using ih
    | some v => simp [valueAt,hv,AccState.pushValue,ih]

/-- What is kept is one of the values, and no other would take its place. -/
def Best (ord : Ordering) (xs : List Value) : Option Value → Prop
  | none => xs = []
  | some m => m ∈ xs ∧ ∀ v ∈ xs,v.cmp m ≠ ord

theorem best_foldl_improve (hord : ord ≠ .eq) (h : ∀ v ∈ xs,v.isPlain) : Best ord xs (xs.foldl (improve ord) none) := by
  induction xs using List.reverseRecOn with
  | nil => rfl
  | append_singleton xs v ih =>
    have hxs : ∀ w ∈ xs,w.isPlain := fun w hw => h w (List.mem_append_left _ hw)
    have hv : v.isPlain := h v (by simp)
    have hself : v.cmp v ≠ ord := fun he => hord (he.symm.trans (Value.cmp_self v))
    have hbest := ih hxs
    rw [List.foldl_append]
    cases hm : xs.foldl (improve ord) none with
    | none =>
      rw [hm] at hbest
      subst hbest
      exact ⟨by simp,by simpa using hself⟩
    | some m =>
      rw [hm] at hbest
      obtain ⟨hmem,hall⟩ := hbest
      by_cases hbetter : v.cmp m = ord
      · have himprove : [v].foldl (improve ord) (some m) = some v := by simp [improve,hbetter]
        rw [himprove]
        refine ⟨by simp,fun w hw => ?_⟩
        rcases List.mem_append.1 hw with hw | hw
        · exact fun he => hall w hw (Value.cmp_lt_trans (hxs w hw) hv (hxs m hmem) he hbetter)
        · rw [List.mem_singleton.1 hw]
          exact hself
      · have himprove : [v].foldl (improve ord) (some m) = some m := by simp [improve,hbetter]
        rw [himprove]
        refine ⟨List.mem_append_left _ hmem,fun w hw => ?_⟩
        rcases List.mem_append.1 hw with hw | hw
        · exact hall w hw
        · rw [List.mem_singleton.1 hw]
          exact hbetter

theorem foldl_improve_perm (hord : ord ≠ .eq) (h : ∀ v ∈ xs,v.isPlain) (hperm : xs.Perm ys) :
    xs.foldl (improve ord) none = ys.foldl (improve ord) none := by
  have hx := best_foldl_improve hord h
  have hy := best_foldl_improve hord fun v hv => h v (hperm.mem_iff.2 hv)
  cases hm : xs.foldl (improve ord) none with
  | none =>
    rw [hm] at hx
    rw [hx] at hperm
    rw [← hperm.nil_eq]
    rfl
  | some m =>
    rw [hm] at hx
    cases hn : ys.foldl (improve ord) none with
    | none =>
      rw [hn] at hy
      rw [hy] at hperm
      have hnil : xs = [] := hperm.eq_nil
      rw [hnil] at hm
      cases hm
    | some n =>
      rw [hn] at hy
      have hmn := hy.2 m (hperm.mem_iff.1 hx.1)
      have hnm := hx.2 n (hperm.mem_iff.2 hy.1)
      rw [Value.cmp_swap] at hnm
      refine congrArg some ((Value.cmp_eq_iff (h m hx.1) (h n (hperm.mem_iff.2 hy.1))).1 ?_)
      cases ord <;> cases hcmp : m.cmp n <;> simp_all

end values

section documents
variable {doc : HakoDoc} {k : String} {v : Value} {fields : List (String × Value)} {ps qs : List (String × Value)}

theorem insertIdx_eq_insertEntry {pos : ℕ} (hpos : pos ≤ fields.length) (hbefore : ∀ f ∈ fields.take pos,compare f.1 k = .lt)
    (hbehind : ∀ f ∈ fields.drop pos,compare f.1 k = .gt) :
    fields.insertIdx pos (k,v) = OrderedMap.insertEntry k v fields := by
  induction pos generalizing fields with
  | zero =>
    cases fields with
    | nil => rfl
    | cons f fields =>
      have hlt : k < f.1 := compare_gt_iff_gt.1 (hbehind f (by simp))
      rw [OrderedMap.insertEntry,if_pos hlt]
      rfl
  | succ pos ih =>
    cases fields with
    | nil => simp at hpos
    | cons f fields =>
      have hlt : f.1 < k := compare_lt_iff_lt.1 (hbefore f (by simp))
      rw [OrderedMap.insertEntry,if_neg hlt.not_gt,if_neg hlt.ne',List.insertIdx_succ_cons,
        ih (by simpa using hpos) (fun g hg => hbefore g (by simp [hg])) hbehind]

theorem modify_eq_insertEntry {pos : ℕ} {f : String × Value} (hsorted : fields.Pairwise fun a b => a.1 < b.1)
    (hf : fields[pos]? = some f) (hkey : f.1 = k) :
    fields.modify pos (fun p => (p.1,v)) = OrderedMap.insertEntry k v fields := by
  induction fields generalizing pos with
  | nil => cases hf
  | cons g fields ih =>
    obtain ⟨hhead,htail⟩ := List.pairwise_cons.1 hsorted
    cases pos with
    | zero =>
      obtain rfl : g = f := by simpa using hf
      rw [OrderedMap.insertEntry,if_neg (by simp [hkey]),if_pos hkey.symm,← hkey]
      rfl
    | succ pos =>
      have hf : fields[pos]? = some f := by simpa using hf
      have hlt : g.1 < k := hkey ▸ hhead f (List.mem_of_getElem? hf)
      rw [OrderedMap.insertEntry,if_neg hlt.not_gt,if_neg hlt.ne',List.modify_succ_cons,ih htail hf]

/-- Inserting a field keeps the fields as an ordered map does. -/
theorem HakoDoc.insert_eq (h : doc.Ascending) (k : String) (v : Value) :
    doc.insert k v = ⟨OrderedMap.insertEntry k v doc.fields,doc.time⟩ := by
  have hspec := BinarySearch.search_spec (h.ordered k)
  unfold HakoDoc.insert HakoDoc.search
  cases hsearch : BinarySearch.search (fun f : String × Value => compare f.1 k) doc.fields with
  | ok pos =>
    rw [hsearch] at hspec
    obtain ⟨f,hf,hkey⟩ := hspec
    exact congrArg (HakoDoc.mk · doc.time) (modify_eq_insertEntry h hf (compare_eq_iff_eq.1 hkey))
  | error pos =>
    rw [hsearch] at hspec
    obtain ⟨hpos,hbefore,hbehind⟩ := hspec
    exact congrArg (HakoDoc.mk · doc.time) (insertIdx_eq_insertEntry hpos hbefore hbehind)

def HakoDoc.insertAll (doc : HakoDoc) (ps : List (String × Value)) : HakoDoc := ps.foldl (fun doc p => doc.insert p.1 p.2) doc

theorem HakoDoc.insertAll_eq (h : doc.Ascending) (ps : List (String × Value)) :
    doc.insertAll ps = ⟨(OrderedMap.insertAll ⟨doc.fields,h⟩ ps).entries,doc.time⟩ := by
  induction ps generalizing doc with
  | nil => rfl
  | cons p ps ih =>
    have hstep : doc.insertAll (p::ps) = (doc.insert p.1 p.2).insertAll ps := rfl
    have hnext : HakoDoc.Ascending ⟨OrderedMap.insertEntry p.1 p.2 doc.fields,doc.time⟩ :=
      OrderedMap.pairwise_insertEntry h p.1 p.2
    rw [hstep,HakoDoc.insert_eq h,ih hnext]
    rfl

theorem get_insertAll (m : OrderedMap String Value) (ps : List (String × Value)) (k : String) :
    (m.insertAll ps).get k = (HashMap.lastValue k ps).or (m.get k) := by
  induction ps generalizing m with
  | nil => rfl
  | cons p ps ih =>
    have hstep : m.insertAll (p::ps) = (m.insert p.1 p.2).insertAll ps := rfl
    rw [hstep,ih,OrderedMap.get_insert,HashMap.lastValue,Option.or_assoc]
    split_ifs <;> rfl

/-- Two lists of fields with the same names leave the same document if each name has the same value last. -/
theorem HakoDoc.insertAll_eq_iff (h : doc.Ascending) (hnames : ps.map Prod.fst = qs.map Prod.fst) :
    doc.insertAll ps = doc.insertAll qs ↔ ∀ k,HashMap.lastValue k ps = HashMap.lastValue k qs := by
  rw [HakoDoc.insertAll_eq h,HakoDoc.insertAll_eq h]
  constructor
  · intro he k
    have hmap : OrderedMap.insertAll ⟨doc.fields,h⟩ ps = OrderedMap.insertAll ⟨doc.fields,h⟩ qs := by
      cases hp : OrderedMap.insertAll ⟨doc.fields,h⟩ ps
      cases hq : OrderedMap.insertAll ⟨doc.fields,h⟩ qs
      rw [hp,hq] at he
      have hentries := congrArg HakoDoc.fields he
      dsimp only at hentries
      subst hentries
      rfl
    have hget := congrArg (fun m => m.get k) hmap
    rw [get_insertAll,get_insertAll] at hget
    have hnone : HashMap.lastValue k ps = none ↔ HashMap.lastValue k qs = none := by
      rw [HashMap.lastValue_eq_none,HashMap.lastValue_eq_none]
      have hmem : ∀ rs : List (String × Value),(∀ x ∈ rs,x.1 ≠ k) ↔ k ∉ rs.map Prod.fst := by
        intro rs
        rw [List.mem_map,not_exists]
        exact forall_congr' fun x => not_and.symm
      rw [hmem,hmem,hnames]
    cases hp : HashMap.lastValue k ps with
    | none => exact (hnone.1 hp).symm
    | some v =>
      cases hq : HashMap.lastValue k qs with
      | none => rw [hnone.2 hq] at hp; cases hp
      | some w => rwa [hp,hq,Option.some_or,Option.some_or] at hget
  · intro hlast
    have hmap : OrderedMap.insertAll ⟨doc.fields,h⟩ ps = OrderedMap.insertAll ⟨doc.fields,h⟩ qs :=
      OrderedMap.ext_get fun k => by rw [get_insertAll,get_insertAll,hlast]
    rw [hmap]

end documents

section results
variable {fl : FloatOps} {debug : Value → String} {key : Option String} {accums : List AccumSpec} {k : Option Value}
variable {rows rows' : List (String × HakoDoc)} {op : Accum} {field : String}

def PlainRows (rows : List (String × HakoDoc)) : Prop := ∀ row ∈ rows,row.2.Plain

def rowsAt (key : Option String) (k : Option Value) (rows : List (String × HakoDoc)) : List (String × HakoDoc) :=
  rows.filter fun row => groupKey key row = k

theorem PlainRows.perm (h : PlainRows rows) (hperm : rows.Perm rows') : PlainRows rows' :=
  fun row hrow => h row (hperm.mem_iff.2 hrow)

theorem PlainRows.rowsAt (h : PlainRows rows) (k : Option Value) : PlainRows (rowsAt key k rows) :=
  fun row hrow => h row (List.mem_filter.1 hrow).1

theorem PlainRows.groupKey (h : PlainRows rows) : ∀ row ∈ rows,groupKey key row ∈ {k | PlainKey k} := by
  intro row hrow v hv
  obtain ⟨path,-,hpath⟩ := Option.bind_eq_some_iff.1 hv
  exact (h row hrow).getPath hpath

/-- A sum of integers is the saturating one. -/
theorem value_sum (fl : FloatOps) (field : String) (h : PlainRows rows) : ∃ n : Int64,(accState fl (.sum field) rows).value fl (.sum field) = .int n ∧
    n.toInt = satSum i64Min i64Max 0 (intsOf field rows) := by
  obtain ⟨hsum,hall,hnum⟩ := sum_accState fl field h
  rw [AccState.value,hall,hnum]
  cases hints : intsOf field rows with
  | nil => exact ⟨0,rfl,rfl⟩
  | cons x xs =>
    rw [hints] at hsum
    exact ⟨_,rfl,hsum⟩

/-- Only the sums of integers can depend on the order of the rows. -/
theorem value_perm (h : PlainRows rows) (hperm : rows.Perm rows') (havg : ∀ f,op ≠ .avg f)
    (hcalm : ∀ f,op = .sum f → Calm i64Min i64Max (intsOf f rows)) :
    (accState fl op rows').value fl op = (accState fl op rows).value fl op := by
  have hvalues : ∀ f,(∀ v ∈ valuesOf f rows,v.isPlain) ∧ (valuesOf f rows).Perm (valuesOf f rows') := by
    intro f
    refine ⟨fun v hv => ?_,hperm.filterMap _⟩
    obtain ⟨row,hrow,hat⟩ := List.mem_filterMap.1 hv
    exact (h row hrow).getPath hat
  cases op with
  | count => rw [AccState.value,AccState.value,rows_accState,rows_accState,hperm.length_eq]
  | sum f =>
    have hints : (intsOf f rows).Perm (intsOf f rows') := hperm.filterMap _
    obtain ⟨n,hn,hsum⟩ := value_sum fl f h
    obtain ⟨n',hn',hsum'⟩ := value_sum fl f (h.perm hperm)
    rw [satSum_of_calm (by decide) (by decide) (hcalm f rfl)] at hsum
    rw [satSum_of_calm (by decide) (by decide) ((hcalm f rfl).perm hints),← hints.sum_eq,← hsum] at hsum'
    rw [hn,hn',Int64.toInt_inj.1 hsum']
  | min f =>
    rw [AccState.value,AccState.value,(extremes_accState rows').1,(extremes_accState rows).1,
      foldl_improve_perm (by decide) (hvalues f).1 (hvalues f).2]
  | max f =>
    rw [AccState.value,AccState.value,(extremes_accState rows').2,(extremes_accState rows).2,
      foldl_improve_perm (by decide) (hvalues f).1 (hvalues f).2]
  | avg f => exact absurd rfl (havg f)

theorem stateOf_pushRow (rows : List (String × HakoDoc)) (k : Option Value) :
    stateOf (groupKey key) (pushRow fl accums) (accums.map fun _ => AccState.new) rows k =
      accums.map fun a => accState fl a.op (rowsAt key k rows) := by
  rw [stateOf,← rowsAt]
  induction rowsAt key k rows using List.reverseRecOn with
  | nil => rfl
  | append_singleton rs row ih =>
    rw [List.foldl_append,ih]
    simp only [List.foldl_cons,List.foldl_nil,pushRow,accState_concat,List.zipWith_map_left,List.zipWith_self]

/-- The fields that the accumulators give a group. -/
def groupFields (fl : FloatOps) (accums : List AccumSpec) (rows : List (String × HakoDoc)) : List (String × Value) :=
  accums.map fun a => (a.out,(accState fl a.op rows).value fl a.op)

theorem groupDoc_eq (rows : List (String × HakoDoc)) : groupDoc fl key accums k (accums.map fun a => accState fl a.op rows) =
    (groupBase key k).insertAll (groupFields fl accums rows) := by
  rw [groupDoc,HakoDoc.insertAll,groupFields,List.foldl_map]
  have hzip : (accums.map fun a => accState fl a.op rows).zip accums = accums.map fun a => (accState fl a.op rows,a) :=
    List.map_prod_right_eq_zip.symm
  rw [hzip,List.foldl_map]

theorem ascending_groupBase (k : Option Value) : (groupBase key k).Ascending := by
  have hempty : HakoDoc.empty.Ascending := List.Pairwise.nil
  rw [groupBase]
  split
  · rw [HakoDoc.insert_eq hempty]
    exact OrderedMap.pairwise_insertEntry hempty _ _
  · exact hempty

theorem groups_eq (h : PlainRows rows) : groups fl key accums rows = ((groups fl key accums rows).map Prod.fst).map
    fun k => (k,accums.map fun a => accState fl a.op (rowsAt key k rows)) := by
  have hmap : groups fl key accums rows = ((groups fl key accums rows).map Prod.fst).map fun k =>
      (k,stateOf (groupKey key) (pushRow fl accums) (accums.map fun _ => AccState.new) rows k) :=
    gather_eq_map orderOn_cmpGroupKey h.groupKey
  simp only [stateOf_pushRow] at hmap
  exact hmap

theorem groupStage_eq (h : PlainRows rows) : groupStage fl debug key accums rows =
    ((groups fl key accums rows).map Prod.fst).map fun k => (groupId debug (k.getD (.string "$all")),
      (groupBase key k).insertAll (groupFields fl accums (rowsAt key k rows))) := by
  rw [groupStage]
  conv_lhs => rw [groups_eq h,List.map_map]
  refine List.map_congr_left fun k _ => ?_
  rw [Function.comp_apply,groupDoc_eq]

/-- Two orders of the rows give one result exactly if every name has the same value last in every group. -/
theorem groupStage_eq_iff (h : PlainRows rows) (hperm : rows.Perm rows') :
    groupStage fl debug key accums rows' = groupStage fl debug key accums rows ↔
      ∀ k,(∃ row ∈ rows,groupKey key row = k) → ∀ out,
        HashMap.lastValue out (groupFields fl accums (rowsAt key k rows')) =
          HashMap.lastValue out (groupFields fl accums (rowsAt key k rows)) := by
  have hkeys : (groups fl key accums rows').map Prod.fst = (groups fl key accums rows).map Prod.fst :=
    (keys_gather_perm orderOn_cmpGroupKey h.groupKey hperm).symm
  rw [groupStage_eq (h.perm hperm),groupStage_eq h,hkeys,List.map_inj_left]
  refine forall_congr' fun k => imp_congr (mem_keys_gather orderOn_cmpGroupKey h.groupKey k) ?_
  rw [Prod.mk.injEq,eq_self_iff_true,true_and]
  refine HakoDoc.insertAll_eq_iff (ascending_groupBase k) ?_
  simp [groupFields]

/-- The accumulator whose value the result shows under its name. -/
def ShownLast (accums : List AccumSpec) (a : AccumSpec) : Prop := (accums.filter fun b => b.out = a.out).getLast? = some a

/-- Every sum of a group is the sum of its integers where that is a 64-bit number. -/
def SumsExact (fl : FloatOps) (key : Option String) (accums : List AccumSpec) (rows : List (String × HakoDoc)) : Prop :=
  ∀ g ∈ groups fl key accums rows,∀ e ∈ g.2.zip accums,∀ field,e.2.op = .sum field →
    ∀ n : Int64,n.toInt = (intsOf field (rowsAt key g.1 rows)).sum → e.1.value fl e.2.op = .int n

theorem sumsExact_iff (h : PlainRows rows) : SumsExact fl key accums rows ↔
    ∀ k,(∃ row ∈ rows,groupKey key row = k) → ∀ a ∈ accums,∀ field,a.op = .sum field →
      ∀ n : Int64,n.toInt = (intsOf field (rowsAt key k rows)).sum →
        (accState fl a.op (rowsAt key k rows)).value fl a.op = .int n := by
  have hzip : ∀ k,(accums.map fun a => accState fl a.op (rowsAt key k rows)).zip accums =
      accums.map fun a => (accState fl a.op (rowsAt key k rows),a) := fun k => List.map_prod_right_eq_zip.symm
  have hkeys : ∀ k,k ∈ (groups fl key accums rows).map Prod.fst ↔ ∃ row ∈ rows,groupKey key row = k :=
    mem_keys_gather orderOn_cmpGroupKey h.groupKey
  rw [SumsExact,groups_eq h,List.forall_mem_map]
  simp only [hkeys,hzip,List.forall_mem_map]

/-- The rows that meet a test first, then the others. -/
def front (p : String × HakoDoc → Bool) (rows : List (String × HakoDoc)) : List (String × HakoDoc) :=
  rows.filter p++rows.filter fun row => !p row

theorem front_perm (p : String × HakoDoc → Bool) (rows : List (String × HakoDoc)) : rows.Perm (front p rows) :=
  (List.filter_append_perm p rows).symm

theorem intsOf_front (q : ℤ → Bool) (rows : List (String × HakoDoc)) :
    intsOf field (rowsAt key k (front (fun row => (integerAt field row).any q) rows)) =
      (intsOf field (rowsAt key k rows)).filter q++(intsOf field (rowsAt key k rows)).filter fun x => !q x := by
  have hfirst : ∀ rs : List (String × HakoDoc),intsOf field (rs.filter fun row => (integerAt field row).any q) =
      (intsOf field rs).filter q := by
    intro rs
    rw [intsOf,intsOf,List.filterMap_filter,List.filter_filterMap]
    refine List.filterMap_congr fun row _ => ?_
    cases integerAt field row <;> simp [Option.filter]
  have hrest : ∀ rs : List (String × HakoDoc),intsOf field (rs.filter fun row => !(integerAt field row).any q) =
      (intsOf field rs).filter fun x => !q x := by
    intro rs
    rw [intsOf,intsOf,List.filterMap_filter,List.filter_filterMap]
    refine List.filterMap_congr fun row _ => ?_
    cases integerAt field row <;> simp [Option.filter]
  rw [front,rowsAt,List.filter_append,intsOf,List.filterMap_append,← intsOf,← intsOf,List.filter_comm,hfirst,List.filter_comm,
    hrest,← rowsAt]

/-- Unless the integers are calm, the rows with positive ones first and those with negative ones first give two sums. -/
theorem value_ne_of_not_calm (fl : FloatOps) (h : PlainRows rows) (hcalm : ¬Calm i64Min i64Max (intsOf field (rowsAt key k rows))) :
    ∃ rows₁ rows₂,rows.Perm rows₁ ∧ rows.Perm rows₂ ∧
      (accState fl (.sum field) (rowsAt key k rows₁)).value fl (.sum field) ≠
        (accState fl (.sum field) (rowsAt key k rows₂)).value fl (.sum field) := by
  have hpos := front_perm (fun row => (integerAt field row).any fun x => decide (0 < x)) rows
  have hneg := front_perm (fun row => (integerAt field row).any fun x => decide (x < 0)) rows
  refine ⟨_,_,hpos,hneg,fun he => ?_⟩
  obtain ⟨n,hn,hsum⟩ := value_sum fl field ((h.perm hpos).rowsAt k)
  obtain ⟨n',hn',hsum'⟩ := value_sum fl field ((h.perm hneg).rowsAt k)
  rw [hn,hn',Value.int.injEq] at he
  rw [intsOf_front] at hsum hsum'
  refine satSum_ne_of_not_calm (by decide) (by decide) hcalm ?_
  exact hsum.symm.trans (he ▸ hsum')

end results

def noFloats : FloatOps := ⟨fun a _ => a,fun a _ => a,fun _ => ⟨0⟩⟩

def number (id : String) (n : Int64) : String × HakoDoc := (id,⟨[("x",.int n)],0⟩)

end HakoDB
