import HakoDB.Index.Claims
import HakoDB.Index.Manager

/-! How a claim set is filled from the tree of its index. The rows of the tree are read first; then they
are merged into the claims that live writes may have made meanwhile. -/
namespace HakoDB
open ByteCodec HashMap

/-- The claim of a row: its key without the id and the id's length, which have to be at the end. -/
def treeClaim (row : IndexKey × String) : Option (Bytes × String) :=
  let key := row.1.bytes
  let id := asBytes row.2
  let n := key.length
  let idl := id.length
  if n < idl+4 ∨ key.drop (n-idl) ≠ id ∨ (key.take (n-idl)).drop (n-idl-2) ≠ beBytes 2 idl then none
  else some (key.take (n-idl-2),row.2)

def treeClaims (tree : OrderedMap IndexKey String) : List (Bytes × String) := tree.entries.filterMap treeClaim

namespace UniqueLedger

/-- The claims of the rows; two neighbours with one tuple are duplicates from before the index. -/
def scanTree (indexId : UInt32) :
    Option (Bytes × String) → List (IndexKey × String) → Except HakoError (List (Bytes × String))
  | _,[] => .ok []
  | last,row::rows =>
    match treeClaim row with
    | none => scanTree indexId last rows
    | some claim =>
      match last.filter fun before => before.1 = claim.1 with
      | some before => .error (.uniqueViolation "" (indexText indexId) before.2)
      | none => (scanTree indexId (some claim) rows).map (claim::·)

/-- Add the rows' claims one after the other. What was added before an error stays. -/
def mergeClaims (indexId : UInt32) : ClaimMap → List (Bytes × String) → ClaimMap × Option HakoError
  | c,[] => (c,none)
  | c,(tuple,docId)::rows =>
    -- the tree can lag behind: neither a release nor a newer claim gives way to a row
    if docId ∈ c.freed ∨ (c.byDoc.lookup docId).isSome then mergeClaims indexId c rows
    else match c.fwd.lookup tuple with
      | none => mergeClaims indexId {c with fwd := c.fwd.insert tuple docId, byDoc := c.byDoc.insert docId tuple} rows
      | some owner =>
        if owner ≠ docId then (c,some (.uniqueViolation "" (indexText indexId) owner))
        else mergeClaims indexId c rows

def loadFromTree (l : UniqueLedger) (indexId : UInt32) (tree : OrderedMap IndexKey String) :
    UniqueLedger × Except HakoError ℕ :=
  match scanTree indexId none tree.entries with
  | .error e => (l,.error e)
  | .ok fresh =>
    let ready := l.prepareEmpty indexId
    let merged := mergeClaims indexId ((ready.inner.lookup indexId).getD ⟨∅,∅,∅⟩) fresh
    (ready.setClaims indexId merged.1,
      match merged.2 with
      | none => .ok fresh.length
      | some e => .error e)

theorem scanTree_eq (indexId : UInt32) (last : Option (Bytes × String)) (rows : List (IndexKey × String)) :
    (scanTree indexId last rows).toOption =
      if (last.toList++rows.filterMap treeClaim).IsChain fun a b => a.1 ≠ b.1 then some (rows.filterMap treeClaim) else none := by
  induction rows generalizing last with
  | nil => cases last <;> simp [scanTree,Except.toOption]
  | cons row rows ih =>
    cases hclaim : treeClaim row with
    | none => simpa [scanTree,hclaim] using ih last
    | some claim =>
      have hmap : ((scanTree indexId (some claim) rows).map (claim::·)).toOption =
          (scanTree indexId (some claim) rows).toOption.map (claim::·) := by
        cases scanTree indexId (some claim) rows <;> rfl
      rw [ih] at hmap
      cases last with
      | none =>
        simp only [scanTree,hclaim,Option.filter_none,hmap,List.filterMap_cons_some hclaim]
        split <;> simp_all
      | some before =>
        by_cases hsame : before.1 = claim.1
        · simp [scanTree,hclaim,hsame,Except.toOption,Option.filter]
        · simp only [scanTree,hclaim,Option.filter_some,hsame,decide_false,Bool.false_eq_true,if_false,hmap,
            List.filterMap_cons_some hclaim]
          split <;> simp_all

end UniqueLedger

namespace ClaimMap
variable {c : ClaimMap} {r : Bytes × String} {rows : List (Bytes × String)}

/-- The rows that a merge has to add: their document is neither tombstoned nor claiming. -/
def openRows (c : ClaimMap) (rows : List (Bytes × String)) : List (Bytes × String) :=
  rows.filter fun r => r.2 ∉ c.freed ∧ c.byDoc.lookup r.2 = none

/-- The rows that are open have free tuples, and one tuple means one document. -/
def Compatible (c : ClaimMap) (rows : List (Bytes × String)) : Prop :=
  ∀ r ∈ c.openRows rows,c.fwd.lookup r.1 = none ∧ ∀ s ∈ c.openRows rows,r.1 = s.1 ↔ r.2 = s.2

/-- The claims with those of a row. -/
def add (c : ClaimMap) (r : Bytes × String) : ClaimMap :=
  {c with fwd := c.fwd.insert r.1 r.2, byDoc := c.byDoc.insert r.2 r.1}

theorem openRows_cons (c : ClaimMap) (r : Bytes × String) (rows : List (Bytes × String)) :
    c.openRows (r::rows) =
      if r.2 ∈ c.freed ∨ (c.byDoc.lookup r.2).isSome then c.openRows rows else r::c.openRows rows := by
  unfold openRows
  rw [List.filter_cons]
  cases c.byDoc.lookup r.2 <;> by_cases hfreed : r.2 ∈ c.freed <;> simp [hfreed]

theorem mem_openRows_add {s : Bytes × String} : s ∈ (c.add r).openRows rows ↔ s ∈ c.openRows rows ∧ s.2 ≠ r.2 := by
  simp only [openRows,add,List.mem_filter,decide_eq_true_eq,lookup_insert_ite]
  by_cases hdoc : s.2 = r.2 <;> simp [hdoc]

theorem Compatible.add (h : c.Compatible (r::rows)) (hopen : c.openRows (r::rows) = r::c.openRows rows) :
    (c.add r).Compatible rows := by
  unfold Compatible at h
  rw [hopen] at h
  intro s hs
  obtain ⟨hmem,hne⟩ := mem_openRows_add.1 hs
  obtain ⟨hfree,hpair⟩ := h s (List.mem_cons_of_mem _ hmem)
  have htuple : s.1 ≠ r.1 := fun heq => hne ((hpair r List.mem_cons_self).1 heq)
  refine ⟨?_,fun u hu => hpair u (List.mem_cons_of_mem _ (mem_openRows_add.1 hu).1)⟩
  simp [ClaimMap.add,htuple,hfree]

end ClaimMap

namespace UniqueLedger
variable {l : UniqueLedger} {indexId : UInt32} {tree : OrderedMap IndexKey String}
variable {c : ClaimMap} {r : Bytes × String} {rows : List (Bytes × String)}

theorem mergeClaims_skip (h : r.2 ∈ c.freed ∨ (c.byDoc.lookup r.2).isSome) :
    mergeClaims indexId c (r::rows) = mergeClaims indexId c rows := by
  rw [mergeClaims,if_pos h]

theorem mergeClaims_add (h : ¬(r.2 ∈ c.freed ∨ (c.byDoc.lookup r.2).isSome)) (hfree : c.fwd.lookup r.1 = none) :
    mergeClaims indexId c (r::rows) = mergeClaims indexId (c.add r) rows := by
  rw [mergeClaims,if_neg h]
  simp only [hfree]
  rfl

/-- A tuple that is taken belongs to another document, as the row's document has no claim. -/
theorem mergeClaims_taken (hpaired : Paired c.fwd c.byDoc) (h : ¬(r.2 ∈ c.freed ∨ (c.byDoc.lookup r.2).isSome))
    {owner : String} (howner : c.fwd.lookup r.1 = some owner) :
    mergeClaims indexId c (r::rows) = (c,some (.uniqueViolation "" (indexText indexId) owner)) := by
  have hne : owner ≠ r.2 := by
    rintro rfl
    rw [(hpaired _ _).1 howner] at h
    simp at h
  rw [mergeClaims,if_neg h]
  simp only [howner,if_pos hne]

/-- Compatible rows are all merged. -/
theorem mergeClaims_compatible (hpaired : Paired c.fwd c.byDoc) (h : c.Compatible rows) :
    (mergeClaims indexId c rows).2 = none ∧
      Paired (mergeClaims indexId c rows).1.fwd (mergeClaims indexId c rows).1.byDoc ∧
      ∀ d t,(mergeClaims indexId c rows).1.byDoc.lookup d = some t ↔
        c.byDoc.lookup d = some t ∨ (t,d) ∈ c.openRows rows := by
  induction rows generalizing c with
  | nil => simp [mergeClaims,ClaimMap.openRows,hpaired]
  | cons r rows ih =>
    have hcons := c.openRows_cons r rows
    by_cases hskip : r.2 ∈ c.freed ∨ (c.byDoc.lookup r.2).isSome
    · rw [if_pos hskip] at hcons
      rw [mergeClaims_skip hskip,hcons]
      refine ih hpaired ?_
      unfold ClaimMap.Compatible at h
      rwa [hcons] at h
    · rw [if_neg hskip] at hcons
      have hdoc : c.byDoc.lookup r.2 = none := by
        simpa using (not_or.1 hskip).2
      obtain ⟨hfree,hpair⟩ := h r (hcons ▸ List.mem_cons_self)
      rw [mergeClaims_add hskip hfree]
      obtain ⟨hok,hpaired',hby⟩ := ih (hpaired.insert hfree hdoc) (h.add hcons)
      refine ⟨hok,hpaired',fun d t => (hby d t).trans ?_⟩
      rw [ClaimMap.mem_openRows_add,hcons,List.mem_cons]
      have hrow : (t,d) ∈ c.openRows rows → d = r.2 → t = r.1 := fun hmem hd =>
        ((hpair (t,d) (hcons ▸ List.mem_cons_of_mem _ hmem)).2 hd.symm).symm
      by_cases hd : d = r.2
      · subst hd
        simp only [ClaimMap.add,lookup_insert_ite,if_true,Option.some_inj,hdoc,reduceCtorEq,ne_eq,not_true_eq_false,
          and_false,or_false,false_or]
        refine ⟨fun ht => .inl (by simp [← ht]),fun hmem => ?_⟩
        rcases hmem with heq | hmem
        · exact (congrArg Prod.fst heq).symm
        · exact (hrow hmem rfl).symm
      · have hne : (t,d) ≠ r := fun heq => hd (congrArg Prod.snd heq)
        simp [ClaimMap.add,hd,hne]

theorem mergeClaims_keeps {d : String} {t : Bytes} (hpaired : Paired c.fwd c.byDoc) (h : c.byDoc.lookup d = some t) :
    (mergeClaims indexId c rows).1.byDoc.lookup d = some t := by
  induction rows generalizing c with
  | nil => exact h
  | cons r rows ih =>
    by_cases hskip : r.2 ∈ c.freed ∨ (c.byDoc.lookup r.2).isSome
    · rw [mergeClaims_skip hskip]
      exact ih hpaired h
    · have hdoc : c.byDoc.lookup r.2 = none := by
        simpa using (not_or.1 hskip).2
      cases howner : c.fwd.lookup r.1 with
      | some owner =>
        rw [mergeClaims_taken hpaired hskip howner]
        exact h
      | none =>
        rw [mergeClaims_add hskip howner]
        refine ih (hpaired.insert howner hdoc) ?_
        have hne : d ≠ r.2 := by
          rintro rfl
          simp [hdoc] at h
        simp [ClaimMap.add,hne,h]

/-- A merge fails at its first open row, or has added that row's claim. -/
theorem mergeClaims_failed {e : HakoError} (hpaired : Paired c.fwd c.byDoc)
    (h : (mergeClaims indexId c rows).2 = some e) :
    ∃ r rest,c.openRows rows = r::rest ∧
      ((∃ owner,c.fwd.lookup r.1 = some owner) ∨ (mergeClaims indexId c rows).1.byDoc.lookup r.2 ≠ none) := by
  induction rows with
  | nil => simp [mergeClaims] at h
  | cons r rows ih =>
    have hcons := c.openRows_cons r rows
    by_cases hskip : r.2 ∈ c.freed ∨ (c.byDoc.lookup r.2).isSome
    · rw [if_pos hskip] at hcons
      rw [mergeClaims_skip hskip] at h ⊢
      rw [hcons]
      exact ih h
    · rw [if_neg hskip] at hcons
      have hdoc : c.byDoc.lookup r.2 = none := by
        simpa using (not_or.1 hskip).2
      refine ⟨r,_,hcons,?_⟩
      cases howner : c.fwd.lookup r.1 with
      | some owner => exact .inl ⟨owner,rfl⟩
      | none =>
        right
        have hkept : (mergeClaims indexId (c.add r) rows).1.byDoc.lookup r.2 = some r.1 :=
          mergeClaims_keeps (hpaired.insert howner hdoc) (by simp [ClaimMap.add])
        rw [mergeClaims_add hskip howner,hkept]
        simp

theorem mergeClaims_refused {rest : List (Bytes × String)} {owner : String} (hpaired : Paired c.fwd c.byDoc)
    (hopen : c.openRows rows = r::rest) (howner : c.fwd.lookup r.1 = some owner) :
    mergeClaims indexId c rows = (c,some (.uniqueViolation "" (indexText indexId) owner)) := by
  induction rows with
  | nil => simp [ClaimMap.openRows] at hopen
  | cons s rows ih =>
    rw [ClaimMap.openRows_cons] at hopen
    split at hopen
    · rename_i hskip
      rw [mergeClaims_skip hskip,ih hopen]
    · rename_i hskip
      cases hopen
      exact mergeClaims_taken hpaired hskip howner

/-- The documents that are tombstoned in an index, be it ready or not. -/
def tombstones (l : UniqueLedger) (indexId : UInt32) : Finset String :=
  ((l.inner.lookup indexId).elim ∅ ClaimMap.freed) ∪ l.shelf indexId

/-- The tree's claims for the documents that are neither tombstoned nor already claiming. -/
def openClaims (l : UniqueLedger) (indexId : UInt32) (tree : OrderedMap IndexKey String) : List (Bytes × String) :=
  (treeClaims tree).filter fun r => r.2 ∉ l.tombstones indexId ∧ l.owned indexId r.2 = none

/-- The index is ready with its earlier claims and exactly the tree's open ones. -/
structure Loaded (indexId : UInt32) (tree : OrderedMap IndexKey String) (l l' : UniqueLedger) : Prop where
  isReady : l'.isReady indexId = true
  sound : l'.Sound indexId
  owned : ∀ d t,l'.owned indexId d = some t ↔ l.owned indexId d = some t ∨ (t,d) ∈ l.openClaims indexId tree
  kept : ∀ i,i ≠ indexId → l'.inner.lookup i = l.inner.lookup i

/-- A load that is refused changes nothing, and one that ends well has loaded the tree. -/
structure LoadsWhole (l : UniqueLedger) (indexId : UInt32) (tree : OrderedMap IndexKey String) : Prop where
  refused : ∀ e,(l.loadFromTree indexId tree).2 = .error e → l.Same (l.loadFromTree indexId tree).1
  loaded : ∀ n,(l.loadFromTree indexId tree).2 = .ok n → Loaded indexId tree l (l.loadFromTree indexId tree).1

/-- The claims that the rows are merged into. -/
def claimsForLoad (l : UniqueLedger) (indexId : UInt32) : ClaimMap :=
  let claims := (l.inner.lookup indexId).getD ⟨∅,∅,∅⟩
  {claims with freed := claims.freed ∪ l.shelf indexId}

theorem lookup_claimsForLoad (l : UniqueLedger) (indexId : UInt32) (d : String) :
    (l.claimsForLoad indexId).byDoc.lookup d = l.owned indexId d := by
  unfold claimsForLoad owned
  cases l.inner.lookup indexId <;> simp

theorem Sound.paired (h : l.Sound indexId) : Paired (l.claimsForLoad indexId).fwd (l.claimsForLoad indexId).byDoc := by
  unfold claimsForLoad
  cases hc : l.inner.lookup indexId with
  | none => exact Paired.empty
  | some c => exact h c hc

theorem openRows_claimsForLoad (l : UniqueLedger) (indexId : UInt32) (tree : OrderedMap IndexKey String) :
    (l.claimsForLoad indexId).openRows (treeClaims tree) = l.openClaims indexId tree := by
  have hfreed : (l.claimsForLoad indexId).freed = l.tombstones indexId := by
    unfold claimsForLoad tombstones
    cases l.inner.lookup indexId <;> rfl
  unfold ClaimMap.openRows openClaims
  simp only [hfreed,lookup_claimsForLoad]

theorem owns_iff (h : l.Sound indexId) (t : Bytes) :
    (∃ d,l.owned indexId d = some t) ↔ ∃ d,(l.claimsForLoad indexId).fwd.lookup t = some d := by
  simp only [← lookup_claimsForLoad,h.paired t]

/-- What the merge makes of the index's claims. -/
def mergedFromTree (l : UniqueLedger) (indexId : UInt32) (tree : OrderedMap IndexKey String) :
    ClaimMap × Option HakoError :=
  mergeClaims indexId (l.claimsForLoad indexId) (treeClaims tree)

theorem loadFromTree_duplicate (h : ¬(treeClaims tree).IsChain fun a b => a.1 ≠ b.1) :
    ∃ e,l.loadFromTree indexId tree = (l,.error e) := by
  have hscan := scanTree_eq indexId none tree.entries
  unfold treeClaims at h
  unfold loadFromTree
  cases hrows : scanTree indexId none tree.entries with
  | error e => exact ⟨e,rfl⟩
  | ok rows => simp [hrows,Except.toOption,h] at hscan

theorem loadFromTree_merged (h : (treeClaims tree).IsChain fun a b => a.1 ≠ b.1) :
    (l.loadFromTree indexId tree).1.inner = l.inner.insert indexId (l.mergedFromTree indexId tree).1 ∧
      (l.loadFromTree indexId tree).1.pending = l.pending.erase indexId ∧
      (l.loadFromTree indexId tree).2 = (l.mergedFromTree indexId tree).2.elim (.ok (treeClaims tree).length) .error := by
  have hscan := scanTree_eq indexId none tree.entries
  have hclaims : ((l.prepareEmpty indexId).inner.lookup indexId).getD ⟨∅,∅,∅⟩ = l.claimsForLoad indexId := by
    simp [prepareEmpty,claimsForLoad,shelf]
  rw [if_pos (by simpa [treeClaims] using h)] at hscan
  unfold loadFromTree
  cases hrows : scanTree indexId none tree.entries with
  | error e => simp [hrows,Except.toOption] at hscan
  | ok rows =>
    obtain rfl : rows = treeClaims tree := by
      simpa [hrows,Except.toOption,treeClaims] using hscan
    simp only [hclaims]
    refine ⟨?_,rfl,?_⟩
    · simp [setClaims,prepareEmpty,mergedFromTree]
    · unfold mergedFromTree
      cases (mergeClaims indexId (l.claimsForLoad indexId) (treeClaims tree)).2 <;> rfl

theorem shelf_loadFromTree (h : (treeClaims tree).IsChain fun a b => a.1 ≠ b.1) (i : UInt32) :
    (l.loadFromTree indexId tree).1.shelf i = if i = indexId then ∅ else l.shelf i := by
  unfold shelf
  rw [(loadFromTree_merged h).2.1,lookup_erase_ite]
  split <;> rfl

/-- A merge that failed halfway leaves the ledger as it was only in an index that was ready for it. -/
theorem same_loadFromTree (h : (treeClaims tree).IsChain fun a b => a.1 ≠ b.1) :
    l.Same (l.loadFromTree indexId tree).1 ↔
      l.inner.lookup indexId = some (l.mergedFromTree indexId tree).1 ∧ l.shelf indexId = ∅ := by
  unfold Same
  rw [(loadFromTree_merged h).1]
  simp only [shelf_loadFromTree h]
  constructor
  · rintro ⟨hinner,hshelf⟩
    refine ⟨?_,by simpa using (hshelf indexId).symm⟩
    rw [← hinner]
    simp
  · rintro ⟨hinner,hshelf⟩
    refine ⟨?_,fun i => ?_⟩
    · refine Finmap.ext_lookup fun i => ?_
      rw [lookup_insert_ite]
      split
      · rename_i hi
        rw [hi,hinner]
      · rfl
    · split
      · rename_i hi
        rw [hi,hshelf]
      · rfl

theorem loaded_loadFromTree (h : (treeClaims tree).IsChain fun a b => a.1 ≠ b.1) :
    Loaded indexId tree l (l.loadFromTree indexId tree).1 ↔
      Paired (l.mergedFromTree indexId tree).1.fwd (l.mergedFromTree indexId tree).1.byDoc ∧
        ∀ d t,(l.mergedFromTree indexId tree).1.byDoc.lookup d = some t ↔
          l.owned indexId d = some t ∨ (t,d) ∈ l.openClaims indexId tree := by
  have hinner : (l.loadFromTree indexId tree).1.inner = _ := (loadFromTree_merged h).1
  have hlookup : (l.loadFromTree indexId tree).1.inner.lookup indexId = some (l.mergedFromTree indexId tree).1 := by
    rw [hinner]
    simp
  have howned : ∀ d,(l.loadFromTree indexId tree).1.owned indexId d =
      (l.mergedFromTree indexId tree).1.byDoc.lookup d := fun d => by
    simp [UniqueLedger.owned,hlookup]
  constructor
  · intro hl
    refine ⟨hl.sound _ hlookup,fun d t => ?_⟩
    rw [← howned,hl.owned]
  · rintro ⟨hpaired,hby⟩
    refine ⟨?_,fun c hc => ?_,fun d t => ?_,fun i hi => ?_⟩
    · simp [UniqueLedger.isReady,hlookup]
    · rw [hlookup] at hc
      exact Option.some.inj hc ▸ hpaired
    · rw [howned,hby]
    · rw [hinner]
      simp [hi]

theorem mergedFromTree_compatible (l : UniqueLedger) (h : l.Sound indexId)
    (hcompat : (l.claimsForLoad indexId).Compatible (treeClaims tree)) :
    (l.mergedFromTree indexId tree).2 = none ∧
      Paired (l.mergedFromTree indexId tree).1.fwd (l.mergedFromTree indexId tree).1.byDoc ∧
      ∀ d t,(l.mergedFromTree indexId tree).1.byDoc.lookup d = some t ↔
        l.owned indexId d = some t ∨ (t,d) ∈ l.openClaims indexId tree := by
  obtain ⟨hok,hpaired,hby⟩ := mergeClaims_compatible h.paired hcompat
  simp only [openRows_claimsForLoad,lookup_claimsForLoad] at hby
  exact ⟨hok,hpaired,hby⟩

/-- A tree whose open claims are all there leaves them compatible with the earlier ones. -/
theorem compatible_of_merged (h : l.Sound indexId)
    (hpaired : Paired (l.mergedFromTree indexId tree).1.fwd (l.mergedFromTree indexId tree).1.byDoc)
    (hby : ∀ d t,(l.mergedFromTree indexId tree).1.byDoc.lookup d = some t ↔
      l.owned indexId d = some t ∨ (t,d) ∈ l.openClaims indexId tree) :
    (l.claimsForLoad indexId).Compatible (treeClaims tree) := by
  unfold ClaimMap.Compatible
  rw [openRows_claimsForLoad]
  have hone : ∀ d d' t,(l.mergedFromTree indexId tree).1.byDoc.lookup d = some t →
      (l.mergedFromTree indexId tree).1.byDoc.lookup d' = some t → d = d' := fun d d' t hd hd' =>
    Option.some.inj (((hpaired t d).2 hd).symm.trans ((hpaired t d').2 hd'))
  intro r hr
  have hmine := (hby r.2 r.1).2 (.inr hr)
  refine ⟨?_,fun s hs => ?_⟩
  · by_contra howner
    obtain ⟨d,hd⟩ := Option.ne_none_iff_exists'.1 howner
    have hown : l.owned indexId d = some r.1 := by
      rw [← lookup_claimsForLoad]
      exact (h.paired _ _).1 hd
    have hdoc := hone d r.2 r.1 ((hby d r.1).2 (.inl hown)) hmine
    have hnone : l.owned indexId r.2 = none := by
      simpa using (of_decide_eq_true (List.mem_filter.1 hr).2).2
    rw [← hdoc,hown] at hnone
    cases hnone
  · have hother := (hby s.2 s.1).2 (.inr hs)
    constructor
    · intro htuple
      exact hone _ _ _ hmine (htuple ▸ hother)
    · intro hdoc
      rw [hdoc,hother] at hmine
      exact (Option.some.inj hmine).symm

/-- A load keeps its promise if the scan finds duplicates, if the open claims agree with each other and with
the claims that are there, or if the very first open claim is refused in an index that was ready. -/
theorem loadFromTree_iff (h : l.Sound indexId) (tree : OrderedMap IndexKey String) :
    l.LoadsWhole indexId tree ↔
      (¬(treeClaims tree).IsChain fun a b => a.1 ≠ b.1) ∨
      (∀ r ∈ l.openClaims indexId tree,(∀ d,l.owned indexId d ≠ some r.1) ∧
        ∀ s ∈ l.openClaims indexId tree,r.1 = s.1 ↔ r.2 = s.2) ∨
      (l.isReady indexId = true ∧ l.shelf indexId = ∅ ∧
        ∃ r,(l.openClaims indexId tree).head? = some r ∧ ∃ d,l.owned indexId d = some r.1) := by
  by_cases hchain : (treeClaims tree).IsChain fun a b => a.1 ≠ b.1
  swap
  · obtain ⟨e,hload⟩ : ∃ e,l.loadFromTree indexId tree = (l,.error e) := loadFromTree_duplicate hchain
    refine iff_of_true ⟨fun _ _ => ?_,fun n hn => ?_⟩ (.inl hchain)
    · rw [hload]
      exact ⟨rfl,fun _ => rfl⟩
    · rw [hload] at hn
      cases hn
  have hresult : (l.loadFromTree indexId tree).2 = _ := (loadFromTree_merged hchain).2.2
  have hcompatible : (l.claimsForLoad indexId).Compatible (treeClaims tree) ↔
      ∀ r ∈ l.openClaims indexId tree,(∀ d,l.owned indexId d ≠ some r.1) ∧
        ∀ s ∈ l.openClaims indexId tree,r.1 = s.1 ↔ r.2 = s.2 := by
    have hfree : ∀ t,(∀ d,l.owned indexId d ≠ some t) ↔ (l.claimsForLoad indexId).fwd.lookup t = none := fun t => by
      rw [← not_exists,owns_iff h,← Option.ne_none_iff_exists',not_not]
    simp only [ClaimMap.Compatible,openRows_claimsForLoad,hfree]
  rw [← hcompatible]
  simp only [hchain,not_true_eq_false,false_or]
  constructor
  · intro hwhole
    cases herr : (l.mergedFromTree indexId tree).2 with
    | none =>
      rw [herr] at hresult
      obtain ⟨hpaired,hby⟩ := (loaded_loadFromTree hchain).1 (hwhole.loaded _ hresult)
      exact .inl (compatible_of_merged h hpaired hby)
    | some e =>
      rw [herr] at hresult
      obtain ⟨hlookup,hshelf⟩ := (same_loadFromTree hchain).1 (hwhole.refused _ hresult)
      obtain ⟨r,rest,hopen,hfirst⟩ := mergeClaims_failed h.paired herr
      rw [openRows_claimsForLoad] at hopen
      refine .inr ⟨by simp [UniqueLedger.isReady,hlookup],hshelf,r,by rw [hopen]; rfl,(owns_iff h _).2 ?_⟩
      refine hfirst.resolve_right fun hadded => hadded ?_
      -- the claim would have been there before
      have hmem : r ∈ l.openClaims indexId tree := hopen ▸ List.mem_cons_self
      have hnone := (of_decide_eq_true (List.mem_filter.1 hmem).2).2
      simp only [UniqueLedger.owned,hlookup,Option.bind_some] at hnone
      exact hnone
  · rintro (hcompat | ⟨hready,hshelf,r,hhead,howner⟩)
    · obtain ⟨hok,hpaired,hby⟩ := l.mergedFromTree_compatible h hcompat
      rw [hok] at hresult
      refine ⟨fun e he => ?_,fun _ _ => (loaded_loadFromTree hchain).2 ⟨hpaired,hby⟩⟩
      rw [hresult] at he
      cases he
    · obtain ⟨rest,hopen⟩ := List.head?_eq_some_iff.1 hhead
      obtain ⟨owner,howner⟩ := (owns_iff h _).1 howner
      rw [← openRows_claimsForLoad] at hopen
      have hmerge : l.mergedFromTree indexId tree = _ := mergeClaims_refused h.paired hopen howner
      rw [hmerge] at hresult
      refine ⟨fun _ _ => (same_loadFromTree hchain).2 ⟨?_,hshelf⟩,fun n hn => ?_⟩
      · obtain ⟨c,hc⟩ := Option.isSome_iff_exists.1 hready
        simp [hmerge,claimsForLoad,hc,hshelf]
      · rw [hresult] at hn
        cases hn

/-- A tree with two documents, and a ledger in which the second one's tuple was given away. -/
def cityIndex : CompositeIndexDefinition := ⟨1,"c",[⟨"city",.asc⟩],true,false,none⟩

def cityTree : OrderedMap IndexKey String :=
  (OrderedMap.empty.insert (encodeCompositeKey cityIndex [.int 1] "a") "a").insert
    (encodeCompositeKey cityIndex [.int 2] "b") "b"

def cityLedger : UniqueLedger :=
  ((⟨∅,∅⟩ : UniqueLedger).prepareEmpty 1).setClaims 1
    (ClaimMap.give ⟨∅,∅,∅⟩ (cityIndex.encodeCompositePrefix [.int 2]) "z")

theorem loadFromTree_cityTree : (⟨∅,∅⟩ : UniqueLedger).Sound 1 ∧ (⟨∅,∅⟩ : UniqueLedger).LoadsWhole 1 cityTree := by
  have hsound : (⟨∅,∅⟩ : UniqueLedger).Sound 1 := fun c hc => by simp at hc
  refine ⟨hsound,(loadFromTree_iff hsound cityTree).2 (.inr (.inl ?_))⟩
  have hopen : (⟨∅,∅⟩ : UniqueLedger).openClaims 1 cityTree =
      [(cityIndex.encodeCompositePrefix [.int 1],"a"),(cityIndex.encodeCompositePrefix [.int 2],"b")] := by
    decide +kernel
  rw [hopen]
  refine fun r hr => ⟨fun d => by simp [UniqueLedger.owned],fun s hs => ?_⟩
  fin_cases hr <;> fin_cases hs <;> decide +kernel

theorem loadFromTree_cityLedger : cityLedger.Sound 1 ∧ ¬cityLedger.LoadsWhole 1 cityTree := by
  refine ⟨fun c hc => ?_,fun hwhole => ?_⟩
  · obtain rfl : ClaimMap.give ⟨∅,∅,∅⟩ (cityIndex.encodeCompositePrefix [.int 2]) "z" = c := by
      simpa [cityLedger,setClaims] using hc
    exact Paired.empty.insert (by simp) (by simp)
  · have herr : (cityLedger.loadFromTree 1 cityTree).2 = .error (.uniqueViolation "" "1" "z") := by
      decide +kernel
    have hsame := (hwhole.refused _ herr).1
    -- the first row's claim was merged before the second row was refused
    have hafter : (cityLedger.loadFromTree 1 cityTree).1.owned 1 "a" ≠ none := by
      decide +kernel
    refine hafter ?_
    rw [UniqueLedger.owned,hsame]
    decide +kernel

end UniqueLedger
end HakoDB
