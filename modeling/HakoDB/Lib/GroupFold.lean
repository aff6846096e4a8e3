import Mathlib

/-! Elements gathered by a key into a list that is kept in the order of the keys, with a state for each key. The order is given
by a comparison that need only be lawful on the keys that occur. -/
namespace GroupFold

section map
variable {α β : Type} (cmp : α → α → Ordering)

/-- Change the state under a key, or put the key where it belongs. -/
def upsert (k : α) (f : Option β → β) : List (α × β) → List (α × β)
  | [] => [(k,f none)]
  | e::es =>
    match cmp k e.1 with
    | .lt => (k,f none)::e::es
    | .eq => (e.1,f (some e.2))::es
    | .gt => e::upsert k f es

/-- The comparison orders the elements of a set. -/
structure OrderOn (K : Set α) : Prop where
  eq_iff : ∀ a ∈ K,∀ b ∈ K,cmp a b = .eq ↔ a = b
  swap : ∀ a ∈ K,∀ b ∈ K,cmp a b = (cmp b a).swap
  trans : ∀ a ∈ K,∀ b ∈ K,∀ c ∈ K,cmp a b = .lt → cmp b c = .lt → cmp a c = .lt

def Ascending (es : List (α × β)) : Prop := es.Pairwise fun a b => cmp a.1 b.1 = .lt

variable {cmp} {K : Set α} {k : α} {f : Option β → β} {es : List (α × β)}

theorem OrderOn.ne_of_lt (hK : OrderOn cmp K) {a b : α} (ha : a ∈ K) (hb : b ∈ K) (h : cmp a b = .lt) : a ≠ b := by
  intro he
  rw [(hK.eq_iff a ha b hb).2 he] at h
  cases h

/-- The state that a key gets, by the state that it had. -/
def Changed (k : α) (f : Option β → β) (es : List (α × β)) (g : α × β) : Prop :=
  g.1 = k ∧ ((∃ st,(k,st) ∈ es ∧ g.2 = f (some st)) ∨ (∀ st,(k,st) ∉ es) ∧ g.2 = f none)

theorem mem_upsert (hK : OrderOn cmp K) (hk : k ∈ K) (hes : ∀ e ∈ es,e.1 ∈ K) (hs : Ascending cmp es) (g : α × β) :
    g ∈ upsert cmp k f es ↔ g ∈ es ∧ g.1 ≠ k ∨ Changed k f es g := by
  induction es with
  | nil => simp [upsert,Changed,Prod.ext_iff]
  | cons e es ih =>
    obtain ⟨hhead,hs⟩ := List.pairwise_cons.1 hs
    have he := hes e List.mem_cons_self
    have htail : ∀ x ∈ es,x.1 ∈ K := fun x hx => hes x (List.mem_cons_of_mem _ hx)
    rw [upsert]
    cases hcmp : cmp k e.1 with
    | lt =>
      have hne : ∀ x ∈ e::es,x.1 ≠ k := by
        intro x hx
        rcases List.mem_cons.1 hx with rfl | hx
        · exact (hK.ne_of_lt hk he hcmp).symm
        · exact (hK.ne_of_lt hk (htail x hx) (hK.trans k hk _ he _ (htail x hx) hcmp (hhead x hx))).symm
      have hnone : ∀ st,(k,st) ∉ e::es := fun st hmem => hne _ hmem rfl
      rw [List.mem_cons,or_comm]
      refine or_congr (iff_self_and.2 (hne g)) ?_
      constructor
      · rintro rfl
        exact ⟨rfl,.inr ⟨hnone,rfl⟩⟩
      · rintro ⟨hg,⟨st,hst,-⟩ | ⟨-,hg2⟩⟩
        · exact absurd hst (hnone st)
        · exact Prod.ext hg hg2
    | eq =>
      obtain rfl := (hK.eq_iff k hk e.1 he).1 hcmp
      have hne : ∀ x ∈ es,x.1 ≠ e.1 := fun x hx => (hK.ne_of_lt he (htail x hx) (hhead x hx)).symm
      have honly : ∀ st,(e.1,st) ∈ e::es ↔ st = e.2 := by
        intro st
        rw [List.mem_cons]
        constructor
        · rintro (h | h)
          · exact congrArg Prod.snd h
          · exact absurd rfl (hne (e.1,st) h)
        · rintro rfl
          exact .inl rfl
      rw [List.mem_cons,or_comm,List.mem_cons]
      refine or_congr ?_ ?_
      · constructor
        · exact fun h => ⟨.inr h,hne g h⟩
        · rintro ⟨rfl | h,hg⟩
          · exact absurd rfl hg
          · exact h
      · constructor
        · rintro rfl
          exact ⟨rfl,.inl ⟨e.2,(honly _).2 rfl,rfl⟩⟩
        · rintro ⟨hg,⟨st,hst,hg2⟩ | ⟨hnone,-⟩⟩
          · rw [(honly st).1 hst] at hg2
            exact Prod.ext hg hg2
          · exact absurd ((honly _).2 rfl) (hnone e.2)
    | gt =>
      have hne : e.1 ≠ k := by
        intro heq
        rw [(hK.eq_iff k hk e.1 he).2 heq.symm] at hcmp
        cases hcmp
      have hskip : ∀ st,(k,st) ∈ e::es ↔ (k,st) ∈ es := by
        intro st
        rw [List.mem_cons]
        exact or_iff_right fun h => hne (congrArg Prod.fst h).symm
      rw [List.mem_cons,ih htail hs,← or_assoc,Changed,Changed]
      simp only [hskip,List.mem_cons]
      refine or_congr_left ?_
      constructor
      · rintro (rfl | ⟨h,hg⟩)
        · exact ⟨.inl rfl,hne⟩
        · exact ⟨.inr h,hg⟩
      · rintro ⟨rfl | h,hg⟩
        · exact .inl rfl
        · exact .inr ⟨h,hg⟩

theorem ascending_upsert (hK : OrderOn cmp K) (hk : k ∈ K) (hes : ∀ e ∈ es,e.1 ∈ K) (hs : Ascending cmp es) :
    Ascending cmp (upsert cmp k f es) := by
  induction es with
  | nil => exact List.pairwise_singleton _ _
  | cons e es ih =>
    obtain ⟨hhead,htail⟩ := List.pairwise_cons.1 hs
    have he := hes e List.mem_cons_self
    have hes' : ∀ x ∈ es,x.1 ∈ K := fun x hx => hes x (List.mem_cons_of_mem _ hx)
    rw [upsert]
    cases hcmp : cmp k e.1 with
    | lt =>
      refine List.pairwise_cons.2 ⟨fun x hx => ?_,hs⟩
      rcases List.mem_cons.1 hx with rfl | hx
      · exact hcmp
      · exact hK.trans k hk _ he _ (hes' x hx) hcmp (hhead x hx)
    | eq => exact List.pairwise_cons.2 ⟨hhead,htail⟩
    | gt =>
      refine List.pairwise_cons.2 ⟨fun x hx => ?_,ih hes' htail⟩
      obtain ⟨hx,-⟩ | ⟨hx,-⟩ := (mem_upsert hK hk hes' htail x).1 hx
      · exact hhead x hx
      · rw [hx,hK.swap _ he _ hk,hcmp]
        rfl

end map

section fold
variable {α β δ : Type} [DecidableEq α] (cmp : α → α → Ordering) (key : δ → α) (next : δ → β → β) (init : β)

/-- Each element goes into the state of its key. -/
def gather (ds : List δ) : List (α × β) :=
  ds.foldl (fun es d => upsert cmp (key d) (fun st => next d (st.getD init)) es) []

/-- What the elements of one key make of the first state. -/
def stateOf (ds : List δ) (k : α) : β := (ds.filter fun d => key d = k).foldl (fun st d => next d st) init

def Gathered (ds : List δ) (es : List (α × β)) : Prop :=
  Ascending cmp es ∧ ∀ g,g ∈ es ↔ (∃ d ∈ ds,key d = g.1) ∧ g.2 = stateOf key next init ds g.1

variable {cmp key next init} {K : Set α} {ds ds' : List δ} {es : List (α × β)} {d : δ}

theorem stateOf_concat (ds : List δ) (d : δ) (k : α) : stateOf key next init (ds++[d]) k =
    if key d = k then next d (stateOf key next init ds k) else stateOf key next init ds k := by
  rw [stateOf,List.filter_append,List.foldl_append]
  split_ifs with h
  · rw [List.filter_cons_of_pos (by simpa using h)]
    rfl
  · rw [List.filter_cons_of_neg (by simpa using h)]
    rfl

theorem stateOf_of_absent {k : α} (h : ∀ d ∈ ds,key d ≠ k) : stateOf key next init ds k = init := by
  rw [stateOf,List.filter_eq_nil_iff.2 fun d hd => by simpa using h d hd]
  rfl

theorem Gathered.upsert (hK : OrderOn cmp K) (hds : ∀ x ∈ ds,key x ∈ K) (hd : key d ∈ K)
    (h : Gathered cmp key next init ds es) :
    Gathered cmp key next init (ds++[d]) (upsert cmp (key d) (fun st => next d (st.getD init)) es) := by
  obtain ⟨hs,hmem⟩ := h
  have hes : ∀ e ∈ es,e.1 ∈ K := by
    intro e he
    obtain ⟨⟨x,hx,hkey⟩,-⟩ := (hmem e).1 he
    exact hkey ▸ hds x hx
  refine ⟨ascending_upsert hK hd hes hs,fun g => ?_⟩
  rw [mem_upsert hK hd hes hs,Changed,hmem,stateOf_concat]
  by_cases hg : key d = g.1
  · have hhas : ∃ x ∈ ds++[d],key x = g.1 := ⟨d,by simp,hg⟩
    rw [if_pos hg]
    simp only [hg,ne_eq,not_true,and_false,false_or,true_and,hhas,hmem]
    by_cases hold : ∃ x ∈ ds,key x = g.1
    · simp [hold]
    · have hinit : stateOf key next init ds g.1 = init := stateOf_of_absent fun x hx hk => hold ⟨x,hx,hk⟩
      simp [hold,hinit]
  · have hsame : (∃ x ∈ ds++[d],key x = g.1) ↔ ∃ x ∈ ds,key x = g.1 := by simp [or_and_right,exists_or,hg]
    rw [if_neg hg,hsame]
    simp [Ne.symm hg]

theorem gathered_gather (hK : OrderOn cmp K) (hds : ∀ d ∈ ds,key d ∈ K) :
    Gathered cmp key next init ds (gather cmp key next init ds) := by
  induction ds using List.reverseRecOn with
  | nil => exact ⟨List.Pairwise.nil,fun g => by simp [gather]⟩
  | append_singleton ds d ih =>
    rw [gather,List.foldl_append]
    have hold : ∀ x ∈ ds,key x ∈ K := fun x hx => hds x (List.mem_append_left _ hx)
    exact (ih hold).upsert hK hold (hds d (by simp))

theorem mem_keys_gather (hK : OrderOn cmp K) (hds : ∀ d ∈ ds,key d ∈ K) (k : α) :
    k ∈ (gather cmp key next init ds).map Prod.fst ↔ ∃ d ∈ ds,key d = k := by
  have hmem : ∀ g,g ∈ gather cmp key next init ds ↔ _ := (gathered_gather hK hds).2
  rw [List.mem_map]
  constructor
  · rintro ⟨g,hg,rfl⟩
    exact ((hmem g).1 hg).1
  · intro h
    exact ⟨(k,stateOf key next init ds k),(hmem _).2 ⟨h,rfl⟩,rfl⟩

/-- The order of the elements does not show in the keys. -/
theorem keys_gather_perm (hK : OrderOn cmp K) (hds : ∀ d ∈ ds,key d ∈ K) (hperm : ds.Perm ds') :
    (gather cmp key next init ds).map Prod.fst = (gather cmp key next init ds').map Prod.fst := by
  have hds' : ∀ d ∈ ds',key d ∈ K := fun d hd => hds d (hperm.mem_iff.2 hd)
  have hsorted : ∀ xs : List δ,(∀ d ∈ xs,key d ∈ K) →
      ((gather cmp key next init xs).map Prod.fst).Pairwise fun a b => cmp a b = .lt :=
    fun xs hxs => List.pairwise_map.2 (gathered_gather hK hxs).1
  have hin : ∀ xs : List δ,(∀ d ∈ xs,key d ∈ K) → ∀ k ∈ (gather cmp key next init xs).map Prod.fst,k ∈ K := by
    intro xs hxs k hk
    obtain ⟨d,hd,rfl⟩ := (mem_keys_gather hK hxs k).1 hk
    exact hxs d hd
  have hnodup : ∀ xs : List δ,(∀ d ∈ xs,key d ∈ K) → ((gather cmp key next init xs).map Prod.fst).Nodup := by
    intro xs hxs
    refine (hsorted xs hxs).imp_of_mem fun ha hb hlt => ?_
    exact hK.ne_of_lt (hin xs hxs _ ha) (hin xs hxs _ hb) hlt
  refine ((List.perm_ext_iff_of_nodup (hnodup ds hds) (hnodup ds' hds')).2 fun k => ?_).eq_of_pairwise ?_
    (hsorted ds hds) (hsorted ds' hds')
  · rw [mem_keys_gather hK hds,mem_keys_gather hK hds']
    simp only [hperm.mem_iff]
  · intro a b ha hb hab hba
    rw [hK.swap a (hin ds hds a ha) b (hin ds' hds' b hb),hba] at hab
    cases hab

theorem gather_eq_map (hK : OrderOn cmp K) (hds : ∀ d ∈ ds,key d ∈ K) : gather cmp key next init ds =
    ((gather cmp key next init ds).map Prod.fst).map fun k => (k,stateOf key next init ds k) := by
  have hmem : ∀ g,g ∈ gather cmp key next init ds ↔ _ := (gathered_gather hK hds).2
  rw [List.map_map]
  refine (List.map_id _).symm.trans (List.map_congr_left fun g hg => ?_)
  exact Prod.ext rfl ((hmem g).1 hg).2

end fold

end GroupFold
