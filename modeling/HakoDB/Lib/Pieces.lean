import Mathlib.Data.List.Basic
import Mathlib.Data.String.Basic

/-! Lists cut at separators. Finer separators cut the pieces again, and the pieces of a front go on in the
pieces of the whole. Between a word and the word with the greatest letter behind it stand the words that start with it. -/
namespace Pieces
variable {α : Type} {p q : α → Bool} {s t : List α}

theorem not_separator (h : t ∈ s.splitOnP p) : ∀ c ∈ t,p c = false := by
  induction s generalizing t with
  | nil => simp_all [List.splitOnP_nil]
  | cons x s ih =>
    obtain ⟨r,rs,hr⟩ := List.exists_cons_of_ne_nil (List.splitOnP_ne_nil p s)
    rw [hr] at ih
    rw [List.splitOnP_cons_eq_if_modifyHead,hr] at h
    by_cases hx : p x
    · rw [if_pos hx,List.mem_cons] at h
      rcases h with rfl | h
      · simp
      · exact ih h
    · rw [if_neg hx,List.modifyHead_cons,List.mem_cons] at h
      rcases h with rfl | h
      · exact List.forall_mem_cons.2 ⟨by simpa using hx,ih List.mem_cons_self⟩
      · exact ih (List.mem_cons_of_mem _ h)

/-- A separator of the coarse cut is one of the fine cut. -/
theorem flatMap_splitOnP (hq : ∀ c,q c → p c) (s : List α) : (s.splitOnP q).flatMap (List.splitOnP p) = s.splitOnP p := by
  induction s with
  | nil => simp [List.splitOnP_nil]
  | cons x s ih =>
    obtain ⟨r,rs,hr⟩ := List.exists_cons_of_ne_nil (List.splitOnP_ne_nil q s)
    obtain ⟨a,as,ha⟩ := List.exists_cons_of_ne_nil (List.splitOnP_ne_nil p r)
    rw [hr,List.flatMap_cons,ha] at ih
    rw [List.splitOnP_cons_eq_if_modifyHead,List.splitOnP_cons_eq_if_modifyHead,hr,← ih]
    by_cases hqx : q x
    · simp [hqx,hq x hqx,List.splitOnP_nil,ha]
    · by_cases hpx : p x
      · simp [hqx,hpx,List.splitOnP_cons_eq_if_modifyHead,ha]
      · simp [hqx,hpx,List.splitOnP_cons_eq_if_modifyHead,ha]

/-- The first piece of a front starts the first piece of the whole, later ones start later ones. -/
theorem splitOnP_append (p : α → Bool) (s rest : List α) :
    ∃ r rs r' rs',s.splitOnP p = r::rs ∧ (s++rest).splitOnP p = r'::rs' ∧ r <+: r' ∧ ∀ t ∈ rs,∃ t' ∈ rs',t <+: t' := by
  induction s with
  | nil =>
    obtain ⟨r,rs,hr⟩ := List.exists_cons_of_ne_nil (List.splitOnP_ne_nil p rest)
    exact ⟨[],[],r,rs,List.splitOnP_nil,hr,List.nil_prefix,by simp⟩
  | cons x s ih =>
    obtain ⟨r,rs,r',rs',hr,hr',hfirst,hlater⟩ := ih
    rw [List.cons_append,List.splitOnP_cons_eq_if_modifyHead,List.splitOnP_cons_eq_if_modifyHead,hr,hr']
    by_cases hx : p x
    · refine ⟨[],r::rs,[],r'::rs',if_pos hx,if_pos hx,List.prefix_rfl,List.forall_mem_cons.2 ⟨?_,fun t ht => ?_⟩⟩
      · exact ⟨r',List.mem_cons_self,hfirst⟩
      · obtain ⟨t',ht',hpre⟩ := hlater t ht
        exact ⟨t',List.mem_cons_of_mem _ ht',hpre⟩
    · exact ⟨x::r,rs,x::r',rs',if_neg hx,if_neg hx,List.cons_prefix_cons.2 ⟨rfl,hfirst⟩,hlater⟩

theorem exists_piece_of_front {front : List α} (hfront : front <+: s) (h : t ∈ front.splitOnP p) :
    ∃ t' ∈ s.splitOnP p,t <+: t' := by
  obtain ⟨rest,rfl⟩ := hfront
  obtain ⟨r,rs,r',rs',hr,hr',hfirst,hlater⟩ := splitOnP_append p front rest
  rw [hr,List.mem_cons] at h
  rw [hr']
  rcases h with rfl | h
  · exact ⟨r',List.mem_cons_self,hfirst⟩
  · obtain ⟨t',ht',hpre⟩ := hlater t h
    exact ⟨t',List.mem_cons_of_mem _ ht',hpre⟩

theorem prefix_iff_between [LinearOrder α] {top : α} {w v : List α} (hv : ∀ c ∈ v,c < top) :
    w <+: v ↔ ¬v < w ∧ v < w++[top] := by
  induction w generalizing v with
  | nil =>
    cases v with
    | nil => simp
    | cons b v => simp [List.cons_lt_cons_iff,hv b]
  | cons a w ih =>
    cases v with
    | nil => simp
    | cons b v =>
      rw [List.forall_mem_cons] at hv
      rw [List.cons_prefix_cons,List.cons_append,List.cons_lt_cons_iff,List.cons_lt_cons_iff,ih hv.2]
      constructor
      · rintro ⟨rfl,hge,hlt⟩
        exact ⟨by simp [hge],.inr ⟨rfl,hlt⟩⟩
      · rintro ⟨hge,hba | ⟨rfl,hlt⟩⟩
        · exact absurd (.inl hba) hge
        · exact ⟨rfl,fun h => hge (.inr ⟨rfl,h⟩),hlt⟩

end Pieces
