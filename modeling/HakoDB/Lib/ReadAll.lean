import Mathlib.Data.List.Sort

/-! A list read element by element, where every reading may fail. The list is read if each of its elements is. -/
namespace ReadAll
variable {α β γ : Type}

theorem mapM_cons_option (r : α → Option β) (x : α) (xs : List α) :
    (x::xs).mapM r = (r x).bind fun y => (xs.mapM r).map fun ys => y::ys := by
  rw [List.mapM_cons]
  cases r x with
  | none => rfl
  | some y => cases xs.mapM r <;> rfl

variable {f : α → Option β} {x : α} {xs : List α} {ys : List β} {r : α → Option β}

theorem mapM_cons_eq_some (h : (x::xs).mapM f = some ys) :
    ∃ y ys',f x = some y ∧ xs.mapM f = some ys' ∧ ys = y::ys' := by
  rw [List.mapM_cons] at h
  obtain ⟨y,hy,h⟩ := Option.bind_eq_some_iff.1 h
  obtain ⟨ys',hys',h⟩ := Option.bind_eq_some_iff.1 h
  exact ⟨y,ys',hy,hys',(Option.some.inj h).symm⟩

theorem mapM_length (h : xs.mapM f = some ys) :
    ys.length = xs.length := by
  induction xs generalizing ys with
  | nil =>
    cases h
    rfl
  | cons x xs ih =>
    obtain ⟨y,ys',-,hmore,rfl⟩ := mapM_cons_eq_some h
    rw [List.length_cons,List.length_cons,ih hmore]

theorem isSome_mapM : (xs.mapM f).isSome ↔ ∀ x ∈ xs,(f x).isSome := by
  induction xs with
  | nil => simp
  | cons x xs ih =>
    rw [List.mapM_cons,List.forall_mem_cons,← ih]
    cases f x <;> cases xs.mapM f <;> simp

theorem of_mem_mapM (h : xs.mapM f = some ys) :
    ∀ y ∈ ys,∃ x ∈ xs,f x = some y := by
  induction xs generalizing ys with
  | nil =>
    obtain rfl := Option.some.inj h
    exact fun y hy => absurd hy List.not_mem_nil
  | cons x xs ih =>
    rw [List.mapM_cons] at h
    obtain ⟨first,hfirst,h⟩ := Option.bind_eq_some_iff.1 h
    obtain ⟨rest,hrest,h⟩ := Option.bind_eq_some_iff.1 h
    obtain rfl := Option.some.inj h
    intro y hy
    rcases List.mem_cons.1 hy with rfl | hy
    · exact ⟨x,List.mem_cons_self,hfirst⟩
    · obtain ⟨x',hx',hy'⟩ := ih hrest y hy
      exact ⟨x',List.mem_cons_of_mem x hx',hy'⟩

theorem mem_mapM_of_mem (h : xs.mapM f = some ys) {y : β} (hx : x ∈ xs) (hy : f x = some y) : y ∈ ys := by
  induction xs generalizing ys with
  | nil => cases hx
  | cons a xs ih =>
    obtain ⟨b,bs,hb,hbs,rfl⟩ := mapM_cons_eq_some h
    rcases List.mem_cons.1 hx with rfl | hx
    · rw [hy] at hb
      exact Option.some.inj hb ▸ List.mem_cons_self
    · exact List.mem_cons_of_mem b (ih hbs hx)

/-- Each element read, tested and written: all are read, and all pass. -/
theorem mapM_bind_if (r : α → Option β) (p : α → Bool) (g : β → γ) (xs : List α) :
    (xs.mapM fun x => (r x).bind fun y => if p x then some (g y) else none) =
      (xs.mapM r).bind fun ys => if xs.all p then some (ys.map g) else none := by
  induction xs with
  | nil => rfl
  | cons x xs ih =>
    rw [mapM_cons_option,mapM_cons_option,ih]
    cases r x with
    | none => rfl
    | some y =>
      cases xs.mapM r with
      | none => cases p x <;> rfl
      | some ys =>
        cases hp : p x <;> cases hall : xs.all p <;> simp [hp,hall]

theorem mapM_eq_some_iff_map (d : β) :
    xs.mapM r = some ys ↔ (∀ x ∈ xs,(r x).isSome) ∧ ys = xs.map fun x => (r x).getD d := by
  induction xs generalizing ys with
  | nil => exact ⟨fun h => ⟨by simp,(Option.some.inj h).symm⟩,fun h => by rw [h.2]; rfl⟩
  | cons x xs ih =>
    rw [mapM_cons_option]
    cases hr : r x with
    | none => simp [hr]
    | some y =>
      simp only [Option.bind_some,Option.map_eq_some_iff,ih,List.forall_mem_cons,hr,Option.isSome_some,true_and,
        List.map_cons,Option.getD_some]
      constructor
      · rintro ⟨zs,⟨hall,hzs⟩,h⟩
        exact ⟨hall,by rw [← h,hzs]⟩
      · rintro ⟨hall,h⟩
        exact ⟨_,⟨hall,rfl⟩,h.symm⟩

/-- Reading what is sorted gives the sorted readings, if reading keeps the order. -/
theorem mapM_insertionSort (R : α → α → Prop) [DecidableRel R] (S : β → β → Prop) [DecidableRel S]
    (h : ∀ x y a b,r x = some a → r y = some b → (R x y ↔ S a b)) :
    (xs.insertionSort R).mapM r = (xs.mapM r).map fun ys => ys.insertionSort S := by
  cases hr : xs.mapM r with
  | none =>
    by_contra hne
    obtain ⟨zs,hzs⟩ := Option.ne_none_iff_exists'.1 hne
    cases zs with
    | nil =>
      have hlen : (xs.insertionSort R).length = 0 := by
        cases hsort : xs.insertionSort R with
        | nil => rfl
        | cons x rest =>
          rw [hsort,mapM_cons_option] at hzs
          cases hx : r x <;> simp [hx] at hzs
      rw [List.length_insertionSort,List.length_eq_zero_iff] at hlen
      rw [hlen] at hr
      cases hr
    | cons z zs =>
      have hsome := ((mapM_eq_some_iff_map z).1 hzs).1
      have hall := (mapM_eq_some_iff_map z).2 ⟨fun x hx => hsome x ((List.mem_insertionSort R).2 hx),rfl⟩
      rw [hr] at hall
      cases hall
  | some ys =>
    cases ys with
    | nil =>
      have hnil : xs = [] := by
        cases xs with
        | nil => rfl
        | cons x xs =>
          rw [mapM_cons_option] at hr
          cases hx : r x <;> simp [hx] at hr
      rw [hnil]
      rfl
    | cons y ys =>
      obtain ⟨hsome,hys⟩ := (mapM_eq_some_iff_map y).1 hr
      have horder : ∀ a ∈ xs,∀ b ∈ xs,R a b ↔ S ((r a).getD y) ((r b).getD y) := by
        intro a ha b hb
        obtain ⟨u,hu⟩ := Option.isSome_iff_exists.1 (hsome a ha)
        obtain ⟨v,hv⟩ := Option.isSome_iff_exists.1 (hsome b hb)
        simpa [hu,hv] using h a b u v hu hv
      have hsort := List.map_insertionSort R S (fun x => (r x).getD y) xs horder
      rw [Option.map_some,hys,← hsort]
      exact (mapM_eq_some_iff_map y).2 ⟨fun x hx => hsome x ((List.mem_insertionSort R).1 hx),rfl⟩

end ReadAll
