import Mathlib.Data.List.Basic

/-! A property that at most the last element of a list has. -/

/-- Whatever has the property is the last of the list. -/
def OnlyLast {α : Type*} (P : α → Prop) (l : List α) : Prop := ∀ x ∈ l.dropLast, ¬ P x

section
variable {α β : Type*} {P : α → Prop} {l m : List α} {x : α}

theorem onlyLast_nil : OnlyLast P [] := by
  intro x hx
  cases hx

theorem onlyLast_singleton : OnlyLast P [x] := by
  intro y hy
  cases hy

theorem onlyLast_cons (hl : l ≠ []) : OnlyLast P (x::l) ↔ ¬ P x ∧ OnlyLast P l := by
  rw [OnlyLast,List.dropLast_cons_of_ne_nil hl,List.forall_mem_cons]
  rfl

theorem onlyLast_append (hl : ∀ x ∈ l, ¬ P x) : OnlyLast P (l++m) ↔ OnlyLast P m := by
  induction l with
  | nil => rfl
  | cons x l ih =>
    rw [List.forall_mem_cons] at hl
    rw [List.cons_append]
    by_cases hlm : l++m = []
    · rw [hlm,(List.append_eq_nil_iff.mp hlm).2]
      exact iff_of_true onlyLast_singleton onlyLast_nil
    · rw [onlyLast_cons hlm,ih hl.2,and_iff_right hl.1]

theorem OnlyLast.of_append (h : OnlyLast P (l++m)) : OnlyLast P l := by
  induction l with
  | nil => exact onlyLast_nil
  | cons x l ih =>
    by_cases hl : l = []
    · rw [hl]
      exact onlyLast_singleton
    · rw [List.cons_append,onlyLast_cons (List.append_ne_nil_of_left_ne_nil hl m)] at h
      exact (onlyLast_cons hl).mpr ⟨h.1,ih h.2⟩

theorem OnlyLast.filterMap {Q : β → Prop} {f : α → Option β} (h : OnlyLast (fun x => ∃ y, f x = some y ∧ Q y) l) :
    OnlyLast Q (l.filterMap f) := by
  induction l with
  | nil => exact onlyLast_nil
  | cons x l ih =>
    by_cases hl : l = []
    · subst hl
      rw [List.filterMap_cons]
      cases f x with
      | none => exact onlyLast_nil
      | some y => exact onlyLast_singleton
    · obtain ⟨hx,hrest⟩ := (onlyLast_cons hl).mp h
      rw [List.filterMap_cons]
      cases hf : f x with
      | none => exact ih hrest
      | some y =>
        have hy : ∀ z ∈ [y], ¬ Q z := fun z hz hq => hx ⟨z,by rw [hf,List.mem_singleton.mp hz],hq⟩
        exact (onlyLast_append hy).mpr (ih hrest)

theorem OnlyLast.map {Q : β → Prop} {f : α → β} (h : OnlyLast (fun x => Q (f x)) l) : OnlyLast Q (l.map f) := by
  intro y hy
  rw [← List.map_dropLast] at hy
  obtain ⟨x,hx,rfl⟩ := List.mem_map.mp hy
  exact h x hx

end
