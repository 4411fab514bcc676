import Mathlib.Data.List.Perm.Basic
import Mathlib.Data.List.TakeDrop

/-! Hash buckets as a list of chains: what replacing one chain does to the entries, and how entries that
lie in the bucket of their own index are found. -/
namespace Buckets

variable {E : Type}

/-- Every entry lies in the bucket that `f` names for it. -/
def Placed (f : E → ℕ) (t : List (List E)) : Prop := ∀ i c, t[i]? = some c → ∀ e ∈ c, f e = i

theorem flatten_set {t : List (List E)} {i : ℕ} {c : List E} (h : t[i]? = some c) :
    ∃ rest, t.flatten.Perm (c++rest) ∧ ∀ c', (t.set i c').flatten.Perm (c'++rest) := by
  obtain ⟨hi,rfl⟩ := List.getElem?_eq_some_iff.mp h
  have hswap : ∀ c' : List E, (t.take i).flatten++(c'++(t.drop (i+1)).flatten) |>.Perm
      (c'++((t.take i).flatten++(t.drop (i+1)).flatten)) := fun c' => by
    rw [← List.append_assoc,← List.append_assoc]
    exact List.perm_append_comm.append_right _
  refine ⟨(t.take i).flatten++(t.drop (i+1)).flatten,?_,fun c' => ?_⟩
  · have hsplit : t = t.take i++t[i]::t.drop (i+1) := by simp
    have he := congrArg List.flatten hsplit
    rw [List.flatten_append,List.flatten_cons] at he
    rw [he]
    exact hswap t[i]
  · rw [List.set_eq_take_append_cons_drop,if_pos hi,List.flatten_append,List.flatten_cons]
    exact hswap c'

theorem Placed.set {f : E → ℕ} {t : List (List E)} {i : ℕ} {c : List E} (h : Placed f t)
    (hc : ∀ e ∈ c, f e = i) : Placed f (t.set i c) := by
  intro j c' hj e he
  by_cases hij : i = j
  · subst hij
    obtain ⟨hlt,hget⟩ := List.getElem?_eq_some_iff.mp hj
    rw [List.getElem_set_self] at hget
    exact hc e (hget ▸ he)
  · rw [List.getElem?_set_ne hij] at hj
    exact h j c' hj e he

theorem Placed.mem_flatten {f : E → ℕ} {t : List (List E)} {e : E} {c : List E} (h : Placed f t)
    (hc : t[f e]? = some c) : e ∈ t.flatten ↔ e ∈ c := by
  constructor
  · intro he
    obtain ⟨c',hc',he'⟩ := List.mem_flatten.mp he
    obtain ⟨j,hj,rfl⟩ := List.getElem_of_mem hc'
    have hfj : f e = j := h j _ (List.getElem?_eq_getElem hj) e he'
    rw [hfj,List.getElem?_eq_getElem hj] at hc
    exact Option.some.inj hc ▸ he'
  · exact fun he => List.mem_flatten.mpr ⟨c,List.mem_of_getElem? hc,he⟩

theorem placed_replicate (f : E → ℕ) (n : ℕ) : Placed f (List.replicate n []) := by
  intro i c hi e he
  rw [List.getElem?_replicate] at hi
  split_ifs at hi
  rw [← Option.some.inj hi] at he
  cases he

theorem exists_nonempty {t : List (List E)} {i : ℕ} (h : t.flatten ≠ [])
    (hi : ∀ j < i, t[j]? = some []) : ∃ j c, i ≤ j ∧ t[j]? = some c ∧ c ≠ [] := by
  obtain ⟨e,he⟩ := List.exists_mem_of_ne_nil _ h
  obtain ⟨c,hc,hec⟩ := List.mem_flatten.mp he
  obtain ⟨j,hj,rfl⟩ := List.getElem_of_mem hc
  refine ⟨j,_,?_,List.getElem?_eq_getElem hj,List.ne_nil_of_mem hec⟩
  by_contra hlt
  have := hi j (by omega)
  rw [List.getElem?_eq_getElem hj,Option.some.injEq] at this
  rw [this] at hec
  cases hec

end Buckets
