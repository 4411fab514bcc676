import Mathlib.Data.List.Basic

/-! Readers that take items off the front of a buffer. An attempt that finds too little waits and goes on where it
stopped; however the input is cut into pieces, the same values come out. -/
namespace Incremental

variable {S B O : Type*}

/-- One attempt takes so many elements and waits, or takes an item, which may give a value, or fails. -/
inductive Outcome (S O : Type*)
  | wait (taken : ℕ) (s : S)
  | done (taken : ℕ) (s : S) (o : Option O)
  | broken

def Outcome.skip (n : ℕ) : Outcome S O → Outcome S O
  | wait taken s => wait (n+taken) s
  | done taken s o => done (n+taken) s o
  | broken => broken

@[simp] theorem Outcome.skip_zero (r : Outcome S O) : r.skip 0 = r := by
  cases r <;> simp [Outcome.skip]

/-- What is behind an item does not change it, and an attempt that waits goes on where it stopped, as long as the
buffer is shorter than the bound. -/
structure Resumes (item : S → List B → Outcome S O) (bound : ℕ) : Prop where
  taken : ∀ {s p k s'}, item s p = .wait k s' → k ≤ p.length
  done : ∀ {s p k s' o}, item s p = .done k s' o → 0 < k ∧ k ≤ p.length
  behind : ∀ {s p k s' o} t, item s p = .done k s' o → (p++t).length < bound → item s (p++t) = .done k s' o
  again : ∀ {s p k s'} t, item s p = .wait k s' → (p++t).length < bound →
    item s (p++t) = (item s' (p.drop k++t)).skip k
  broken : ∀ {s p} t, item s p = .broken → (p++t).length < bound → item s (p++t) = .broken

/-- Items are taken until one gives a value, or waits. -/
def take (item : S → List B → Outcome S O) : ℕ → S → List B → Option (S × List B × Option O)
  | 0, s, p => some (s,p,none)
  | fuel+1, s, p =>
    match item s p with
    | .wait k s => some (s,p.drop k,none)
    | .done k s (some o) => some (s,p.drop k,some o)
    | .done k s none => take item fuel s (p.drop k)
    | .broken => none

/-- The input is taken item by item, and the last item gives the value. -/
inductive Reads (item : S → List B → Outcome S O) : S → List B → S → Option O → Prop
  | last {s s' : S} {x : List B} {o : Option O} (h : item s x = .done x.length s' o) : Reads item s x s' o
  | more {s s₁ s' : S} {x y : List B} {o : Option O} (h : item s x = .done x.length s₁ none)
      (hy : Reads item s₁ y s' o) : Reads item s (x++y) s' o

theorem Reads.append {item : S → List B → Outcome S O} {s s₁ s' : S} {x y : List B} {r o : Option O}
    (h : Reads item s x s₁ r) (hr : r = none) (hy : Reads item s₁ y s' o) : Reads item s (x++y) s' o := by
  induction h with
  | last h =>
    subst hr
    exact .more h hy
  | more h _ ih =>
    rw [List.append_assoc]
    exact .more h (ih hr hy)

section
variable {item : S → List B → Outcome S O} {bound : ℕ} {s s' : S} {x : List B} {o : O}

/-- An item that is cut short waits, and what is left of it takes it on. -/
theorem Resumes.cut (hi : Resumes item bound) {p q : List B} {r : Option O} (h : item s (p++q) = .done (p++q).length s' r)
    (hq : q ≠ []) (hlen : (p++q).length < bound) :
    ∃ k s₁, item s p = .wait k s₁ ∧ item s₁ (p.drop k++q) = .done (p.drop k++q).length s' r := by
  have hpos : 0 < q.length := List.length_pos_of_ne_nil hq
  cases hp : item s p with
  | wait k s₁ =>
    have hk := hi.taken hp
    have hagain := hi.again q hp hlen
    rw [h] at hagain
    refine ⟨k,s₁,rfl,?_⟩
    cases hrest : item s₁ (p.drop k++q) with
    | wait k' s₂ => simp [hrest,Outcome.skip] at hagain
    | broken => simp [hrest,Outcome.skip] at hagain
    | done k' s₂ r' =>
      simp only [hrest,Outcome.skip,Outcome.done.injEq] at hagain
      obtain ⟨hn,rfl,rfl⟩ := hagain
      simp only [List.length_append,List.length_drop] at hn ⊢
      rw [show k' = p.length-k+q.length by omega]
  | done k s₁ r' =>
    have hk := (hi.done hp).2
    have := (hi.behind q hp hlen).symm.trans h
    simp only [Outcome.done.injEq,List.length_append] at this
    omega
  | broken =>
    have := (hi.broken q hp hlen).symm.trans h
    cases this

/-- What is there in full is taken. -/
theorem Reads.take {r : Option O} (h : Reads item s x s' r) (hr : r = some o) (hi : Resumes item bound) {t : List B}
    (hlen : (x++t).length < bound) {fuel : ℕ} (hfuel : x.length ≤ fuel) :
    Incremental.take item fuel s (x++t) = some (s',t,some o) := by
  induction h generalizing fuel with
  | last h =>
    subst hr
    obtain ⟨hpos,-⟩ := hi.done h
    obtain ⟨fuel,rfl⟩ : ∃ f, fuel = f+1 := ⟨fuel-1,by omega⟩
    rw [Incremental.take,hi.behind t h hlen]
    simp
  | @more s s₁ s' x y r h hy ih =>
    obtain ⟨hpos,-⟩ := hi.done h
    rw [List.length_append] at hfuel
    obtain ⟨fuel,rfl⟩ : ∃ f, fuel = f+1 := ⟨fuel-1,by omega⟩
    have hrest : (y++t).length < bound := by
      simp only [List.length_append] at hlen ⊢
      omega
    rw [List.append_assoc] at hlen ⊢
    rw [Incremental.take,hi.behind (y++t) h hlen]
    simp only [List.drop_left]
    exact ih hr hrest (by omega)

/-- What is cut short is taken as far as it goes, and the rest of it takes it on. -/
theorem Reads.cut {r : Option O} (h : Reads item s x s' r) (hr : r = some o) (hi : Resumes item bound)
    (hlen : x.length < bound) {p q : List B} (hx : x = p++q) (hq : q ≠ []) {fuel : ℕ} (hfuel : p.length < fuel) :
    ∃ s₁ p₁, Incremental.take item fuel s p = some (s₁,p₁,none) ∧ p₁.length ≤ p.length ∧
      Reads item s₁ (p₁++q) s' (some o) := by
  induction h generalizing p fuel with
  | last h =>
    subst hr hx
    obtain ⟨fuel,rfl⟩ : ∃ f, fuel = f+1 := ⟨fuel-1,by omega⟩
    obtain ⟨k,s₁,hp,hrest⟩ := hi.cut h hq hlen
    exact ⟨s₁,p.drop k,by rw [Incremental.take,hp],by simp,.last hrest⟩
  | @more s s₁ s' x y r h hy ih =>
    subst hr
    obtain ⟨hpos,-⟩ := hi.done h
    obtain ⟨fuel,rfl⟩ : ∃ f, fuel = f+1 := ⟨fuel-1,by omega⟩
    rw [List.length_append] at hlen
    by_cases hfull : x.length ≤ p.length
    · obtain ⟨p',rfl⟩ : x <+: p := List.prefix_of_prefix_length_le ⟨y,hx⟩ ⟨q,rfl⟩ hfull
      obtain rfl : y = p'++q := by rwa [List.append_assoc,List.append_right_inj] at hx
      have hp : item s (x++p') = .done x.length s₁ none := hi.behind p' h (by
        simp only [List.length_append] at hlen ⊢
        omega)
      rw [List.length_append] at hfuel
      obtain ⟨s₂,p₂,htake,hle,hreads⟩ := ih rfl (by omega) rfl (by omega : p'.length < fuel)
      refine ⟨s₂,p₂,?_,by rw [List.length_append]; omega,hreads⟩
      rw [Incremental.take,hp]
      simpa using htake
    · obtain ⟨q',rfl⟩ : p <+: x := List.prefix_of_prefix_length_le ⟨q,hx.symm⟩ ⟨y,rfl⟩ (by omega)
      obtain rfl : q = q'++y := by
        rw [List.append_assoc,List.append_right_inj] at hx
        exact hx.symm
      have hq' : q' ≠ [] := by
        rintro rfl
        simp at hfull
      obtain ⟨k,s₂,hp,hrest⟩ := hi.cut h hq' (by omega)
      refine ⟨s₂,p.drop k,by rw [Incremental.take,hp],by simp,?_⟩
      rw [← List.append_assoc]
      exact .more hrest hy

end

end Incremental
