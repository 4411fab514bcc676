import Mathlib.Data.List.Basic
import Mathlib.Data.List.Lex

/-! Singly linked chains read through a partial successor function. The outer option of the
successor is the memory's own: `none` where there is no cell to read. -/
namespace Chain

variable {A : Type}

/-- Following `next` from `x` visits exactly the cells of `l` and then ends. -/
def Linked (next : A → Option (Option A)) : A → List A → Prop
  | x, [] => next x = some none
  | x, a::l => next x = some (some a) ∧ Linked next a l

/-- The cell reached after all of `l`. -/
def endOf (x : A) (l : List A) : A := (x::l).getLast (by simp)

@[simp] theorem endOf_nil (x : A) : endOf x [] = x := rfl

@[simp] theorem endOf_cons (x a : A) (l : List A) : endOf x (a::l) = endOf a l := by
  simp [endOf]

theorem endOf_append (x : A) (l₁ l₂ : List A) : endOf x (l₁++l₂) = endOf (endOf x l₁) l₂ := by
  induction l₁ generalizing x with
  | nil => rfl
  | cons a l ih => simp [ih]

theorem endOf_mem (x : A) (l : List A) : endOf x l = x ∨ endOf x l ∈ l := by
  induction l generalizing x with
  | nil => exact Or.inl rfl
  | cons a l ih =>
    rw [endOf_cons]
    rcases ih a with h | h <;> simp [h]

theorem Linked.next_eq {next : A → Option (Option A)} {x : A} {l : List A}
    (h : Linked next x l) : next x = some l.head? := by
  cases l with
  | nil => exact h
  | cons a l => exact h.1

theorem Linked.congr {next next' : A → Option (Option A)} {x : A} {l : List A}
    (h : Linked next x l) (he : ∀ a ∈ x::l, next' a = next a) : Linked next' x l := by
  induction l generalizing x with
  | nil => exact (he x (by simp)).trans h
  | cons a l ih =>
    exact ⟨(he x (by simp)).trans h.1,ih h.2 (fun b hb => he b (List.mem_cons_of_mem x hb))⟩

theorem linked_append {next : A → Option (Option A)} {x : A} {l₁ l₂ : List A}
    (h : Linked next x (l₁++l₂)) : Linked next (endOf x l₁) l₂ := by
  induction l₁ generalizing x with
  | nil => exact h
  | cons a l ih => exact ih h.2

theorem Linked.next_end {next : A → Option (Option A)} {x : A} {l₁ l₂ : List A}
    (h : Linked next x (l₁++l₂)) : next (endOf x l₁) = some l₂.head? :=
  (linked_append h).next_eq

/-- Splice a new cell in behind the end of `l₁`: two successors change, every other stays. -/
theorem Linked.insert {next next' : A → Option (Option A)} {x a : A} {l₁ l₂ : List A}
    (h : Linked next x (l₁++l₂)) (hnd : (x::(l₁++l₂)).Nodup) (ha : a ∉ x::(l₁++l₂))
    (hnew : next' a = some l₂.head?) (hend : next' (endOf x l₁) = some (some a))
    (hframe : ∀ b, b ≠ a → b ≠ endOf x l₁ → next' b = next b) :
    Linked next' x (l₁++a::l₂) := by
  induction l₁ generalizing x with
  | nil =>
    refine ⟨hend,?_⟩
    cases l₂ with
    | nil => exact hnew
    | cons b l₂ =>
      refine ⟨hnew,h.2.congr fun c hc => hframe c ?_ ?_⟩
      · rintro rfl; exact ha (List.mem_cons_of_mem x (by simpa using hc))
      · rintro rfl; simp at hnd hc; tauto
  | cons b l ih =>
    have hx : endOf x (b::l) ≠ x := by
      rw [endOf_cons]
      rintro he
      rcases endOf_mem b l with h' | h' <;> simp_all
    refine ⟨(hframe x ?_ hx.symm).trans h.1,ih h.2 (List.nodup_cons.mp hnd).2 ?_ ?_ ?_⟩
    · rintro rfl; exact ha (by simp)
    · exact fun hm => ha (List.mem_cons_of_mem x hm)
    · simpa using hend
    · simpa using hframe

/-- Splice the cell behind the end of `l₁` out: its predecessor takes its successor. -/
theorem Linked.erase {next next' : A → Option (Option A)} {x a : A} {l₁ l₂ : List A}
    (h : Linked next x (l₁++a::l₂)) (hnd : (x::(l₁++a::l₂)).Nodup)
    (hend : next' (endOf x l₁) = some l₂.head?)
    (hframe : ∀ b, b ≠ endOf x l₁ → next' b = next b) :
    Linked next' x (l₁++l₂) := by
  induction l₁ generalizing x with
  | nil =>
    cases l₂ with
    | nil => exact hend
    | cons b l₂ =>
      refine ⟨hend,h.2.2.congr fun c hc => hframe c ?_⟩
      rintro rfl; simp at hnd hc; tauto
  | cons b l ih =>
    have hx : endOf x (b::l) ≠ x := by
      rw [endOf_cons]
      rintro he
      rcases endOf_mem b l with h' | h' <;> simp_all
    exact ⟨(hframe x hx.symm).trans h.1,ih h.2 (List.nodup_cons.mp hnd).2
      (by simpa using hend) (by simpa using hframe)⟩

/-- Walk while the next cell exists and is `below`; answers the last cell walked to and the
cell in front of it. The bound stands for the loop's own run time. -/
def seek (next : A → Option (Option A)) (below : A → Option Bool) : ℕ → A → Option (A × Option A)
  | 0, _ => none
  | n+1, x =>
    match next x with
    | none => none
    | some none => some (x,none)
    | some (some q) =>
      match below q with
      | none => none
      | some true => seek next below n q
      | some false => some (x,some q)

theorem seek_linked {next : A → Option (Option A)} {below : A → Option Bool} {x : A}
    {l₁ l₂ : List A} {n : ℕ} (h : Linked next x (l₁++l₂)) (hn : l₁.length < n)
    (h₁ : ∀ a ∈ l₁, below a = some true) (h₂ : ∀ a ∈ l₂.head?, below a = some false) :
    seek next below n x = some (endOf x l₁,l₂.head?) := by
  induction l₁ generalizing x n with
  | nil =>
    obtain ⟨n,rfl⟩ : ∃ m, n = m+1 := ⟨n-1,by simp at hn; omega⟩
    have hx := h.next_eq
    cases l₂ with
    | nil => simp only [List.append_nil, List.head?_nil] at hx; simp [seek,hx]
    | cons b l₂ =>
      have hb := h₂ b (by simp)
      simp only [List.nil_append, List.head?_cons] at hx
      simp [seek,hx,hb]
  | cons a l ih =>
    obtain ⟨n,rfl⟩ : ∃ m, n = m+1 := ⟨n-1,by simp at hn; omega⟩
    have ha := h₁ a (by simp)
    have hl := ih (n:=n) h.2 (by simpa using hn) fun b hb => h₁ b (by simp [hb])
    simp [seek,h.1,ha,hl]

/-- All cells in front of `x`, in order. -/
def collect (next : A → Option (Option A)) : ℕ → A → Option (List A)
  | 0, _ => none
  | n+1, x =>
    match next x with
    | none => none
    | some none => some []
    | some (some q) => (collect next n q).map (q::·)

theorem collect_linked {next : A → Option (Option A)} {x : A} {l : List A} {n : ℕ}
    (h : Linked next x l) (hn : l.length < n) : collect next n x = some l := by
  induction l generalizing x n with
  | nil =>
    obtain ⟨n,rfl⟩ : ∃ m, n = m+1 := ⟨n-1,by simp at hn; omega⟩
    have hx : next x = some none := h
    simp [collect,hx]
  | cons a l ih =>
    obtain ⟨n,rfl⟩ : ∃ m, n = m+1 := ⟨n-1,by simp at hn; omega⟩
    simp [collect,h.1,ih (n:=n) h.2 (by simpa using hn)]

end Chain
