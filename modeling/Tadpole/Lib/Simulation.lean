import Mathlib.Data.List.Basic

/-! Calls with answers, of which some may be undefined: two implementations that keep step with each
other give the same answers in every run. -/
namespace Simulation

variable {S M I O : Type*}

/-- The calls one after the other, with the answers, if all of them are defined. -/
def run (step : S → I → Option (S × O)) (s : S) : List I → Option (S × List O)
  | [] => some (s,[])
  | i::is =>
    match step s i with
    | none => none
    | some (s,o) => (run step s is).map fun r => (r.1,o::r.2)

/-- The same for calls that are always defined. -/
def follow (step : M → I → M × O) (m : M) : List I → M × List O
  | [] => (m,[])
  | i::is => ((follow step (step m i).1 is).1,(step m i).2::(follow step (step m i).1 is).2)

theorem follow_append (step : M → I → M × O) (m : M) (is js : List I) :
    follow step m (is++js) = ((follow step (follow step m is).1 js).1,
      (follow step m is).2++(follow step (follow step m is).1 js).2) := by
  induction is generalizing m with
  | nil => rfl
  | cons i is ih => simp only [List.cons_append,follow,ih]

theorem follow_length (step : M → I → M × O) (m : M) (is : List I) : (follow step m is).2.length = is.length := by
  induction is generalizing m with
  | nil => rfl
  | cons i is ih => simp only [follow,List.length_cons,ih]

/-- Both sides are undefined, or they give one answer and go on in related states. -/
inductive Agree (R : S → M → Prop) : Option (S × O) → Option (M × O) → Prop
  | undefined : Agree R none none
  | answers {s : S} {m : M} {o : O} (h : R s m) : Agree R (some (s,o)) (some (m,o))

theorem Agree.bind {M' S' O' : Type*} {R : S → M → Prop} {R' : S' → M' → Prop} {x : Option (S × O)}
    {y : Option (M × O)} (h : Agree R x y) {f : S × O → Option (S' × O')} {g : M × O → Option (M' × O')}
    (hfg : ∀ s m o, R s m → Agree R' (f (s,o)) (g (m,o))) : Agree R' (x.bind f) (y.bind g) := by
  cases h with
  | undefined => exact .undefined
  | answers h => exact hfg _ _ _ h

theorem Agree.bind_same {A : Type*} {R : S → M → Prop} (x : Option A) {f : A → Option (S × O)}
    {g : A → Option (M × O)} (hfg : ∀ a, x = some a → Agree R (f a) (g a)) : Agree R (x.bind f) (x.bind g) := by
  cases x with
  | none => exact .undefined
  | some a => exact hfg a rfl

theorem run_total (step : M → I → M × O) (m : M) (is : List I) :
    run (fun m i => some (step m i)) m is = some (follow step m is) := by
  induction is generalizing m with
  | nil => rfl
  | cons i is ih =>
    rw [run]
    dsimp only
    rw [ih]
    rfl

/-- A relation that each of the first `bound` calls keeps is kept by a run of so many. -/
theorem run_agrees {step : S → I → Option (S × O)} {ref : M → I → Option (M × O)} {R : ℕ → S → M → Prop}
    {bound : ℕ} {G : I → Prop} (h : ∀ n < bound, ∀ s m i, R n s m → G i → Agree (R (n+1)) (step s i) (ref m i))
    {is : List I} (hG : ∀ i ∈ is, G i) {n : ℕ} (hn : n+is.length ≤ bound) {s : S} {m : M} (hR : R n s m) :
    Agree (R (n+is.length)) (run step s is) (run ref m is) := by
  induction is generalizing n s m with
  | nil => exact .answers hR
  | cons i is ih =>
    rw [List.length_cons] at hn
    have hhead := h n (by omega) s m i hR (hG i (by simp))
    rw [run,run]
    cases hs : step s i with
    | none =>
      cases hm : ref m i with
      | none => exact .undefined
      | some b =>
        rw [hs,hm] at hhead
        cases hhead
    | some a =>
      cases hm : ref m i with
      | none =>
        rw [hs,hm] at hhead
        cases hhead
      | some b =>
        rw [hs,hm] at hhead
        cases hhead with
        | answers hR' =>
          have htail := ih (fun j hj => hG j (by simp [hj])) (n:=n+1) (by omega) hR'
          rw [List.length_cons,show n+(is.length+1) = n+1+is.length by omega]
          dsimp only
          generalize run step _ is = x at htail ⊢
          generalize run ref _ is = y at htail ⊢
          cases htail with
          | undefined => exact .undefined
          | answers hR'' => exact .answers hR''

/-- Beside calls that are always defined the run is defined. -/
theorem run_follows {step : S → I → Option (S × O)} {ref : M → I → M × O} {R : ℕ → S → M → Prop} {bound : ℕ}
    {G : I → Prop} (h : ∀ n < bound, ∀ s m i, R n s m → G i →
      ∃ s', step s i = some (s',(ref m i).2) ∧ R (n+1) s' (ref m i).1)
    {is : List I} (hG : ∀ i ∈ is, G i) {n : ℕ} (hn : n+is.length ≤ bound) {s : S} {m : M} (hR : R n s m) :
    ∃ s', run step s is = some (s',(follow ref m is).2) ∧ R (n+is.length) s' (follow ref m is).1 := by
  have hstep : ∀ k < bound, ∀ s m i, R k s m → G i → Agree (R (k+1)) (step s i) (some (ref m i)) := by
    intro k hk s m i hR hg
    obtain ⟨s',hs',hR'⟩ := h k hk s m i hR hg
    rw [hs']
    exact .answers hR'
  have hall := run_agrees hstep hG hn hR
  rw [run_total] at hall
  generalize run step s is = x at hall ⊢
  generalize follow ref m is = y at hall ⊢
  cases hall with
  | answers hR' => exact ⟨_,rfl,hR'⟩

end Simulation
