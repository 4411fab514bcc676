import Mathlib.Data.List.Basic

/-! Machines that take one input at a time and may put something out at each. Feeding a machine in
pieces is feeding it the whole. -/
namespace Mealy

variable {S I O : Type*} (step : S → I → S × Option O)

/-- The state after the inputs and what was put out on the way. -/
def feed (s : S) : List I → S × List O
  | [] => (s,[])
  | i::is => ((feed (step s i).1 is).1,(step s i).2.toList++(feed (step s i).1 is).2)

@[simp] theorem feed_nil (s : S) : feed step s [] = (s,[]) := rfl

theorem feed_cons (s : S) (i : I) (is : List I) :
    feed step s (i::is) = ((feed step (step s i).1 is).1,
      (step s i).2.toList++(feed step (step s i).1 is).2) := rfl

theorem feed_append (s : S) (is js : List I) :
    feed step s (is++js) = ((feed step (feed step s is).1 js).1,
      (feed step s is).2++(feed step (feed step s is).1 js).2) := by
  induction is generalizing s with
  | nil => rfl
  | cons i is ih => simp only [List.cons_append,feed_cons,ih,List.append_assoc]

theorem feed_prefix (s : S) (is js : List I) : (feed step s is).2 <+: (feed step s (is++js)).2 := by
  rw [feed_append]
  exact List.prefix_append ..

/-- What is put out, each with the inputs that come behind it. -/
def feedLeft (s : S) : List I → S × List (O × List I)
  | [] => (s,[])
  | i::is => ((feedLeft (step s i).1 is).1,(step s i).2.toList.map (·,is)++(feedLeft (step s i).1 is).2)

theorem feedLeft_cons (s : S) (i : I) (is : List I) :
    feedLeft step s (i::is) = ((feedLeft step (step s i).1 is).1,
      (step s i).2.toList.map (·,is)++(feedLeft step (step s i).1 is).2) := rfl

theorem feedLeft_feed (s : S) (is : List I) :
    feed step s is = ((feedLeft step s is).1,(feedLeft step s is).2.map Prod.fst) := by
  induction is generalizing s with
  | nil => rfl
  | cons i is ih =>
    rw [feed_cons,feedLeft_cons,ih,List.map_append,List.map_map]
    congr 2
    exact (List.map_id _).symm

theorem feedLeft_append {s t : S} {is : List I} (h : feed step s is = (t,[])) (js : List I) :
    feedLeft step s (is++js) = feedLeft step t js := by
  induction is generalizing s with
  | nil =>
    obtain rfl := (Prod.mk.inj h).1
    rfl
  | cons i is ih =>
    rw [feed_cons,Prod.mk.injEq,List.append_eq_nil_iff] at h
    obtain ⟨hstate,hnone,hrest⟩ := h
    rw [List.cons_append,feedLeft_cons,ih (Prod.ext hstate hrest),hnone]
    rfl

theorem feedLeft_quiet {s t : S} {is : List I} (h : feed step s is = (t,[])) : feedLeft step s is = (t,[]) := by
  have hall := feedLeft_append step h []
  rwa [List.append_nil] at hall

/-- What is put out in front has the inputs behind it left as well. -/
theorem feedLeft_split (s : S) (is js : List I) :
    feedLeft step s (is++js) = ((feedLeft step (feed step s is).1 js).1,
      (feedLeft step s is).2.map (fun o => (o.1,o.2++js))++(feedLeft step (feed step s is).1 js).2) := by
  induction is generalizing s with
  | nil => rfl
  | cons i is ih =>
    rw [List.cons_append,feedLeft_cons,feedLeft_cons,feed_cons,ih,List.map_append,List.map_map,List.append_assoc]
    rfl

/-- What every step keeps unless it puts out a mark, a run keeps unless it puts out one. -/
theorem feed_keeps {P : S → Prop} {Q : O → Prop}
    (hstep : ∀ s i, P s → P (step s i).1 ∨ ∃ o ∈ (step s i).2, Q o) {s : S} (h : P s) (is : List I) :
    P (feed step s is).1 ∨ ∃ o ∈ (feed step s is).2, Q o := by
  induction is generalizing s with
  | nil => exact Or.inl h
  | cons i is ih =>
    rw [feed_cons]
    rcases hstep s i h with hs | ⟨o,ho,hq⟩
    · refine (ih hs).imp_right ?_
      rintro ⟨o,ho,hq⟩
      exact ⟨o,List.mem_append_right _ ho,hq⟩
    · exact Or.inr ⟨o,List.mem_append_left _ (Option.mem_toList.mpr ho),hq⟩

/-- A part of the output that depends on the input alone. -/
theorem map_feed {M : Type*} {f : O → M} {g : I → Option M} (h : ∀ s i, (step s i).2.map f = g i) (s : S) (is : List I) :
    (feed step s is).2.map f = is.filterMap g := by
  induction is generalizing s with
  | nil => rfl
  | cons i is ih =>
    rw [feed_cons,List.map_append,ih,← Option.toList_map,h,List.filterMap_cons]
    cases g i <;> rfl

/-- A state that no input leaves and in which nothing is put out. -/
def Absorbing (s : S) : Prop := ∀ i, step s i = (s,none)

variable {step}

theorem Absorbing.feed {s : S} (h : Absorbing step s) (is : List I) : Mealy.feed step s is = (s,[]) := by
  induction is with
  | nil => rfl
  | cons i is ih => simp [feed_cons,h i,ih]

end Mealy
