import Mathlib.Data.List.ReduceOption
import Tadpole.Lib.Simulation

/-! A value on disk and the copy of it that a process works on: what calls, exits and crashes make of the two, and a
machine that keeps step with them. -/
namespace Durable

variable {M I O S E A : Type*}

/-- What lies on the disk, and what the process has in memory while it runs. -/
structure State (M : Type*) where
  disk : M
  memory : Option M

/-- The process starts, answers a call, exits, exits in the middle of a call, or is killed; an exit saves unless its
save fails. -/
inductive Event (I : Type*)
  | start
  | call (i : I)
  | exit (saved : Bool)
  | cut (i : I) (saved : Bool)
  | kill

inductive Step (ref : M → I → M × O) : State M → Event I → Option O → State M → Prop
  | start (d : M) : Step ref ⟨d,none⟩ .start none ⟨d,some d⟩
  | call (d m : M) (i : I) : Step ref ⟨d,some m⟩ (.call i) (some (ref m i).2) ⟨d,some (ref m i).1⟩
  | saved (d m : M) : Step ref ⟨d,some m⟩ (.exit true) none ⟨m,none⟩
  | unsaved (d m : M) : Step ref ⟨d,some m⟩ (.exit false) none ⟨d,none⟩
  | before (d m : M) (i : I) : Step ref ⟨d,some m⟩ (.cut i true) none ⟨m,none⟩
  | behind (d m : M) (i : I) : Step ref ⟨d,some m⟩ (.cut i true) none ⟨(ref m i).1,none⟩
  | lost (d m : M) (i : I) : Step ref ⟨d,some m⟩ (.cut i false) none ⟨d,none⟩
  | kill (d m : M) : Step ref ⟨d,some m⟩ .kill none ⟨d,none⟩

inductive Run (ref : M → I → M × O) : State M → List (Event I) → List (Option O) → State M → Prop
  | nil (st : State M) : Run ref st [] [] st
  | cons {st st₁ st₂ : State M} {e : Event I} {es : List (Event I)} {o : Option O} {os : List (Option O)}
      (h : Step ref st e o st₁) (hes : Run ref st₁ es os st₂) : Run ref st (e::es) (o::os) st₂

/-- Every event is legal in the states it can come to. -/
def LegalFrom (ref : M → I → M × O) (event : E → Event I) (legal : State M → E → Prop) : State M → List E → Prop
  | _, [] => True
  | st, e::es => legal st e ∧ ∀ o st', Step ref st (event e) o st' → LegalFrom ref event legal st' es

/-- A machine whose steps keep step does so in every run. -/
theorem run_keeps {ref : M → I → M × O} {event : E → Event I} {legal : State M → E → Prop}
    {step : S → E → Option (S × Option A)} {R : S → State M → Prop} {Q : A → O → Prop}
    (h : ∀ s st e, R s st → legal st e → ∃ s' a o st', step s e = some (s',a) ∧ Step ref st (event e) o st' ∧
      Option.Rel Q a o ∧ R s' st')
    {es : List E} {s : S} {st : State M} (hR : R s st) (hes : LegalFrom ref event legal st es) :
    ∃ s' as os st', Simulation.run step s es = some (s',as) ∧ Run ref st (es.map event) os st' ∧
      List.Forall₂ (Option.Rel Q) as os ∧ R s' st' := by
  induction es generalizing s st with
  | nil => exact ⟨s,[],[],st,rfl,.nil st,.nil,hR⟩
  | cons e es ih =>
    obtain ⟨he,hrest⟩ := hes
    obtain ⟨s₁,a,o,st₁,hstep,habs,hans,hR₁⟩ := h s st e hR he
    obtain ⟨s',as,os,st',hrun,hruns,hall,hR'⟩ := ih hR₁ (hrest o st₁ habs)
    refine ⟨s',a::as,o::os,st',?_,.cons habs hruns,.cons hans hall,hR'⟩
    rw [Simulation.run,hstep]
    dsimp only
    rw [hrun]
    rfl

theorem reduceOption_rel {Q : A → O → Prop} {as : List (Option A)} {os : List (Option O)}
    (h : List.Forall₂ (Option.Rel Q) as os) : List.Forall₂ Q as.reduceOption os.reduceOption := by
  induction h with
  | nil => exact .nil
  | cons hao _ ih =>
    cases hao with
    | none => exact ih
    | some hq => exact .cons hq ih

def Event.Orderly : Event I → Prop
  | start => True
  | call _ => True
  | exit saved => saved = true
  | cut _ _ => False
  | kill => False

def Event.input? : Event I → Option I
  | call i => some i
  | _ => none

def State.value (st : State M) : M := st.memory.getD st.disk

/-- Between orderly exits the starts are not to be seen: the calls are answered as by a value that never leaves the
memory. -/
theorem Run.orderly {ref : M → I → M × O} {st st' : State M} {es : List (Event I)} {os : List (Option O)}
    (h : Run ref st es os st') (hes : ∀ e ∈ es, e.Orderly) :
    Simulation.follow ref st.value (es.filterMap Event.input?) = (st'.value,os.reduceOption) := by
  induction h with
  | nil st => rfl
  | cons hstep hrun ih =>
    have hhead := hes _ List.mem_cons_self
    have hrest := ih fun e he => hes e (List.mem_cons_of_mem _ he)
    cases hstep with
    | start d => exact hrest
    | call d m i =>
      simp only [State.value,Option.getD_some] at hrest
      simp only [State.value,Option.getD_some,List.filterMap_cons,Event.input?,Simulation.follow,hrest,
        List.reduceOption_cons_of_some]
    | saved d m => exact hrest
    | unsaved d m => cases hhead
    | before d m i => exact hhead.elim
    | behind d m i => exact hhead.elim
    | lost d m i => exact hhead.elim
    | kill d m => exact hhead.elim

end Durable
