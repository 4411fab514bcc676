import Tadpole.Client

/-! The input loop as a run of its rounds, with the calls of the parser that it makes. -/
namespace Tadpole

/-- The request that a call of the parser hands over. -/
def handed (c : Client) : Option Event :=
  match parse c with
  | some (.ok c) => if c.argv = [] then none else some c.event
  | _ => none

section
variable (exec : List Bytes → Status)

def parserCalls : ℕ → Client → List Client
  | rounds, c =>
    if c.querybuf = [] then []
    else
      setReqtype c::
        match parse (setReqtype c) with
        | some (.ok c) =>
          match rounds with
          | 0 => []
          | rounds+1 =>
            if c.argv = [] then parserCalls rounds (resetClient c)
            else
              match exec c.argv with
              | .ok => parserCalls rounds (resetClient c)
              | .err => parserCalls rounds c
              | .exit => []
        | _ => []

/-- The parser calls of `readQueryFromClient`. -/
def readCalls (c : Client) (chunk : Bytes) : List Client :=
  parserCalls exec (c.querybuf++chunk).length {c with querybuf := c.querybuf++chunk}

def allCalls : Client → List Bytes → List Client
  | _, [] => []
  | c, chunk::chunks => readCalls exec c chunk++
    match (readQueryFromClient exec c chunk).2 with
    | .idle c => allCalls c chunks
    | _ => []

end

/-- There are bytes, so the loop calls the parser, and this is what comes of it. -/
def Client.Parses (c : Client) (p : Option Parsed) : Prop := c.querybuf ≠ [] ∧ parse (setReqtype c) = p

/-- From a client on, the loop has these requests executed, makes these calls of the parser and ends so. -/
inductive LoopRun (exec : List Bytes → Status) : Client → List Event → List Client → Result → Prop
  | empty {c : Client} : c.querybuf = [] → LoopRun exec c [] [] (.idle c)
  | waits {c d : Client} {log : Option Bytes} : c.Parses (some (.err log d)) →
      LoopRun exec c [] [setReqtype c] (.idle d)
  | aborts {c : Client} : c.Parses (some .abort) → LoopRun exec c [] [setReqtype c] .abort
  | frees {c d : Client} : c.Parses (some (.badFree d)) → LoopRun exec c [] [setReqtype c] .badFree
  | fails {c : Client} : c.Parses none → LoopRun exec c [] [setReqtype c] .undefined
  | repeats {c d : Client} : c.Parses (some (.ok d)) → LoopRun exec c [] [setReqtype c] .undefined
  | blank {c d : Client} {es : List Event} {calls : List Client} {r : Result} : c.Parses (some (.ok d)) →
      d.argv = [] → LoopRun exec (resetClient d) es calls r → LoopRun exec c es (setReqtype c::calls) r
  | runs {c d : Client} {es : List Event} {calls : List Client} {r : Result} : c.Parses (some (.ok d)) →
      d.argv ≠ [] → exec d.argv = .ok → LoopRun exec (resetClient d) es calls r →
      LoopRun exec c (d.event::es) (setReqtype c::calls) r
  | quits {c d : Client} {es : List Event} {calls : List Client} {r : Result} : c.Parses (some (.ok d)) →
      d.argv ≠ [] → exec d.argv = .err → LoopRun exec d es calls r →
      LoopRun exec c (d.event::es) (setReqtype c::calls) r
  | exits {c d : Client} : c.Parses (some (.ok d)) → d.argv ≠ [] → exec d.argv = .exit →
      LoopRun exec c [d.event] [setReqtype c] .exit

section
variable (exec : List Bytes → Status)

theorem inputLoop_run (rounds : ℕ) (c : Client) :
    LoopRun exec c (inputLoop exec rounds c).1 (parserCalls exec rounds c) (inputLoop exec rounds c).2 := by
  induction rounds generalizing c with
  | zero =>
    rw [inputLoop,parserCalls]
    by_cases hc : c.querybuf = []
    · rw [if_pos hc,if_pos hc]
      exact .empty hc
    · rw [if_neg hc,if_neg hc]
      rcases hp : parse (setReqtype c) with - | d | ⟨log,d⟩ | - | d
      · exact .fails ⟨hc,hp⟩
      · exact .repeats ⟨hc,hp⟩
      · exact .waits ⟨hc,hp⟩
      · exact .aborts ⟨hc,hp⟩
      · exact .frees ⟨hc,hp⟩
  | succ rounds ih =>
    rw [inputLoop,parserCalls]
    by_cases hc : c.querybuf = []
    · rw [if_pos hc,if_pos hc]
      exact .empty hc
    · rw [if_neg hc,if_neg hc]
      rcases hp : parse (setReqtype c) with - | d | ⟨log,d⟩ | - | d
      · exact .fails ⟨hc,hp⟩
      · dsimp only
        by_cases hargv : d.argv = []
        · rw [if_pos hargv,if_pos hargv]
          exact .blank ⟨hc,hp⟩ hargv (ih (resetClient d))
        · rw [if_neg hargv,if_neg hargv]
          cases hst : exec d.argv with
          | ok => exact .runs ⟨hc,hp⟩ hargv hst (ih (resetClient d))
          | err => exact .quits ⟨hc,hp⟩ hargv hst (ih d)
          | exit => exact .exits ⟨hc,hp⟩ hargv hst
      · exact .waits ⟨hc,hp⟩
      · exact .aborts ⟨hc,hp⟩
      · exact .frees ⟨hc,hp⟩

theorem readQueryFromClient_run (c : Client) (s : Bytes) :
    LoopRun exec {c with querybuf := c.querybuf++s} (readQueryFromClient exec c s).1 (readCalls exec c s)
      (readQueryFromClient exec c s).2 := inputLoop_run exec _ _

variable {exec}

theorem Client.Parses.handed {c d : Client} (h : c.Parses (some (.ok d))) :
    Tadpole.handed (setReqtype c) = if d.argv = [] then none else some d.event := by
  rw [Tadpole.handed,h.2]

theorem LoopRun.calls_ne_nil {c : Client} {es : List Event} {calls : List Client} {r : Result}
    (h : LoopRun exec c es calls r) (hc : c.querybuf ≠ []) : calls ≠ [] := by
  cases h with
  | empty h => exact absurd h hc
  | _ => exact List.cons_ne_nil _ _

theorem LoopRun.of_empty {c : Client} {es : List Event} {calls : List Client} {r : Result}
    (h : LoopRun exec c es calls r) (hc : c.querybuf = []) : es = [] ∧ calls = [] ∧ r = .idle c := by
  cases h with
  | empty _ => exact ⟨rfl,rfl,rfl⟩
  | _ h => exact absurd hc h.1

theorem LoopRun.handed {c : Client} {es : List Event} {calls : List Client} {r : Result}
    (h : LoopRun exec c es calls r) : ∃ rest, calls.filterMap handed = es++rest ∧
      ∀ d, r = .idle d → rest = [] := by
  induction h with
  | empty _ => exact ⟨[],rfl,fun _ _ => rfl⟩
  | waits hp => exact ⟨[],by simp [Tadpole.handed,hp.2],fun _ _ => rfl⟩
  | aborts hp => exact ⟨[],by simp [Tadpole.handed,hp.2],fun _ _ => rfl⟩
  | frees hp => exact ⟨[],by simp [Tadpole.handed,hp.2],fun _ _ => rfl⟩
  | fails hp => exact ⟨[],by simp [Tadpole.handed,hp.2],fun _ _ => rfl⟩
  | repeats _ => exact ⟨_,rfl,fun d hd => by cases hd⟩
  | blank hp hargv _ ih =>
    obtain ⟨rest,hrest,hidle⟩ := ih
    exact ⟨rest,by rw [List.filterMap_cons,hp.handed,if_pos hargv]; exact hrest,hidle⟩
  | runs hp hargv _ _ ih =>
    obtain ⟨rest,hrest,hidle⟩ := ih
    exact ⟨rest,by rw [List.filterMap_cons,hp.handed,if_neg hargv]; exact congrArg _ hrest,hidle⟩
  | quits hp hargv _ _ ih =>
    obtain ⟨rest,hrest,hidle⟩ := ih
    exact ⟨rest,by rw [List.filterMap_cons,hp.handed,if_neg hargv]; exact congrArg _ hrest,hidle⟩
  | exits hp hargv _ =>
    exact ⟨[],by rw [List.filterMap_cons,hp.handed,if_neg hargv]; rfl,fun _ _ => rfl⟩

/-- What a connection has executed was handed over by its calls. -/
theorem allCalls_handed (c : Client) (chunks : List Bytes) :
    (readAll exec c chunks).1.flatten <+: (allCalls exec c chunks).filterMap Tadpole.handed := by
  induction chunks generalizing c with
  | nil => exact List.prefix_rfl
  | cons s chunks ih =>
    obtain ⟨rest,hrest,hidle⟩ := (readQueryFromClient_run exec c s).handed
    rw [readAll,allCalls,List.filterMap_append,hrest]
    rcases hq : readQueryFromClient exec c s with ⟨es,r⟩
    rw [hq] at hidle
    cases r with
    | idle d =>
      rw [hidle d rfl,List.append_nil]
      exact (List.prefix_append_right_inj es).mpr (ih d)
    | exit => simp
    | abort => simp
    | badFree => simp
    | undefined => simp

end

end Tadpole
