import Tadpole.SocketWrites
import Mathlib.Algebra.BigOperators.Group.Finset.Basic

/-! The send loop of `addReply` with all that `write` may return. It takes every failure but `EAGAIN` for a
count of bytes, and goes on. -/
namespace Tadpole

/-- What a `write` returns: so many bytes, or -1 with `EAGAIN` or with another `errno`. -/
inductive WriteResult
  | wrote (n : ℕ)
  | eagain
  | failed
  deriving DecidableEq

/-- The variables of the loop: the offset of `pos` in the reply, and `total`. -/
structure SendLoop where
  pos : ℤ
  total : ℤ
  deriving DecidableEq

def SendLoop.toWrite (l : SendLoop) : ℤ := if l.total > 16*1024 then 16*1024 else l.total

/-- `write` accepts no more than it is given. -/
def WriteResult.nwritten (toWrite : ℤ) : WriteResult → ℤ
  | wrote n => min n toWrite
  | eagain => -1
  | failed => -1

def SendLoop.step (l : SendLoop) (r : WriteResult) : SendLoop :=
  let nwritten := r.nwritten l.toWrite
  if nwritten = -1 ∧ r = .eagain then l else ⟨l.pos+nwritten,l.total-nwritten⟩

/-- The variables after so many rounds, `while (total > 0)`. -/
def sendLoop (reply : Bytes) (results : ℕ → WriteResult) : ℕ → SendLoop
  | 0 => ⟨0,reply.length⟩
  | i+1 =>
    let l := sendLoop reply results i
    if l.total > 0 then l.step (results i) else l

/-- The loop stays inside the reply and stops on a dead peer. -/
structure SendsInside (reply : Bytes) (results : ℕ → WriteResult) : Prop where
  inside : ∀ i, 0 ≤ (sendLoop reply results i).pos ∧ (sendLoop reply results i).pos ≤ reply.length
  rest : ∀ i, (sendLoop reply results i).total = reply.length-(sendLoop reply results i).pos
  falls : ∀ i, (sendLoop reply results (i+1)).total ≤ (sendLoop reply results i).total
  stops : ∀ i j, 0 < (sendLoop reply results i).total → results i = .failed → i < j →
    (sendLoop reply results j).total ≤ 0

def WriteResult.accepted : WriteResult → ℕ
  | wrote n => min n (16*1024)
  | eagain => 0
  | failed => 0

def acceptedIn (results : ℕ → WriteResult) (i : ℕ) : ℕ := ∑ j ∈ Finset.range i, (results j).accepted

theorem acceptedIn_succ (results : ℕ → WriteResult) (i : ℕ) :
    acceptedIn results (i+1) = acceptedIn results i+(results i).accepted := Finset.sum_range_succ _ i

theorem acceptedIn_mono (results : ℕ → WriteResult) : Monotone (acceptedIn results) :=
  monotone_nat_of_le_succ fun i => by
    rw [acceptedIn_succ]
    exact Nat.le_add_right _ _

theorem SendLoop.step_eq {l : SendLoop} {r : WriteResult} (hl : 0 < l.total) (hr : r ≠ .failed) :
    l.step r = ⟨l.pos+min (r.accepted : ℤ) l.total,l.total-min (r.accepted : ℤ) l.total⟩ := by
  cases r with
  | failed => exact absurd rfl hr
  | eagain =>
    have hmin : min ((WriteResult.eagain.accepted : ℕ) : ℤ) l.total = 0 := min_eq_left hl.le
    rw [step,if_pos ⟨rfl,rfl⟩,hmin,add_zero,sub_zero]
  | wrote n =>
    have hmin : min ((WriteResult.wrote n).accepted : ℤ) l.total = (WriteResult.wrote n).nwritten l.toWrite := by
      rw [WriteResult.accepted,WriteResult.nwritten,toWrite]
      omega
    rw [step,if_neg (by simp),hmin]

/-- Where every failure comes behind the last write, the rest of the reply is what the socket has not
accepted. -/
theorem sendLoop_eq {reply : Bytes} {results : ℕ → WriteResult} {i : ℕ}
    (h : ∀ j < i, results j = .failed → reply.length ≤ acceptedIn results j) :
    sendLoop reply results i =
      ⟨(min (acceptedIn results i) reply.length : ℕ),(reply.length-acceptedIn results i : ℕ)⟩ := by
  induction i with
  | zero => simp [sendLoop,acceptedIn]
  | succ i ih =>
    have hi := ih fun j hj => h j (by omega)
    rw [sendLoop,hi,acceptedIn_succ]
    dsimp only
    by_cases htotal : acceptedIn results i < reply.length
    · have hr : results i ≠ .failed := fun hf => absurd (h i (by omega) hf) (by omega)
      rw [if_pos (by omega),SendLoop.step_eq (by dsimp only; omega) hr]
      dsimp only
      congr 1
      · omega
      · omega
    · rw [if_neg (by omega)]
      congr 1
      · omega
      · omega

theorem sendsInside_of {reply : Bytes} {results : ℕ → WriteResult}
    (h : ∀ i, results i = .failed → reply.length ≤ acceptedIn results i) : SendsInside reply results := by
  have heq : ∀ i, sendLoop reply results i =
      ⟨(min (acceptedIn results i) reply.length : ℕ),(reply.length-acceptedIn results i : ℕ)⟩ :=
    fun i => sendLoop_eq fun j _ => h j
  have hmono := acceptedIn_mono results
  constructor
  · intro i
    rw [heq]
    dsimp only
    omega
  · intro i
    rw [heq]
    dsimp only
    omega
  · intro i
    have hle : acceptedIn results i ≤ acceptedIn results (i+1) := hmono (Nat.le_succ i)
    rw [heq,heq]
    dsimp only
    omega
  · intro i j htotal hfail _
    have := h i hfail
    rw [heq] at htotal
    dsimp only at htotal
    omega

theorem SendsInside.failures {reply : Bytes} {results : ℕ → WriteResult} (h : SendsInside reply results) (i : ℕ)
    (hi : results i = .failed) : reply.length ≤ acceptedIn results i := by
  induction i using Nat.strong_induction_on with
  | _ i ih =>
    by_contra hlt
    -- no write in front of it failed, so the loop still has something to send
    have heq := sendLoop_eq fun j hj hf => ih j hj hf
    have hfalls := h.falls i
    rw [sendLoop,heq,hi] at hfalls
    dsimp only at hfalls
    rw [if_pos (by omega),SendLoop.step,if_neg (by simp)] at hfalls
    simp only [WriteResult.nwritten] at hfalls
    omega

/-- The send loop stays inside the reply and stops on a dead peer exactly when every failure but `EAGAIN`
comes after the whole reply is accepted. -/
theorem sendsInside_iff (reply : Bytes) (results : ℕ → WriteResult) : SendsInside reply results ↔
    ∀ i, results i = .failed → reply.length ≤ acceptedIn results i :=
  ⟨fun h => h.failures,sendsInside_of⟩

/-- The peer is gone before the one byte of a reply is sent. -/
theorem epipe_not_sendsInside : ¬ SendsInside (str "+") fun _ => .failed := by
  intro h
  exact absurd (h.failures 0 rfl) (by decide)

def WriteResult.ofRoom (room : ℕ) : WriteResult := if room = 0 then .eagain else .wrote room

def SendLoop.run : SendLoop → List WriteResult → SendLoop
  | l, [] => l
  | l, r::results => if l.total > 0 then (l.step r).run results else l

theorem SendLoop.run_append (l : SendLoop) (results : List WriteResult) (r : WriteResult) :
    l.run (results++[r]) = if (l.run results).total > 0 then (l.run results).step r else l.run results := by
  induction results generalizing l with
  | nil => rfl
  | cons r' results ih =>
    rw [List.cons_append,run,run]
    by_cases htotal : l.total > 0
    · rw [if_pos htotal,if_pos htotal,ih]
    · rw [if_neg htotal,if_neg htotal,if_neg htotal]

theorem sendLoop_eq_run (reply : Bytes) (results : ℕ → WriteResult) (i : ℕ) :
    sendLoop reply results i = SendLoop.run ⟨0,reply.length⟩ ((List.range i).map results) := by
  induction i with
  | zero => rfl
  | succ i ih => rw [List.range_succ,List.map_append,List.map_singleton,SendLoop.run_append,← ih,sendLoop]

theorem run_addReply (rooms : List ℕ) (reply : Bytes) (pos : ℤ) :
    (SendLoop.run ⟨pos,reply.length⟩ (rooms.map .ofRoom)).total = 0 ↔ (addReply rooms reply).isSome := by
  induction rooms generalizing reply pos with
  | nil =>
    cases reply with
    | nil => simp [SendLoop.run]
    | cons b reply => exact iff_of_false (by simp [SendLoop.run]; omega) (by simp [addReply])
  | cons room rooms ih =>
    cases reply with
    | nil => simp [SendLoop.run]
    | cons b reply =>
      have hpos : ((b::reply).length : ℤ) > 0 := by simp
      have hne : WriteResult.ofRoom room ≠ .failed := by
        rw [WriteResult.ofRoom]
        split_ifs <;> simp
      rw [List.map_cons,SendLoop.run,if_pos hpos,SendLoop.step_eq hpos hne,addReply,write]
      dsimp only
      by_cases hroom : room = 0
      · have hmin : min (((WriteResult.ofRoom room).accepted : ℕ) : ℤ) (b::reply).length = 0 := by
          rw [WriteResult.ofRoom,if_pos hroom]
          exact min_eq_left hpos.le
        rw [if_pos hroom,hmin,sub_zero]
        exact ih (b::reply) _
      · have hrest : ((b::reply).length : ℤ)-min (((WriteResult.ofRoom room).accepted : ℕ) : ℤ) (b::reply).length =
            ((b::reply).drop (((b::reply).take (16*1024)).take room).length).length := by
          rw [WriteResult.ofRoom,if_neg hroom,WriteResult.accepted,List.length_drop,List.length_take,List.length_take]
          omega
        rw [if_neg hroom,hrest,Option.isSome_map]
        exact ih _ _

/-- On a socket that does not fail the loop ends where `addReply` does. -/
theorem sendLoop_addReply (reply : Bytes) (room : ℕ → ℕ) (n : ℕ) :
    (sendLoop reply (fun i => .ofRoom (room i)) n).total = 0 ↔ (addReply ((List.range n).map room) reply).isSome := by
  have hmap : (List.range n).map (fun i => WriteResult.ofRoom (room i)) = ((List.range n).map room).map .ofRoom := by
    rw [List.map_map]
    rfl
  rw [sendLoop_eq_run,hmap,run_addReply]

end Tadpole
