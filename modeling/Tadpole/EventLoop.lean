import Mathlib.Logic.Function.Basic
import Mathlib.Data.Int.Notation
import Tadpole.Lib.Simulation

/-! The file events of ae.c over ae_epoll.c. The slots of `events` from `setsize` on are not part of the
array. Nothing here sets up a timer, so the event loop waits for descriptors only. -/
namespace Tadpole

/-- The bits of an `int mask`. -/
abbrev Mask := BitVec 32

abbrev AE_NONE : Mask := 0#32
abbrev AE_READABLE : Mask := 1#32
abbrev AE_WRITABLE : Mask := 2#32

/-- The bits of `struct epoll_event` that are used. -/
structure EpollEvents where
  epollin : Bool
  epollout : Bool
  epollerr : Bool
  epollhup : Bool
  deriving DecidableEq

/-- `ee.events` for a mask. -/
def epollEvents (mask : Mask) : EpollEvents := ⟨mask &&& AE_READABLE ≠ 0,mask &&& AE_WRITABLE ≠ 0,false,false⟩

/-- What `aeApiPoll` makes of `e->events`. -/
def firedMask (e : EpollEvents) : Mask :=
  (if e.epollin then AE_READABLE else AE_NONE) ||| (if e.epollout then AE_WRITABLE else AE_NONE) |||
    (if e.epollerr then AE_WRITABLE else AE_NONE) ||| (if e.epollhup then AE_WRITABLE else AE_NONE)

abbrev Interest := ℕ → Option EpollEvents

inductive EpollOp
  | add | mod | del

/-- ADD fails for a descriptor that is watched, MOD and DEL for one that is not, and any of them when
it is refused memory. -/
def epoll_ctl (k : Interest) (op : EpollOp) (fd : ℕ) (ee : EpollEvents) (granted : Bool) : Option Interest :=
  if granted then
    match op,k fd with
    | .add,none => some (Function.update k fd (some ee))
    | .mod,some _ => some (Function.update k fd (some ee))
    | .del,some _ => some (Function.update k fd none)
    | _,_ => none
  else none

/-- What of `bits` is reported of a descriptor that is watched for `ee`. -/
def EpollEvents.reported (ee bits : EpollEvents) : EpollEvents :=
  ⟨ee.epollin && bits.epollin,ee.epollout && bits.epollout,bits.epollerr,bits.epollhup⟩

/-- `epoll_wait`: of the descriptors that are ready those that are watched, `max` of them at most. With
each comes what the call of its handler finds. -/
def epoll_wait {O : Type*} (k : Interest) (max : ℕ) (ready : List (ℕ × EpollEvents × O)) : List (ℕ × EpollEvents × O) :=
  (ready.filterMap fun r => (k r.1).bind fun ee =>
    if ee.reported r.2.1 = ⟨false,false,false,false⟩ then none else some (r.1,ee.reported r.2.1,r.2.2)).take max

/-- `proc` and `clientData` have no value before the first `aeCreateFileEvent`. -/
structure AeFileEvent (P D : Type*) where
  mask : Mask
  rfileProc : Option P
  wfileProc : Option P
  clientData : Option D

structure AeEventLoop (P D : Type*) where
  maxfd : ℤ
  setsize : ℕ
  events : ℕ → AeFileEvent P D
  interest : Interest

inductive AeStatus
  | AE_OK | AE_ERR
  deriving DecidableEq

namespace AeEventLoop
variable {P D : Type*}

def aeCreateEventLoop (setsize : ℕ) : AeEventLoop P D :=
  ⟨-1,setsize,fun _ => ⟨AE_NONE,none,none,none⟩,fun _ => none⟩

def aeApiAddEvent (el : AeEventLoop P D) (fd : ℕ) (mask : Mask) (granted : Bool) : Option Interest :=
  let op := if (el.events fd).mask = AE_NONE then EpollOp.add else .mod
  epoll_ctl el.interest op fd (epollEvents (mask ||| (el.events fd).mask)) granted

/-- The result of `epoll_ctl` is not looked at. -/
def aeApiDelEvent (el : AeEventLoop P D) (fd : ℕ) (delmask : Mask) : Interest :=
  let mask := (el.events fd).mask &&& ~~~delmask
  let op := if mask ≠ AE_NONE then EpollOp.mod else .del
  (epoll_ctl el.interest op fd (epollEvents mask) true).getD el.interest

def aeCreateFileEvent (el : AeEventLoop P D) (fd : ℕ) (mask : Mask) (proc : P) (clientData : Option D)
    (granted : Bool) : AeEventLoop P D × AeStatus :=
  if fd ≥ el.setsize then (el,.AE_ERR)
  else
    match el.aeApiAddEvent fd mask granted with
    | none => (el,.AE_ERR)
    | some interest =>
      let fe := el.events fd
      let fe : AeFileEvent P D := ⟨fe.mask ||| mask,if mask &&& AE_READABLE ≠ 0 then some proc else fe.rfileProc,
        if mask &&& AE_WRITABLE ≠ 0 then some proc else fe.wfileProc,clientData⟩
      (⟨if fd > el.maxfd then fd else el.maxfd,el.setsize,Function.update el.events fd fe,interest⟩,.AE_OK)

/-- The greatest descriptor below `n` that has a mask, or -1. -/
def highest (events : ℕ → AeFileEvent P D) : ℕ → ℤ
  | 0 => -1
  | j+1 => if (events j).mask ≠ AE_NONE then j else highest events j

def aeDeleteFileEvent (el : AeEventLoop P D) (fd : ℕ) (mask : Mask) : AeEventLoop P D :=
  if fd ≥ el.setsize then el
  else if (el.events fd).mask = AE_NONE then el
  else
    let interest := el.aeApiDelEvent fd mask
    let fe := {el.events fd with mask := (el.events fd).mask &&& ~~~mask}
    let events := Function.update el.events fd fe
    let maxfd := if fd = el.maxfd ∧ fe.mask = AE_NONE then highest events el.maxfd.toNat else el.maxfd
    ⟨maxfd,el.setsize,events,interest⟩

def aeGetFileEvents (el : AeEventLoop P D) (fd : ℕ) : Mask :=
  if fd ≥ el.setsize then AE_NONE else (el.events fd).mask

def aeResizeSetSize (el : AeEventLoop P D) (setsize : ℤ) : AeEventLoop P D × AeStatus :=
  if setsize = el.setsize then (el,.AE_OK)
  else if el.maxfd ≥ setsize then (el,.AE_ERR)
  else
    let events := fun i : ℕ => if el.maxfd+1 ≤ i ∧ i < setsize then {el.events i with mask := AE_NONE} else el.events i
    (⟨el.maxfd,setsize.toNat,events,el.interest⟩,.AE_OK)

/-- The registered descriptors have slots, `maxfd` is the highest of them, and epoll watches them and no
others, each for its own mask. -/
structure Sound (el : AeEventLoop P D) : Prop where
  fits : el.maxfd < el.setsize
  low : -1 ≤ el.maxfd
  top : ∀ fd : ℕ, fd < el.setsize → (el.events fd).mask ≠ AE_NONE → (fd : ℤ) ≤ el.maxfd
  used : ∀ fd : ℕ, el.maxfd = fd → (el.events fd).mask ≠ AE_NONE
  watched : ∀ fd, el.interest fd = if el.aeGetFileEvents fd = AE_NONE then none else some (epollEvents (el.aeGetFileEvents fd))

theorem aeCreateEventLoop_sound (setsize : ℕ) : (aeCreateEventLoop setsize : AeEventLoop P D).Sound where
  fits := by
    show (-1 : ℤ) < setsize
    omega
  low := Int.le_refl _
  top := fun _ _ h => absurd rfl h
  used := by
    intro fd h
    have : (-1 : ℤ) = fd := h
    omega
  watched := by simp [aeCreateEventLoop,aeGetFileEvents]

theorem aeGetFileEvents_eq {el : AeEventLoop P D} {fd : ℕ} (h : fd < el.setsize) :
    el.aeGetFileEvents fd = (el.events fd).mask := if_neg (by omega)

theorem Sound.interest_eq {el : AeEventLoop P D} (h : el.Sound) {fd : ℕ} (hfd : fd < el.setsize) :
    el.interest fd = if (el.events fd).mask = AE_NONE then none else some (epollEvents (el.events fd).mask) := by
  rw [h.watched fd,aeGetFileEvents_eq hfd]

theorem Sound.slot {el : AeEventLoop P D} (h : el.Sound) {fd : ℕ} (hfd : el.interest fd ≠ none) :
    fd < el.setsize ∧ (el.events fd).mask ≠ AE_NONE := by
  by_contra hno
  refine hfd ?_
  rw [h.watched,if_pos]
  rw [aeGetFileEvents]
  split_ifs with hlt
  · rfl
  · by_contra hmask
    exact hno ⟨by omega,hmask⟩

theorem or_ne_zero {a b : Mask} (h : b ≠ AE_NONE) : a ||| b ≠ AE_NONE := by
  intro hab
  exact h (BitVec.or_eq_zero_iff.mp hab).2

theorem highest_spec (events : ℕ → AeFileEvent P D) (n : ℕ) :
    -1 ≤ highest events n ∧ highest events n < n ∧
      (∀ fd : ℕ, fd < n → (events fd).mask ≠ AE_NONE → (fd : ℤ) ≤ highest events n) ∧
      ∀ fd : ℕ, highest events n = fd → (events fd).mask ≠ AE_NONE := by
  induction n with
  | zero =>
    refine ⟨Int.le_refl _,by rw [highest]; omega,fun fd h => absurd h (by omega),fun fd h => ?_⟩
    rw [highest] at h
    omega
  | succ n ih =>
    obtain ⟨hlow,hfits,htop,hused⟩ := ih
    rw [highest]
    split_ifs with hn
    · refine ⟨by omega,by push_cast; omega,fun fd h _ => by omega,fun fd h => ?_⟩
      obtain rfl : n = fd := by omega
      exact hn
    · refine ⟨hlow,by push_cast; omega,fun fd h hmask => ?_,hused⟩
      have hne : fd ≠ n := by
        rintro rfl
        exact hn hmask
      exact htop fd (by omega) hmask

theorem Sound.aeApiAddEvent_eq {el : AeEventLoop P D} (h : el.Sound) {fd : ℕ} (hfd : fd < el.setsize) (mask : Mask)
    (granted : Bool) : el.aeApiAddEvent fd mask granted = if granted then
      some (Function.update el.interest fd (some (epollEvents ((el.events fd).mask ||| mask)))) else none := by
  have hi := h.interest_eq hfd
  rw [aeApiAddEvent,BitVec.or_comm]
  by_cases hmask : (el.events fd).mask = AE_NONE
  · rw [if_pos hmask] at hi
    simp [epoll_ctl,hmask,hi]
  · rw [if_neg hmask] at hi
    simp only [epoll_ctl,hmask,hi,if_false]

theorem Sound.aeApiDelEvent_eq {el : AeEventLoop P D} (h : el.Sound) {fd : ℕ} (hfd : fd < el.setsize)
    (hmask : (el.events fd).mask ≠ AE_NONE) (delmask : Mask) : el.aeApiDelEvent fd delmask =
      Function.update el.interest fd (if (el.events fd).mask &&& ~~~delmask = AE_NONE then none else
        some (epollEvents ((el.events fd).mask &&& ~~~delmask))) := by
  have hi := h.interest_eq hfd
  rw [if_neg hmask] at hi
  rw [aeApiDelEvent]
  by_cases hleft : (el.events fd).mask &&& ~~~delmask = AE_NONE
  · simp [epoll_ctl,hi,hleft]
  · simp only [epoll_ctl,hi,hleft,if_true,if_false,ne_eq,not_false_eq_true,Option.getD_some]

/-- What a call leaves of the slots: the one of `fd` has the mask `m`, the others are as they were. -/
structure Sets (el el' : AeEventLoop P D) (fd : ℕ) (m : Mask) : Prop where
  sound : el'.Sound
  setsize : el'.setsize = el.setsize
  self : (el'.events fd).mask = m
  other : ∀ fd', fd' ≠ fd → el'.events fd' = el.events fd'

theorem Sets.aeGetFileEvents_eq {el el' : AeEventLoop P D} {fd : ℕ} {m : Mask} (h : el.Sets el' fd m)
    (hfd : fd < el.setsize) (fd' : ℕ) :
    el'.aeGetFileEvents fd' = if fd' = fd then m else el.aeGetFileEvents fd' := by
  rw [aeGetFileEvents,aeGetFileEvents,h.setsize]
  by_cases hfd' : fd' = fd
  · subst hfd'
    rw [if_pos rfl,if_neg (by omega),h.self]
  · rw [if_neg hfd',h.other fd' hfd']

theorem Sound.set {el : AeEventLoop P D} (h : el.Sound) {fd : ℕ} (hfd : fd < el.setsize) (fe : AeFileEvent P D)
    {maxfd : ℤ} (hfits : maxfd < el.setsize) (hlow : -1 ≤ maxfd)
    (htop : ∀ fd' : ℕ, fd' < el.setsize → (Function.update el.events fd fe fd').mask ≠ AE_NONE → (fd' : ℤ) ≤ maxfd)
    (hused : ∀ fd' : ℕ, maxfd = fd' → (Function.update el.events fd fe fd').mask ≠ AE_NONE) :
    el.Sets ⟨maxfd,el.setsize,Function.update el.events fd fe,Function.update el.interest fd
      (if fe.mask = AE_NONE then none else some (epollEvents fe.mask))⟩ fd fe.mask where
  sound := by
    refine ⟨hfits,hlow,htop,hused,fun fd' => ?_⟩
    by_cases hfd' : fd' = fd
    · subst hfd'
      rw [aeGetFileEvents_eq (by exact hfd)]
      simp
    · have hw := h.watched fd'
      simpa [aeGetFileEvents,hfd'] using hw
  setsize := rfl
  self := by simp
  other := by
    intro fd' hfd'
    simp [hfd']

theorem Sound.create {el : AeEventLoop P D} (h : el.Sound) {fd : ℕ} {mask : Mask} (hmask : mask ≠ AE_NONE) (proc : P)
    (data : Option D) (granted : Bool) :
    (fd < el.setsize ∧ granted = true ∧ (el.aeCreateFileEvent fd mask proc data granted).2 = .AE_OK ∧
      el.Sets (el.aeCreateFileEvent fd mask proc data granted).1 fd ((el.events fd).mask ||| mask) ∧
      ((el.aeCreateFileEvent fd mask proc data granted).1.events fd).clientData = data ∧
      (mask &&& AE_READABLE ≠ 0 → ((el.aeCreateFileEvent fd mask proc data granted).1.events fd).rfileProc = some proc)) ∨
    (¬ (fd < el.setsize ∧ granted = true) ∧ el.aeCreateFileEvent fd mask proc data granted = (el,.AE_ERR)) := by
  rw [aeCreateFileEvent]
  by_cases hfd : fd < el.setsize
  · rw [if_neg (by omega),h.aeApiAddEvent_eq hfd]
    cases granted with
    | false => exact Or.inr ⟨by simp,rfl⟩
    | true =>
      have hor : (el.events fd).mask ||| mask ≠ AE_NONE := or_ne_zero hmask
      have hset := @Sound.set _ _ el h fd hfd ⟨(el.events fd).mask ||| mask,
        if mask &&& AE_READABLE ≠ 0 then some proc else (el.events fd).rfileProc,
        if mask &&& AE_WRITABLE ≠ 0 then some proc else (el.events fd).wfileProc,data⟩
        (if fd > el.maxfd then fd else el.maxfd) ?_ ?_ ?_ ?_
      · rw [if_neg hor] at hset
        refine Or.inl ⟨hfd,rfl,rfl,hset,?_,fun hr => ?_⟩
        · simp
        · simp only [if_true,Function.update_self]
          exact if_pos hr
      · have := h.fits
        split_ifs <;> omega
      · have := h.low
        split_ifs <;> omega
      · intro fd' hfd' hm
        by_cases hne : fd' = fd
        · split_ifs <;> omega
        · rw [Function.update_of_ne hne] at hm
          have := h.top fd' hfd' hm
          split_ifs <;> omega
      · intro fd' hmax
        by_cases hne : fd' = fd
        · rw [hne,Function.update_self]
          exact hor
        · rw [Function.update_of_ne hne]
          refine h.used fd' ?_
          split_ifs at hmax <;> omega
  · rw [if_pos (by omega)]
    exact Or.inr ⟨fun hok => hfd hok.1,rfl⟩

theorem Sound.delete {el : AeEventLoop P D} (h : el.Sound) {fd : ℕ} (hfd : fd < el.setsize) (mask : Mask) :
    el.Sets (el.aeDeleteFileEvent fd mask) fd ((el.events fd).mask &&& ~~~mask) := by
  rw [aeDeleteFileEvent,if_neg (by omega)]
  by_cases hmask : (el.events fd).mask = AE_NONE
  · rw [if_pos hmask]
    exact ⟨h,rfl,by rw [hmask]; simp,fun _ _ => rfl⟩
  · rw [if_neg hmask,h.aeApiDelEvent_eq hfd hmask]
    obtain ⟨hlow,hfits,htop,hused⟩ := highest_spec (Function.update el.events fd
      {el.events fd with mask := (el.events fd).mask &&& ~~~mask}) el.maxfd.toNat
    have hfd' := h.top fd hfd hmask
    have := h.fits
    refine h.set hfd {el.events fd with mask := (el.events fd).mask &&& ~~~mask} ?_ ?_ ?_ ?_
    · split_ifs <;> omega
    · split_ifs <;> omega
    · intro fd' hlt hm
      -- below the old maximum, which is left out when it goes
      have hle : (fd' : ℤ) ≤ el.maxfd := by
        by_cases hne : fd' = fd
        · rw [hne]
          exact hfd'
        · rw [Function.update_of_ne hne] at hm
          exact h.top fd' hlt hm
      split_ifs with hgone
      · refine htop fd' ?_ hm
        have hne : fd' ≠ fd := by
          rintro rfl
          rw [Function.update_self] at hm
          exact hm hgone.2
        omega
      · exact hle
    · intro fd' hmax
      split_ifs at hmax with hgone
      · exact hused fd' hmax
      · by_cases hne : fd' = fd
        · subst hne
          rw [Function.update_self]
          exact fun hz => hgone ⟨hmax.symm,hz⟩
        · rw [Function.update_of_ne hne]
          exact h.used fd' hmax

theorem Sound.resize {el : AeEventLoop P D} (h : el.Sound) (setsize : ℤ) :
    (el.maxfd < setsize ∧ (el.aeResizeSetSize setsize).2 = .AE_OK ∧ (el.aeResizeSetSize setsize).1.Sound ∧
      ((el.aeResizeSetSize setsize).1.setsize : ℤ) = setsize ∧
      ∀ fd, (el.aeResizeSetSize setsize).1.aeGetFileEvents fd = el.aeGetFileEvents fd) ∨
    (setsize ≤ el.maxfd ∧ el.aeResizeSetSize setsize = (el,.AE_ERR)) := by
  have hfits := h.fits
  have hlow := h.low
  rw [aeResizeSetSize]
  by_cases hsame : setsize = el.setsize
  · rw [if_pos hsame]
    exact Or.inl ⟨by omega,rfl,h,hsame.symm,fun _ => rfl⟩
  · rw [if_neg hsame]
    by_cases hmax : el.maxfd ≥ setsize
    · rw [if_pos hmax]
      exact Or.inr ⟨hmax,rfl⟩
    · rw [if_neg hmax]
      -- the slots behind `maxfd` are set, and those in front of it are kept
      have hget : ∀ fd, (AeEventLoop.mk el.maxfd setsize.toNat (fun i : ℕ => if el.maxfd+1 ≤ i ∧ i < setsize then
          {el.events i with mask := AE_NONE} else el.events i) el.interest).aeGetFileEvents fd =
          el.aeGetFileEvents fd := by
        intro fd
        rw [aeGetFileEvents,aeGetFileEvents]
        by_cases hle : (fd : ℤ) ≤ el.maxfd
        · rw [if_neg (by simp only; omega),if_neg (by omega)]
          simp only
          rw [if_neg (by omega)]
        · have hold : (if fd ≥ el.setsize then AE_NONE else (el.events fd).mask) = AE_NONE := by
            split_ifs with hge
            · rfl
            · by_contra hm
              exact hle (h.top fd (by omega) hm)
          rw [hold]
          split_ifs with hge
          · rfl
          · have hlt : ¬ fd ≥ setsize.toNat := hge
            simp only
            rw [if_pos (by omega)]
      refine Or.inl ⟨by omega,rfl,⟨?_,hlow,?_,?_,?_⟩,by simp only; omega,hget⟩
      · simp only
        omega
      · intro fd hfd hm
        simp only at hfd hm
        show (fd : ℤ) ≤ el.maxfd
        split_ifs at hm with hnew
        · exact absurd rfl hm
        · omega
      · intro fd hm
        simp only at hm ⊢
        rw [if_neg (by omega)]
        exact h.used fd hm
      · intro fd
        rw [hget]
        exact h.watched fd

end AeEventLoop

/-- What the event loop is for: a mask for each descriptor below a bound. -/
structure Registry where
  size : ℕ
  mask : ℕ → Mask

inductive AeCall (P D : Type*)
  | create (fd : ℕ) (mask : Mask) (proc : P) (clientData : Option D) (granted : Bool)
  | delete (fd : ℕ) (mask : Mask)
  | get (fd : ℕ)
  | resize (setsize : ℤ)

inductive AeAnswer
  | status (s : AeStatus)
  | mask (m : Mask)
  | none
  deriving DecidableEq

def AeCall.Registers {P D : Type*} : AeCall P D → Prop
  | create _ mask _ _ _ => mask ≠ AE_NONE
  | _ => True

def Registry.step {P D : Type*} (R : Registry) : AeCall P D → Registry × AeAnswer
  | .create fd mask _ _ granted =>
    if fd < R.size ∧ granted = true then
      ({R with mask := Function.update R.mask fd (R.mask fd ||| mask)},.status .AE_OK)
    else (R,.status .AE_ERR)
  | .delete fd mask => ({R with mask := Function.update R.mask fd (R.mask fd &&& ~~~mask)},.none)
  | .get fd => (R,.mask (R.mask fd))
  | .resize setsize =>
    if 0 ≤ setsize ∧ ∀ fd < R.size, R.mask fd ≠ AE_NONE → (fd : ℤ) < setsize then
      (⟨setsize.toNat,R.mask⟩,.status .AE_OK)
    else (R,.status .AE_ERR)

namespace AeEventLoop
variable {P D : Type*}

def step (el : AeEventLoop P D) : AeCall P D → AeEventLoop P D × AeAnswer
  | .create fd mask proc clientData granted =>
    let r := el.aeCreateFileEvent fd mask proc clientData granted
    (r.1,.status r.2)
  | .delete fd mask => (el.aeDeleteFileEvent fd mask,.none)
  | .get fd => (el,.mask (el.aeGetFileEvents fd))
  | .resize setsize =>
    let r := el.aeResizeSetSize setsize
    (r.1,.status r.2)

/-- The event loop is sound and registers what the registry has. -/
structure Tracks (el : AeEventLoop P D) (R : Registry) : Prop where
  sound : el.Sound
  size : el.setsize = R.size
  mask : ∀ fd, el.aeGetFileEvents fd = R.mask fd

theorem Tracks.events {el : AeEventLoop P D} {R : Registry} (h : el.Tracks R) {fd : ℕ} (hfd : fd < el.setsize) :
    (el.events fd).mask = R.mask fd := by
  rw [← h.mask fd,aeGetFileEvents_eq hfd]

theorem Tracks.set {el el' : AeEventLoop P D} {R : Registry} (h : el.Tracks R) {fd : ℕ} (hfd : fd < el.setsize) {m : Mask}
    (hset : el.Sets el' fd m) : el'.Tracks ⟨R.size,Function.update R.mask fd m⟩ where
  sound := hset.sound
  size := hset.setsize.trans h.size
  mask := by
    intro fd'
    rw [hset.aeGetFileEvents_eq hfd fd',h.mask fd']
    by_cases hne : fd' = fd
    · rw [if_pos hne,hne]
      exact (Function.update_self fd m R.mask).symm
    · rw [if_neg hne]
      exact (Function.update_of_ne hne m R.mask).symm

/-- A resize is refused for a bound that a registered descriptor does not keep. -/
theorem Tracks.maxfd_lt {el : AeEventLoop P D} {R : Registry} (h : el.Tracks R) (n : ℤ) :
    el.maxfd < n ↔ 0 ≤ n ∧ ∀ fd < R.size, R.mask fd ≠ AE_NONE → (fd : ℤ) < n := by
  constructor
  · intro hn
    have := h.sound.low
    refine ⟨by omega,fun fd hfd hm => ?_⟩
    rw [← h.size] at hfd
    rw [← h.events hfd] at hm
    have := h.sound.top fd hfd hm
    omega
  · rintro ⟨hn,hall⟩
    by_cases hneg : el.maxfd < 0
    · omega
    · obtain ⟨fd,hfd⟩ := Int.eq_ofNat_of_zero_le (Int.not_lt.mp hneg)
      have hfits := h.sound.fits
      have hlt : fd < el.setsize := by omega
      have hm := h.sound.used fd hfd
      rw [h.events hlt] at hm
      rw [hfd]
      exact hall fd (h.size ▸ hlt) hm

theorem Tracks.step {el : AeEventLoop P D} {R : Registry} (h : el.Tracks R) (call : AeCall P D) (hcall : call.Registers) :
    (el.step call).2 = (R.step call).2 ∧ (el.step call).1.Tracks (R.step call).1 := by
  cases call with
  | create fd mask proc clientData granted =>
    rw [AeEventLoop.step,Registry.step]
    rcases h.sound.create hcall proc clientData granted with ⟨hfd,hgranted,hstatus,hset,-⟩ | ⟨hno,hres⟩
    · rw [if_pos ⟨h.size ▸ hfd,hgranted⟩]
      rw [h.events hfd] at hset
      exact ⟨congrArg AeAnswer.status hstatus,h.set hfd hset⟩
    · rw [if_neg (h.size ▸ hno),hres]
      exact ⟨rfl,h⟩
  | delete fd mask =>
    refine ⟨rfl,?_⟩
    rw [AeEventLoop.step,Registry.step]
    by_cases hfd : fd < el.setsize
    · have hset := h.sound.delete hfd mask
      rw [h.events hfd] at hset
      exact h.set hfd hset
    · -- no slot, and nothing to take away
      have hm : R.mask fd = AE_NONE := by rw [← h.mask fd,aeGetFileEvents,if_pos (by omega)]
      have hsame : Function.update R.mask fd (R.mask fd &&& ~~~mask) = R.mask := by
        rw [Function.update_eq_self_iff,hm]
        simp
      rw [aeDeleteFileEvent,if_pos (by omega),hsame]
      exact h
  | get fd =>
    refine ⟨?_,h⟩
    rw [AeEventLoop.step,Registry.step,h.mask]
  | resize setsize =>
    rw [AeEventLoop.step,Registry.step]
    rcases h.sound.resize setsize with ⟨hlt,hstatus,hsound,hsize,hmask⟩ | ⟨hle,hres⟩
    · rw [if_pos ((h.maxfd_lt setsize).mp hlt)]
      exact ⟨congrArg AeAnswer.status hstatus,hsound,by simp only; omega,fun fd => (hmask fd).trans (h.mask fd)⟩
    · have hno : ¬ (0 ≤ setsize ∧ ∀ fd < R.size, R.mask fd ≠ AE_NONE → (fd : ℤ) < setsize) := by
        rw [← h.maxfd_lt setsize]
        omega
      rw [if_neg hno,hres]
      exact ⟨rfl,h⟩

theorem Tracks.run {el : AeEventLoop P D} {R : Registry} (h : el.Tracks R) {calls : List (AeCall P D)}
    (hcalls : ∀ c ∈ calls, c.Registers) :
    (Simulation.follow AeEventLoop.step el calls).2 = (Simulation.follow Registry.step R calls).2 ∧
      (Simulation.follow AeEventLoop.step el calls).1.Tracks (Simulation.follow Registry.step R calls).1 := by
  induction calls generalizing el R with
  | nil => exact ⟨rfl,h⟩
  | cons call calls ih =>
    obtain ⟨hanswer,hnext⟩ := h.step call (hcalls call (by simp))
    obtain ⟨hanswers,hlast⟩ := ih hnext fun c hc => hcalls c (by simp [hc])
    exact ⟨by rw [Simulation.follow,Simulation.follow,hanswer,hanswers],hlast⟩

end AeEventLoop

/-- However descriptors are registered, taken away, looked up and the set is resized: the event loop answers
as a map of masks, `maxfd` is the highest descriptor of the map, or -1, and epoll watches just the descriptors
of the map, each for its mask. -/
theorem file_events_as_registry {P D : Type*} (setsize : ℕ) (calls : List (AeCall P D))
    (hcalls : ∀ c ∈ calls, c.Registers) :
    let el := Simulation.follow AeEventLoop.step (AeEventLoop.aeCreateEventLoop setsize) calls
    let R := Simulation.follow Registry.step ⟨setsize,fun _ => AE_NONE⟩ calls
    el.2 = R.2 ∧ (∀ n : ℤ, el.1.maxfd < n ↔ 0 ≤ n ∧ ∀ fd < R.1.size, R.1.mask fd ≠ AE_NONE → (fd : ℤ) < n) ∧
      (∀ fd, el.1.interest fd = if R.1.mask fd = AE_NONE then none else some (epollEvents (R.1.mask fd))) ∧
      ∀ fd, R.1.mask fd ≠ AE_NONE → fd < el.1.setsize := by
  intro el R
  have hstart : (AeEventLoop.aeCreateEventLoop setsize : AeEventLoop P D).Tracks ⟨setsize,fun _ => AE_NONE⟩ :=
    ⟨AeEventLoop.aeCreateEventLoop_sound setsize,rfl,fun fd => ite_self _⟩
  obtain ⟨hanswers,h⟩ := hstart.run hcalls
  refine ⟨hanswers,h.maxfd_lt,fun fd => ?_,fun fd hm => ?_⟩
  · rw [h.sound.watched fd,h.mask fd]
  · by_contra hno
    refine hm ?_
    exact (h.mask fd).symm.trans (if_pos (Nat.not_lt.mp hno))

/-- The set cannot shrink below a descriptor that is still registered. -/
theorem file_events_as_registry_shrink :
    (Simulation.follow AeEventLoop.step (AeEventLoop.aeCreateEventLoop 8 : AeEventLoop Bool ℕ)
      [.create 3 AE_READABLE true none true,.create 5 AE_WRITABLE false none true,.resize 5,.delete 5 AE_WRITABLE,
        .resize 5,.create 5 AE_READABLE true none true,.get 3]).2 =
      [.status .AE_OK,.status .AE_OK,.status .AE_ERR,.none,.status .AE_OK,.status .AE_ERR,.mask AE_READABLE] :=
  (file_events_as_registry 8 _ (by simp +decide [AeCall.Registers])).1.trans (by decide +kernel)

end Tadpole
