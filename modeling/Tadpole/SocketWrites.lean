import Tadpole.Replies
import Mathlib.Data.Set.Finite.Lattice

/-! The two writers of util.c on a non-blocking socket. One tries again until its string is accepted,
the other writes once and does not look at the result. -/
namespace Tadpole

/-- `write` on the client's socket, which has room for so many bytes at this call: the bytes it accepts, or
`EAGAIN` when there is no room. -/
def write (room : ℕ) (buf : Bytes) : Option Bytes := if room = 0 then none else some (buf.take room)

/-- `addReply`: pieces of at most 16 KB until nothing of the reply is left. What the socket accepted and
the room that later calls find; `none` while the loop is still trying. -/
def addReply : List ℕ → Bytes → Option (Bytes × List ℕ)
  | rooms, [] => some ([],rooms)
  | [], _::_ => none
  | room::rooms, b::reply =>
    match write room ((b::reply).take (16*1024)) with
    | none => addReply rooms (b::reply)
    | some accepted => (addReply rooms ((b::reply).drop accepted.length)).map fun r => (accepted++r.1,r.2)

/-- `addReplyString`: one call, with its result unused. -/
def addReplyString : List ℕ → Bytes → Option (Bytes × List ℕ)
  | [], _ => none
  | room::rooms, s => some ((write room s).getD [],rooms)

@[simp] theorem addReply_nil (rooms : List ℕ) : addReply rooms [] = some ([],rooms) := by
  cases rooms <;> rfl

def Out.send (rooms : List ℕ) : Out → Option (Bytes × List ℕ)
  | addReply reply => Tadpole.addReply rooms reply
  | addReplyString s => Tadpole.addReplyString rooms s

def Output.send : List ℕ → Output → Option (Bytes × List ℕ)
  | rooms, [] => some ([],rooms)
  | rooms, o::out => (o.send rooms).bind fun r => (send r.2 out).map fun r' => (r.1++r'.1,r'.2)

/-- In the end a handler has returned, and the socket has accepted what it was passed. -/
def Survives (out : Output) (room : ℕ → ℕ) : Prop :=
  ∃ n rest, out.send ((List.range n).map room) = some (out.bytes,rest)

/-- Every call of `addReplyString` finds room for its whole string. -/
def StringsFit (out : Output) (room : ℕ → ℕ) : Prop :=
  ∀ n pre s post bs r rest, out = pre++.addReplyString s::post →
    Output.send ((List.range n).map room) pre = some (bs,r::rest) → s.length ≤ r

theorem write_take {room len : ℕ} {s b : Bytes} (h : write room (s.take len) = some b) :
    b = s.take b.length ∧ (0 < len → s ≠ [] → 0 < b.length) := by
  rw [write] at h
  split_ifs at h with h0
  obtain rfl := Option.some.inj h
  rw [List.take_take]
  refine ⟨by rw [List.length_take,List.take_eq_take_iff]; omega,fun hl hs => ?_⟩
  have := List.length_pos_iff.mpr hs
  rw [List.length_take]
  omega

/-- `addReply` has everything accepted, and leaves the room of the calls behind it. -/
theorem addReply_spec {rooms rest : List ℕ} {reply b : Bytes} (h : addReply rooms reply = some (b,rest)) :
    b = reply ∧ ∀ more, addReply (rooms++more) reply = some (b,rest++more) := by
  cases reply with
  | nil =>
    rw [addReply_nil] at h
    obtain ⟨rfl,rfl⟩ := Prod.mk.inj (Option.some.inj h)
    exact ⟨rfl,fun more => addReply_nil _⟩
  | cons c reply =>
    cases rooms with
    | nil => cases h
    | cons room rooms =>
      rw [addReply] at h
      simp only [List.cons_append,addReply]
      cases hw : write room ((c::reply).take (16*1024)) with
      | none =>
        rw [hw] at h
        exact addReply_spec h
      | some accepted =>
        rw [hw] at h
        obtain ⟨⟨b',rest'⟩,hrest,hb⟩ := Option.map_eq_some_iff.mp h
        obtain ⟨rfl,rfl⟩ := Prod.mk.inj hb
        obtain ⟨rfl,hmore⟩ := addReply_spec hrest
        have htake := (write_take hw).1
        dsimp only
        refine ⟨?_,fun more => by rw [hmore more]; rfl⟩
        nth_rewrite 1 [htake]
        exact List.take_append_drop _ _

theorem addReplyString_spec {rooms rest : List ℕ} {s b : Bytes} (h : addReplyString rooms s = some (b,rest)) :
    ∃ room, rooms = room::rest ∧ b = s.take room ∧ ∀ more, addReplyString (rooms++more) s = some (b,rest++more) := by
  cases rooms with
  | nil => cases h
  | cons room rooms =>
    obtain ⟨rfl,rfl⟩ := Prod.mk.inj (Option.some.inj h)
    refine ⟨room,rfl,?_,fun more => rfl⟩
    rw [write]
    split_ifs with h0
    · simp [h0]
    · rfl

theorem Out.send_spec {o : Out} {rooms rest : List ℕ} {b : Bytes} (h : o.send rooms = some (b,rest)) :
    b.length ≤ o.bytes.length ∧
      (b = o.bytes ↔ ∀ s room rooms', o = .addReplyString s → rooms = room::rooms' → s.length ≤ room) ∧
      ∀ more, o.send (rooms++more) = some (b,rest++more) := by
  cases o with
  | addReply reply =>
    obtain ⟨rfl,hmore⟩ := addReply_spec h
    exact ⟨le_rfl,iff_of_true rfl nofun,hmore⟩
  | addReplyString s =>
    obtain ⟨room,rfl,rfl,hmore⟩ := addReplyString_spec h
    refine ⟨List.length_take_le' _ _,⟨?_,fun hfit => ?_⟩,hmore⟩
    · rintro htake s' room' rooms' hs hrooms
      obtain rfl := Out.addReplyString.inj hs
      obtain ⟨rfl,-⟩ := List.cons.inj hrooms
      exact List.take_eq_self_iff s |>.mp htake
    · exact List.take_of_length_le (hfit s room rest rfl rfl)

theorem Output.send_cons {o : Out} {out : Output} {rooms rest : List ℕ} {b : Bytes}
    (h : Output.send rooms (o::out) = some (b,rest)) : ∃ b₁ rooms' b₂, o.send rooms = some (b₁,rooms') ∧
      Output.send rooms' out = some (b₂,rest) ∧ b = b₁++b₂ := by
  rw [Output.send] at h
  obtain ⟨⟨b₁,rooms'⟩,h₁,hrest⟩ := Option.bind_eq_some_iff.mp h
  obtain ⟨⟨b₂,rest'⟩,h₂,hb⟩ := Option.map_eq_some_iff.mp hrest
  obtain ⟨rfl,rfl⟩ := Prod.mk.inj hb
  exact ⟨b₁,rooms',b₂,h₁,h₂,rfl⟩

theorem Output.send_cons_of {o : Out} {out : Output} {rooms rooms' rest : List ℕ} {b₁ b₂ : Bytes}
    (h₁ : o.send rooms = some (b₁,rooms')) (h₂ : Output.send rooms' out = some (b₂,rest)) :
    Output.send rooms (o::out) = some (b₁++b₂,rest) := by
  rw [Output.send,h₁,Option.bind_some,h₂]
  rfl

theorem Output.send_append {out : Output} {rooms rest : List ℕ} {b : Bytes} (h : out.send rooms = some (b,rest))
    (more : List ℕ) : out.send (rooms++more) = some (b,rest++more) := by
  induction out generalizing rooms b with
  | nil =>
    obtain ⟨rfl,rfl⟩ := Prod.mk.inj (Option.some.inj h)
    rfl
  | cons o out ih =>
    obtain ⟨b₁,rooms',b₂,h₁,h₂,rfl⟩ := send_cons h
    exact send_cons_of ((o.send_spec h₁).2.2 more) (ih h₂)

/-- As `StringsFit`, for the room of some calls. -/
def FitIn (rooms : List ℕ) (out : Output) : Prop :=
  ∀ pre s post bs r rest, out = pre++.addReplyString s::post → Output.send rooms pre = some (bs,r::rest) → s.length ≤ r

theorem fitIn_cons {o : Out} {out : Output} {rooms rooms' : List ℕ} {b : Bytes} (h : o.send rooms = some (b,rooms')) :
    FitIn rooms (o::out) ↔
      (∀ s room rooms', o = .addReplyString s → rooms = room::rooms' → s.length ≤ room) ∧ FitIn rooms' out := by
  constructor
  · intro hfit
    refine ⟨?_,?_⟩
    · rintro s room rest rfl rfl
      exact hfit [] s out [] room rest rfl rfl
    · rintro pre s post bs r rest rfl hpre
      exact hfit (o::pre) s post (b++bs) r rest rfl (Output.send_cons_of h hpre)
  · rintro ⟨hhead,htail⟩ pre s post bs r rest hout hpre
    cases pre with
    | nil =>
      obtain ⟨-,rfl⟩ := Prod.mk.inj (Option.some.inj hpre)
      exact hhead s r rest (List.cons.inj hout).1 rfl
    | cons p pre =>
      obtain ⟨rfl,rfl⟩ := List.cons.inj hout
      obtain ⟨b₁,rooms'',b₂,h₁,h₂,-⟩ := Output.send_cons hpre
      obtain ⟨-,rfl⟩ := Prod.mk.inj (Option.some.inj (h.symm.trans h₁))
      exact htail pre s post b₂ r rest rfl h₂

/-- A handler that returns has everything accepted exactly when its strings found room. -/
theorem Output.send_eq_iff {out : Output} {rooms rest : List ℕ} {b : Bytes} (h : out.send rooms = some (b,rest)) :
    b.length ≤ out.bytes.length ∧ (b = out.bytes ↔ FitIn rooms out) := by
  induction out generalizing rooms b with
  | nil =>
    obtain ⟨rfl,rfl⟩ := Prod.mk.inj (Option.some.inj h)
    refine ⟨le_rfl,iff_of_true rfl fun pre s post bs r rest hout => ?_⟩
    exact absurd hout.symm (by simp)
  | cons o out ih =>
    obtain ⟨b₁,rooms',b₂,h₁,h₂,rfl⟩ := send_cons h
    obtain ⟨hlen₁,hiff₁,-⟩ := o.send_spec h₁
    obtain ⟨hlen₂,hiff₂⟩ := ih h₂
    have hbytes : Output.bytes (o::out) = o.bytes++Output.bytes out := rfl
    rw [hbytes,fitIn_cons h₁,← hiff₁,← hiff₂]
    refine ⟨?_,fun he => ?_,fun he => by rw [he.1,he.2]⟩
    · rw [List.length_append,List.length_append]
      omega
    · have hlen := congrArg List.length he
      rw [List.length_append,List.length_append] at hlen
      exact List.append_inj he (by omega)

theorem addReply_returns {rooms : List ℕ} {reply : Bytes} (h : reply.length ≤ rooms.countP (· ≠ 0)) :
    ∃ b rest, addReply rooms reply = some (b,rest) ∧ rooms.countP (· ≠ 0) ≤ rest.countP (· ≠ 0)+reply.length := by
  cases reply with
  | nil => exact ⟨[],rooms,addReply_nil rooms,le_rfl⟩
  | cons c reply =>
    cases rooms with
    | nil => simp at h
    | cons room rooms =>
      rw [addReply]
      by_cases h0 : room = 0
      · have hcount : (room::rooms).countP (· ≠ 0) = rooms.countP (· ≠ 0) := by simp [h0]
        rw [hcount] at h ⊢
        rw [write,if_pos h0]
        exact addReply_returns h
      · have hcount : (room::rooms).countP (· ≠ 0) = rooms.countP (· ≠ 0)+1 := by simp [h0]
        have hw : write room ((c::reply).take (16*1024)) = some (((c::reply).take (16*1024)).take room) := by
          rw [write,if_neg h0]
        obtain ⟨htake,hpos⟩ := write_take hw
        generalize ((c::reply).take (16*1024)).take room = accepted at hw htake hpos
        have hlen : ((c::reply).drop accepted.length).length+accepted.length = (c::reply).length := by
          have := congrArg List.length htake
          rw [List.length_take] at this
          rw [List.length_drop]
          omega
        have hone := hpos (by decide) (List.cons_ne_nil c reply)
        obtain ⟨b,rest,hrest,hleft⟩ : ∃ b rest, addReply rooms ((c::reply).drop accepted.length) = some (b,rest) ∧
            rooms.countP (· ≠ 0) ≤ rest.countP (· ≠ 0)+((c::reply).drop accepted.length).length :=
          addReply_returns (by omega)
        rw [hw]
        dsimp only
        rw [hrest]
        exact ⟨_,rest,rfl,by omega⟩

theorem Out.send_returns {o : Out} {rooms : List ℕ} (h : o.bytes.length+1 ≤ rooms.countP (· ≠ 0)) :
    ∃ b rest, o.send rooms = some (b,rest) ∧ rooms.countP (· ≠ 0) ≤ rest.countP (· ≠ 0)+(o.bytes.length+1) := by
  cases o with
  | addReply reply =>
    have hreply : reply.length+1 ≤ rooms.countP (· ≠ 0) := h
    obtain ⟨b,rest,hsend,hleft⟩ := addReply_returns (Nat.le_of_succ_le hreply)
    exact ⟨b,rest,hsend,hleft.trans (Nat.le_succ _)⟩
  | addReplyString s =>
    cases rooms with
    | nil => simp at h
    | cons room rooms =>
      refine ⟨_,rooms,rfl,?_⟩
      rw [List.countP_cons]
      split_ifs <;> omega

theorem Output.send_returns {out : Output} {rooms : List ℕ}
    (h : (Output.bytes out).length+out.length ≤ rooms.countP (· ≠ 0)) : ∃ b rest, out.send rooms = some (b,rest) := by
  induction out generalizing rooms with
  | nil => exact ⟨[],rooms,rfl⟩
  | cons o out ih =>
    have hbytes : (Output.bytes (o::out)).length = o.bytes.length+(Output.bytes out).length := List.length_append
    rw [hbytes,List.length_cons] at h
    have hone : o.bytes.length+1 ≤ rooms.countP (· ≠ 0) := by omega
    obtain ⟨b₁,rooms',h₁,hleft⟩ := Out.send_returns hone
    have hrest : (Output.bytes out).length+out.length ≤ rooms'.countP (· ≠ 0) := by omega
    obtain ⟨b₂,rest,h₂⟩ := ih hrest
    exact ⟨b₁++b₂,rest,send_cons_of h₁ h₂⟩

theorem exists_countP_ge {room : ℕ → ℕ} (hfin : Set.Finite {i | room i = 0}) (k : ℕ) :
    ∃ n, k ≤ ((List.range n).map room).countP (· ≠ 0) := by
  obtain ⟨N,hN⟩ := hfin.bddAbove
  have hroom : ∀ i, N < i → room i ≠ 0 := fun i hi h => absurd (hN h) (by omega)
  refine ⟨N+1+k,?_⟩
  have hall : (((List.range k).map fun i => N+1+i).map room).countP (· ≠ 0) = k := by
    rw [List.countP_eq_length.mpr,List.length_map,List.length_map,List.length_range]
    intro r hr
    simp only [List.mem_map] at hr
    obtain ⟨_,⟨i,-,rfl⟩,rfl⟩ := hr
    exact decide_eq_true (hroom _ (by omega))
  rw [List.range_add,List.map_append,List.countP_append,hall]
  exact Nat.le_add_left _ _

theorem Output.send_range_mono {out : Output} {room : ℕ → ℕ} {n m : ℕ} (hnm : n ≤ m) {b : Bytes} {rest : List ℕ}
    (h : out.send ((List.range n).map room) = some (b,rest)) :
    ∃ more, out.send ((List.range m).map room) = some (b,rest++more) := by
  obtain ⟨k,rfl⟩ := Nat.exists_eq_add_of_le hnm
  rw [List.range_add,List.map_append]
  exact ⟨_,Output.send_append h _⟩

theorem survives_of_stringsFit {out : Output} {room : ℕ → ℕ} (hfin : Set.Finite {i | room i = 0})
    (hfit : StringsFit out room) : Survives out room := by
  obtain ⟨n,hn⟩ := exists_countP_ge hfin ((Output.bytes out).length+out.length)
  obtain ⟨b,rest,hsend⟩ := Output.send_returns hn
  obtain rfl := (Output.send_eq_iff hsend).2.mpr (hfit n)
  exact ⟨n,rest,hsend⟩

/-- What a handler passes to the two writers is accepted exactly when every string of `addReplyString`
finds room at once. -/
theorem survives_iff {out : Output} {room : ℕ → ℕ} (hfin : Set.Finite {i | room i = 0}) :
    Survives out room ↔ StringsFit out room := by
  refine ⟨?_,survives_of_stringsFit hfin⟩
  rintro ⟨n,rest,hn⟩ m pre s post bs r rest' hout hpre
  obtain ⟨more,hsend⟩ := Output.send_range_mono (le_max_left n m) hn
  obtain ⟨more',hpre'⟩ := Output.send_range_mono (le_max_right n m) hpre
  exact (Output.send_eq_iff hsend).2.mp rfl pre s post bs r (rest'++more') hout hpre'

/-- Short counts and EAGAIN behind the first write, which finds room for its one byte. -/
theorem survives_statusLine : Survives (statusLine (str "tadpole")) (fun i => if i = 1 then 0 else 2) := by
  refine (survives_iff ?_).mpr ?_
  · exact (Set.finite_singleton 1).subset fun i hi => by
      by_contra hne
      exact absurd hi (by simp [show i ≠ 1 from hne])
  · intro n pre s post bs r rest hout hpre
    cases pre with
    | nil =>
      obtain ⟨-,hrooms⟩ := Prod.mk.inj (Option.some.inj hpre)
      cases n with
      | zero => cases hrooms
      | succ n =>
        rw [List.range_succ_eq_map] at hrooms
        obtain rfl := Out.addReplyString.inj (List.cons.inj hout).1
        obtain rfl : 2 = r := (List.cons.inj hrooms).1
        decide
    | cons o pre =>
      have hmem : Out.addReplyString s ∈ [Out.addReply (str "tadpole"),Out.addReply CRLF] := by
        rw [(List.cons.inj hout).2]
        simp
      simp at hmem

/-- SHOW meets a full socket buffer at its first byte, and the `+` is lost. -/
theorem show_not_survives :
    let reply := statusLine (str "tadpole:keys=0,min=NULL,max=NULL")
    (processCommand (initServer none) ⟨genRandomLevel 0,true⟩ [str "show"]).map (fun r => r.2.1) = some reply ∧
      Set.Finite {i : ℕ | id i = 0} ∧
      Output.send ((List.range 10).map id) reply = some (str "tadpole:keys=0,min=NULL,max=NULL\r\n",[]) ∧
      ¬ Survives reply id := by
  refine ⟨by decide +kernel,Set.finite_singleton 0,by decide +kernel,?_⟩
  rintro ⟨n,rest,hn⟩
  cases n with
  | zero => cases hn
  | succ n =>
    rw [List.range_succ_eq_map] at hn
    have hfit := (Output.send_eq_iff hn).2.mp rfl [] (str "+") _ [] 0 _ rfl rfl
    exact absurd hfit (by decide)

end Tadpole
