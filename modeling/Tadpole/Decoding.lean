import Tadpole.Connection

/-! What a connection makes of encoded requests, in whatever pieces they are read. -/
namespace Tadpole

open Stage

/-- Where the framer stands once an argument was big or the stream was no good. -/
def Stage.Spoiled : Stage → Prop
  | line left argv _ => left ≠ 0 ∧ ∃ a ∈ argv, PROTO_MBULK_BIG_ARG ≤ a.length
  | body _ argv len _ => PROTO_MBULK_BIG_ARG ≤ len ∨ ∃ a ∈ argv, PROTO_MBULK_BIG_ARG ≤ a.length
  | rejected => True
  | foreign => True

theorem Stage.endBody_spoiled {left : ℕ} {argv : List Bytes} (h : ∃ a ∈ argv, PROTO_MBULK_BIG_ARG ≤ a.length) :
    Spoiled (endBody left argv).1 ∨ ∃ r ∈ (endBody left argv).2, ∃ a ∈ r, PROTO_MBULK_BIG_ARG ≤ a.length := by
  rw [endBody]
  split_ifs with h0
  · exact Or.inr ⟨argv,rfl,h⟩
  · exact Or.inl ⟨h0,h⟩

theorem Stage.step_spoiled (σ : Stage) (b : UInt8) (h : Spoiled σ) :
    Spoiled (step σ b).1 ∨ ∃ r ∈ (step σ b).2, ∃ a ∈ r, PROTO_MBULK_BIG_ARG ≤ a.length := by
  cases σ with
  | rejected => exact Or.inl trivial
  | foreign => exact Or.inl trivial
  | line left argv acc =>
    obtain ⟨h0,hbig⟩ := h
    refine Or.inl ?_
    rw [step,if_neg (fun h => h0 h.1)]
    cases lineEnd (acc++[b]) with
    | none => exact ⟨h0,hbig⟩
    | some n =>
      dsimp only
      rw [endLine,if_neg h0]
      cases headerOf ((acc++[b]).take n) with
      | none => trivial
      | some len => exact Or.inr hbig
  | body left argv len acc =>
    rw [step]
    split_ifs with hshort
    · exact Or.inl h
    · apply endBody_spoiled
      rcases h with hlen | ⟨a,ha,hbig⟩
      · refine ⟨argument len (acc++[b]),by simp,?_⟩
        rw [argument,if_pos hlen]
        omega
      · exact ⟨a,by simp [ha],hbig⟩

theorem Stage.not_spoiled {rs : List (List Bytes)} (hrs : ∀ r ∈ rs, WellFormedRequest r) {p q : Bytes}
    (hpq : p++q = encodeRequests rs) : ¬ Spoiled (feed start p).1 := by
  intro h
  have hall : feed start (p++q) = (start,rs) := by rw [hpq,feed_requests hrs]
  rw [feed_append,Prod.mk.injEq] at hall
  rcases Mealy.feed_keeps step step_spoiled h q with hend | ⟨r,hr,a,ha,hbig⟩
  · have hstart : (Mealy.feed step (feed start p).1 q).1 = start := hall.1
    rw [hstart] at hend
    exact hend.1 rfl
  · have hmem : r ∈ rs := by
      rw [← hall.2]
      exact List.mem_append_right _ hr
    exact absurd ((hrs r hmem).2.2 a ha) (not_lt.mpr hbig)

theorem Waits.readlen_eq {c : Client} {σ : Stage} (hw : Waits c σ) (h : ¬ σ.Spoiled) :
    readlen c = PROTO_IOBUF_LEN := by
  cases hw with
  | count => exact if_neg (by simp)
  | header hend => exact if_neg (by simp)
  | body hshort hlen =>
    rw [Spoiled,not_or,not_le] at h
    refine if_neg ?_
    rintro ⟨-,-,-,hbig⟩
    dsimp only at hbig
    omega
  | badCount => exact absurd trivial h
  | badHeader => exact absurd trivial h

section
variable {exec : List Bytes → Status} {rs : List (List Bytes)} {chunks : List Bytes}

/-- After some reads of a stream of requests, those that have arrived are executed. -/
theorem readAll_requests (hrs : ∀ r ∈ rs, WellFormedRequest r) (hexec : ∀ r ∈ rs, exec r = .ok)
    (hsize : ∀ s ∈ chunks, 1 ≤ s.length ∧ s.length ≤ PROTO_IOBUF_LEN) {q : Bytes}
    (hcut : chunks.flatten++q = encodeRequests rs) :
    executed (readAll exec createClient chunks) = arrived chunks.flatten.length rs ∧
      ∃ c, (readAll exec createClient chunks).2 = .idle c ∧ Waits c (feed start chunks.flatten).1 := by
  have hall : feed start (chunks.flatten++q) = (start,rs) := by rw [hcut,feed_requests hrs]
  rw [feed_append,Prod.mk.injEq] at hall
  have hok : ∀ r ∈ (feed start chunks.flatten).2, exec r = .ok := fun r hr =>
    hexec r (by rw [← hall.2]; exact List.mem_append_left _ hr)
  have hclean := not_spoiled hrs hcut
  have hmine : (feed start chunks.flatten).1 ≠ foreign := by
    intro h
    rw [h] at hclean
    exact hclean trivial
  have hf : Follows exec (executed (readAll exec createClient chunks)) (readAll exec createClient chunks).2
      (feed start chunks.flatten) := by
    refine readAll_follows (.count rfl (by simp)) ?_ ?_
    · intro r hr
      rw [hok r hr]
      decide
    · intro pre c s hat hw _
      obtain ⟨⟨post,hpost⟩,-⟩ := hat
      have hpre : pre.flatten++(s++post.flatten++q) = encodeRequests rs := by
        rw [← hcut,← hpost]
        simp
      have hclean := not_spoiled hrs hpre
      obtain ⟨h1,h2⟩ := hsize s (by rw [← hpost]; simp)
      refine ⟨hw.not_rereads ?_,List.length_pos_iff.mp h1,by rw [hw.readlen_eq hclean]; exact_mod_cast h2⟩
      intro h
      rw [h] at hclean
      exact hclean trivial
  have hno : ∀ r ∈ (feed start chunks.flatten).2, exec r ≠ .exit := by
    intro r hr
    rw [hok r hr]
    decide
  exact ⟨by rw [hf.argvs,untilExit_eq_self hno,feed_arrived hrs hcut],(hf.idle hno).waiting hmine⟩

/-- The server undoes the encoding of requests, however their bytes are cut into reads: a request is
executed when its last byte is read, once, and in the end the client is as it was created. -/
theorem decode_encode (hrs : ∀ r ∈ rs, WellFormedRequest r) (hexec : ∀ r ∈ rs, exec r = .ok)
    (hsize : ∀ s ∈ chunks, 1 ≤ s.length ∧ s.length ≤ PROTO_IOBUF_LEN)
    (hcut : chunks.flatten = encodeRequests rs) :
    (∀ pre, pre <+: chunks → executed (readAll exec createClient pre) = arrived pre.flatten.length rs) ∧
      executed (readAll exec createClient chunks) = rs ∧
      (readAll exec createClient chunks).2 = .idle createClient := by
  have hend : feed start chunks.flatten = (start,rs) := by rw [hcut,feed_requests hrs]
  obtain ⟨hargvs,c,hc,hw⟩ := readAll_requests (q:=[]) hrs hexec hsize (by rw [List.append_nil,hcut])
  refine ⟨fun pre hpre => ?_,?_,?_⟩
  · obtain ⟨post,rfl⟩ := hpre
    exact (readAll_requests hrs hexec (fun s hs => hsize s (by simp [hs])) (q:=post.flatten)
      (by rw [← hcut,List.flatten_append])).1
  · rw [hargvs,← feed_arrived hrs (q:=[]) (by rw [List.append_nil,hcut]),hend]
  · rw [hend] at hw
    rw [hc,hw.eq_createClient]

/-- A value that looks like the protocol, read in three pieces. -/
theorem decode_encode_crlf :
    let rs := [[str "put",str "a",str "\r\n$"],[str "ping"]]
    let chunks := [str "*3\r\n$3\r\npu",str "t\r\n$1\r\na\r\n$3\r\n\r",str "\n$\r\n*1\r\n$4\r\nping\r\n"]
    (∀ pre, pre <+: chunks →
        executed (readAll commandStatus createClient pre) = arrived pre.flatten.length rs) ∧
      executed (readAll commandStatus createClient chunks) = rs ∧
      (readAll commandStatus createClient chunks).2 = .idle createClient :=
  decode_encode (by decide) (by decide) (by decide) (by decide)

end

end Tadpole
