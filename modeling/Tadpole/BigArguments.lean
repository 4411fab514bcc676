import Tadpole.Rejection

/-! Arguments of 32768 bytes and more. The reads end where the argument ends, so the buffer as a whole
becomes the argument, and its line end with it. -/
namespace Tadpole

open Stage

theorem kept_eq_self {a : Bytes} : kept a = a ↔ a.length < PROTO_MBULK_BIG_ARG := by
  constructor
  · intro h
    by_contra hbig
    rw [kept_big (not_lt.mp hbig)] at h
    simp [CRLF] at h
  · exact kept_small

def AnySizeRequest (r : List Bytes) : Prop :=
  1 ≤ r.length ∧ r.length ≤ 1048576 ∧ ∀ a ∈ r, a.length ≤ 512*1024*1024

theorem Stage.feed_args_kept (argv : List Bytes) {r : List Bytes} (hne : r ≠ []) (hr : ∀ a ∈ r, a.length ≤ 512*1024*1024) :
    feed (line r.length argv []) (r.flatMap encodeArg) = (start,[argv++r.map kept]) := by
  induction r generalizing argv with
  | nil => exact absurd rfl hne
  | cons a r ih =>
    rw [List.length_cons,List.flatMap_cons,feed_encodeArg_kept (hr a (by simp))]
    cases r with
    | nil => rfl
    | cons b r =>
      rw [List.length_cons,after_succ]
      have hrest := ih (argv++[kept a]) (by simp) fun c hc => hr c (by simp [hc])
      rw [List.length_cons] at hrest
      rw [hrest]
      simp

theorem Stage.feed_request_kept {r : List Bytes} (h : AnySizeRequest r) :
    feed start (encodeRequest r) = (start,[r.map kept]) := by
  obtain ⟨h1,hmax,hargs⟩ := h
  have hne : r ≠ [] := List.ne_nil_of_length_pos h1
  have hsplit : encodeRequest r = (42::Decimal.encode r.length)++CR::LF::r.flatMap encodeArg := by
    simp [encodeRequest,str,CRLF]
  have hend : endLine 0 [] (42::Decimal.encode r.length) = line r.length [] [] := by
    rw [endLine,if_pos rfl,countOf_encode hmax]
    rfl
  have hline : feed start (encodeRequest r) = feed (line r.length [] []) (r.flatMap encodeArg) := by
    rw [hsplit,← hend]
    exact feed_line_end (marked_notMem (by decide) (by decide) _) (marked_notMem (by decide) (by decide) _)
      (by simp) LF _
  rw [hline,feed_args_kept [] hne hargs,List.nil_append]

theorem Stage.feed_requests_kept {rs : List (List Bytes)} (h : ∀ r ∈ rs, AnySizeRequest r) :
    feed start (encodeRequests rs) = (start,rs.map (·.map kept)) := by
  induction rs with
  | nil => rfl
  | cons r rs ih =>
    have hrest : feed start (rs.flatMap encodeRequest) = (start,rs.map (·.map kept)) :=
      ih fun r hr => h r (by simp [hr])
    rw [encodeRequests,List.flatMap_cons,feed_append,feed_request_kept (h r (by simp)),hrest]
    rfl

/-- The parser hands over requests of any size, with the big arguments as it keeps them, and is as it
was created behind them. -/
theorem readAll_kept {exec : List Bytes → Status} {rs : List (List Bytes)} {chunks : List Bytes}
    (hrs : ∀ r ∈ rs, AnySizeRequest r) (hexec : ∀ r ∈ rs, exec (r.map kept) = .ok)
    (hcut : chunks.flatten = encodeRequests rs) (hreads : EachRead exec ValidRead createClient chunks) :
    executed (readAll exec createClient chunks) = rs.map (·.map kept) ∧
      (readAll exec createClient chunks).2 = .idle createClient := by
  have hend : feed start chunks.flatten = (start,rs.map (·.map kept)) := by
    rw [hcut,feed_requests_kept hrs]
  have hok : ∀ a ∈ (feed start chunks.flatten).2, exec a = .ok := by
    rw [hend]
    intro a ha
    obtain ⟨r,hr,rfl⟩ := List.mem_map.mp ha
    exact hexec r hr
  have hf : Follows exec (executed (readAll exec createClient chunks)) (readAll exec createClient chunks).2
      (feed start chunks.flatten) := by
    refine readAll_follows (.count rfl (by simp)) ?_ ?_
    · intro a ha
      rw [hok a ha]
      decide
    · intro pre c s hat hw _
      refine ⟨hw.not_rereads ?_,hreads.readAt hat⟩
      -- a framer that rejects never comes back to the start
      intro hrej
      obtain ⟨⟨post,hpost⟩,-⟩ := hat
      have hall : feed start (pre.flatten++(s++post.flatten)) = (start,rs.map (·.map kept)) := by
        rw [← hend,← hpost]
        simp
      have hrest : (feed rejected (s++post.flatten)).1 = rejected := by
        rw [feed,rejected_absorbing.feed]
      rw [feed_append,hrej,Prod.mk.injEq,hrest] at hall
      exact Stage.noConfusion hall.1
  have hno : ∀ a ∈ (feed start chunks.flatten).2, exec a ≠ .exit := by
    intro a ha
    rw [hok a ha]
    decide
  obtain ⟨c,hc,hw⟩ := (hf.idle hno).waiting (by rw [hend]; exact Stage.noConfusion)
  rw [hend] at hw
  exact ⟨by rw [hf.argvs,untilExit_eq_self hno,hend],by rw [hc,hw.eq_createClient]⟩

theorem map_eq_self {A : Type} {f : A → A} {l : List A} : l.map f = l ↔ ∀ a ∈ l, f a = a := by
  simpa using List.map_inj_left (l:=l) (f:=f) (g:=id)

/-- What the arguments are when every command succeeds: the payloads that were sent. -/
def PlacesPayloads (rs : List (List Bytes)) (chunks : List Bytes) : Prop :=
  executed (readAll (fun _ => .ok) createClient chunks) = rs

instance (rs : List (List Bytes)) (chunks : List Bytes) : Decidable (PlacesPayloads rs chunks) :=
  inferInstanceAs (Decidable (_ = _))

/-- However the bytes are read, a request has its payloads in `argv` exactly when none is big. -/
theorem placesPayloads_iff {rs : List (List Bytes)} {chunks : List Bytes} (hrs : ∀ r ∈ rs, AnySizeRequest r)
    (hcut : chunks.flatten = encodeRequests rs)
    (hreads : EachRead (fun _ => .ok) ValidRead createClient chunks) :
    PlacesPayloads rs chunks ↔ ∀ r ∈ rs, ∀ a ∈ r, a.length < PROTO_MBULK_BIG_ARG := by
  rw [PlacesPayloads,(readAll_kept hrs (fun _ _ => rfl) hcut hreads).1]
  simp only [map_eq_self,kept_eq_self]

theorem placesPayloads_ping : PlacesPayloads [[str "ping"]] [str "*1\r\n$4\r\npi",str "ng\r\n"] :=
  (placesPayloads_iff (by simp [AnySizeRequest,str]) (by decide) (by decide +kernel)).mpr (by decide)

theorem Waits.validRead {c : Client} {σ : Stage} (hw : Waits c σ) (b : UInt8) : ValidRead c [b] := by
  refine ⟨by simp,?_⟩
  rw [List.length_singleton,readlen]
  split_ifs with hbig
  · refine le_min (by decide) ?_
    cases hw with
    | count => exact absurd rfl hbig.2.1
    | header => exact absurd rfl hbig.2.2.1
    | body hshort hlen =>
      dsimp only
      rw [int32_of_bounds (by omega) (by omega)]
      omega
    | badCount => exact absurd rfl hbig.2.1
    | badHeader => exact absurd rfl hbig.2.2.1
  · decide

theorem eachRead_bytes {exec : List Bytes → Status} {c : Client} {σ : Stage} {s : Bytes} (hw : Waits c σ)
    (hmine : (feed σ s).1 ≠ foreign) (hgood : (feed σ s).1 ≠ rejected)
    (hexec : ∀ r ∈ (feed σ s).2, exec r = .ok) : EachRead exec ValidRead c (s.map fun b => [b]) := by
  induction s generalizing c σ with
  | nil => trivial
  | cons b s ih =>
    have hsplit : feed σ (b::s) = ((feed (feed σ [b]).1 s).1,(feed σ [b]).2++(feed (feed σ [b]).1 s).2) :=
      feed_append σ [b] s
    rw [hsplit] at hmine hgood hexec
    have hfirst : (feed σ [b]).1 ≠ foreign := by
      intro h
      rw [h,feed_foreign] at hmine
      exact hmine rfl
    have hold : σ ≠ rejected := by
      rintro rfl
      rw [← hsplit,feed,rejected_absorbing.feed] at hgood
      exact hgood rfl
    have hok : ∀ r ∈ (feed σ [b]).2, exec r = .ok := fun r hr => hexec r (by simp [hr])
    have hvalid := hw.validRead b
    have hq : Follows exec ((readQueryFromClient exec c [b]).1.map Event.argv)
        (readQueryFromClient exec c [b]).2 (feed σ [b]) :=
      readQueryFromClient_follows hw (hw.not_rereads hold) hvalid.1 hvalid.2 fun r hr => by rw [hok r hr]; decide
    obtain ⟨c',hc',hw'⟩ := (hq.idle fun r hr => by rw [hok r hr]; decide).waiting hfirst
    rw [List.map_cons,EachRead,hc']
    exact ⟨hvalid,ih hw' hmine hgood fun r hr => hexec r (by simp [hr])⟩

/-- One argument of 32768 bytes, read byte by byte. -/
theorem big_not_placesPayloads :
    let rs := [[List.replicate 32768 (0 : UInt8)]]
    let chunks := (encodeRequests rs).map fun b => [b]
    (∀ r ∈ rs, AnySizeRequest r) ∧ chunks.flatten = encodeRequests rs ∧
      EachRead (fun _ => .ok) ValidRead createClient chunks ∧ ¬ PlacesPayloads rs chunks := by
  intro rs chunks
  have hlen : (List.replicate 32768 (0 : UInt8)).length = 32768 := List.length_replicate
  have hrs : ∀ r ∈ rs, AnySizeRequest r := by
    simp only [rs,List.forall_mem_cons,List.not_mem_nil,false_imp_iff,implies_true,and_true,AnySizeRequest,hlen]
    decide
  have hcut : chunks.flatten = encodeRequests rs := List.flatMap_singleton' _
  have hend := feed_requests_kept hrs
  have hreads : EachRead (fun _ => .ok) ValidRead createClient chunks :=
    eachRead_bytes (σ:=start) (.count rfl (by simp)) (by rw [hend]; exact Stage.noConfusion)
      (by rw [hend]; exact Stage.noConfusion) fun _ _ => rfl
  refine ⟨hrs,hcut,hreads,?_⟩
  rw [PlacesPayloads,(readAll_kept hrs (fun _ _ => rfl) hcut hreads).1,map_eq_self]
  intro h
  have hsmall := kept_eq_self.mp (map_eq_self.mp (h _ List.mem_cons_self) _ List.mem_cons_self)
  rw [hlen] at hsmall
  exact absurd hsmall (by decide)

end Tadpole
