import Tadpole.QueryBuffer

/-! The input loop ends on every buffer: a call of the parser that lets it go on has shortened the buffer. -/
namespace Tadpole

/-- A call of the parser after which the loop goes on, or would but for the free at its end, leaves fewer bytes. -/
def Shortens (x : Client) : Prop :=
  ∀ d, parse x = some (.ok d) ∨ parse x = some (.badFree d) → d.querybuf.length < x.querybuf.length

/-- What a parsing function returns knows the length of a payload only inside a request. -/
inductive LeavesBulk : Option Parsed → Prop
  | undefined : LeavesBulk none
  | abort : LeavesBulk (some .abort)
  | badFree {d : Client} : LeavesBulk (some (.badFree d))
  | ok {d : Client} : d.bulklen = -1 → LeavesBulk (some (.ok d))
  | err {log : Option Bytes} {d : Client} : d.BulkOk → LeavesBulk (some (.err log d))

theorem bulkLoop_leavesBulk (n : ℕ) {c : Client} (pos : ℤ) (ht : c.reqtype = .multibulk) (hn : c.multibulklen = n)
    (hb : c.bulklen = -1 ∨ n ≠ 0 ∧ 0 ≤ c.bulklen ∧ c.bulklen ≤ 512*1024*1024) : LeavesBulk (bulkLoop n c pos) := by
  induction n generalizing c pos with
  | zero =>
    rw [bulkLoop]
    exact .ok ((trim_bulklen c pos).trans (hb.resolve_right fun h => h.1 rfl))
  | succ n ih =>
    rw [bulkLoop_succ hn]
    cases hp : bulkPass c pos with
    | next d pos' =>
      obtain ⟨hdt,hdn,hdb⟩ := bulkPass_next hp
      exact ih pos' (hdt.trans ht) (by omega) (Or.inl hdb)
    | stop p =>
      cases p with
      | none => exact .undefined
      | some p =>
        obtain ⟨log,d,rfl,hdt,hdn,hdb⟩ := bulkPass_stop (hb.imp_right And.right) hp
        exact .err (hdb.imp_right fun h => ⟨hdt.trans ht,by omega,h⟩)

theorem processInlineBuffer_leavesBulk {c : Client} (hb : c.bulklen = -1) :
    LeavesBulk (some (processInlineBuffer c)) := by
  obtain hp | ⟨b,argv,hp⟩ := processInlineBuffer_cases c
  · rw [hp]
    exact .err (Or.inl hb)
  · rw [hp]
    exact .badFree

theorem processMultibulkBuffer_leavesBulk {c : Client} (ht : c.reqtype = .multibulk) (hb : c.BulkOk) :
    LeavesBulk (processMultibulkBuffer c) := by
  have hclosed : c.multibulklen = 0 → c.bulklen = -1 := fun h0 => hb.resolve_right fun h => h.2.1 h0
  have hcases := processMultibulkBuffer_cases c
  generalize processMultibulkBuffer c = p at hcases
  cases hcases with
  | notReset _ _ => exact .abort
  | noStar _ _ => exact .abort
  | waits log _ _ => exact .err hb
  | blank hline _ => exact .ok (hclosed hline.closed)
  | counted hline _ => exact bulkLoop_leavesBulk _ _ ht rfl (Or.inl (hclosed hline.closed))
  | resumed _ => exact bulkLoop_leavesBulk _ _ ht rfl (hb.imp_right fun h => h.2)

theorem parse_leavesBulk {c : Client} (hb : c.BulkOk) : LeavesBulk (parse (setReqtype c)) := by
  have hb' := (setReqtype_bulk hb).2
  rw [parse]
  cases ht : (setReqtype c).reqtype with
  | unknown => exact absurd ht (setReqtype_known c)
  | inline =>
    rw [if_pos rfl]
    refine processInlineBuffer_leavesBulk (hb'.resolve_right fun h => ?_)
    rw [ht] at h
    cases h.1
  | multibulk =>
    rw [if_neg (by decide)]
    exact processMultibulkBuffer_leavesBulk ht hb'

section
variable {exec : List Bytes → Status}

theorem Client.Parses.bulk {c d : Client} (hp : c.Parses (some (.ok d))) (hb : c.BulkOk) : d.bulklen = -1 := by
  have h := parse_leavesBulk hb
  rw [hp.2] at h
  cases h with
  | ok hd => exact hd

theorem LoopRun.bulk {c : Client} {es : List Event} {calls : List Client} {r : Result} (h : LoopRun exec c es calls r)
    (hb : c.BulkOk) : ∀ d, r = .idle d → d.BulkOk := by
  induction h with
  | empty _ => exact fun d hd => Result.idle.inj hd ▸ hb
  | waits hp =>
    have hleaves := parse_leavesBulk hb
    rw [hp.2] at hleaves
    cases hleaves with
    | err hd => exact fun d' hd' => Result.idle.inj hd' ▸ hd
  | aborts _ => exact fun d hd => by cases hd
  | frees _ => exact fun d hd => by cases hd
  | fails _ => exact fun d hd => by cases hd
  | repeats _ => exact fun d hd => by cases hd
  | blank _ _ _ ih => exact ih (Or.inl rfl)
  | runs _ _ _ _ ih => exact ih (Or.inl rfl)
  | quits hp _ _ _ ih => exact ih (Or.inl (hp.bulk hb))
  | exits _ _ _ => exact fun d hd => by cases hd

/-- Every client that a connection reaches knows the length of a payload only inside a request. -/
theorem readAll_bulk {chunks : List Bytes} {c d : Client} (hb : c.BulkOk) (h : (readAll exec c chunks).2 = .idle d) :
    d.BulkOk := by
  induction chunks generalizing c with
  | nil => exact Result.idle.inj h ▸ hb
  | cons s chunks ih =>
    have hrun := (readQueryFromClient_run exec c s).bulk hb
    rw [readAll] at h
    rcases hq : readQueryFromClient exec c s with ⟨es,r⟩
    rw [hq] at h hrun
    cases r with
    | idle c' => exact ih (hrun c' rfl) h
    | exit => cases h
    | abort => cases h
    | badFree => cases h
    | undefined => cases h

theorem parse_shortens {c : Client} (hb : c.BulkOk) (hlen : c.querybuf.length < 2147483646) : Shortens (setReqtype c) := by
  intro d hd
  have hstops := parse_stops hlen hb
  rw [(setReqtype_bulk hb).1]
  rcases hd with hd | hd
  · rw [hd] at hstops
    cases hstops with
    | ok _ hless => omega
  · rw [hd] at hstops
    cases hstops with
    | badFree hless => omega

theorem Client.Parses.shorter {c d : Client} (hp : c.Parses (some (.ok d))) (hb : c.BulkOk)
    (hlen : c.querybuf.length < 2147483646) : d.querybuf.length < 2147483646 := by
  have hless := parse_shortens hb hlen d (Or.inl hp.2)
  rw [(setReqtype_bulk hb).1] at hless
  omega

theorem LoopRun.shortens {c : Client} {es : List Event} {calls : List Client} {r : Result}
    (h : LoopRun exec c es calls r) (hb : c.BulkOk) (hlen : c.querybuf.length < 2147483646) :
    ∀ x ∈ calls, Shortens x := by
  induction h with
  | empty _ => simp
  | waits _ => exact List.forall_mem_singleton.mpr (parse_shortens hb hlen)
  | aborts _ => exact List.forall_mem_singleton.mpr (parse_shortens hb hlen)
  | frees _ => exact List.forall_mem_singleton.mpr (parse_shortens hb hlen)
  | fails _ => exact List.forall_mem_singleton.mpr (parse_shortens hb hlen)
  | repeats _ => exact List.forall_mem_singleton.mpr (parse_shortens hb hlen)
  | exits _ _ _ => exact List.forall_mem_singleton.mpr (parse_shortens hb hlen)
  | blank hp _ _ ih =>
    exact List.forall_mem_cons.mpr ⟨parse_shortens hb hlen,ih (Or.inl rfl) (hp.shorter hb hlen)⟩
  | runs hp _ _ _ ih =>
    exact List.forall_mem_cons.mpr ⟨parse_shortens hb hlen,ih (Or.inl rfl) (hp.shorter hb hlen)⟩
  | quits hp _ _ _ ih =>
    exact List.forall_mem_cons.mpr ⟨parse_shortens hb hlen,ih (Or.inl (hp.bulk hb)) (hp.shorter hb hlen)⟩

end

theorem createClient_bulk : createClient.BulkOk := Or.inl rfl

/-- From every client that a connection reaches and with every buffer, the loop ends: the calls of the parser
after which it goes on shorten the buffer, and the loop over the arguments makes a pass at most for each
argument that is missing. -/
theorem processInputBuffer_terminates (exec : List Bytes → Status) (chunks : List Bytes) (c : Client)
    (hc : (readAll exec createClient chunks).2 = .idle c) (b : Bytes) (hb : b.length < 2147483646) :
    (processInputBuffer exec {c with querybuf := b}).2 ≠ .undefined ∧
      (∀ x ∈ parserCalls exec b.length {c with querybuf := b}, Shortens x) ∧
      ∀ y pos, ∃ k p, BulkRun y pos k p ∧ k ≤ y.multibulklen ∧ bulkLoop y.multibulklen y pos = p := by
  have hbulk : c.BulkOk := readAll_bulk createClient_bulk hc
  have hok : Client.BulkOk {c with querybuf := b} := hbulk
  refine ⟨(inputLoop_stops b.length hb hok le_rfl).defined,(inputLoop_run exec b.length _).shortens hok hb,?_⟩
  intro y pos
  obtain ⟨k,p,hrun⟩ := bulkRun_exists y pos
  exact ⟨k,p,hrun,hrun.bounded⟩

/-- A client that waits for the rest of a payload finds it in the buffer, and an empty request behind it. -/
theorem terminates_ping : ∃ c, (readAll commandStatus createClient [str "*1\r\n$4\r\npi"]).2 = .idle c ∧
    (processInputBuffer commandStatus {c with querybuf := str "ping\r\n*0\r\n"}).2 ≠ .undefined := by
  have hc : (readAll commandStatus createClient [str "*1\r\n$4\r\npi"]).2 = .idle ⟨str "pi",.multibulk,1,4,[]⟩ := by
    decide +kernel
  exact ⟨_,hc,(processInputBuffer_terminates commandStatus _ _ hc (str "ping\r\n*0\r\n") (by decide)).1⟩

end Tadpole
