import Tadpole.LoadDb

/-! Which files `loadDb` turns into a store the commands could have produced. -/
namespace Tadpole

def NoHit (N : NodeMap) : List (Bytes × Bytes) → Prop
  | [] => True
  | e::fs => hitNode N e.1 = none ∧ NoHit (N.insert e.1 (some e.2)) fs

section
variable {N N' : NodeMap} {fs : List (Bytes × Bytes)} {key : Bytes}

theorem lookup_of_miss (h : hitNode N key = none) : N.lookup key = none := by
  rw [OrderedMap.lookup_eq_none]
  intro hin
  unfold hitNode at h
  split at h
  · rename_i hl
    obtain ⟨e,he,-⟩ := OrderedMap.mem_keys.mp hin
    have hnil : N.entries = [] := by simpa [OrderedMap.least] using hl
    simp [hnil] at he
  · split_ifs at h

theorem mem_insert_of_miss {w : Option Bytes} (h : N.lookup key = none) (e : Bytes × Option Bytes) :
    e ∈ (N.insert key w).entries ↔ e = (key,w) ∨ e ∈ N.entries := by
  refine ⟨OrderedMap.mem_insertList,?_⟩
  rintro (rfl | he)
  · exact OrderedMap.lookup_eq_some.mp (OrderedMap.lookup_insert_self ..)
  · refine (OrderedMap.mem_insert_of_ne ?_).mpr he
    rintro rfl
    have := OrderedMap.lookup_eq_some.mpr he
    simp [h] at this

theorem NoHit.nodesAfter (h : NoHit N fs) : ∃ N', Tadpole.nodesAfter N fs = some N' ∧
    N'.size = N.size+fs.length ∧ ∀ e, e ∈ N'.entries ↔ e ∈ N.entries ∨ e ∈ fs.map live := by
  induction fs generalizing N with
  | nil => exact ⟨N,rfl,rfl,by simp⟩
  | cons f fs ih =>
    obtain ⟨hmiss,hrest⟩ := h
    obtain ⟨N',hN',hsize,hmem⟩ := ih hrest
    have hl := lookup_of_miss hmiss
    refine ⟨N',?_,?_,fun e => ?_⟩
    · rw [Tadpole.nodesAfter,hmiss]
      exact hN'
    · rw [hsize,OrderedMap.size_insert_absent _ hl,List.length_cons]
      omega
    · rw [hmem,mem_insert_of_miss hl,List.map_cons,List.mem_cons]
      have : live f = (f.1,some f.2) := rfl
      rw [this]
      tauto

theorem nodesAfter_dead {k : Bytes} (hk : (k,none) ∈ N.entries) (h : nodesAfter N fs = some N') :
    (k,none) ∈ N'.entries := by
  induction fs generalizing N with
  | nil =>
    obtain rfl := Option.some.inj h
    exact hk
  | cons f fs ih =>
    rw [nodesAfter] at h
    cases hh : hitNode N f.1 with
    | none =>
      rw [hh] at h
      exact ih ((mem_insert_of_miss (lookup_of_miss hh) _).mpr (Or.inr hk)) h
    | some k' =>
      rw [hh] at h
      simp only [] at h
      split_ifs at h with hdead
      refine ih ((OrderedMap.mem_insert_of_ne ?_).mpr hk) h
      rintro rfl
      exact hdead (OrderedMap.lookup_eq_some.mpr hk)

theorem noHit_of_live (h : nodesAfter N fs = some N') (hlive : ∀ e ∈ N'.entries, e.2 ≠ none) :
    NoHit N fs := by
  induction fs generalizing N with
  | nil => trivial
  | cons f fs ih =>
    rw [nodesAfter] at h
    cases hh : hitNode N f.1 with
    | none =>
      rw [hh] at h
      exact ⟨hh,ih h⟩
    | some k =>
      rw [hh] at h
      simp only [] at h
      split_ifs at h with hdead
      have hk : (k,none) ∈ (N.insert k none).entries :=
        OrderedMap.lookup_eq_some.mp (OrderedMap.lookup_insert_self ..)
      exact absurd rfl (hlive _ (nodesAfter_dead hk h))

theorem hitNode_of_length {n : ℕ} (hN : ∀ e ∈ N.entries, e.1.length = n) (hk : key.length = n) :
    hitNode N key = none ↔ key ∉ N.keys := by
  unfold hitNode
  split
  · rename_i hl
    have hnil : N.entries = [] := by simpa [OrderedMap.least] using hl
    simp [OrderedMap.keys,hnil]
  · rename_i k hl
    obtain ⟨e,he,rfl⟩ := least_mem hl
    rw [if_neg (by rw [hN e he,hk]; simp)]
    split_ifs <;> simp_all

/-- With keys of one length, records hit no node exactly when no key comes twice. -/
theorem noHit_iff {n : ℕ} (hN : ∀ e ∈ N.entries, e.1.length = n) (hfs : ∀ e ∈ fs, e.1.length = n) :
    NoHit N fs ↔ (fs.map Prod.fst).Nodup ∧ ∀ e ∈ fs, e.1 ∉ N.keys := by
  induction fs generalizing N with
  | nil => simp [NoHit]
  | cons f fs ih =>
    have hf : f.1.length = n := hfs f (by simp)
    have hins : ∀ e ∈ (N.insert f.1 (some f.2)).entries, e.1.length = n := by
      intro e he
      rcases OrderedMap.mem_insertList he with rfl | he
      · exact hf
      · exact hN e he
    rw [NoHit,hitNode_of_length hN hf,ih hins fun e he => hfs e (by simp [he])]
    simp only [OrderedMap.mem_keys_insert,not_or,List.map_cons,List.nodup_cons,List.forall_mem_cons,
      List.mem_map,not_exists,not_and]
    constructor
    · rintro ⟨h₁,h₂,h₃⟩
      exact ⟨⟨fun e he => (h₃ e he).1,h₂⟩,h₁,fun e he => (h₃ e he).2⟩
    · rintro ⟨⟨h₁,h₂⟩,h₃,h₄⟩
      exact ⟨h₃,h₂,fun e he => ⟨h₁ e he,h₄ e he⟩⟩

end

section
variable {s : Server} {N : NodeMap} {T : List Tower} {fs : List (Bytes × Bytes)} {fl : FixedLength}

/-- The saver can walk the list exactly when no value is freed. -/
theorem Bears.pairs (h : Bears s N T fs) (es : List (Bytes × Bytes)) :
    s.mem.pairs = some es ↔ N.entries = es.map live := by
  constructor
  · intro hp
    by_cases hd : ∃ t ∈ T, t.val = none
    · rw [h.shape.walkable.pairs_dead hd] at hp
      cases hp
    · push Not at hd
      have hlive : ∃ es' : List (Bytes × Bytes), T.map Tower.content = es'.map live := by
        refine ⟨T.map fun t => (t.key,t.val.getD []),?_⟩
        rw [List.map_map]
        refine List.map_congr_left fun t ht => ?_
        obtain ⟨v,hv⟩ := Option.ne_none_iff_exists'.mp (hd t ht)
        simp [Tower.content,live,hv]
      obtain ⟨es',he⟩ := hlive
      rw [h.shape.walkable.pairs_live he] at hp
      obtain rfl := Option.some.inj hp
      exact h.content ▸ he
  · intro he
    exact h.shape.walkable.pairs_live (h.content.trans he)

end

section
variable (fl : FixedLength) (pre rest : List (Bytes × Level)) {fs : List (Bytes × Bytes)}

end

end Tadpole
