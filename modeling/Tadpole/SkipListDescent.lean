import Tadpole.SkipListShape

/-! The descent through the levels. Where the towers split into those below the key and the rest,
each level's walk ends behind the first part, whatever the heights. -/
namespace Tadpole

/-- The towers in front compare below the key, those behind do not. -/
structure SplitsAt (key : Bytes) (T₁ T₂ : List Tower) : Prop where
  below : ∀ t ∈ T₁, slKeyCompare t.key key = .lt
  above : ∀ t ∈ T₂, slKeyCompare t.key key ≠ .lt

/-- The node `update[i]` should hold. -/
def predAt (head : Addr) (T₁ : List Tower) (i : ℕ) : Addr := Chain.endOf head (chainAt T₁ i)

section
variable {m : Mem} {key : Bytes} {T₁ T₂ : List Tower}

theorem Shape.below_eq {T : List Tower} (h : Shape m T) {t : Tower} (ht : t ∈ T) :
    m.below key t.addr = some (slKeyCompare t.key key = .lt : Bool) := by
  simp [Mem.below,(h.holds t ht).keyOf]

theorem walk_spec (h : Shape m (T₁++T₂)) (hs : SplitsAt key T₁ T₂) {i : ℕ} (hi : i < MAX_LEVEL)
    {l₁ l₂ : List Addr} (hl : chainAt T₁ i = l₁++l₂) :
    m.walk key i (Chain.endOf m.head l₁) =
      some (predAt m.head T₁ i,(chainAt T₂ i).head?) := by
  have hc := h.chain i hi
  rw [chainAt_append,hl,List.append_assoc] at hc
  have hlen := h.chain_length i
  have h₁ : ∀ a ∈ l₂, m.below key a = some true := by
    intro a ha
    obtain ⟨t,ht,-,rfl⟩ := mem_chainAt.mp (show a ∈ chainAt T₁ i by simp [hl,ha])
    rw [h.below_eq (by simp [ht]),hs.below t ht]
    rfl
  have h₂ : ∀ a ∈ (chainAt T₂ i).head?, m.below key a = some false := by
    intro a ha
    obtain ⟨t,ht,-,rfl⟩ := mem_chainAt.mp (List.mem_of_mem_head? ha)
    rw [h.below_eq (by simp [ht])]
    simpa using hs.above t ht
  have hn : l₂.length < m.rounds := by
    rw [chainAt_append,hl] at hlen
    simp only [List.length_append] at hlen
    omega
  rw [Mem.walk,Chain.seek_linked (Chain.linked_append hc) hn h₁ h₂,predAt,hl,Chain.endOf_append]

/-- The loop invariant of every descent: `x` is a node the lower levels pass through, in front
of everything not below the key. -/
def OnTheWay (head : Addr) (T₁ : List Tower) (i : ℕ) (x : Addr) : Prop :=
  ∀ j < i, ∃ l₁ l₂, chainAt T₁ j = l₁++l₂ ∧ Chain.endOf head l₁ = x

theorem onTheWay_head (head : Addr) (T₁ : List Tower) (i : ℕ) : OnTheWay head T₁ i head :=
  fun _ _ => ⟨[],_,rfl,rfl⟩

theorem onTheWay_predAt (head : Addr) (T₁ : List Tower) (i : ℕ) :
    OnTheWay head T₁ i (predAt head T₁ i) :=
  fun _ hj => exists_prefix_chainAt head T₁ hj.le

theorem descend_spec (h : Shape m (T₁++T₂)) (hs : SplitsAt key T₁ T₂) {i : ℕ}
    (hi : i ≤ MAX_LEVEL) {x : Addr} (hx : OnTheWay m.head T₁ i x) (q : Link) (u : Update) :
    ∃ u', m.descend key i x q u =
        some (if i = 0 then q else (chainAt T₂ 0).head?,u') ∧
      (∀ j < i, u' j = some (predAt m.head T₁ j)) ∧ ∀ j, i ≤ j → u' j = u j := by
  induction i generalizing x q u with
  | zero => exact ⟨u,rfl,by simp,by simp⟩
  | succ i ih =>
    obtain ⟨l₁,l₂,hl,rfl⟩ := hx i (by omega)
    have hw := walk_spec h hs (by omega) hl
    have hu : u.set i (predAt m.head T₁ i) =
        some (Function.update u i (some (predAt m.head T₁ i))) := if_pos (by omega)
    obtain ⟨u',hd,hlow,hhigh⟩ := ih (by omega) (onTheWay_predAt m.head T₁ i)
      (chainAt T₂ i).head? (Function.update u i (some (predAt m.head T₁ i)))
    refine ⟨u',?_,fun j hj => ?_,fun j hj => ?_⟩
    · rw [Mem.descend]
      simp only [hw,hu,hd]
      by_cases h0 : i = 0 <;> simp [h0]
    · rcases Nat.lt_succ_iff_lt_or_eq.mp hj with hj | rfl
      · exact hlow j hj
      · rw [hhigh j le_rfl,Function.update_self]
    · rw [hhigh j (by omega),Function.update_of_ne (by omega)]

/-- The descent of `insert_skiplist` and `delete_skiplist` from the top: `q` is the first node not
below the key, and `update[i]` its predecessor on each level of the list. -/
theorem descend_top (h : Shape m (T₁++T₂)) (hs : SplitsAt key T₁ T₂) :
    ∃ u, m.descend key m.level m.head none (fun _ => none) =
        some ((T₂.map Tower.addr).head?,u) ∧
      ∀ j < m.level, u j = some (predAt m.head T₁ j) := by
  obtain ⟨u,hd,hlow,-⟩ :=
    descend_spec h hs h.level_le (onTheWay_head m.head T₁ m.level) none (fun _ => none)
  refine ⟨u,?_,hlow⟩
  rw [hd,chainAt_zero fun t ht => h.heights t (by simp [ht])]
  split_ifs with h0
  · have hz := h.maxHeight_le
    rw [h0,maxHeight_append] at hz
    cases T₂ with
    | nil => rfl
    | cons t T =>
      have ht := h.heights t (by simp)
      simp only [maxHeight_cons] at hz
      omega
  · rfl

theorem find_miss (h : Shape m (T₁++T₂)) (hs : SplitsAt key T₁ T₂)
    (hne : ∀ t ∈ T₂, slKeyCompare key t.key ≠ .eq) {i : ℕ} (hi : i ≤ MAX_LEVEL) {x : Addr}
    (hx : OnTheWay m.head T₁ i x) : m.find key i x = some none := by
  induction i generalizing x with
  | zero => rfl
  | succ i ih =>
    obtain ⟨l₁,l₂,hl,rfl⟩ := hx i (by omega)
    have hw := walk_spec h hs (by omega) hl
    have hr := ih (by omega) (onTheWay_predAt m.head T₁ i)
    rw [Mem.find,hw]
    cases hq : (chainAt T₂ i).head? with
    | none => exact hr
    | some q =>
      obtain ⟨t,ht,-,rfl⟩ := mem_chainAt.mp (List.mem_of_mem_head? hq)
      have hk := (h.holds t (by simp [ht])).keyOf
      simp only [hk,hr]
      exact if_neg (hne t ht)

theorem find_hit {t : Tower} (h : Shape m (T₁++t::T₂)) (hs : SplitsAt key T₁ (t::T₂))
    (heq : slKeyCompare key t.key = .eq) (hne : ∀ t' ∈ T₂, slKeyCompare key t'.key ≠ .eq)
    {i : ℕ} (h0 : 0 < i) (hi : i ≤ MAX_LEVEL) {x : Addr} (hx : OnTheWay m.head T₁ i x) :
    m.find key i x = some (some t.addr) := by
  induction i generalizing x with
  | zero => omega
  | succ i ih =>
    obtain ⟨l₁,l₂,hl,rfl⟩ := hx i (by omega)
    have hw := walk_spec h hs (by omega) hl
    have ht := h.heights t (by simp)
    have hk := (h.holds t (by simp)).keyOf
    rw [Mem.find,hw,chainAt_cons]
    split_ifs with hlt
    · simp [hk,heq]
    · have hr := ih (by omega) (by omega) (onTheWay_predAt m.head T₁ i)
      cases hq : (chainAt T₂ i).head? with
      | none => exact hr
      | some q =>
        obtain ⟨t',ht',-,rfl⟩ := mem_chainAt.mp (List.mem_of_mem_head? hq)
        have hk' := (h.holds t' (by simp [ht'])).keyOf
        simp only [hk',hr]
        exact if_neg (hne t' ht')

end

end Tadpole
