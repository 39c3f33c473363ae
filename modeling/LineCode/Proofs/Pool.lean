import LineCode.Register.Pool
import Mathlib

namespace LineCode.Pool

-- The pools that come about when temporaries are borrowed and given back in any order.
inductive Reachable : Pool → Prop
  | new : Reachable {}
  | borrow {p} : Reachable p → Reachable p.borrow.snd
  | release {p q r} : Reachable p → p.release r = .ok q → Reachable q

variable {p q : Pool} {d : Nat}

theorem outstanding_le (p : Pool) : p.outstanding ≤ p.capacity :=
  Nat.sub_le ..

theorem borrow_capacity_le (p : Pool) : p.capacity ≤ p.borrow.snd.capacity := by
  unfold borrow
  split
  · exact Nat.le_refl _
  · exact Nat.le_succ _

theorem borrow_peak (p : Pool) : p.borrow.snd.peak = max p.peak p.borrow.snd.outstanding := by
  unfold borrow
  split <;> rfl

theorem borrow_peak_le (p : Pool) : p.peak ≤ p.borrow.snd.peak :=
  p.borrow_peak ▸ Nat.le_max_left ..

-- The pool grows only when all temporaries are in use, so that no more are made than are ever in
-- use at once.
theorem borrow_capacity_eq_peak (h : p.capacity = p.peak) :
    p.borrow.snd.capacity = p.borrow.snd.peak := by
  unfold borrow
  split
  case h_1 j free hf =>
    have ho : ({ p with free := free } : Pool).outstanding ≤ p.capacity := outstanding_le _
    simp only [mark]
    omega
  case h_2 hf =>
    simp only [mark, outstanding, hf, List.length_nil]
    omega

theorem takeBack_of_ok {r : Register} (h : p.release r = .ok q) : p.takeBack r = (none, q) := by
  unfold Pool.release at h
  split at h
  case h_1 ht => rw [ht, Except.ok.inj h]
  case h_2    => cases h

theorem release_eq_error_iff {r : Register} {why : Refusal} :
    p.release r = .error why ↔ (p.takeBack r).fst = some why := by
  unfold Pool.release
  split
  case h_1 ht => simp [ht]
  case h_2 ht => simp [ht]

-- Giving back changes nothing but what is free.
theorem release_keeps {r : Register} (h : p.release r = .ok q) :
    q.capacity = p.capacity ∧ q.peak = p.peak := by
  obtain ⟨i, -, -, rfl⟩ := release_eq_ok_iff.mp h
  exact ⟨rfl, rfl⟩

-- What is free has been handed out before, and is listed once.
structure Sound (p : Pool) : Prop where
  ascending : p.free.Pairwise (· < ·)
  below     : ∀ i ∈ p.free, i < p.capacity

theorem sound_new : ({} : Pool).Sound :=
  ⟨.nil, by simp⟩

namespace Sound

theorem borrow (h : p.Sound) :
    ∃ j, p.borrow.fst = .temp j ∧ ¬p.Borrowed j ∧ p.borrow.snd.Sound ∧
      ∀ i, p.borrow.snd.Borrowed i ↔ p.Borrowed i ∨ i = j := by
  obtain ⟨ha, hb⟩ := h
  unfold Pool.borrow
  split
  case h_1 j free hf =>
    rw [hf, List.pairwise_cons] at ha
    rw [hf, List.forall_mem_cons] at hb
    refine ⟨j, rfl, by simp [Borrowed, hf], ⟨ha.right, hb.right⟩, fun i => ?_⟩
    simp only [Borrowed, mark, hf, List.mem_cons, not_or]
    by_cases hi : i = j
    case pos =>
      subst hi
      simpa using ⟨hb.left, fun hm => Nat.lt_irrefl _ (ha.left i hm)⟩
    case neg => simp [hi]
  case h_2 hf =>
    refine ⟨p.capacity, rfl, by simp [Borrowed], ⟨by simp [mark, hf], by simp [mark, hf]⟩,
      fun i => ?_⟩
    simp only [Borrowed, mark, hf, List.not_mem_nil, not_false_eq_true, and_true]
    omega

-- Temporaries are handed out from below.
theorem borrowed_below {i j : Nat} (h : p.Sound) (hj : p.borrow.fst = .temp j) (hi : i < j) :
    p.Borrowed i := by
  unfold Pool.borrow at hj
  split at hj
  case h_1 k free hf =>
    obtain rfl : k = j := Register.temp.inj hj
    obtain ⟨hk, -⟩ := List.pairwise_cons.mp (hf ▸ h.ascending)
    refine ⟨Nat.lt_trans hi (h.below k (hf ▸ List.mem_cons_self)), fun hm => ?_⟩
    rcases List.mem_cons.mp (hf ▸ hm) with rfl | hm
    · exact Nat.lt_irrefl _ hi
    · exact Nat.lt_asymm hi (hk i hm)
  case h_2 hf =>
    obtain rfl : p.capacity = j := Register.temp.inj hj
    exact ⟨hi, by simp [hf]⟩

theorem release {j : Nat} (h : p.Sound) (hj : p.Borrowed j) :
    ∃ q, p.release (.temp j) = .ok q ∧ q.Sound ∧ ∀ i, q.Borrowed i ↔ p.Borrowed i ∧ i ≠ j := by
  refine ⟨{ p with free := insert j p.free }, by rw [release_temp, if_pos hj],
    ⟨pairwise_insert h.ascending, fun i hi => ?_⟩, fun i => ?_⟩
  · rcases mem_insert.mp hi with rfl | hi
    · exact hj.left
    · exact h.below i hi
  · simp only [Borrowed, mem_insert, not_or]
    tauto

-- A register that is refused leaves no trace: if its index was added to those that are free, it was
-- among them.
theorem takeBack_of_error {r : Register} {why : Refusal} (h : p.Sound)
    (hr : p.release r = .error why) : p.takeBack r = (some why, p) := by
  rw [release_eq_error_iff] at hr
  refine Prod.ext hr ?_
  cases r
  case named => rfl
  case temp i =>
    simp only [takeBack] at hr ⊢
    by_cases hc : i < p.capacity
    case neg => rw [if_neg hc]
    case pos =>
      rw [if_pos hc] at hr ⊢
      by_cases hf : i ∈ p.free
      case pos => simp only [insert_of_mem h.ascending hf]
      case neg => simp [hf] at hr

theorem nodup_free (h : p.Sound) : p.free.Nodup :=
  h.ascending.imp Nat.ne_of_lt

theorem free_subset (h : p.Sound) : p.free.toFinset ⊆ Finset.range p.capacity := by
  intro i hi
  exact Finset.mem_range.mpr (h.below i (List.mem_toFinset.mp hi))

theorem free_length_le (h : p.Sound) : p.free.length ≤ p.capacity := by
  have hc := Finset.card_le_card h.free_subset
  rwa [List.toFinset_card_of_nodup h.nodup_free, Finset.card_range] at hc

theorem outstanding_eq {out : Finset Nat} (h : p.Sound) (ho : ∀ i, i ∈ out ↔ p.Borrowed i) :
    p.outstanding = out.card := by
  have hs : out = Finset.range p.capacity \ p.free.toFinset := by
    ext i
    simp [ho, Borrowed]
  rw [hs, Finset.card_sdiff_of_subset h.free_subset, List.toFinset_card_of_nodup h.nodup_free,
    Finset.card_range, outstanding]

theorem outstanding_congr (hp : p.Sound) (hq : q.Sound) (h : ∀ i, q.Borrowed i ↔ p.Borrowed i) :
    q.outstanding = p.outstanding := by
  let out := (Finset.range p.capacity).filter p.Borrowed
  have ho (i) : i ∈ out ↔ p.Borrowed i := by
    simp only [out, Finset.mem_filter, Finset.mem_range, and_iff_right_iff_imp]
    exact fun hi => hi.left
  rw [hp.outstanding_eq ho, hq.outstanding_eq fun i => (ho i).trans (h i).symm]

-- One more temporary is in use, and the pool grows if there is none to spare.
theorem borrow_counts (h : p.Sound) :
    p.borrow.snd.outstanding = p.outstanding + 1 ∧
      p.borrow.snd.capacity = max p.capacity (p.outstanding + 1) := by
  have hl := h.free_length_le
  unfold Pool.borrow
  split
  case h_1 j free hf =>
    simp only [mark, outstanding, hf, List.length_cons] at hl ⊢
    omega
  case h_2 hf =>
    simp only [mark, outstanding, hf, List.length_nil] at hl ⊢
    omega

end Sound

theorem Reachable.sound (h : p.Reachable) : p.Sound := by
  induction h
  case new => exact sound_new
  case borrow hi =>
    obtain ⟨j, -, -, hs, -⟩ := hi.borrow
    exact hs
  case release hr hi =>
    obtain ⟨j, rfl, hj, -⟩ := release_eq_ok_iff.mp hr
    obtain ⟨q, hq, hs, -⟩ := hi.release hj
    exact Except.ok.inj (hq.symm.trans hr) ▸ hs

theorem Reachable.outstanding_le_peak (h : p.Reachable) : p.outstanding ≤ p.peak := by
  induction h
  case new => exact Nat.le_refl _
  case borrow p _ _ => exact p.borrow_peak ▸ Nat.le_max_right ..
  case release hr hi =>
    obtain ⟨i, -, hb, rfl⟩ := release_eq_ok_iff.mp hr
    simp only [outstanding, length_insert hb.right] at hi ⊢
    omega

-- The temporaries in use are those below `d`, because a temporary that is borrowed later is given
-- back earlier.
structure Stacked (p : Pool) (d : Nat) : Prop where
  le   : d ≤ p.capacity
  free : p.free = List.range' d (p.capacity - d)

theorem stacked_new : ({} : Pool).Stacked 0 where
  le   := Nat.le_refl 0
  free := rfl

namespace Stacked

theorem sound (h : p.Stacked d) : p.Sound := by
  have hd := h.le
  refine ⟨h.free ▸ List.pairwise_lt_range', fun i hi => ?_⟩
  rw [h.free, List.mem_range'_1] at hi
  omega

theorem borrowed_iff {i : Nat} (h : p.Stacked d) : p.Borrowed i ↔ i < d := by
  have hd := h.le
  rw [Borrowed, h.free, List.mem_range'_1]
  omega

theorem outstanding_eq (h : p.Stacked d) : p.outstanding = d := by
  have hd := h.le
  rw [outstanding, h.free, List.length_range']
  omega

theorem borrow (h : p.Stacked d) : p.borrow.fst = .temp d ∧ p.borrow.snd.Stacked (d + 1) := by
  obtain ⟨hd, hf⟩ := h
  unfold Pool.borrow
  split
  case h_1 i free hi =>
    obtain ⟨n, hn⟩ : ∃ n, p.capacity - d = n + 1 :=
      Nat.exists_eq_succ_of_ne_zero fun h => by simp [hi, h] at hf
    rw [hi, hn, List.range'_succ, List.cons.injEq] at hf
    refine ⟨congrArg _ hf.left, ?_, ?_⟩ <;> simp only [mark]
    · omega
    · rw [hf.right, show p.capacity - (d + 1) = n by omega]
  case h_2 hi =>
    have hc : p.capacity = d := by
      have := congrArg List.length (hi ▸ hf)
      simp only [List.length_nil, List.length_range'] at this
      omega
    refine ⟨congrArg _ hc, ?_, ?_⟩ <;> simp only [mark]
    · omega
    · simp [hi, hc]

theorem borrow_capacity (h : p.Stacked d) :
    p.borrow.snd.capacity = max p.capacity (d + 1) := by
  rw [h.sound.borrow_counts.right, h.outstanding_eq]

theorem borrow_peak (h : p.Stacked d) : p.borrow.snd.peak = max p.peak (d + 1) := by
  rw [Pool.borrow_peak, h.borrow.right.outstanding_eq]

theorem release (h : p.Stacked (d + 1)) : ∃ q, p.release (.temp d) = .ok q ∧ q.Stacked d := by
  have hb : p.Borrowed d := h.borrowed_iff.mpr (Nat.lt_succ_self d)
  obtain ⟨hd, hf⟩ := h
  refine ⟨{ p with free := insert d p.free }, by rw [release_temp, if_pos hb], ?_, ?_⟩
  · simp only; omega
  · have hi : insert d (List.range' (d + 1) (p.capacity - (d + 1))) =
        d :: List.range' (d + 1) (p.capacity - (d + 1)) := by
      cases p.capacity - (d + 1) <;> simp [insert, List.range'_succ]
    simp only [hf, hi]
    rw [← List.range'_succ]
    congr
    omega

theorem of_release (h : p.Stacked (d + 1)) (hr : p.release (.temp d) = .ok q) : q.Stacked d := by
  obtain ⟨p', hp, hs⟩ := h.release
  rw [hr] at hp
  cases hp
  exact hs

end Stacked

end LineCode.Pool
