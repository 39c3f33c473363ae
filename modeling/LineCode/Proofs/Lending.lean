import LineCode.Proofs.Pool

namespace LineCode

namespace Pool

-- What a pool is asked for, and what it replies.

inductive Request where
  | borrow
  | release (r : Register)

inductive Reply where
  | lent (r : Register)
  | accepted
  | refused (why : Refusal)
  deriving DecidableEq

def serve (p : Pool) : Request → Reply × Pool
  | .borrow    => (.lent p.borrow.fst, p.borrow.snd)
  | .release r =>
    match p.takeBack r with
    | (none, q)     => (.accepted, q)
    | (some why, q) => (.refused why, q)

end Pool

-- A pool, and the indices that it has lent and not taken back, going by its replies alone.
structure Lending where
  pool : Pool := {}
  out  : Finset Nat := ∅

namespace Lending

def record (out : Finset Nat) : Pool.Request → Pool.Reply → Finset Nat
  | .borrow, .lent (.temp i)      => insert i out
  | .release (.temp i), .accepted => out.erase i
  | _, _                          => out

def serve (l : Lending) (request : Pool.Request) : Lending where
  pool := (l.pool.serve request).snd
  out  := record l.out request (l.pool.serve request).fst

def run (requests : List Pool.Request) : Lending := requests.foldl serve {}

theorem run_concat (requests : List Pool.Request) (request : Pool.Request) :
    run (requests ++ [request]) = (run requests).serve request := by
  simp [run]

variable {l : Lending}

-- The record agrees with what the pool knows, and all that was ever made has been in use at once.
structure Sound (l : Lending) : Prop where
  pool  : l.pool.Sound
  out   : ∀ i, i ∈ l.out ↔ l.pool.Borrowed i
  tight : l.pool.capacity = l.pool.peak

theorem sound_new : Sound {} where
  pool  := Pool.sound_new
  out   := by simp [Pool.Borrowed]
  tight := rfl

namespace Sound

theorem card_out_le (h : l.Sound) : l.out.card ≤ l.pool.peak := by
  rw [← h.pool.outstanding_eq h.out, ← h.tight]
  exact l.pool.outstanding_le

theorem borrow (h : l.Sound) :
    (l.serve .borrow).Sound ∧
      (l.serve .borrow).pool.peak = max l.pool.peak (l.serve .borrow).out.card := by
  obtain ⟨j, hj, -, hs, hb⟩ := h.pool.borrow
  have ho : (l.serve .borrow).out = insert j l.out := by
    simp [Lending.serve, Pool.serve, record, hj]
  have hl : (l.serve .borrow).Sound := by
    refine ⟨hs, fun i => ?_, Pool.borrow_capacity_eq_peak h.tight⟩
    rw [ho, Finset.mem_insert, h.out, or_comm]
    exact (hb i).symm
  refine ⟨hl, ?_⟩
  rw [← hl.pool.outstanding_eq hl.out]
  exact l.pool.borrow_peak

theorem accept {i : Nat} (h : l.Sound) (hi : l.pool.Borrowed i) :
    (l.serve (.release (.temp i))).Sound ∧ (l.serve (.release (.temp i))).pool.peak = l.pool.peak ∧
      (l.serve (.release (.temp i))).out = l.out.erase i := by
  obtain ⟨q, hq, hs, hb⟩ := h.pool.release hi
  have hl : l.serve (.release (.temp i)) = ⟨q, l.out.erase i⟩ := by
    simp [Lending.serve, Pool.serve, record, Pool.takeBack_of_ok hq]
  obtain ⟨hc, hk⟩ := Pool.release_keeps hq
  rw [hl]
  refine ⟨⟨hs, fun j => ?_, by rw [hc, hk, h.tight]⟩, hk, rfl⟩
  rw [Finset.mem_erase, h.out, and_comm]
  exact (hb j).symm

theorem accepts_iff (h : l.Sound) (r : Register) :
    (∃ q, l.pool.release r = .ok q) ↔ ∃ n ∈ l.out, r = .temp n := by
  simp only [Pool.release_eq_ok_iff, h.out]
  constructor
  · rintro ⟨q, i, hr, hi, -⟩
    exact ⟨i, hi, hr⟩
  · rintro ⟨i, hi, hr⟩
    exact ⟨_, i, hr, hi, rfl⟩

theorem refuse {r : Register} (h : l.Sound) (hr : ∀ n ∈ l.out, r ≠ .temp n) :
    l.serve (.release r) = l := by
  cases hq : l.pool.release r
  case ok q =>
    obtain ⟨n, hn, rfl⟩ := (h.accepts_iff r).mp ⟨q, hq⟩
    exact absurd rfl (hr n hn)
  case error why =>
    obtain ⟨pool, out⟩ := l
    simp only [Lending.serve, Pool.serve, h.pool.takeBack_of_error hq]
    cases r <;> rfl

-- What one request does: the record stays right, and the high-water mark takes account of it.
theorem serve (h : l.Sound) (request : Pool.Request) :
    (l.serve request).Sound ∧
      (l.serve request).pool.peak = max l.pool.peak (l.serve request).out.card := by
  cases request
  case borrow => exact h.borrow
  case release r =>
    by_cases hr : ∃ n ∈ l.out, r = .temp n
    case pos =>
      obtain ⟨n, hn, rfl⟩ := hr
      obtain ⟨hs, hp, ho⟩ := h.accept ((h.out n).mp hn)
      refine ⟨hs, ?_⟩
      rw [← hp, max_eq_left hs.card_out_le]
    case neg =>
      push Not at hr
      rw [h.refuse hr]
      exact ⟨h, (max_eq_left h.card_out_le).symm⟩

end Sound

theorem sound_run (requests : List Pool.Request) : (run requests).Sound := by
  induction requests using List.reverseRecOn
  case nil => exact sound_new
  case append_singleton requests request hi =>
    rw [run_concat]
    exact (hi.serve request).left

-- The high-water mark is the size of the record at some time, and at no time was the record larger.
theorem isGreatest_peak (requests : List Pool.Request) :
    IsGreatest { n | ∃ earlier, earlier <+: requests ∧ n = (run earlier).out.card }
      (run requests).pool.peak := by
  induction requests using List.reverseRecOn
  case nil =>
    refine ⟨⟨[], List.prefix_rfl, rfl⟩, ?_⟩
    rintro n ⟨earlier, he, rfl⟩
    simp [List.prefix_nil.mp he, run]
  case append_singleton requests request hi =>
    obtain ⟨⟨earlier, he, hn⟩, hu⟩ := hi
    have hp := ((sound_run requests).serve request).right
    rw [← run_concat] at hp
    constructor
    · rcases max_choice (run requests).pool.peak (run (requests ++ [request])).out.card with hm | hm
      · exact ⟨earlier, he.trans (List.prefix_append ..), by rw [hp, hm, hn]⟩
      · exact ⟨_, List.prefix_rfl, by rw [hp, hm]⟩
    · rintro n ⟨earlier, he, rfl⟩
      rw [hp]
      rcases List.prefix_concat_iff.mp he with rfl | he
      · exact le_max_right ..
      · exact le_max_of_le_left (hu ⟨earlier, he, rfl⟩)

-- Whatever a new pool is asked, it acts as the set of the indices that are in use: it lends the
-- least index that is not in the set, takes back exactly those that are, and knows the size of the
-- set and the largest size so far, which is also the number of temporaries made. A bound on what is
-- in use at once is therefore a bound on the indices.
theorem run_represents (requests : List Pool.Request) :
    let l := run requests
    (∃ m, l.pool.borrow.fst = .temp m ∧ IsLeast { i | i ∉ l.out } m) ∧
    (∀ r, (∃ q, l.pool.release r = .ok q) ↔ ∃ n ∈ l.out, r = .temp n) ∧
    (∀ r, (∀ n ∈ l.out, r ≠ .temp n) → run (requests ++ [.release r]) = l) ∧
    l.pool.free.length ≤ l.pool.capacity ∧ l.pool.outstanding = l.out.card ∧
    IsGreatest { n | ∃ earlier, earlier <+: requests ∧ n = (run earlier).out.card } l.pool.peak ∧
    l.pool.capacity = l.pool.peak ∧
    ∀ n, (∀ earlier, earlier <+: requests → (run earlier).out.card < n) → l.pool.capacity < n := by
  intro l
  have hs : l.Sound := sound_run requests
  have hg := isGreatest_peak requests
  refine ⟨?_, hs.accepts_iff, fun r hr => ?_, hs.pool.free_length_le, hs.pool.outstanding_eq hs.out,
    hg, hs.tight,
    fun n hn => ?_⟩
  · obtain ⟨m, hm, hb, -⟩ := hs.pool.borrow
    refine ⟨m, hm, fun ho => hb ((hs.out m).mp ho), fun i hi => ?_⟩
    exact Nat.le_of_not_lt fun hlt => hi ((hs.out i).mpr (hs.pool.borrowed_below hm hlt))
  · rw [run_concat]
    exact hs.refuse hr
  · obtain ⟨earlier, he, hp⟩ := hg.left
    rw [hs.tight]
    exact lt_of_eq_of_lt hp (hn earlier he)

-- Temporaries come back out of order, one of them twice, and so does a register that was never
-- lent.
theorem run_represents_reuse :
    let requests : List Pool.Request :=
      [.borrow, .borrow, .borrow, .release (.temp 2), .release (.temp 0),
      .release (.temp 0), .release (.named "x")]
    (run requests).pool = ⟨3, [0, 2], 3⟩ ∧ (run requests).out = {1} ∧
    (run requests).pool.borrow.fst = .temp 0 ∧
      IsLeast { i | i ∉ (run requests).out } 0 ∧
      IsGreatest { n | ∃ earlier, earlier <+: requests ∧ n = (run earlier).out.card } 3 ∧
      run (requests ++ [.release (.temp 2)]) = run requests ∧ (run requests).pool.capacity < 4 := by
  intro requests
  have hp : (run requests).pool = ⟨3, [0, 2], 3⟩ := rfl
  have ho : (run requests).out = {1} := by decide
  obtain ⟨⟨m, hm, hl⟩, -, hr, -, -, hg, -, hc⟩ := run_represents requests
  obtain rfl : 0 = m := Register.temp.inj hm
  refine ⟨hp, ho, hm, hl, hg, hr _ (by rw [ho]; simp), hc 4 fun earlier he => ?_⟩
  exact Nat.lt_succ_of_le (hg.right ⟨earlier, he, rfl⟩)

end Lending

end LineCode
