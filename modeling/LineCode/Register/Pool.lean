import LineCode.Register

namespace LineCode

-- The temporaries of one compilation. Those below `capacity` have been handed out at some time, and
-- those listed in `free`, in ascending order, have come back since.
@[ext]
structure Pool where
  capacity : Nat := 0
  free     : List Nat := []
  peak     : Nat := 0
  deriving DecidableEq

namespace Pool

def outstanding (p : Pool) : Nat := p.capacity - p.free.length

def Borrowed (p : Pool) (i : Nat) : Prop := i < p.capacity ∧ i ∉ p.free

instance (p : Pool) (i : Nat) : Decidable (p.Borrowed i) :=
  inferInstanceAs (Decidable (_ ∧ _))

def mark (p : Pool) : Pool := { p with peak := max p.peak p.outstanding }

-- Hands out the least temporary that is not in use.
def borrow (p : Pool) : Register × Pool :=
  match p.free with
  | i :: free => (.temp i, mark { p with free := free })
  | []        => (.temp p.capacity, mark { p with capacity := p.capacity + 1 })

-- Adds an index to an ascending list, unless the list has it.
def insert (i : Nat) : List Nat → List Nat
  | []      => [i]
  | j :: js =>
    if i < j then i :: j :: js
    else if i = j then j :: js
    else j :: insert i js

theorem mem_insert {i j : Nat} {l : List Nat} : j ∈ insert i l ↔ j = i ∨ j ∈ l := by
  induction l with
  | nil => simp [insert]
  | cons k l ih =>
    simp only [insert]
    split
    · simp
    · split
      case isTrue hk => simp [hk]
      case isFalse =>
        simp only [List.mem_cons, ih]
        exact or_left_comm

theorem length_insert {i : Nat} {l : List Nat} (h : i ∉ l) :
    (insert i l).length = l.length + 1 := by
  induction l with
  | nil => rfl
  | cons k l ih =>
    rw [List.mem_cons, not_or] at h
    simp only [insert, if_neg h.left]
    split
    · rfl
    · simp [ih h.right]

theorem pairwise_insert {i : Nat} {l : List Nat} (h : l.Pairwise (· < ·)) :
    (insert i l).Pairwise (· < ·) := by
  induction l with
  | nil => simp [insert]
  | cons k l ih =>
    obtain ⟨hk, hl⟩ := List.pairwise_cons.mp h
    simp only [insert]
    split
    case isTrue hi =>
      refine List.pairwise_cons.mpr ⟨fun j hj => ?_, h⟩
      rcases List.mem_cons.mp hj with rfl | hj
      · exact hi
      · exact Nat.lt_trans hi (hk j hj)
    case isFalse hi =>
      split
      · exact h
      · refine List.pairwise_cons.mpr ⟨fun j hj => ?_, ih hl⟩
        rcases mem_insert.mp hj with rfl | hj
        · omega
        · exact hk j hj

theorem insert_of_mem {i : Nat} {l : List Nat} (h : l.Pairwise (· < ·)) (hi : i ∈ l) :
    insert i l = l := by
  induction l with
  | nil => exact absurd hi (by simp)
  | cons k l ih =>
    obtain ⟨hk, hl⟩ := List.pairwise_cons.mp h
    simp only [insert]
    rcases List.mem_cons.mp hi with rfl | hi
    · simp
    · have := hk i hi
      rw [if_neg (by omega), if_neg (by omega), ih hl hi]

inductive Refusal where
  | named (name : String)
  | notBorrowed (index : Nat)
  deriving DecidableEq

def Refusal.message : Refusal → String
  | named name    => "released named register '" ++ name ++ "' to the temporary pool"
  | notBorrowed i => "released temporary '" ++ (Register.temp i).name ++ "' that is not borrowed"

-- That a temporary was not in use shows when its index is added to those that are free.
def takeBack (p : Pool) : Register → Option Refusal × Pool
  | .named name => (some (.named name), p)
  | .temp i     =>
    if i < p.capacity then
      (if i ∈ p.free then some (.notBorrowed i) else none, { p with free := insert i p.free })
    else
      (some (.notBorrowed i), p)

def release (p : Pool) (r : Register) : Except Refusal Pool :=
  match p.takeBack r with
  | (none, q)     => .ok q
  | (some why, _) => .error why

theorem release_temp (p : Pool) (i : Nat) :
    p.release (.temp i)
      = if p.Borrowed i then .ok { p with free := insert i p.free } else .error
        (.notBorrowed i) := by
  by_cases hc : i < p.capacity
  case neg => simp [release, takeBack, Borrowed, hc]
  case pos => by_cases hf : i ∈ p.free <;> simp [release, takeBack, Borrowed, hc, hf]

theorem release_eq_ok_iff {p q : Pool} {r : Register} :
    p.release r = .ok q
      ↔ ∃ i, r = .temp i ∧ p.Borrowed i ∧ q = { p with free := insert i p.free } := by
  cases r with
  | named _ => simp [release, takeBack]
  | temp i =>
    simp only [release_temp, Register.temp.injEq, exists_eq_left']
    split <;> simp_all [eq_comm]

end Pool
end LineCode
