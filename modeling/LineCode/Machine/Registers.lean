namespace LineCode.Machine

-- The registers that have been written, in the order of their first write. All others hold zero.
@[ext]
structure Registers where
  entries : List (String × Int) := []
  deriving DecidableEq

namespace Registers

def get (r : Registers) (name : String) : Int := (r.entries.lookup name).getD 0

def put (name : String) (v : Int) : List (String × Int) → List (String × Int)
  | []                  => [(name, v)]
  | (n, w) :: entries => if n = name then (n, v) :: entries else (n, w) :: put name v entries

def set (r : Registers) (name : String) (v : Int) : Registers := ⟨put name v r.entries⟩

theorem lookup_put (name name' : String) (v : Int) (entries : List (String × Int)) :
    (put name v entries).lookup name' = if name' = name then some v else entries.lookup name' := by
  induction entries with
  | nil =>
    by_cases h : name' = name
    · simp [put, h]
    · simp [put, List.lookup_cons, h, beq_eq_false_iff_ne.mpr h]
  | cons e entries ih =>
    obtain ⟨n, w⟩ := e
    by_cases h : name' = n
    · by_cases hn : n = name <;> simp [put, h, hn]
    · have hb := beq_eq_false_iff_ne.mpr h
      by_cases hn : n = name
      · subst hn
        simp [put, List.lookup_cons, h, hb]
      · simp [put, List.lookup_cons, hn, hb, ih]

@[simp]
theorem get_set_self (r : Registers) (name : String) (v : Int) : (r.set name v).get name = v := by
  simp [get, set, lookup_put]

theorem get_set_of_ne (r : Registers) {name name' : String} (h : name' ≠ name) (v : Int) :
    (r.set name v).get name' = r.get name' := by
  simp [get, set, lookup_put, h]

@[simp]
theorem get_empty (name : String) : ({} : Registers).get name = 0 :=
  rfl

end Registers
end LineCode.Machine
