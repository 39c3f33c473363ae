import LineCode.Proofs.Sections

namespace LineCode

-- A property of all nodes of a tree.
inductive Node.Every (P : Node → Prop) : Node → Prop
  | intro {n : Node} : P n → (∀ c ∈ n.children, c.Every P) → n.Every P

namespace Node.Every

variable {P Q : Node → Prop} {n : Node}

theorem self (h : n.Every P) : P n := by
  cases h
  assumption

theorem child {c : Node} (h : n.Every P) (hc : c ∈ n.children) : c.Every P := by
  cases h
  case intro h => exact h c hc

theorem imp (h : n.Every P) (hi : ∀ n, P n → Q n) : n.Every Q := by
  induction h
  case intro hn _ hc => exact .intro (hi _ hn) hc

theorem first {kind : Kind} {token : Token} {a : Node} {rest : List Node}
    (h : Every P ⟨kind, token, a :: rest⟩) :
    a.Every P :=
  h.child (by simp)

theorem second {kind : Kind} {token : Token} {a b : Node} {rest : List Node}
    (h : Every P ⟨kind, token, a :: b :: rest⟩) : b.Every P :=
  h.child (by simp)

theorem of_forall (h : ∀ n, P n) (n : Node) : n.Every P := by
  induction n using Node.induction
  case h kind token children hi => exact .intro (h _) hi

variable [DecidablePred P]

mutual

def decide : (n : Node) → Decidable (n.Every P)
  | ⟨kind, token, children⟩ =>
    match inferInstanceAs (Decidable (P ⟨kind, token, children⟩)), decideAll children with
    | isTrue h, isTrue hc => isTrue (.intro h hc)
    | isFalse h, _        => isFalse fun he => h he.self
    | _, isFalse h        => isFalse fun he => h fun _ hc => he.child hc

def decideAll : (ns : List Node) → Decidable (∀ n ∈ ns, n.Every P)
  | []      => isTrue nofun
  | n :: ns =>
    match decide n, decideAll ns with
    | isTrue h, isTrue hs => isTrue (List.forall_mem_cons.mpr ⟨h, hs⟩)
    | isFalse h, _        => isFalse fun hs => h (hs n List.mem_cons_self)
    | _, isFalse h        => isFalse fun hs => h fun m hm => hs m (List.mem_cons_of_mem n hm)

end

instance : DecidablePred (Every P) := decide

end Node.Every

namespace Lower

def Job.Every (P : Node → Prop) : Job → Prop
  | node n _ _     => n.Every P
  | all ns _       => ∀ n ∈ ns, n.Every P
  | arguments ns _ => ∀ n ∈ ns, n.Every P

-- The sum of the weights of some instructions.
def total (w : Instruction → Int) (code : List Instruction) : Int := (code.map w).sum

section

variable (w : Instruction → Int)

@[simp]
theorem total_nil : total w [] = 0 :=
  rfl

@[simp]
theorem total_cons (i : Instruction) (code : List Instruction) :
    total w (i :: code) = w i + total w code := by
  simp [total]

@[simp]
theorem total_append (code₁ code₂ : List Instruction) :
    total w (code₁ ++ code₂) = total w code₁ + total w code₂ := by
  simp [total]

end

-- The jump at a position, if there is one, has its label in the same code: behind it if it is
-- conditional and in front of it otherwise, with the same weights before it.
def Lands (w : Instruction → Int) (code : List Instruction) (k : Nat) : Prop :=
  ∀ i l, code[k]? = some i → i.jumpTarget? = some l →
    ∃ j, code[j]? = some (.label l) ∧ total w (code.take j) = total w (code.take k) ∧
      (i = .jump l → j < k) ∧ (i ≠ .jump l → k < j)

-- All jumps of the code between `pre` and `post` land, there or in the code around it.
def Closed (w : Instruction → Int) (pre code post : List Instruction) : Prop :=
  ∀ k < code.length, Lands w (pre ++ code ++ post) (pre.length + k)

namespace Closed

variable {w : Instruction → Int} {pre post code code₁ code₂ : List Instruction}

theorem nil : Closed w pre [] post := by
  intro k hk
  contradiction

theorem append (h₁ : Closed w pre code₁ (code₂ ++ post)) (h₂ : Closed w (pre ++ code₁) code₂ post) :
    Closed w pre (code₁ ++ code₂) post := by
  intro k hk
  by_cases hk₁ : k < code₁.length
  case pos => simpa using h₁ k hk₁
  case neg =>
    rw [List.length_append] at hk
    have h := h₂ (k - code₁.length) (by omega)
    rw [List.length_append, Nat.add_assoc, Nat.add_sub_cancel' (Nat.le_of_not_lt hk₁)] at h
    simpa using h

theorem cons {i : Instruction} (h₁ : Closed w pre [i] (code ++ post))
    (h₂ : Closed w (pre ++ [i]) code post) :
    Closed w pre (i :: code) post :=
  append h₁ h₂

theorem single {i : Instruction} (hi : i.jumpTarget? = none) : Closed w pre [i] post := by
  intro k hk j l hj hl
  obtain rfl : k = 0 := by simpa using hk
  obtain rfl : i = j := by simpa using hj
  simp [hi] at hl

theorem take_between {j : Nat} (hj : j ≤ code.length) :
    (pre ++ code ++ post).take (pre.length + j) = pre ++ code.take j := by
  rw [List.append_assoc, List.take_length_add_append, List.take_append_of_le_length hj]

theorem jump {l : Label} (pre : List Instruction) (ht : total w (.label l :: code) = 0) :
    Closed w (pre ++ .label l :: code) [.jump l] post := by
  intro k hk i l' hi hl
  obtain rfl : k = 0 := by simpa using hk
  obtain rfl : .jump l = i := by simpa using hi
  obtain rfl : l = l' := by simpa [Instruction.jumpTarget?] using hl
  refine ⟨pre.length, by simp, ?_, by simp, by simp⟩
  simp only [total_cons] at ht
  simp [List.take_length_add_append, ht]

theorem jumpIf {l : Label} {r : Register} (ht : total w (.jumpIf l r :: code) = 0) :
    Closed w pre [.jumpIf l r] (code ++ .label l :: post) := by
  intro k hk i l' hi hl
  obtain rfl : k = 0 := by simpa using hk
  obtain rfl : .jumpIf l r = i := by simpa using hi
  obtain rfl : l = l' := by simpa [Instruction.jumpTarget?] using hl
  have hc : pre ++ [.jumpIf l r] ++ (code ++ .label l :: post) = (pre ++ .jumpIf l r :: code) ++
      .label l :: post := by
    simp
  refine ⟨(pre ++ .jumpIf l r :: code).length, ?_, ?_, by simp, fun _ => by simp⟩
  · rw [hc]
    simp
  · rw [hc, List.take_left, ← hc, Nat.add_zero, List.append_assoc, List.take_left, total_append, ht,
      Int.add_zero]

theorem of_forall (h : ∀ i ∈ code, i.jumpTarget? = none) : Closed w pre code post := by
  induction code generalizing pre
  case nil            => exact .nil
  case cons i code hi =>
    have hs := fun pre => @hi pre fun i hm => h i (by simp [hm])
    exact cons (.single (h i (by simp))) (hs _)

theorem lands (h : Closed w [] code []) (k : Nat) : Lands w code k := by
  intro i l hi
  have hk : k < code.length := (List.getElem?_eq_some_iff.mp hi).fst
  have hc := h k hk
  simp only [List.nil_append, List.append_nil, List.length_nil, Nat.zero_add] at hc
  exact hc i l hi

-- What is closed by itself is closed anywhere.
theorem embed (h : Closed w [] code []) : Closed w pre code post := by
  intro k hk i l hi hl
  have hi : code[k]? = some i := by simpa [List.getElem?_append, hk] using hi
  have ⟨j, hj, ht, hb, hf⟩ := h.lands k i l hi hl
  have hlt : j < code.length := (List.getElem?_eq_some_iff.mp hj).fst
  refine ⟨pre.length + j, ?_, ?_, fun h => ?_, fun h => ?_⟩
  · simpa [List.getElem?_append, hlt] using hj
  · rw [take_between (Nat.le_of_lt hlt), take_between (Nat.le_of_lt hk), total_append,
      total_append, ht]
  · have := hb h
    omega
  · have := hf h
    omega

end Closed

-- Weights under which control instructions count nothing, and nor does any node with the property
-- as a whole.
structure Neutral (w : Instruction → Int) (P : Node → Prop) : Prop where
  label (l : Label) : w (.label l) = 0
  jump (l : Label) : w (.jump l) = 0
  jumpIf (l : Label) (r : Register) : w (.jumpIf l r) = 0
  negate (r : Register) : w (.negate r) = 0
  node {n : Node} {demand : Demand} {dst : Destination} {d : Nat} {s s' : Stage}
    {code : List Instruction} :
    n.Every P → Emits (.node n demand dst) d s code s' → total w code = 0

theorem Emits.closed {w : Instruction → Int} {P : Node → Prop} (hw : Neutral w P) {job : Job}
    {d : Nat} {s s' : Stage} {code : List Instruction} (h : Emits job d s code s')
    (hp : job.Every P) :
    Closed w [] code [] := by
  induction h
  case literalDiscarded | nil | noArgument => exact .nil
  case literal | identifier | reference    => exact .single rfl
  case assignment hi => exact hi (Node.Every.second hp)
  case binary h₁ h₂ =>
    have h₁ := h₁ (Node.Every.first hp)
    have h₂ := h₂ (Node.Every.second hp)
    exact h₁.embed.append h₂.embed |>.append <| .single rfl
  case print hi =>
    have h := hi fun n hn => Node.Every.second hp |>.child hn
    refine h.embed.append <| .of_forall fun i hi => ?_
    rcases mem_printCode hi with rfl | rfl | rfl | rfl <;> rfl
  case call hi =>
    have h := hi fun n hn => Node.Every.second hp |>.child hn
    exact h.embed.append <| .of_forall (by simp [Instruction.jumpTarget?])
  case definition hi =>
    have h := hi (Node.Every.second hp)
    exact .append (.cons (.single rfl) <| .of_forall (by simp [Instruction.jumpTarget?])) h.embed
  case block hi => exact hi fun n hn => Node.Every.child hp hn
  case returns hi =>
    refine (hi fun n hn => Node.Every.child hp hn).embed.append <| .of_forall ?_
    simp [Instruction.jumpTarget?]
  case ifThen d s _ _ code₂ _ _ _ he₂ h₁ h₂ =>
    have h₁ := h₁ (Node.Every.first hp)
    have h₂ := h₂ (Node.Every.second hp)
    have ht : total w (.jumpIf s.label (.temp d) :: code₂) = 0 := by
      rw [total_cons, hw.jumpIf, hw.node (Node.Every.second hp) he₂]
      rfl
    exact h₁.embed.append (.cons (.single rfl) (.jumpIf ht)) |>.append h₂.embed |>.append
      (.single rfl)
  case whileDo d s code₁ _ code₂ _ _ he₁ he₂ h₁ h₂ =>
    have h₁ := h₁ (Node.Every.first hp)
    have h₂ := h₂ (Node.Every.second hp)
    have ht₁ := hw.node (Node.Every.first hp) he₁
    have ht₂ := hw.node (Node.Every.second hp) he₂
    have htf : total w (.jumpIf s.label (.temp d) :: code₂ ++ [.jump s.issue.label]) = 0 := by
      simp [hw.jumpIf, hw.jump, ht₂]
    have htb :
        total w (.label s.issue.label ::
          (code₁ ++ [.negate (.temp d), .jumpIf s.label (.temp d)] ++ code₂))
        = 0 := by
      simp [hw.label, hw.negate, hw.jumpIf, ht₁, ht₂]
    have hb (post) : Closed w [] (.label s.issue.label :: code₁) post :=
      .cons (.single rfl) h₁.embed
    refine (hb _).append (.cons (.single rfl) ?_) |>.append h₂.embed |>.append
      (.cons ?_ (.single rfl))
    · simpa using Closed.jumpIf htf
    · simpa using Closed.jump [] htb
  case cons h₁ h₂ =>
    exact (h₁ (hp _ (by simp))).embed.append (h₂ fun n hn => hp n (by simp [hn])).embed
  case argument h₁ h₂ =>
    exact (h₁ fun n hn => hp n (by simp [hn])).embed.append (h₂ (hp _ (by simp))).embed |>.append <|
      .single rfl

end Lower
end LineCode
