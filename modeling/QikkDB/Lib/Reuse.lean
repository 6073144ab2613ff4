/-
Expression trees evaluated bottom-up into named registers, where a register that is already there keeps its value.

- `runWith_eval`: when no two different inner nodes have one name, the registers give every tree its own value, and an
  error exactly when the tree itself has one.
- `run_eval`, `runAll_eval`: a register that is there is not computed again; also for trees that share their registers.
- `insertedValue_eq_eval`: it is computed again, and its first value stays.
-/
import Mathlib.Tactic

namespace Reuse

inductive Tree (L U B : Type) where
  | leaf (l : L)
  | unary (u : U) (t : Tree L U B)
  | binary (b : B) (l r : Tree L U B)
deriving DecidableEq, Repr

variable {L U B N V E : Type}

/-- the nodes that are computed, innermost first -/
def Tree.nodes : Tree L U B → List (Tree L U B)
  | .leaf _ => []
  | .unary u t => t.nodes ++ [.unary u t]
  | .binary b l r => l.nodes ++ r.nodes ++ [.binary b l r]

def Tree.leaves : Tree L U B → List L
  | .leaf l => [l]
  | .unary _ t => t.leaves
  | .binary _ l r => l.leaves ++ r.leaves

/-- the nodes and the leaves -/
def Tree.subtrees : Tree L U B → List (Tree L U B)
  | .leaf l => [.leaf l]
  | .unary u t => t.subtrees ++ [.unary u t]
  | .binary b l r => l.subtrees ++ r.subtrees ++ [.binary b l r]

theorem Tree.nodes_subset (t : Tree L U B) : ∀ s ∈ t.nodes, s ∈ t.subtrees := by
  induction t with
  | leaf l => simp [Tree.nodes]
  | unary u t ih =>
    intro s hs
    rcases List.mem_append.1 hs with hs | hs
    · exact List.mem_append_left _ (ih s hs)
    · exact List.mem_append_right _ hs
  | binary b l r ihl ihr =>
    intro s hs
    simp only [Tree.nodes, List.mem_append] at hs
    simp only [Tree.subtrees, List.mem_append]
    rcases hs with (hs | hs) | hs
    · exact Or.inl (Or.inl (ihl s hs))
    · exact Or.inl (Or.inr (ihr s hs))
    · exact Or.inr hs

theorem Tree.leaves_subtree {s t : Tree L U B} (h : s ∈ t.subtrees) : ∀ l ∈ s.leaves, l ∈ t.leaves := by
  induction t with
  | leaf l =>
    obtain rfl := List.mem_singleton.1 h
    exact fun l hl => hl
  | unary u t ih =>
    rcases List.mem_append.1 h with h | h
    · exact ih h
    · obtain rfl := List.mem_singleton.1 h
      exact fun l hl => hl
  | binary b l r ihl ihr =>
    simp only [Tree.subtrees, List.mem_append, List.mem_singleton] at h
    intro x hx
    rcases h with (h | h) | rfl
    · exact List.mem_append_left _ (ihl h x hx)
    · exact List.mem_append_right _ (ihr h x hx)
    · exact hx

/-- how nodes are named and computed -/
structure Machine (L U B N V E : Type) where
  name : Tree L U B → N
  leaf : L → V
  unary : U → V → Except E V
  binary : B → V → V → Except E V

/-- the value of a tree on its own -/
def eval (M : Machine L U B N V E) : Tree L U B → Except E V
  | .leaf l => .ok (M.leaf l)
  | .unary u t => do M.unary u (← eval M t)
  | .binary b l r => do
    let v ← eval M l
    let w ← eval M r
    M.binary b v w

variable [DecidableEq N]

/-- the register of a node: the one that is there, or a new one -/
def assign (regs : N → Option V) (n : N) (v : Except E V) : Except E ((N → Option V) × V) :=
  match regs n with
  | some w => .ok (regs, w)
  | none => do
    let w ← v
    .ok (Function.update regs n (some w), w)

/-- the instructions of a tree, in order -/
def run (M : Machine L U B N V E) : Tree L U B → (N → Option V) → Except E ((N → Option V) × V)
  | .leaf l, regs => .ok (regs, M.leaf l)
  | .unary u t, regs => do
    let (regs, v) ← run M t regs
    assign regs (M.name (.unary u t)) (M.unary u v)
  | .binary b l r, regs => do
    let (regs, v) ← run M l regs
    let (regs, w) ← run M r regs
    assign regs (M.name (.binary b l r)) (M.binary b v w)

/-- no two different nodes have one name -/
def Identified (M : Machine L U B N V E) (all : List (Tree L U B)) : Prop :=
  ∀ s ∈ all, ∀ t ∈ all, M.name s = M.name t → s = t

/-- every register holds the value of the node it is named after -/
def Sound (M : Machine L U B N V E) (all : List (Tree L U B)) (regs : N → Option V) : Prop :=
  ∀ n v, regs n = some v → ∃ s ∈ all, M.name s = n ∧ eval M s = .ok v

variable {M : Machine L U B N V E} {all : List (Tree L U B)}

omit [DecidableEq N] in
theorem sound_empty : Sound M all fun _ => none := by
  intro n v h
  cases h

/-- one instruction -/
theorem assign_eval (hid : Identified M all) {t : Tree L U B} (ht : t ∈ all) {regs : N → Option V}
    (hregs : Sound M all regs) :
    match eval M t with
    | .ok v => ∃ regs', assign regs (M.name t) (eval M t) = .ok (regs', v) ∧ Sound M all regs'
    | .error e => assign regs (M.name t) (eval M t) = .error e := by
  unfold assign
  cases hreg : regs (M.name t) with
  | some w =>
    -- the register is that of a node of the same name, which is t itself
    obtain ⟨s, hs, hname, hval⟩ := hregs _ _ hreg
    obtain rfl := hid s hs t ht hname
    rw [hval]
    exact ⟨regs, rfl, hregs⟩
  | none =>
    cases hval : eval M t with
    | error e => rfl
    | ok v =>
      refine ⟨_, rfl, ?_⟩
      intro n w hn
      by_cases hnt : n = M.name t
      · subst hnt
        rw [Function.update_self] at hn
        obtain rfl := Option.some.inj hn
        exact ⟨t, ht, rfl, hval⟩
      · rw [Function.update_of_ne hnt] at hn
        exact hregs n w hn

/-- the instructions of a tree, in order, with `step` for the register of a node -/
def runWith (step : (N → Option V) → N → Except E V → Except E ((N → Option V) × V)) (M : Machine L U B N V E) :
    Tree L U B → (N → Option V) → Except E ((N → Option V) × V)
  | .leaf l, regs => .ok (regs, M.leaf l)
  | .unary u t, regs => do
    let (regs, v) ← runWith step M t regs
    step regs (M.name (.unary u t)) (M.unary u v)
  | .binary b l r, regs => do
    let (regs, v) ← runWith step M l regs
    let (regs, w) ← runWith step M r regs
    step regs (M.name (.binary b l r)) (M.binary b v w)

/-- a node of `all` gets its own value, or its own error -/
def Assigns (M : Machine L U B N V E) (all : List (Tree L U B))
    (step : (N → Option V) → N → Except E V → Except E ((N → Option V) × V)) : Prop :=
  ∀ t ∈ all, ∀ regs, Sound M all regs →
    match eval M t with
    | .ok v => ∃ regs', step regs (M.name t) (eval M t) = .ok (regs', v) ∧ Sound M all regs'
    | .error e => step regs (M.name t) (eval M t) = .error e

omit [DecidableEq N] in
theorem runWith_eval {step : (N → Option V) → N → Except E V → Except E ((N → Option V) × V)}
    (hstep : Assigns M all step) (t : Tree L U B) (ht : ∀ s ∈ t.nodes, s ∈ all) {regs : N → Option V}
    (hregs : Sound M all regs) :
    match eval M t with
    | .ok v => ∃ regs', runWith step M t regs = .ok (regs', v) ∧ Sound M all regs'
    | .error e => runWith step M t regs = .error e := by
  induction t generalizing regs with
  | leaf l => exact ⟨regs, rfl, hregs⟩
  | unary u t ih =>
    have htop : Tree.unary u t ∈ all := ht _ (by simp [Tree.nodes])
    have hsub : ∀ s ∈ t.nodes, s ∈ all := fun s hs => ht s (by simp [Tree.nodes, hs])
    have hchild := ih hsub hregs
    simp only [runWith]
    cases hv : eval M t with
    | error e =>
      rw [hv] at hchild
      simp only [eval, hv, hchild, bind, Except.bind]
    | ok v =>
      rw [hv] at hchild
      obtain ⟨regs', hrun, hsound⟩ := hchild
      have heval : eval M (.unary u t) = M.unary u v := by simp only [eval, hv, bind, Except.bind]
      have hnode := hstep _ htop _ hsound
      rw [heval] at hnode ⊢
      simpa only [hrun, bind, Except.bind] using hnode
  | binary b l r ihl ihr =>
    have htop : Tree.binary b l r ∈ all := ht _ (by simp [Tree.nodes])
    have hl : ∀ s ∈ l.nodes, s ∈ all := fun s hs => ht s (by simp [Tree.nodes, hs])
    have hr : ∀ s ∈ r.nodes, s ∈ all := fun s hs => ht s (by simp [Tree.nodes, hs])
    have hleft := ihl hl hregs
    simp only [runWith]
    cases hv : eval M l with
    | error e =>
      rw [hv] at hleft
      simp only [eval, hv, hleft, bind, Except.bind]
    | ok v =>
      rw [hv] at hleft
      obtain ⟨regs', hrun, hsound⟩ := hleft
      have hright := ihr hr hsound
      cases hw : eval M r with
      | error e =>
        rw [hw] at hright
        simp only [eval, hv, hw, hrun, hright, bind, Except.bind]
      | ok w =>
        rw [hw] at hright
        obtain ⟨regs'', hrun', hsound'⟩ := hright
        have heval : eval M (.binary b l r) = M.binary b v w := by simp only [eval, hv, hw, bind, Except.bind]
        have hnode := hstep _ htop _ hsound'
        rw [heval] at hnode ⊢
        simpa only [hrun, hrun', bind, Except.bind] using hnode

theorem run_eq_runWith (t : Tree L U B) (regs : N → Option V) : run M t regs = runWith assign M t regs := by
  induction t generalizing regs with
  | leaf l => rfl
  | unary u t ih => simp only [run, runWith, ih]
  | binary b l r ihl ihr => simp only [run, runWith, ihl, ihr]

theorem run_eval (hid : Identified M all) (t : Tree L U B) (ht : ∀ s ∈ t.nodes, s ∈ all) {regs : N → Option V}
    (hregs : Sound M all regs) :
    match eval M t with
    | .ok v => ∃ regs', run M t regs = .ok (regs', v) ∧ Sound M all regs'
    | .error e => run M t regs = .error e := by
  rw [run_eq_runWith]
  exact runWith_eval (fun s hs _ hsound => assign_eval hid hs hsound) t ht hregs

/-- the register of a node is computed, and the one that is there stays -/
def insertRegister (regs : N → Option V) (n : N) (v : Except E V) : Except E ((N → Option V) × V) := do
  let w ← v
  match regs n with
  | some first => .ok (regs, first)
  | none => .ok (Function.update regs n (some w), w)

theorem insertRegister_eval (hid : Identified M all) : Assigns M all (insertRegister : (N → Option V) → N → Except E V → _) := by
  intro t ht regs hregs
  have hassign := assign_eval hid ht hregs
  cases hval : eval M t with
  | error e => rfl
  | ok v =>
    rw [hval] at hassign
    obtain ⟨regs', hregs', hsound⟩ := hassign
    refine ⟨regs', ?_, hsound⟩
    rw [← hregs']
    simp only [insertRegister, assign, bind, Except.bind]

/-- the value a tree gets when its registers are inserted from the start -/
def insertedValue (M : Machine L U B N V E) (t : Tree L U B) : Except E V :=
  (runWith insertRegister M t fun _ => none).map Prod.snd

theorem insertedValue_eq_eval {t : Tree L U B} (hid : Identified M t.nodes) : insertedValue M t = eval M t := by
  have h := runWith_eval (insertRegister_eval hid) t (fun s hs => hs) sound_empty
  unfold insertedValue
  cases hv : eval M t with
  | error e =>
    rw [hv] at h
    rw [h]
    rfl
  | ok v =>
    rw [hv] at h
    obtain ⟨regs', hrun, -⟩ := h
    rw [hrun]
    rfl

/-- trees one after the other, with shared registers -/
def runAll (M : Machine L U B N V E) : List (Tree L U B) → (N → Option V) → Except E (List V)
  | [], _ => .ok []
  | t :: ts, regs => do
    let (regs, v) ← run M t regs
    let vs ← runAll M ts regs
    .ok (v :: vs)

theorem runAll_eval (hid : Identified M all) {ts : List (Tree L U B)} (hts : ∀ t ∈ ts, ∀ s ∈ t.nodes, s ∈ all)
    {regs : N → Option V} (hregs : Sound M all regs) : runAll M ts regs = ts.mapM (eval M) := by
  induction ts generalizing regs with
  | nil => rfl
  | cons t ts ih =>
    have hrun := run_eval hid t (hts t List.mem_cons_self) hregs
    rw [List.mapM_cons]
    cases hv : eval M t with
    | error e =>
      rw [hv] at hrun
      simp only [runAll, hrun, bind, Except.bind]
    | ok v =>
      rw [hv] at hrun
      obtain ⟨regs', hrun, hsound⟩ := hrun
      have hrest := ih (fun t ht => hts t (List.mem_cons_of_mem _ ht)) hsound
      simp only [runAll, hrun, hrest, bind, Except.bind]
      rfl

/-- the value a tree gets when its registers are computed from the start -/
def value (M : Machine L U B N V E) (t : Tree L U B) : Except E V := (run M t fun _ => none).map Prod.snd

theorem value_eq_eval {t : Tree L U B} (hid : Identified M t.nodes) : value M t = eval M t := by
  have h := run_eval hid t (fun s hs => hs) sound_empty
  unfold value
  cases hv : eval M t with
  | error e =>
    rw [hv] at h
    rw [h]
    rfl
  | ok v =>
    rw [hv] at h
    obtain ⟨regs', hrun, -⟩ := h
    rw [hrun]
    rfl

end Reuse
