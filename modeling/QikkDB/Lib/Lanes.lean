/-
Accumulators in lanes: values go to any of several lanes, each with an accumulator of its own, and the lanes are
accumulated at the end.

Results:
- `Accumulator.merge_put`: a value put into one lane is accumulated once.
- `Accumulator.fold_perm`: the order of the values does not matter.
-/
import Mathlib.Tactic

namespace QikkDB.Lanes

/-- an operation that takes values in any order -/
structure Accumulator (V : Type) where
  op : V → V → V
  init : V
  comm : ∀ a b, op a b = op b a
  assoc : ∀ a b c, op (op a b) c = op a (op b c)
  init_op : ∀ a, op init a = a

variable {V : Type} (A : Accumulator V)

def Accumulator.fold (l : List V) : V := l.foldl A.op A.init

theorem Accumulator.right_comm (a b c : V) : A.op (A.op a b) c = A.op (A.op a c) b := by
  rw [A.assoc, A.comm b c, ← A.assoc]

theorem Accumulator.fold_perm {l l' : List V} (h : l.Perm l') : A.fold l = A.fold l' :=
  h.foldl_eq' (fun x _ y _ z => A.right_comm z x y) A.init

theorem Accumulator.fold_concat (l : List V) (v : V) : A.fold (l ++ [v]) = A.op (A.fold l) v := by
  simp [Accumulator.fold]

theorem Accumulator.foldl_init (l : List V) (a : V) : l.foldl A.op a = A.op a (A.fold l) := by
  induction l using List.reverseRecOn with
  | nil => rw [List.foldl_nil, Accumulator.fold, List.foldl_nil, A.comm, A.init_op]
  | append_singleton l v ih => rw [List.foldl_append, List.foldl_cons, List.foldl_nil, ih, A.fold_concat, A.assoc]

theorem Accumulator.fold_cons (v : V) (l : List V) : A.fold (v :: l) = A.op v (A.fold l) := by
  rw [Accumulator.fold, List.foldl_cons, A.foldl_init, A.init_op]

theorem Accumulator.fold_append (l l' : List V) : A.fold (l ++ l') = A.op (A.fold l) (A.fold l') := by
  rw [Accumulator.fold, List.foldl_append, A.foldl_init]
  rfl

/-- what was accumulated in parts -/
theorem Accumulator.fold_parts (parts : List (List V)) :
    A.fold (parts.flatMap fun l => if l = [] then [] else [A.fold l]) = A.fold parts.flatten := by
  induction parts with
  | nil => rfl
  | cons l parts ih =>
    rw [List.flatMap_cons, List.flatten_cons, A.fold_append, A.fold_append, ih]
    split_ifs with hnil
    · rw [hnil]
    · have hone : A.fold [A.fold l] = A.fold l := A.init_op _
      rw [hone]

/-- the lanes, from left to right -/
def Accumulator.merge (m : ℕ) (lanes : ℕ → V) : V := (List.range m).foldl (fun a j => A.op a (lanes j)) A.init

theorem Accumulator.merge_init (m : ℕ) : A.merge m (fun _ => A.init) = A.init := by
  unfold Accumulator.merge
  induction List.range m with
  | nil => rfl
  | cons j js ih => rw [List.foldl_cons, A.init_op, ih]

theorem Accumulator.foldl_op (lanes : ℕ → V) (js : List ℕ) (a v : V) :
    js.foldl (fun a j => A.op a (lanes j)) (A.op a v) = A.op (js.foldl (fun a j => A.op a (lanes j)) a) v := by
  induction js generalizing a with
  | nil => rfl
  | cons j js ih => rw [List.foldl_cons, List.foldl_cons, A.right_comm, ih]

theorem Accumulator.foldl_update (lanes : ℕ → V) {js : List ℕ} (hnodup : js.Nodup) {i : ℕ} (hi : i ∈ js) (a v : V) :
    js.foldl (fun a j => A.op a (Function.update lanes i (A.op (lanes i) v) j)) a =
      A.op (js.foldl (fun a j => A.op a (lanes j)) a) v := by
  induction js generalizing a with
  | nil => cases hi
  | cons j js ih =>
    obtain ⟨hj, hnodup⟩ := List.nodup_cons.1 hnodup
    rw [List.foldl_cons, List.foldl_cons]
    by_cases hij : i = j
    · subst hij
      have hrest : js.foldl (fun a j => A.op a (Function.update lanes i (A.op (lanes i) v) j))
          (A.op a (Function.update lanes i (A.op (lanes i) v) i)) =
          js.foldl (fun a j => A.op a (lanes j)) (A.op (A.op a (lanes i)) v) := by
        rw [Function.update_self, ← A.assoc]
        refine List.foldl_ext _ _ _ fun b l hl => ?_
        have hli : l ≠ i := fun h => hj (h ▸ hl)
        rw [Function.update_of_ne hli]
      rw [hrest, A.foldl_op]
    · rw [ih hnodup ((List.mem_cons.1 hi).resolve_left hij), Function.update_of_ne (Ne.symm hij)]

/-- a value put into one lane is accumulated once -/
theorem Accumulator.merge_put (lanes : ℕ → V) {m i : ℕ} (hi : i < m) (v : V) :
    A.merge m (Function.update lanes i (A.op (lanes i) v)) = A.op (A.merge m lanes) v :=
  A.foldl_update lanes List.nodup_range (List.mem_range.2 hi) A.init v

end QikkDB.Lanes
