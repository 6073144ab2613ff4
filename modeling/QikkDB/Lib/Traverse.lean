/-
Loops over a list whose body may fail, as `mapM` into `Option` or `Except`.

- `mapM_some`, `mapM_none`: all calls succeed, or one of them fails.
- `mapM_eq_map_iff`, `mapM_ok_iff`: the results are given ones exactly when each of them is.
- `mapM_error_iff`: the failure of a loop is its first one.
- `inPlace_cases`: a loop that changes a list in place and is left by an exception.
- `forall₂_iff_forall`: pairs whose relation is a condition on the first of them.
- `takeWhile_congr`: a loop that ends at the first failing test, by two tests that agree.
-/
import Mathlib.Tactic

namespace Traverse

variable {α β : Type*} {f : α → Option β} {l : List α}

theorem mapM_some {g : α → β} (h : ∀ a ∈ l, f a = some (g a)) : l.mapM f = some (l.map g) := by
  induction l with
  | nil => rfl
  | cons a l ih =>
    rw [List.mapM_cons, h a List.mem_cons_self, ih fun b hb => h b (List.mem_cons_of_mem a hb)]
    rfl

theorem mapM_congr {g : α → Option β} (h : ∀ a ∈ l, f a = g a) : l.mapM f = l.mapM g := by
  induction l with
  | nil => rfl
  | cons a l ih =>
    rw [List.mapM_cons, List.mapM_cons, h a List.mem_cons_self, ih fun b hb => h b (List.mem_cons_of_mem a hb)]

theorem mapM_none {a : α} (ha : a ∈ l) (h : f a = none) : l.mapM f = none := by
  induction l with
  | nil => exact absurd ha List.not_mem_nil
  | cons b l ih =>
    rw [List.mapM_cons]
    rcases List.mem_cons.1 ha with rfl | ha
    · rw [h]
      rfl
    · rw [ih ha]
      cases f b <;> rfl

theorem mapM_eq_map_iff {g : α → β} : l.mapM f = some (l.map g) ↔ ∀ a ∈ l, f a = some (g a) := by
  refine ⟨?_, mapM_some⟩
  intro h
  induction l with
  | nil => simp
  | cons a l ih =>
    rw [List.mapM_cons] at h
    obtain ⟨b, hb, h⟩ := Option.bind_eq_some_iff.1 h
    obtain ⟨bs, hbs, h⟩ := Option.bind_eq_some_iff.1 h
    obtain ⟨rfl, rfl⟩ := List.cons.inj (Option.some.inj h)
    exact List.forall_mem_cons.2 ⟨hb, ih hbs⟩

/-- each result is that of some element -/
theorem mem_of_mapM {bs : List β} (h : l.mapM f = some bs) {b : β} (hb : b ∈ bs) : ∃ a ∈ l, f a = some b := by
  induction l generalizing bs with
  | nil =>
    obtain rfl := Option.some.inj h
    exact absurd hb List.not_mem_nil
  | cons a l ih =>
    rw [List.mapM_cons] at h
    obtain ⟨c, hc, h⟩ := Option.bind_eq_some_iff.1 h
    obtain ⟨cs, hcs, h⟩ := Option.bind_eq_some_iff.1 h
    obtain rfl := Option.some.inj h
    rcases List.mem_cons.1 hb with rfl | hb
    · exact ⟨a, List.mem_cons_self, hc⟩
    · obtain ⟨a', ha', hf⟩ := ih hcs hb
      exact ⟨a', List.mem_cons_of_mem a ha', hf⟩

/-- elements one after the other are a window -/
theorem mapM_getElem {data : List α} {start size : ℕ} (h : start + size ≤ data.length) :
    (List.range' start size).mapM (fun i => data[i]?) = some ((data.drop start).take size) := by
  induction size generalizing start with
  | zero => simp
  | succ size ih =>
    have hlt : start < data.length := by omega
    rw [List.range'_succ, List.mapM_cons, ih (by omega), List.getElem?_eq_getElem hlt,
      List.drop_eq_getElem_cons hlt, List.take_succ_cons]
    rfl

theorem mapM_ok_iff {ε : Type*} {f : α → Except ε β} {rs : List β} :
    l.mapM f = .ok rs ↔ List.Forall₂ (fun a b => f a = .ok b) l rs := by
  induction l generalizing rs with
  | nil =>
    rw [List.mapM_nil, List.forall₂_nil_left_iff]
    exact ⟨fun h => (Except.ok.inj h).symm, fun h => congrArg Except.ok h.symm⟩
  | cons a l ih =>
    rw [List.mapM_cons, List.forall₂_cons_left_iff]
    constructor
    · intro h
      cases ha : f a with
      | error e => simp [ha, bind, Except.bind] at h
      | ok b =>
        cases hl : l.mapM f with
        | error e => simp [ha, hl, bind, Except.bind] at h
        | ok bs =>
          rw [ha, hl] at h
          exact ⟨b, bs, rfl, ih.1 hl, (Except.ok.inj h).symm⟩
    · rintro ⟨b, bs, ha, hl, rfl⟩
      rw [ha, ih.2 hl]
      rfl

theorem mapM_ok {ε : Type*} {f : α → Except ε β} {g : α → β} (h : ∀ a ∈ l, f a = .ok (g a)) :
    l.mapM f = .ok (l.map g) :=
  mapM_ok_iff.2 (List.forall₂_map_right_iff.2 (List.forall₂_same.2 h))

theorem exists_mem_of_mapM_ok {ε : Type*} {f : α → Except ε β} {rs : List β} (h : l.mapM f = .ok rs) {a : α}
    (ha : a ∈ l) : ∃ b ∈ rs, f a = .ok b := by
  have hall := mapM_ok_iff.1 h
  induction hall with
  | nil => cases ha
  | cons hab hrest ih =>
    rcases List.mem_cons.1 ha with rfl | ha
    · exact ⟨_, List.mem_cons_self, hab⟩
    · obtain ⟨b, hb, hf⟩ := ih (mapM_ok_iff.2 hrest) ha
      exact ⟨b, List.mem_cons_of_mem _ hb, hf⟩

/-- the first failure -/
theorem mapM_error_iff {ε : Type*} {f : α → Except ε β} {e : ε} :
    l.mapM f = .error e ↔ ∃ before a after, l = before ++ a :: after ∧ (∀ x ∈ before, ∃ b, f x = .ok b) ∧
      f a = .error e := by
  induction l with
  | nil => exact iff_of_false nofun fun ⟨before, a, after, h, _⟩ => by simp at h
  | cons a l ih =>
    rw [List.mapM_cons]
    cases ha : f a with
    | error e' =>
      constructor
      · intro h
        obtain rfl := Except.error.inj h
        exact ⟨[], a, l, rfl, by simp, ha⟩
      · rintro ⟨before, a', after, h, hbefore, ha'⟩
        cases before with
        | nil =>
          obtain ⟨rfl, -⟩ := List.cons.inj h
          obtain rfl := Except.error.inj (ha.symm.trans ha')
          rfl
        | cons x before =>
          obtain ⟨rfl, -⟩ := List.cons.inj h
          obtain ⟨b, hb⟩ := hbefore a List.mem_cons_self
          rw [ha] at hb
          cases hb
    | ok b =>
      have htail : (do let b ← Except.ok b; let bs ← l.mapM f; pure (b :: bs) : Except ε (List β)) = .error e ↔
          l.mapM f = .error e := by
        cases hl : l.mapM f with
        | error e' => exact Iff.rfl
        | ok bs => exact iff_of_false nofun nofun
      rw [htail, ih]
      constructor
      · rintro ⟨before, a', after, rfl, hbefore, ha'⟩
        refine ⟨a :: before, a', after, rfl, fun x hx => ?_, ha'⟩
        rcases List.mem_cons.1 hx with rfl | hx
        · exact ⟨b, ha⟩
        · exact hbefore x hx
      · rintro ⟨before, a', after, h, hbefore, ha'⟩
        cases before with
        | nil =>
          obtain ⟨rfl, -⟩ := List.cons.inj h
          rw [ha] at ha'
          cases ha'
        | cons x before =>
          obtain ⟨-, rfl⟩ := List.cons.inj h
          exact ⟨before, a', after, rfl, fun x hx => hbefore x (List.mem_cons_of_mem _ hx), ha'⟩

theorem exists_mapM_ok_iff {ε : Type*} {f : α → Except ε β} :
    (∃ rs, l.mapM f = .ok rs) ↔ ∀ a ∈ l, ∃ b, f a = .ok b := by
  constructor
  · rintro ⟨rs, h⟩ a ha
    obtain ⟨b, -, hb⟩ := exists_mem_of_mapM_ok h ha
    exact ⟨b, hb⟩
  · intro h
    cases hl : l.mapM f with
    | ok rs => exact ⟨rs, rfl⟩
    | error e =>
      obtain ⟨before, a, after, rfl, -, ha⟩ := mapM_error_iff.1 hl
      obtain ⟨b, hb⟩ := h a (by simp)
      rw [ha] at hb
      cases hb

/-- a relation that says something about the left-hand side only -/
theorem forall₂_iff_forall {R : α → β → Prop} {P : α → Prop} {rs : List β}
    (h : List.Forall₂ (fun a b => R a b ↔ P a) l rs) : List.Forall₂ R l rs ↔ ∀ a ∈ l, P a := by
  induction h with
  | nil => simp
  | cons hab _ ih => rw [List.forall₂_cons, hab, ih, List.forall_mem_cons]

theorem forall₂_comp {γ δ : Type*} {R : α → γ → Prop} {S : γ → δ → Prop} {U : α → δ → Prop}
    (hcomp : ∀ a b c, R a b → S b c → U a c) {bs : List γ} {cs : List δ} (h : List.Forall₂ R l bs)
    (h' : List.Forall₂ S bs cs) : List.Forall₂ U l cs := by
  induction h generalizing cs with
  | nil =>
    cases h'
    exact .nil
  | cons hab _ ih =>
    cases h' with
    | cons hbc hrest => exact .cons (hcomp _ _ _ hab hbc) (ih hrest)

/-! ## In place -/

/-- Each element is replaced by the result of the body, until one fails; that one may have changed as well. -/
def inPlace {ε : Type*} (f : α → α × Option ε) : List α → List α × Option ε
  | [] => ([], none)
  | a :: l =>
    match f a with
    | (a', none) =>
      let r := inPlace f l
      (a' :: r.1, r.2)
    | (a', some e) => (a' :: l, some e)

/-- all calls succeed, or the loop ends at the first one that does not -/
theorem inPlace_cases {ε : Type*} (f : α → α × Option ε) (l : List α) :
    ((∀ a ∈ l, (f a).2 = none) ∧ inPlace f l = (l.map fun a => (f a).1, none)) ∨
    ∃ before a after e, l = before ++ a :: after ∧ (∀ b ∈ before, (f b).2 = none) ∧ (f a).2 = some e ∧
      inPlace f l = (before.map (fun b => (f b).1) ++ (f a).1 :: after, some e) := by
  induction l with
  | nil => exact Or.inl ⟨by simp, rfl⟩
  | cons a l ih =>
    rcases hfa : f a with ⟨a', _ | e⟩
    · rcases ih with ⟨hall, hl⟩ | ⟨before, b, after, e, rfl, hbefore, hb, hl⟩
      · refine Or.inl ⟨List.forall_mem_cons.2 ⟨by rw [hfa], hall⟩, ?_⟩
        simp only [inPlace, hfa, hl, List.map_cons]
      · refine Or.inr ⟨a :: before, b, after, e, rfl, List.forall_mem_cons.2 ⟨by rw [hfa], hbefore⟩, hb, ?_⟩
        simp only [inPlace, hfa, hl, List.map_cons, List.cons_append]
    · exact Or.inr ⟨[], a, l, e, rfl, by simp, by rw [hfa], by simp only [inPlace, hfa, List.map_nil, List.nil_append]⟩

/-- the list before and after a loop that has stopped -/
theorem forall₂_inPlace_iff {R : α → α → Prop} (hrefl : ∀ x, R x x) {g : α → α} {before after : List α} {a a' : α} :
    List.Forall₂ R (before ++ a :: after) (before.map g ++ a' :: after) ↔ (∀ b ∈ before, R b (g b)) ∧ R a a' := by
  induction before with
  | nil => simp [hrefl, List.forall₂_same]
  | cons b before ih =>
    rw [List.map_cons, List.cons_append, List.cons_append, List.forall₂_cons, ih, List.forall_mem_cons, and_assoc]

/-- two places of a list: the same one, or one of them comes first -/
theorem split_cases {before before' after after' : List α} {a a' : α}
    (h : before ++ a :: after = before' ++ a' :: after') : (before = before' ∧ a = a') ∨ a ∈ before' ∨ a' ∈ before := by
  rcases List.append_eq_append_iff.1 h with ⟨c, rfl, hc⟩ | ⟨c, rfl, hc⟩
  · cases c with
    | nil => exact Or.inl ⟨(List.append_nil _).symm, (List.cons.inj hc).1⟩
    | cons x c =>
      obtain ⟨rfl, -⟩ := List.cons.inj hc
      exact Or.inr (Or.inl (by simp))
  · cases c with
    | nil => exact Or.inl ⟨List.append_nil _, (List.cons.inj hc).1.symm⟩
    | cons x c =>
      obtain ⟨rfl, -⟩ := List.cons.inj hc
      exact Or.inr (Or.inr (by simp))

/-! ## Up to the first failure -/

theorem takeWhile_congr {p q : α → Bool} (h : ∀ x ∈ l, p x = q x) : l.takeWhile p = l.takeWhile q := by
  induction l with
  | nil => rfl
  | cons x l ih =>
    rw [List.takeWhile_cons, List.takeWhile_cons, h x List.mem_cons_self,
      ih fun y hy => h y (List.mem_cons_of_mem x hy)]

end Traverse
