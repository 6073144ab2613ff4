/-
Expressions written without parentheses: prefix operators, left-associative infix operators with a precedence, and calls.

- `op_mem_tops`: an infix operator outside of all calls is one of the tree's own.
- `tokens_injective`: trees that need no parentheses are determined by their tokens.
- `spell_injective`: tokens are determined by their spelling, when the first of them is at every place.
-/
import Mathlib.Tactic
import QikkDB.Lib.Reuse

namespace Precedence

open Reuse (Tree)

/-! ## Trees and their tokens -/

inductive Unary (P F : Type) where
  | op (p : P)
  | call (f : F)
deriving DecidableEq, Repr

inductive Binary (I F : Type) where
  | op (i : I)
  | call (f : F)
deriving DecidableEq, Repr

/-- atoms A under prefix operators P, infix operators I and calls of functions F -/
abbrev Term (A P I F : Type) := Tree A (Unary P F) (Binary I F)

inductive Token (A P I F : Type) where
  | atom (a : A)
  | pre (p : P)
  | op (i : I)
  | call (f : F)
  | comma
  | close
deriving DecidableEq, Repr

variable {A P I F : Type}

def tokens : Term A P I F → List (Token A P I F)
  | .leaf a => [.atom a]
  | .unary (.op p) t => .pre p :: tokens t
  | .unary (.call f) t => .call f :: (tokens t ++ [.close])
  | .binary (.op i) l r => tokens l ++ .op i :: tokens r
  | .binary (.call f) l r => .call f :: (tokens l ++ .comma :: (tokens r ++ [.close]))

/-- the infix operators outside of all calls -/
def tops : Term A P I F → List I
  | .leaf _ => []
  | .unary (.op _) t => tops t
  | .unary (.call _) _ => []
  | .binary (.op i) l r => tops l ++ i :: tops r
  | .binary (.call _) _ _ => []

section Bare

variable (prec : I → ℕ)

/-- 0 for operands, and for an infix operator one more than its precedence; a larger precedence binds less tightly -/
def level : Term A P I F → ℕ
  | .leaf _ => 0
  | .unary _ _ => 0
  | .binary (.op i) _ _ => prec i + 1
  | .binary (.call _) _ _ => 0

/-- the tree needs no parentheses -/
def Bare : Term A P I F → Prop
  | .leaf _ => True
  | .unary (.op _) t => level prec t = 0 ∧ Bare t
  | .unary (.call _) t => Bare t
  | .binary (.op i) l r => level prec l ≤ prec i + 1 ∧ level prec r ≤ prec i ∧ Bare l ∧ Bare r
  | .binary (.call _) l r => Bare l ∧ Bare r

theorem bare_subtree {s t : Term A P I F} (ht : Bare prec t) (h : s ∈ t.subtrees) : Bare prec s := by
  induction t with
  | leaf a =>
    obtain rfl := List.mem_singleton.1 h
    exact ht
  | unary u t ih =>
    rcases List.mem_append.1 h with hs | hs
    · cases u with
      | op p => exact ih ht.2 hs
      | call f => exact ih ht hs
    · obtain rfl := List.mem_singleton.1 hs
      exact ht
  | binary b l r ihl ihr =>
    simp only [Tree.subtrees, List.mem_append, List.mem_singleton] at h
    rcases h with (h | h) | rfl
    · cases b with
      | op i => exact ihl ht.2.2.1 h
      | call f => exact ihl ht.1 h
    · cases b with
      | op i => exact ihr ht.2.2.2 h
      | call f => exact ihr ht.2 h
    · exact ht

end Bare

theorem atom_mem_tokens {t : Term A P I F} {a : A} (h : .atom a ∈ tokens t) : a ∈ t.leaves := by
  induction t with
  | leaf b => simpa [tokens, Tree.leaves] using h
  | unary u t ih =>
    cases u with
    | op p => exact ih (by simpa [tokens] using h)
    | call f => exact ih (by simpa [tokens] using h)
  | binary b l r ihl ihr =>
    have hsub : .atom a ∈ tokens l ∨ .atom a ∈ tokens r := by
      cases b with
      | op i => simpa [tokens] using h
      | call f => simpa [tokens] using h
    exact List.mem_append.2 (hsub.imp ihl ihr)

/-! ## Depth -/

/-- calls that are open after a token -/
def Token.depth : Token A P I F → ℤ
  | .call _ => 1
  | .close => -1
  | _ => 0

def depth (l : List (Token A P I F)) : ℤ := (l.map Token.depth).sum

theorem depth_append (l m : List (Token A P I F)) : depth (l ++ m) = depth l + depth m := by
  simp [depth]

theorem depth_cons (k : Token A P I F) (l : List (Token A P I F)) : depth (k :: l) = k.depth + depth l := by
  simp [depth]

theorem depth_nil : depth ([] : List (Token A P I F)) = 0 := rfl

theorem depth_tokens (t : Term A P I F) : depth (tokens t) = 0 := by
  induction t with
  | leaf a => rfl
  | unary u t ih =>
    cases u with
    | op p =>
      rw [tokens, depth_cons, ih]
      rfl
    | call f =>
      rw [tokens, depth_cons, depth_append, ih, depth_cons, depth_nil]
      rfl
  | binary b l r ihl ihr =>
    cases b with
    | op i =>
      rw [tokens, depth_append, depth_cons, ihl, ihr]
      rfl
    | call f =>
      rw [tokens, depth_cons, depth_append, depth_cons, depth_append, ihl, ihr, depth_cons, depth_nil]
      rfl

/-- what follows a place inside of a tree closes the calls that are open there -/
theorem depth_suffix (t : Term A P I F) {x y : List (Token A P I F)} (h : tokens t = x ++ y) : depth y ≤ 0 := by
  induction t generalizing x y with
  | leaf a =>
    rcases List.append_eq_singleton_iff.1 h.symm with ⟨-, rfl⟩ | ⟨-, rfl⟩
    · exact le_refl _
    · exact le_refl _
  | unary u t ih =>
    cases x with
    | nil =>
      rw [List.nil_append] at h
      rw [← h, depth_tokens]
    | cons k x =>
      cases u with
      | op p => exact ih (List.cons.inj h).2
      | call f =>
        rcases List.append_eq_append_iff.1 (List.cons.inj h).2 with ⟨z, -, hz⟩ | ⟨z, ht, rfl⟩
        · -- at most the closing token is left
          rcases List.append_eq_singleton_iff.1 hz.symm with ⟨-, rfl⟩ | ⟨-, rfl⟩
          · simp [depth, Token.depth]
          · exact le_refl _
        · have hsub := ih ht
          rw [depth_append, depth_cons, depth_nil]
          simp only [Token.depth]
          omega
  | binary b l r ihl ihr =>
    cases b with
    | op i =>
      rcases List.append_eq_append_iff.1 h with ⟨z, -, hz⟩ | ⟨z, hl, rfl⟩
      · rcases List.cons_eq_append_iff.1 hz with ⟨-, rfl⟩ | ⟨w, -, hr⟩
        · rw [depth_cons, depth_tokens]
          exact le_refl _
        · exact ihr hr
      · have hsub := ihl hl
        rw [depth_append, depth_cons, depth_tokens]
        simp only [Token.depth]
        omega
    | call f =>
      cases x with
      | nil =>
        rw [List.nil_append] at h
        rw [← h, depth_tokens]
      | cons k x =>
        rcases List.append_eq_append_iff.1 (List.cons.inj h).2 with ⟨z, -, hz⟩ | ⟨z, hl, rfl⟩
        · rcases List.cons_eq_append_iff.1 hz with ⟨-, rfl⟩ | ⟨w, -, hr⟩
          · rw [depth_cons, depth_append, depth_tokens, depth_cons, depth_nil]
            simp [Token.depth]
          · rcases List.append_eq_append_iff.1 hr with ⟨v, -, hv⟩ | ⟨v, hright, rfl⟩
            · rcases List.append_eq_singleton_iff.1 hv.symm with ⟨-, rfl⟩ | ⟨-, rfl⟩
              · simp [depth, Token.depth]
              · exact le_refl _
            · have hsub := ihr hright
              rw [depth_append, depth_cons, depth_nil]
              simp only [Token.depth]
              omega
        · have hsub := ihl hl
          rw [depth_append, depth_cons, depth_append, depth_tokens, depth_cons, depth_nil]
          simp only [Token.depth]
          omega

/-! ## Separators outside of all calls -/

/-- an infix operator or a comma -/
def Token.Separates : Token A P I F → Prop
  | .op _ => True
  | .comma => True
  | _ => False

theorem separates_mem_tops (t : Term A P I F) {x y : List (Token A P I F)} {k : Token A P I F} (hk : k.Separates)
    (h : tokens t = x ++ k :: y) (hy : depth y = 0) : ∃ i ∈ tops t, k = .op i := by
  induction t generalizing x y with
  | leaf a =>
    obtain ⟨-, -, rfl⟩ : x = [] ∧ y = [] ∧ Token.atom a = k := by
      cases x with
      | nil =>
        obtain ⟨rfl, rfl⟩ := List.cons.inj h
        exact ⟨rfl, rfl, rfl⟩
      | cons c x =>
        obtain ⟨-, h⟩ := List.cons.inj h
        exact absurd h (by simp)
    exact hk.elim
  | unary u t ih =>
    cases u with
    | op p =>
      cases x with
      | nil =>
        obtain ⟨rfl, -⟩ := List.cons.inj h
        exact hk.elim
      | cons c x => exact ih (List.cons.inj h).2 hy
    | call f =>
      cases x with
      | nil =>
        obtain ⟨rfl, -⟩ := List.cons.inj h
        exact hk.elim
      | cons c x =>
        exfalso
        rcases List.append_eq_append_iff.1 (List.cons.inj h).2 with ⟨z, -, hz⟩ | ⟨z, ht, hz⟩
        · rcases List.singleton_eq_append_iff.1 hz with ⟨-, hz⟩ | ⟨-, hz⟩
          · obtain ⟨rfl, -⟩ := List.cons.inj hz
            exact hk
          · cases hz
        · -- inside of the call, what follows would close it twice
          cases z with
          | nil =>
            obtain ⟨rfl, -⟩ := List.cons.inj hz
            exact hk
          | cons c z =>
            obtain ⟨rfl, rfl⟩ := List.cons.inj hz
            rw [List.append_cons] at ht
            have hsub := depth_suffix t ht
            simp only [List.append_eq, depth_append, depth_cons, depth_nil, Token.depth] at hy
            omega
  | binary b l r ihl ihr =>
    cases b with
    | op i =>
      rcases List.append_eq_append_iff.1 h with ⟨z, -, hz⟩ | ⟨z, hl, hz⟩
      · rcases List.cons_eq_append_iff.1 hz with ⟨-, hz⟩ | ⟨w, -, hr⟩
        · obtain ⟨rfl, -⟩ := List.cons.inj hz
          exact ⟨i, by simp [tops], rfl⟩
        · obtain ⟨j, hj, rfl⟩ := ihr hr hy
          exact ⟨j, by simp [tops, hj], rfl⟩
      · cases z with
        | nil =>
          obtain ⟨rfl, -⟩ := List.cons.inj hz
          exact ⟨i, by simp [tops], rfl⟩
        | cons c z =>
          obtain ⟨rfl, rfl⟩ := List.cons.inj hz
          simp only [List.append_eq, depth_append, depth_cons, depth_tokens, Token.depth] at hy
          obtain ⟨j, hj, rfl⟩ := ihl hl (by omega)
          exact ⟨j, by simp [tops, hj], rfl⟩
    | call f =>
      cases x with
      | nil =>
        obtain ⟨rfl, -⟩ := List.cons.inj h
        exact hk.elim
      | cons c x =>
        exfalso
        rcases List.append_eq_append_iff.1 (List.cons.inj h).2 with ⟨z, -, hz⟩ | ⟨z, hl, hz⟩
        · rcases List.cons_eq_append_iff.1 hz with ⟨-, hz⟩ | ⟨w, -, hr⟩
          · obtain ⟨rfl, rfl⟩ := List.cons.inj hz
            simp [depth_append, depth_tokens, depth_cons, depth_nil, Token.depth] at hy
          · rcases List.append_eq_append_iff.1 hr with ⟨v, -, hv⟩ | ⟨v, hright, hv⟩
            · rcases List.singleton_eq_append_iff.1 hv with ⟨-, hv⟩ | ⟨-, hv⟩
              · obtain ⟨rfl, -⟩ := List.cons.inj hv
                exact hk
              · cases hv
            · cases v with
              | nil =>
                obtain ⟨rfl, -⟩ := List.cons.inj hv
                exact hk
              | cons c v =>
                obtain ⟨rfl, rfl⟩ := List.cons.inj hv
                rw [List.append_cons] at hright
                have hsub := depth_suffix r hright
                simp only [List.append_eq, depth_append, depth_cons, depth_nil, Token.depth] at hy
                omega
        · cases z with
          | nil =>
            obtain ⟨rfl, rfl⟩ := List.cons.inj hz
            simp [depth_append, depth_tokens, depth_cons, depth_nil, Token.depth] at hy
          | cons c z =>
            obtain ⟨rfl, rfl⟩ := List.cons.inj hz
            rw [List.append_cons] at hl
            have hsub := depth_suffix l hl
            simp only [List.append_eq, depth_append, depth_cons, depth_tokens, depth_nil, Token.depth] at hy
            omega

theorem op_mem_tops (t : Term A P I F) {x y : List (Token A P I F)} {i : I} (h : tokens t = x ++ .op i :: y)
    (hy : depth y = 0) : i ∈ tops t := by
  obtain ⟨j, hj, heq⟩ := separates_mem_tops t (k := .op i) trivial h hy
  obtain rfl := Token.op.inj heq
  exact hj

theorem no_comma (t : Term A P I F) {x y : List (Token A P I F)} (hy : depth y = 0) : tokens t ≠ x ++ .comma :: y := by
  intro h
  obtain ⟨j, -, heq⟩ := separates_mem_tops t (k := .comma) trivial h hy
  cases heq

/-! ## Reading -/

variable {prec : I → ℕ}

theorem prec_lt_level {t : Term A P I F} (ht : Bare prec t) {i : I} (hi : i ∈ tops t) : prec i < level prec t := by
  induction t with
  | leaf a => exact absurd hi List.not_mem_nil
  | unary u t ih =>
    cases u with
    | op p =>
      have hlt := ih ht.2 hi
      rw [ht.1] at hlt
      omega
    | call f => exact absurd hi List.not_mem_nil
  | binary b l r ihl ihr =>
    cases b with
    | op j =>
      obtain ⟨hl, hr, hbl, hbr⟩ := ht
      simp only [level]
      rcases List.mem_append.1 hi with hi | hi
      · have hlt := ihl hbl hi
        omega
      · rcases List.mem_cons.1 hi with rfl | hi
        · omega
        · have hlt := ihr hbr hi
          omega
    | call f => exact absurd hi List.not_mem_nil

/-- two ways to cut a list at tokens, both with balanced right parts: the same cut, or one within a part of the other -/
theorem cut {l r l' r' : List (Token A P I F)} {k k' : Token A P I F} (h : l ++ k :: r = l' ++ k' :: r') :
    (l = l' ∧ k = k' ∧ r = r') ∨ (∃ z, l' = l ++ k :: z ∧ r = z ++ k' :: r') ∨
      (∃ z, l = l' ++ k' :: z ∧ r' = z ++ k :: r) := by
  rcases List.append_eq_append_iff.1 h with ⟨z, hl, hz⟩ | ⟨z, hl, hz⟩
  · cases z with
    | nil =>
      obtain ⟨hk, hr⟩ := List.cons.inj hz
      exact Or.inl ⟨by rw [hl, List.append_nil], hk, hr⟩
    | cons c z =>
      obtain ⟨rfl, hr⟩ := List.cons.inj hz
      exact Or.inr (Or.inl ⟨z, hl, hr⟩)
  · cases z with
    | nil =>
      obtain ⟨hk, hr⟩ := List.cons.inj hz
      exact Or.inl ⟨by rw [hl, List.append_nil], hk.symm, hr.symm⟩
    | cons c z =>
      obtain ⟨rfl, hr⟩ := List.cons.inj hz
      exact Or.inr (Or.inr ⟨z, hl, hr⟩)

/-- of two infix operators in one list of tokens, neither can stand within the operands of the other -/
theorem op_cut {l r l' r' : Term A P I F} {i j : I} (hr : level prec r ≤ prec i) (hbr : Bare prec r)
    (hl' : level prec l' ≤ prec j + 1) (hbl' : Bare prec l') {z : List (Token A P I F)}
    (hz : tokens l' = tokens l ++ .op i :: z) (hz' : tokens r = z ++ .op j :: tokens r') : False := by
  have hdepth : depth z = 0 := by
    have hsum := congrArg depth hz'
    simp only [depth_append, depth_cons, depth_tokens, Token.depth] at hsum
    omega
  have hj := prec_lt_level hbr (op_mem_tops r hz' (depth_tokens r'))
  have hi := prec_lt_level hbl' (op_mem_tops l' hz hdepth)
  omega

theorem tokens_injective {s t : Term A P I F} (hs : Bare prec s) (ht : Bare prec t) (h : tokens s = tokens t) : s = t := by
  induction s generalizing t with
  | leaf a =>
    cases t with
    | leaf b =>
      obtain ⟨hab, -⟩ := List.cons.inj h
      rw [Token.atom.inj hab]
    | unary u t => cases u <;> cases (List.cons.inj h).1
    | binary b l r =>
      cases b with
      | op i => exact absurd (op_mem_tops (.leaf a) h (depth_tokens r)) List.not_mem_nil
      | call f => cases (List.cons.inj h).1
  | unary u s ih =>
    cases t with
    | leaf b => cases u <;> cases (List.cons.inj h).1
    | unary v t =>
      cases u with
      | op p =>
        cases v with
        | op q =>
          obtain ⟨hpq, h⟩ := List.cons.inj h
          rw [Token.pre.inj hpq, ih hs.2 ht.2 h]
        | call g => cases (List.cons.inj h).1
      | call f =>
        cases v with
        | op q => cases (List.cons.inj h).1
        | call g =>
          obtain ⟨hfg, h⟩ := List.cons.inj h
          have hst : s = t := ih (show Bare prec s from hs) (show Bare prec t from ht) (List.append_cancel_right h)
          rw [Token.call.inj hfg, hst]
    | binary b l r =>
      cases b with
      | op i =>
        have hlt := prec_lt_level hs (op_mem_tops (.unary u s) h (depth_tokens r))
        exact absurd hlt (Nat.not_lt_zero _)
      | call g =>
        cases u with
        | op p => cases (List.cons.inj h).1
        | call f =>
          obtain ⟨-, h⟩ := List.cons.inj h
          have hcomma : tokens s = tokens l ++ .comma :: tokens r := by
            have hclose : tokens s ++ [.close] = (tokens l ++ .comma :: tokens r) ++ [.close] := by
              simpa using h
            exact List.append_cancel_right hclose
          exact absurd hcomma (no_comma s (depth_tokens r))
  | binary b l r ihl ihr =>
    cases t with
    | leaf a =>
      cases b with
      | op i => exact absurd (op_mem_tops (.leaf a) h.symm (depth_tokens r)) List.not_mem_nil
      | call f => cases (List.cons.inj h).1
    | unary u t =>
      cases b with
      | op i =>
        have hlt := prec_lt_level ht (op_mem_tops (.unary u t) h.symm (depth_tokens r))
        exact absurd hlt (Nat.not_lt_zero _)
      | call g =>
        cases u with
        | op p => cases (List.cons.inj h).1
        | call f =>
          obtain ⟨-, h⟩ := List.cons.inj h
          have hcomma : tokens t = tokens l ++ .comma :: tokens r := by
            have hclose : tokens t ++ [.close] = (tokens l ++ .comma :: tokens r) ++ [.close] := by
              simpa using h.symm
            exact List.append_cancel_right hclose
          exact absurd hcomma (no_comma t (depth_tokens r))
    | binary c l' r' =>
      cases b with
      | op i =>
        cases c with
        | op j =>
          obtain ⟨hl, hr, hbl, hbr⟩ := hs
          obtain ⟨hl', hr', hbl', hbr'⟩ := ht
          rcases cut h with ⟨hleft, hij, hright⟩ | ⟨z, hz, hz'⟩ | ⟨z, hz, hz'⟩
          · rw [Token.op.inj hij, ihl hbl hbl' hleft, ihr hbr hbr' hright]
          · exact (op_cut hr hbr hl' hbl' hz hz').elim
          · exact (op_cut hr' hbr' hl hbl hz hz').elim
        | call g =>
          have hlt := prec_lt_level ht (op_mem_tops (.binary (.call g) l' r') h.symm (depth_tokens r))
          exact absurd hlt (Nat.not_lt_zero _)
      | call f =>
        cases c with
        | op j =>
          have hlt := prec_lt_level hs (op_mem_tops (.binary (.call f) l r) h (depth_tokens r'))
          exact absurd hlt (Nat.not_lt_zero _)
        | call g =>
          obtain ⟨hfg, h⟩ := List.cons.inj h
          have hargs : tokens l ++ .comma :: tokens r = tokens l' ++ .comma :: tokens r' := by
            have hclose : (tokens l ++ .comma :: tokens r) ++ [.close] = (tokens l' ++ .comma :: tokens r') ++ [.close] := by
              simpa using h
            exact List.append_cancel_right hclose
          rcases cut hargs with ⟨hleft, -, hright⟩ | ⟨z, -, hz'⟩ | ⟨z, -, hz'⟩
          · rw [Token.call.inj hfg, ihl hs.1 ht.1 hleft, ihr hs.2 ht.2 hright]
          · exact absurd hz' (no_comma r (depth_tokens r'))
          · exact absurd hz' (no_comma r' (depth_tokens r))

/-! ## Spelling -/

/-- the token is or begins an operand -/
def Token.starts : Token A P I F → Bool
  | .atom _ => true
  | .pre _ => true
  | .call _ => true
  | _ => false

/-- an operand has to follow -/
def Token.opens : Token A P I F → Bool
  | .atom _ => false
  | .close => false
  | _ => true

/-- operands and what stands between them take turns; the flag tells whether an operand is next -/
def Alternates : Bool → List (Token A P I F) → Prop
  | b, [] => b = false
  | b, k :: l => k.starts = b ∧ Alternates k.opens l

theorem alternates_tokens (t : Term A P I F) {l : List (Token A P I F)} (hl : Alternates false l) :
    Alternates true (tokens t ++ l) := by
  induction t generalizing l with
  | leaf a => exact ⟨rfl, hl⟩
  | unary u t ih =>
    cases u with
    | op p => exact ⟨rfl, ih hl⟩
    | call f =>
      refine ⟨rfl, ?_⟩
      rw [List.append_eq, List.append_assoc]
      exact ih ⟨rfl, hl⟩
  | binary b s t ihs iht =>
    cases b with
    | op i =>
      rw [tokens, List.append_assoc]
      exact ihs ⟨rfl, iht hl⟩
    | call f =>
      refine ⟨rfl, ?_⟩
      rw [List.append_eq, List.append_assoc]
      refine ihs ⟨rfl, ?_⟩
      rw [List.append_eq, List.append_assoc]
      exact iht ⟨rfl, hl⟩

section Spelling

variable {C : Type} (text : Token A P I F → List C)

def spell (l : List (Token A P I F)) : List C := l.flatMap text

theorem spell_cons (k : Token A P I F) (l : List (Token A P I F)) : spell text (k :: l) = text k ++ spell text l := rfl

variable {text} {good : Token A P I F → Prop}

/-- the first token, one of good ones, can be told from the spelling -/
def Telling (text : Token A P I F → List C) (good : Token A P I F → Prop) : Prop :=
  ∀ b k l k' l', Alternates b (k :: l) → Alternates b (k' :: l') → (∀ x ∈ k :: l, good x) → (∀ x ∈ k' :: l', good x) →
    spell text (k :: l) = spell text (k' :: l') → k = k'

theorem spell_injective (htell : Telling text good) (hne : ∀ k, good k → text k ≠ []) {b : Bool}
    {l m : List (Token A P I F)} (hl : Alternates b l) (hm : Alternates b m) (hgl : ∀ x ∈ l, good x)
    (hgm : ∀ x ∈ m, good x) (h : spell text l = spell text m) : l = m := by
  induction l generalizing b m with
  | nil =>
    cases m with
    | nil => rfl
    | cons k m => exact absurd (List.append_eq_nil_iff.1 h.symm).1 (hne k (hgm k List.mem_cons_self))
  | cons k l ih =>
    cases m with
    | nil => exact absurd (List.append_eq_nil_iff.1 h).1 (hne k (hgl k List.mem_cons_self))
    | cons k' m =>
      obtain rfl := htell b k l k' m hl hm hgl hgm h
      rw [ih hl.2 hm.2 (fun x hx => hgl x (List.mem_cons_of_mem _ hx)) (fun x hx => hgm x (List.mem_cons_of_mem _ hx))
        (List.append_cancel_left h)]

end Spelling

end Precedence
