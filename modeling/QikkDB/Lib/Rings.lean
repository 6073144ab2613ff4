/-
Nodes with two links each, as in an array or a heap, and the paths and rings that they form.

- `path_insertBefore`, `path_frame`: a node is put between two linked ones, and all other paths stay.
- `seek_path`: the search along a path ends at the first node that is not passed over, or at the end.
- `path_insertSorted`: both together are an ordered insertion between the ends of a path.
- `ring_segments`: paths from each node of a cycle to the next one make one ring.
- `exists_hop`: behind each marked node of a ring follows another one, whose number is of the other parity.
-/
import Mathlib.Data.List.TakeWhile
import Mathlib.Tactic

namespace Rings

variable {ι : Type*}

/-- the links of each node, if it has them -/
structure Links (ι : Type*) where
  next : ι → Option ι
  prev : ι → Option ι

namespace Links

def Linked (m : Links ι) (x y : ι) : Prop := m.next x = some y ∧ m.prev y = some x

/-- each node is linked to the one behind it -/
def Path (m : Links ι) (l : List ι) : Prop := l.IsChain m.Linked

/-- a path with its end linked to its begin -/
def Ring (m : Links ι) (l : List ι) : Prop := m.Path (l ++ l.head?.toList)

/-- the links the other way round -/
def flip (m : Links ι) : Links ι := ⟨m.prev, m.next⟩

variable {m m' : Links ι} {x y z : ι} {l : List ι}

theorem linked_flip : m.flip.Linked x y ↔ m.Linked y x := and_comm

theorem path_flip : m.flip.Path l.reverse ↔ m.Path l := by
  rw [Path, Path, List.isChain_reverse]
  exact List.IsChain.iff fun a b => linked_flip

theorem path_append {l₁ l₂ : List ι} : m.Path (l₁ ++ l₂) ↔
    m.Path l₁ ∧ m.Path l₂ ∧ ∀ a ∈ l₁.getLast?, ∀ b ∈ l₂.head?, m.Linked a b := List.isChain_append

theorem ring_cons {l : List ι} : m.Ring (x :: l) ↔ m.Path (x :: l ++ [x]) := Iff.rfl

/-- a ring can be read from each of its nodes on -/
theorem ring_rotate {l₁ l₂ : List ι} (h : m.Ring (l₁ ++ l₂)) : m.Ring (l₂ ++ l₁) := by
  cases l₁ with
  | nil => rwa [List.append_nil]
  | cons a l₁ =>
    cases l₂ with
    | nil => rwa [List.append_nil] at h
    | cons b l₂ =>
      have hall : m.Path ((a :: l₁) ++ ((b :: l₂) ++ [a])) := by
        rw [← List.append_assoc]
        exact h
      obtain ⟨hfirst, hsecond, hlink⟩ := path_append.1 hall
      obtain ⟨hpath, -, hclose⟩ := path_append.1 hsecond
      have hinner : m.Path ((a :: l₁) ++ [b]) :=
        path_append.2 ⟨hfirst, List.isChain_singleton _, fun c hc d hd => hlink c hc d (by simpa using hd)⟩
      have hwhole : m.Path ((b :: l₂) ++ ((a :: l₁) ++ [b])) :=
        path_append.2 ⟨hpath, hinner, fun c hc d hd => hclose c hc d (by simpa using hd)⟩
      rwa [← List.append_assoc] at hwhole

/-! ## Insertion -/

section Insert

variable [DecidableEq ι]

/-- `z` between `x` and `y` -/
def insertBetween (m : Links ι) (x z y : ι) : Links ι where
  next := Function.update (Function.update m.next z (some y)) x (some z)
  prev := Function.update (Function.update m.prev z (some x)) y (some z)

theorem next_insertBetween (m : Links ι) (x z y : ι) :
    (m.insertBetween x z y).next = Function.update (Function.update m.next z (some y)) x (some z) := rfl

theorem prev_insertBetween (m : Links ι) (x z y : ι) :
    (m.insertBetween x z y).prev = Function.update (Function.update m.prev z (some x)) y (some z) := rfl

theorem linked_insertBetween {a b : ι} (h : m.Linked a b) (hax : a ≠ x) (haz : a ≠ z) (hby : b ≠ y) (hbz : b ≠ z) :
    (m.insertBetween x z y).Linked a b := by
  constructor
  · rw [next_insertBetween, Function.update_of_ne hax, Function.update_of_ne haz]
    exact h.1
  · rw [prev_insertBetween, Function.update_of_ne hby, Function.update_of_ne hbz]
    exact h.2

/-- paths that do not leave `x` nor come to `y` -/
theorem path_frame (h : m.Path l) (hx : x ∉ l.dropLast) (hy : y ∉ l.tail) (hz : z ∉ l) :
    (m.insertBetween x z y).Path l := by
  induction l with
  | nil => exact List.isChain_nil
  | cons a l ih =>
    cases l with
    | nil => exact List.isChain_singleton _
    | cons b l =>
      simp only [List.dropLast_cons_cons, List.tail_cons, List.mem_cons, not_or] at hx hy hz
      obtain ⟨hlink, hrest⟩ := List.isChain_cons_cons.1 h
      refine List.isChain_cons_cons.2 ⟨?_, ih hrest hx.2 hy.2 (by simp [hz.2])⟩
      exact linked_insertBetween hlink (Ne.symm hx.1) (Ne.symm hz.1) (Ne.symm hy.1) (Ne.symm hz.2.1)

theorem path_insertBetween {pre post : List ι} (h : m.Path (pre ++ x :: y :: post)) (hz : z ∉ pre ++ x :: y :: post)
    (hx : (pre ++ x :: (y :: post).dropLast).Nodup) (hy : ((pre ++ [x]).tail ++ y :: post).Nodup) :
    (m.insertBetween x z y).Path (pre ++ x :: z :: y :: post) := by
  have hsplit : pre ++ x :: y :: post = (pre ++ [x]) ++ y :: post := by simp
  rw [hsplit] at h hz
  obtain ⟨hbefore, hbehind, -⟩ := path_append.1 h
  rw [List.mem_append, not_or] at hz
  rw [List.nodup_append] at hx hy
  have hxpre : x ∉ pre := fun hmem => hx.2.2 x hmem x List.mem_cons_self rfl
  have hxpost := (List.nodup_cons.1 hx.2.1).1
  have hytail : y ∉ (pre ++ [x]).tail := fun hmem => hy.2.2 y hmem y List.mem_cons_self rfl
  have hypost := (List.nodup_cons.1 hy.2.1).1
  have hzx : z ≠ x := fun he => hz.1 (by simp [he])
  have hzy : z ≠ y := fun he => hz.2 (by simp [he])
  have hfirst : (m.insertBetween x z y).Path (pre ++ [x]) :=
    path_frame hbefore (by rwa [List.dropLast_concat]) hytail hz.1
  have hlast : (m.insertBetween x z y).Path (y :: post) := path_frame hbehind hxpost hypost hz.2
  have hxz : (m.insertBetween x z y).Linked x z := by
    constructor
    · rw [next_insertBetween, Function.update_self]
    · rw [prev_insertBetween, Function.update_of_ne hzy, Function.update_self]
  have hzy' : (m.insertBetween x z y).Linked z y := by
    constructor
    · rw [next_insertBetween, Function.update_of_ne hzx, Function.update_self]
    · rw [prev_insertBetween, Function.update_self]
  have hall : (m.insertBetween x z y).Path ((pre ++ [x]) ++ (z :: y :: post)) :=
    path_append.2 ⟨hfirst, List.isChain_cons_cons.2 ⟨hzy', hlast⟩, by simpa using hxz⟩
  simpa using hall

/-- while (cur != stop && pass(cur)) cur = next[cur] -/
def seek (m : Links ι) (stop : ι) (pass : ι → Bool) : ℕ → ι → Option ι
  | 0, _ => none
  | fuel + 1, cur => if cur ≠ stop ∧ pass cur then (m.next cur).bind (m.seek stop pass fuel) else some cur

theorem seek_path {stop : ι} {pass : ι → Bool} {cur : ι} {rest : List ι} (hl : l ++ [stop] = cur :: rest)
    (hpath : m.Path (l ++ [stop])) (hstop : stop ∉ l) {fuel : ℕ} (hfuel : l.length < fuel) :
    m.seek stop pass fuel cur = (l.dropWhile pass ++ [stop]).head? := by
  induction l generalizing cur rest fuel with
  | nil =>
    obtain ⟨rfl, -⟩ := List.cons_eq_cons.1 hl
    cases fuel with
    | zero => exact absurd hfuel (Nat.not_lt_zero _)
    | succ fuel => simp [seek]
  | cons a l ih =>
    obtain ⟨rfl, rfl⟩ := List.cons_eq_cons.1 hl
    cases fuel with
    | zero => exact absurd hfuel (Nat.not_lt_zero _)
    | succ fuel =>
      rw [List.mem_cons, not_or] at hstop
      rw [seek, List.dropWhile_cons]
      cases hpass : pass a with
      | false => simp
      | true =>
        rw [if_pos ⟨Ne.symm hstop.1, rfl⟩, if_pos rfl]
        obtain ⟨b, rest, hrest⟩ : ∃ b rest, l ++ [stop] = b :: rest := by
          cases l with
          | nil => exact ⟨stop, [], rfl⟩
          | cons b l => exact ⟨b, l ++ [stop], rfl⟩
        rw [List.cons_append, hrest] at hpath
        obtain ⟨hlink, htail⟩ := List.isChain_cons_cons.1 hpath
        rw [hlink.1, Option.bind_some]
        rw [← hrest] at htail
        exact ih hrest htail hstop.2 (by simpa using hfuel)

/-- the search from behind `first` and the insertion in front of what it finds, which is an ordered insertion -/
theorem path_insertSorted {r : ι → ι → Prop} [DecidableRel r] {first stop : ι} {chain : List ι}
    (h : m.Path (first :: chain ++ [stop])) (hfirst : (first :: chain).Nodup) (hstop : stop ∉ chain)
    (hz : z ∉ first :: chain ++ [stop]) {fuel : ℕ} (hfuel : chain.length < fuel) :
    ∃ x y, (m.next first).bind (m.seek stop (fun b => !decide (r z b)) fuel) = some y ∧ m.prev y = some x ∧
      (x ∈ first :: chain) ∧ (y ∈ chain ++ [stop]) ∧
      (m.insertBetween x z y).Path (first :: chain.orderedInsert r z ++ [stop]) := by
  have hnodup := List.nodup_cons.1 hfirst
  set pass : ι → Bool := fun b => !decide (r z b) with hpass
  set before := chain.takeWhile pass with hbefore
  set behind := chain.dropWhile pass with hbehind
  have hchain : chain = before ++ behind := (List.takeWhile_append_dropWhile).symm
  obtain ⟨y, post, hy⟩ : ∃ y post, behind ++ [stop] = y :: post := by
    cases behind with
    | nil => exact ⟨stop, [], rfl⟩
    | cons b l => exact ⟨b, l ++ [stop], rfl⟩
  obtain ⟨pre, x, hx⟩ : ∃ pre x, first :: before = pre ++ [x] := by
    obtain he | ⟨pre, x, hpre⟩ := List.eq_nil_or_concat before
    · exact ⟨[], first, by rw [he]; rfl⟩
    · exact ⟨first :: pre, x, by rw [hpre]; simp⟩
  have hwhole : first :: chain ++ [stop] = pre ++ x :: y :: post := by
    rw [hchain, List.cons_append, List.append_assoc, hy, ← List.cons_append, hx]
    simp
  have hseek : (m.next first).bind (m.seek stop pass fuel) = some y := by
    obtain ⟨b, rest, hrest⟩ : ∃ b rest, chain ++ [stop] = b :: rest := by
      cases chain with
      | nil => exact ⟨stop, [], rfl⟩
      | cons b l => exact ⟨b, l ++ [stop], rfl⟩
    have hpath := h
    rw [List.cons_append, hrest] at hpath
    obtain ⟨hlink, htail⟩ := List.isChain_cons_cons.1 hpath
    rw [← hrest] at htail
    rw [hlink.1, Option.bind_some, seek_path hrest htail hstop hfuel, ← hbehind, hy, List.head?_cons]
  have hall := h
  rw [hwhole] at hall hz
  have hlinked : m.Linked x y := (List.isChain_cons_cons.1 (path_append.1 hall).2.1).1
  have hdrop : (y :: post).dropLast = behind := by rw [← hy, List.dropLast_concat]
  have htail : (pre ++ [x]).tail = before := by rw [← hx, List.tail_cons]
  have hdisjoint : (before ++ (behind ++ [stop])).Nodup := by
    rw [← List.append_assoc, ← hchain]
    exact List.nodup_append.2 ⟨hnodup.2, List.nodup_singleton _, fun a ha b hb => by
      rw [List.mem_singleton.1 hb]
      exact fun he => hstop (he ▸ ha)⟩
  have hpath := path_insertBetween hall hz (by
    rw [hdrop, ← List.singleton_append, ← List.append_assoc, ← hx, List.cons_append, ← hchain]
    exact hfirst) (by rw [htail, ← hy]; exact hdisjoint)
  refine ⟨x, y, hseek, hlinked.2, ?_, ?_, ?_⟩
  · rw [hchain, ← List.cons_append, hx]
    simp
  · rw [hchain, List.append_assoc, hy]
    simp
  · have hinsert : chain.orderedInsert r z = before ++ z :: behind := by
      rw [hbefore, hbehind, hpass]
      simpa only [decide_not] using List.orderedInsert_eq_take_drop r z chain
    have heq : first :: chain.orderedInsert r z ++ [stop] = pre ++ x :: z :: y :: post := by
      rw [hinsert, ← List.cons_append, hx]
      simp [hy]
    rwa [heq]

end Insert

/-! ## Segments of a ring -/

theorem path_join {l₁ l₂ : List ι} (h₁ : m.Path (l₁ ++ [x])) (h₂ : m.Path (x :: l₂)) : m.Path (l₁ ++ x :: l₂) := by
  obtain ⟨hbefore, -, hlink⟩ := path_append.1 h₁
  exact path_append.2 ⟨hbefore, h₂, fun a ha b hb => hlink a ha b (by simpa using hb)⟩

variable {succ : ι → ι} {chain : ι → List ι}

theorem path_segments {firsts : List ι} (hne : firsts ≠ [])
    (hpaths : ∀ e ∈ firsts, m.Path (e :: chain e ++ [succ e])) (hsucc : firsts.IsChain fun a b => succ a = b) :
    m.Path (firsts.flatMap (fun e => e :: chain e) ++ [succ (firsts.getLast hne)]) := by
  induction firsts with
  | nil => exact absurd rfl hne
  | cons e rest ih =>
    have hfirst := hpaths e List.mem_cons_self
    cases rest with
    | nil => simpa using hfirst
    | cons e' rest =>
      obtain ⟨he, htail⟩ := List.isChain_cons_cons.1 hsucc
      have hrest := ih (List.cons_ne_nil _ _) (fun a ha => hpaths a (List.mem_cons_of_mem e ha)) htail
      rw [he] at hfirst
      rw [List.flatMap_cons, List.cons_append] at hrest
      rw [List.flatMap_cons, List.flatMap_cons, List.getLast_cons (List.cons_ne_nil _ _), List.append_assoc,
        List.cons_append]
      exact path_join hfirst hrest

theorem ring_segments {e : ι} {rest : List ι} (hpaths : ∀ a ∈ e :: rest, m.Path (a :: chain a ++ [succ a]))
    (hsucc : (e :: rest).IsChain fun a b => succ a = b)
    (hclose : succ ((e :: rest).getLast (List.cons_ne_nil e rest)) = e) :
    m.Ring ((e :: rest).flatMap fun a => a :: chain a) := by
  have hpath := path_segments (List.cons_ne_nil e rest) hpaths hsucc
  rwa [hclose] at hpath

/-! ## Marked nodes -/

section Marks

variable (mark label : ι → Bool)

/-- the labels of the marked nodes alternate, from `b` on -/
def Alternate : Bool → List ι → Prop
  | _, [] => True
  | b, x :: l => if mark x then label x = b ∧ Alternate (!b) l else Alternate b l

/-- the label behind the marked nodes of a list -/
def behind (b : Bool) (l : List ι) : Bool := l.foldl (fun b x => if mark x then !b else b) b

variable {mark label} {b : Bool}

theorem behind_cons (a : ι) (l : List ι) :
    behind mark b (a :: l) = behind mark (if mark a then !b else b) l := rfl

theorem behind_append (l₁ l₂ : List ι) : behind mark b (l₁ ++ l₂) = behind mark (behind mark b l₁) l₂ :=
  List.foldl_append

theorem behind_unmarked (h : ∀ a ∈ l, mark a = false) : behind mark b l = b := by
  induction l with
  | nil => rfl
  | cons a l ih =>
    rw [behind_cons, h a List.mem_cons_self]
    exact ih fun c hc => h c (List.mem_cons_of_mem a hc)

theorem behind_eq_iff (b : Bool) (l : List ι) : behind mark b l = b ↔ Even (l.countP mark) := by
  induction l generalizing b with
  | nil => simp [behind]
  | cons a l ih =>
    rw [behind_cons, List.countP_cons]
    cases mark a with
    | false => simpa only [Bool.false_eq_true, if_false, Nat.add_zero] using ih b
    | true =>
      have hnot : behind mark (!b) l = b ↔ ¬ behind mark (!b) l = !b := by
        cases behind mark (!b) l <;> cases b <;> simp
      simp only [if_true, Nat.even_add_one]
      rw [← ih (!b)]
      exact hnot

theorem alternate_congr {mark' label' : ι → Bool} (hmark : ∀ a ∈ l, mark' a = mark a)
    (hlabel : ∀ a ∈ l, label' a = label a)
    (h : Alternate mark label b l) : Alternate mark' label' b l := by
  induction l generalizing b with
  | nil => trivial
  | cons a l ih =>
    have hrest : ∀ {c}, Alternate mark label c l → Alternate mark' label' c l := fun hc =>
      ih (fun x hx => hmark x (List.mem_cons_of_mem a hx)) (fun x hx => hlabel x (List.mem_cons_of_mem a hx)) hc
    rw [Alternate] at h ⊢
    rw [hmark a List.mem_cons_self, hlabel a List.mem_cons_self]
    split_ifs at h ⊢
    · exact ⟨h.1, hrest h.2⟩
    · exact hrest h

theorem alternate_append (l₁ l₂ : List ι) : Alternate mark label b (l₁ ++ l₂) ↔
    Alternate mark label b l₁ ∧ Alternate mark label (behind mark b l₁) l₂ := by
  induction l₁ generalizing b with
  | nil => simp [Alternate, behind]
  | cons a l₁ ih =>
    rw [List.cons_append, Alternate, Alternate, behind_cons]
    cases mark a with
    | false => exact ih
    | true =>
      simp only [if_true]
      rw [ih, and_assoc]

theorem alternate_reverse (h : Alternate mark label b l) :
    Alternate mark label (!behind mark b l) l.reverse ∧ behind mark (!behind mark b l) l.reverse = !b := by
  induction l generalizing b with
  | nil => exact ⟨trivial, rfl⟩
  | cons a l ih =>
    rw [Alternate] at h
    rw [List.reverse_cons, alternate_append, behind_append, behind_cons]
    cases hmark : mark a with
    | false =>
      rw [hmark] at h
      simp only [Bool.false_eq_true, if_false] at h ⊢
      obtain ⟨hrest, hend⟩ := ih h
      exact ⟨⟨hrest, by simp [Alternate, hmark]⟩, by rw [hend]; simp [behind, hmark]⟩
    | true =>
      rw [hmark] at h
      simp only [if_true] at h ⊢
      obtain ⟨hrest, hend⟩ := ih h.2
      rw [hend, Bool.not_not]
      exact ⟨⟨hrest, by simp [Alternate, hmark, h.1]⟩, by simp [behind, hmark]⟩

/-- from a node to the next marked one -/
structure Hop (m : Links ι) (mark : ι → Bool) (x : ι) (between : List ι) (y : ι) : Prop where
  path : m.Path (x :: between ++ [y])
  unmarked : ∀ a ∈ between, mark a = false
  marked : mark y = true

theorem exists_hop_head (hring : m.Ring (x :: l)) (hmark : mark x = true)
    (hlabels : Alternate mark label b (x :: l)) (heven : behind mark b (x :: l) = b) :
    ∃ between y, y ∈ l ∧ between.Sublist l ∧ Hop m mark x between y ∧ label y = !label x := by
  rw [Alternate, hmark, if_pos rfl] at hlabels
  rw [behind_cons, hmark, if_pos rfl] at heven
  have hsplit := (List.takeWhile_append_dropWhile (p := fun a => !mark a) (l := l)).symm
  have hfront : ∀ a ∈ l.takeWhile fun a => !mark a, mark a = false := fun a ha => by
    simpa using List.mem_takeWhile_imp ha
  cases hrest : l.dropWhile fun a => !mark a with
  | nil =>
    rw [hrest, List.append_nil] at hsplit
    have hnot : behind mark (!b) l = !b := behind_unmarked (hsplit ▸ hfront)
    rw [heven] at hnot
    cases b <;> cases hnot
  | cons y rest =>
    rw [hrest] at hsplit
    have hy : mark y = true := by
      have hhead : (l.dropWhile fun a => !mark a) ≠ [] := by
        rw [hrest]
        exact List.cons_ne_nil _ _
      have hnot := List.head_dropWhile_not (fun a => !mark a) hhead
      simpa [hrest] using hnot
    have hlabel : label y = !b := by
      have hboth := hlabels.2
      rw [hsplit, alternate_append, behind_unmarked hfront, Alternate, hy, if_pos rfl] at hboth
      exact hboth.2.1
    refine ⟨_, y, by rw [hsplit]; simp, List.takeWhile_sublist _, ⟨?_, hfront, hy⟩, by rw [hlabel, hlabels.1]⟩
    have hpath : m.Path (x :: l ++ [x]) := hring
    rw [hsplit] at hpath
    have hwhole : m.Path ((x :: (l.takeWhile fun a => !mark a) ++ [y]) ++ (rest ++ [x])) := by simpa using hpath
    exact (path_append.1 hwhole).1

/-- In a ring with an even number of marked nodes and alternating labels, behind each marked node follows one of the
other label. -/
theorem exists_hop (hring : m.Ring l) (hlabels : Alternate mark label b l) (heven : Even (l.countP mark))
    (hx : x ∈ l) (hmark : mark x = true) :
    ∃ between y, y ∈ l ∧ between.Subperm l ∧ Hop m mark x between y ∧ label y = !label x := by
  obtain ⟨pre, post, rfl⟩ := List.append_of_mem hx
  rw [← behind_eq_iff b] at heven
  rw [behind_append] at heven
  obtain ⟨hpre, hpost⟩ := (alternate_append pre (x :: post)).1 hlabels
  have hturned : Alternate mark label (behind mark b pre) (x :: (post ++ pre)) := by
    rw [← List.cons_append]
    exact (alternate_append _ _).2 ⟨hpost, by rwa [heven]⟩
  have hclosed : behind mark (behind mark b pre) (x :: (post ++ pre)) = behind mark b pre := by
    rw [← List.cons_append, behind_append, heven]
  have hturn : m.Ring (x :: (post ++ pre)) := by simpa using ring_rotate hring
  obtain ⟨between, y, hy, hsub, hhop⟩ := exists_hop_head hturn hmark hturned hclosed
  have hperm : (post ++ pre).Subperm (pre ++ x :: post) :=
    (List.perm_append_comm.subperm).trans (List.Sublist.subperm
      (List.Sublist.append_left (List.sublist_cons_self x post) pre))
  exact ⟨between, y, hperm.subset hy, hsub.subperm.trans hperm, hhop⟩

theorem ring_flip (hring : m.Ring l) : m.flip.Ring l.reverse := by
  cases l with
  | nil => exact List.isChain_nil
  | cons x l =>
    have hpath : m.flip.Path (x :: l ++ [x]).reverse := path_flip.2 hring
    have hrotated : m.flip.Ring ([x] ++ l.reverse) := by simpa [ring_cons] using hpath
    rw [List.reverse_cons]
    exact ring_rotate hrotated

/-- the same in front of it -/
theorem exists_hop_flip (hring : m.Ring l) (hlabels : Alternate mark label b l) (heven : Even (l.countP mark))
    (hx : x ∈ l) (hmark : mark x = true) :
    ∃ between y, y ∈ l ∧ between.Subperm l ∧ Hop m.flip mark x between y ∧ label y = !label x := by
  obtain ⟨between, y, hy, hsub, hhop⟩ := exists_hop (ring_flip hring) (alternate_reverse hlabels).1
    (by rwa [List.countP_reverse]) (List.mem_reverse.2 hx) hmark
  exact ⟨between, y, List.mem_reverse.1 hy, hsub.trans (List.reverse_perm l).subperm, hhop⟩

/-- a hop leads back from the other side -/
theorem Hop.flip {between : List ι} (h : Hop m mark x between y) (hx : mark x = true) :
    Hop m.flip mark y between.reverse x where
  path := by
    have := path_flip.2 h.path
    simpa using this
  unmarked a ha := h.unmarked a (List.mem_reverse.1 ha)
  marked := hx

end Marks

end Links

end Rings
