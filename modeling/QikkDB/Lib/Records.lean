/-
Streams of records that end with one of some characters, and readers that start anywhere in such a stream.

A reader skips the ends in front of it, takes the record up to the next end, and steps behind one line ending. A seek
counts weights (bytes), may land inside of a character, and then finds foreign characters for the rest of it.

- `read_spec`: what a read leaves behind.
- `read_seek`: a reader that starts anywhere first reads the rest of the first record whose text ends behind its start.
- `due_all`: a reader that stops at a border reads the records that follow one in front of the border.
- `shares_perm_iff`: shares of a list that some conditions give are together this list iff one condition alone holds of
  every element.
-/
import Mathlib.Tactic
import Mathlib.Data.List.Find
import Mathlib.Data.List.TakeWhile

namespace Records

variable {α : Type*}

/-- the characters that end a record, and the step behind one line ending -/
structure Format (α : Type*) where
  isEnd : α → Bool
  skip : List α → List α
  skip_spec : ∀ x, ∃ e, (∀ c ∈ e, isEnd c = true) ∧ x = e ++ skip x

/-- a record with the stream from its line ending on and the stream behind this -/
structure Record (α : Type*) where
  text : List α
  upto : List α
  behind : List α
deriving DecidableEq

variable (F : Format α)

def read (x : List α) : Option (Record α) :=
  match x.dropWhile F.isEnd with
  | [] => none
  | c :: cs =>
    let upto := cs.dropWhile fun c => !F.isEnd c
    some ⟨c :: cs.takeWhile (fun c => !F.isEnd c), upto, F.skip upto⟩

/-- the records of a stream, at most `n` -/
def upTo : ℕ → List α → List (Record α)
  | 0, _ => []
  | n + 1, x =>
    match read F x with
    | none => []
    | some r => r :: upTo n r.behind

/-- the records of a stream -/
def all (x : List α) : List (Record α) := upTo F x.length x

/-! ## One read -/

/-- the stream is ends, a text without ends that is not empty, and the rest, which starts with an end if anything -/
structure Reads (x : List α) (r : Record α) : Prop where
  front : ∃ e, (∀ c ∈ e, F.isEnd c = true) ∧ x = e ++ (r.text ++ r.upto)
  ne_nil : r.text ≠ []
  text : ∀ c ∈ r.text, F.isEnd c = false
  rest : ∀ c cs, r.upto = c :: cs → F.isEnd c = true
  behind : r.behind = F.skip r.upto

variable {F}

theorem read_spec {x : List α} {r : Record α} (h : read F x = some r) : Reads F x r := by
  unfold read at h
  split at h
  · cases h
  · rename_i c cs hdrop
    obtain rfl := Option.some.inj h
    have hhead : F.isEnd c = false := by
      have hne : x.dropWhile F.isEnd ≠ [] := by simp [hdrop]
      simpa [hdrop] using List.head_dropWhile_not F.isEnd hne
    refine ⟨⟨x.takeWhile F.isEnd, fun d hd => List.mem_takeWhile_imp hd, ?_⟩, by simp, ?_, ?_, rfl⟩
    · rw [List.cons_append, List.takeWhile_append_dropWhile, ← hdrop, List.takeWhile_append_dropWhile]
    · intro d hd
      rcases List.mem_cons.1 hd with rfl | hd
      · exact hhead
      · simpa using List.mem_takeWhile_imp hd
    · intro d ds hd
      have hd : cs.dropWhile (fun c => !F.isEnd c) = d :: ds := hd
      have hne : cs.dropWhile (fun c => !F.isEnd c) ≠ [] := by simp [hd]
      simpa [hd] using List.head_dropWhile_not (fun c => !F.isEnd c) hne

theorem read_none {x : List α} : read F x = none ↔ ∀ c ∈ x, F.isEnd c = true := by
  unfold read
  constructor
  · intro h
    split at h
    · rename_i hdrop
      exact List.dropWhile_eq_nil_iff.1 hdrop
    · cases h
  · intro h
    rw [List.dropWhile_eq_nil_iff.2 h]

/-- what a read finds, from the shape of the stream -/
theorem read_eq {e text upto : List α} (he : ∀ c ∈ e, F.isEnd c = true) (hne : text ≠ [])
    (htext : ∀ c ∈ text, F.isEnd c = false) (hrest : ∀ c cs, upto = c :: cs → F.isEnd c = true) :
    read F (e ++ (text ++ upto)) = some ⟨text, upto, F.skip upto⟩ := by
  obtain ⟨c, cs, rfl⟩ := List.exists_cons_of_ne_nil hne
  have hc : F.isEnd c = false := htext c List.mem_cons_self
  have hcs : ∀ d ∈ cs, (!F.isEnd d) = true := fun d hd => by simp [htext d (List.mem_cons_of_mem c hd)]
  have hupto : upto.takeWhile (fun c => !F.isEnd c) = [] ∧ upto.dropWhile (fun c => !F.isEnd c) = upto := by
    cases upto with
    | nil => exact ⟨rfl, rfl⟩
    | cons d ds => simp [hrest d ds rfl]
  have hdrop : (e ++ (c :: cs ++ upto)).dropWhile F.isEnd = c :: (cs ++ upto) := by
    rw [List.dropWhile_append_of_pos he]
    simp [hc]
  unfold read
  rw [hdrop]
  simp only [List.takeWhile_append_of_pos hcs, List.dropWhile_append_of_pos hcs, hupto.1, hupto.2, List.append_nil]

/-- ends in front of a reader change nothing -/
theorem read_append_ends {e x : List α} (he : ∀ c ∈ e, F.isEnd c = true) : read F (e ++ x) = read F x := by
  unfold read
  rw [List.dropWhile_append_of_pos he]

theorem Reads.suffix {x : List α} {r : Record α} (h : Reads F x r) : ∃ p, p ≠ [] ∧ x = p ++ r.upto := by
  obtain ⟨e, -, hx⟩ := h.front
  exact ⟨e ++ r.text, by simp [h.ne_nil], by rw [hx, List.append_assoc]⟩

theorem Reads.upto_suffix {x : List α} {r : Record α} (h : Reads F x r) :
    ∃ e, (∀ c ∈ e, F.isEnd c = true) ∧ r.upto = e ++ r.behind := by
  rw [h.behind]
  exact F.skip_spec r.upto

theorem Reads.length_behind {x : List α} {r : Record α} (h : Reads F x r) : r.behind.length < x.length := by
  obtain ⟨p, hp, hx⟩ := h.suffix
  obtain ⟨e, -, hupto⟩ := h.upto_suffix
  have := List.length_pos_iff.2 hp
  rw [hx, hupto]
  simp only [List.length_append]
  omega

/-! ## All records -/

theorem upTo_of_length_le {n : ℕ} {x : List α} (h : x.length ≤ n) : upTo F n x = all F x := by
  unfold all
  induction n using Nat.strong_induction_on generalizing x with
  | _ n ih =>
    cases n with
    | zero => rw [Nat.le_zero.1 h]
    | succ n =>
      cases hx : x.length with
      | zero =>
        have hnone : read F x = none := read_none.2 (by simp [List.length_eq_zero_iff.1 hx])
        simp [upTo, hnone]
      | succ m =>
        cases hr : read F x with
        | none => simp [upTo, hr]
        | some r =>
          have hlt := (read_spec hr).length_behind
          simp only [upTo, hr]
          rw [ih n (by omega) (by omega), ih m (by omega) (by omega)]

theorem all_of_none {x : List α} (h : read F x = none) : all F x = [] := by
  unfold all
  cases x.length <;> simp [upTo, h]

theorem all_of_some {x : List α} {r : Record α} (h : read F x = some r) : all F x = r :: all F r.behind := by
  have hlt := (read_spec h).length_behind
  obtain ⟨n, hn⟩ : ∃ n, x.length = n + 1 := ⟨x.length - 1, by omega⟩
  unfold all
  rw [hn]
  simp only [upTo, h]
  rw [upTo_of_length_le (by omega), all]

/-- induction over the reads of a stream -/
theorem reads_induction {P : List α → Prop} (hnone : ∀ x, read F x = none → P x)
    (hsome : ∀ x r, read F x = some r → P r.behind → P x) (x : List α) : P x := by
  induction hn : x.length using Nat.strong_induction_on generalizing x with
  | _ n ih =>
    cases hr : read F x with
    | none => exact hnone x hr
    | some r => exact hsome x r hr (ih _ (hn ▸ (read_spec hr).length_behind) r.behind rfl)

/-- every record of a stream ends inside of it -/
theorem suffix_of_mem_all {x : List α} {r : Record α} (h : r ∈ all F x) :
    (∃ p, p ≠ [] ∧ x = p ++ r.upto) ∧ ∃ e, r.upto = e ++ r.behind := by
  induction x using reads_induction (F := F) with
  | hnone x hr => simp [all_of_none hr] at h
  | hsome x r' hr ih =>
    rw [all_of_some hr] at h
    obtain ⟨p', hp', hx⟩ := (read_spec hr).suffix
    obtain ⟨e', -, hupto⟩ := (read_spec hr).upto_suffix
    rcases List.mem_cons.1 h with rfl | h
    · exact ⟨⟨p', hp', hx⟩, e', hupto⟩
    · obtain ⟨⟨p, -, hp⟩, e, he⟩ := ih h
      refine ⟨⟨p' ++ (e' ++ p), by simp [hp'], ?_⟩, e, he⟩
      rw [hx, hupto, hp]
      simp only [List.append_assoc]

/-- a later record lies behind an earlier one -/
theorem all_pairwise (x : List α) :
    (all F x).Pairwise fun r r' => ∃ p, p ≠ [] ∧ r.behind = p ++ r'.upto := by
  induction x using reads_induction (F := F) with
  | hnone x hr => simp [all_of_none hr]
  | hsome x r hr ih =>
    rw [all_of_some hr, List.pairwise_cons]
    exact ⟨fun r' h' => (suffix_of_mem_all h').1, ih⟩

theorem nodup_all (x : List α) : (all F x).Nodup := by
  refine List.nodup_iff_pairwise_ne.2 ?_
  refine (all_pairwise x).imp_of_mem ?_
  rintro r r' - hr' ⟨p, hp, hb⟩ rfl
  obtain ⟨e, he⟩ := (suffix_of_mem_all hr').2
  have := congrArg List.length hb
  have hlen := List.length_pos_iff.2 hp
  rw [he] at this
  simp only [List.length_append] at this
  omega

/-! ## Seeking -/

/-- the weight of a stream: its bytes, or its code units -/
def weight (w : α → ℕ) (x : List α) : ℕ := (x.map w).sum

@[simp] theorem weight_nil (w : α → ℕ) : weight w [] = 0 := rfl

@[simp] theorem weight_cons (w : α → ℕ) (c : α) (x : List α) : weight w (c :: x) = w c + weight w x := by
  simp [weight]

@[simp] theorem weight_append (w : α → ℕ) (x y : List α) : weight w (x ++ y) = weight w x + weight w y := by
  simp [weight]

theorem weight_pos {w : α → ℕ} (hw : ∀ c, 0 < w c) {x : List α} (hx : x ≠ []) : 0 < weight w x := by
  obtain ⟨c, cs, rfl⟩ := List.exists_cons_of_ne_nil hx
  have := hw c
  rw [weight_cons]
  omega

/-- the stream from a weight on; of a character that is cut, `b` stands for every unit that is left -/
def seek (w : α → ℕ) (b : α) : ℕ → List α → List α
  | 0, x => x
  | _ + 1, [] => []
  | s + 1, c :: cs => if w c ≤ s + 1 then seek w b (s + 1 - w c) cs else List.replicate (w c - (s + 1)) b ++ cs

section Seek

variable {w : α → ℕ} {b : α}

theorem seek_append_of_le (hw : ∀ c, 0 < w c) {p : List α} (x : List α) {s : ℕ} (h : weight w p ≤ s) :
    seek w b s (p ++ x) = seek w b (s - weight w p) x := by
  induction p generalizing s with
  | nil => simp
  | cons c p ih =>
    rw [weight_cons] at h
    have hc := hw c
    obtain ⟨s, rfl⟩ : ∃ t, s = t + 1 := ⟨s - 1, by omega⟩
    rw [List.cons_append, seek, if_pos (by omega), ih (by omega), weight_cons, Nat.sub_sub]

/-- a seek into a part leaves a part of it, in which only a cut character is replaced -/
theorem seek_append_of_lt {p : List α} (x : List α) {s : ℕ} (h : s < weight w p) :
    ∃ q, q ≠ [] ∧ (∀ c ∈ q, c ∈ p ∨ c = b ∧ ∃ d ∈ p, 1 < w d) ∧ seek w b s (p ++ x) = q ++ x := by
  induction p generalizing s with
  | nil => simp at h
  | cons c p ih =>
    cases s with
    | zero => exact ⟨c :: p, by simp, fun d hd => .inl hd, rfl⟩
    | succ s =>
      by_cases hc : w c ≤ s + 1
      · obtain ⟨q, hq, hmem, heq⟩ := ih (s := s + 1 - w c) (by rw [weight_cons] at h; omega)
        refine ⟨q, hq, fun d hd => ?_, by rw [List.cons_append, seek, if_pos hc, heq]⟩
        rcases hmem d hd with hd | ⟨rfl, d', hd', hlt⟩
        · exact .inl (List.mem_cons_of_mem c hd)
        · exact .inr ⟨rfl, d', List.mem_cons_of_mem c hd', hlt⟩
      · refine ⟨List.replicate (w c - (s + 1)) b ++ p, ?_, fun d hd => ?_, ?_⟩
        · have : 0 < w c - (s + 1) := by omega
          simp [Nat.pos_iff_ne_zero.1 this]
        · rcases List.mem_append.1 hd with hd | hd
          · exact .inr ⟨List.eq_of_mem_replicate hd, c, List.mem_cons_self, by omega⟩
          · exact .inl (List.mem_cons_of_mem c hd)
        · rw [List.cons_append, seek, if_neg hc, List.append_assoc]

/-- a seek into ends leaves ends -/
theorem seek_ends (hend : ∀ c, F.isEnd c = true → w c = 1) {e : List α} (he : ∀ c ∈ e, F.isEnd c = true)
    (x : List α) {s : ℕ} (h : s < weight w e) :
    ∃ q, (∀ c ∈ q, F.isEnd c = true) ∧ seek w b s (e ++ x) = q ++ x := by
  obtain ⟨q, -, hmem, heq⟩ := seek_append_of_lt (b := b) x h
  refine ⟨q, fun c hc => ?_, heq⟩
  rcases hmem c hc with hc | ⟨-, d, hd, hlt⟩
  · exact he c hc
  · rw [hend d (he d hd)] at hlt
    omega

/-- a reader that starts inside of a record, or in the ends before it, first reads the rest of this record -/
theorem read_seek_inside (hw : ∀ c, 0 < w c) (hend : ∀ c, F.isEnd c = true → w c = 1) (hbad : F.isEnd b = false)
    {x : List α} {r : Record α} (h : Reads F x r) {s : ℕ} (hs : s + weight w r.upto < weight w x) :
    ∃ r', read F (seek w b s x) = some r' ∧ r'.behind = r.behind := by
  obtain ⟨e, he, hx⟩ := h.front
  have hlt : s < weight w e + weight w r.text := by
    rw [hx, weight_append, weight_append] at hs
    omega
  by_cases hse : s < weight w e
  · obtain ⟨q, hq, heq⟩ := seek_ends (b := b) hend he (r.text ++ r.upto) hse
    refine ⟨⟨r.text, r.upto, F.skip r.upto⟩, ?_, h.behind.symm⟩
    rw [hx, heq]
    exact read_eq hq h.ne_nil h.text h.rest
  · have hin : s - weight w e < weight w r.text := by omega
    obtain ⟨q, hne, hq, heq⟩ := seek_append_of_lt (b := b) r.upto hin
    have hq : ∀ c ∈ q, F.isEnd c = false := by
      intro c hc
      rcases hq c hc with hc | ⟨rfl, -⟩
      · exact h.text c hc
      · exact hbad
    refine ⟨⟨q, r.upto, F.skip r.upto⟩, ?_, h.behind.symm⟩
    rw [hx, seek_append_of_le hw _ (by omega), heq]
    exact read_eq (e := []) (by simp) hne hq h.rest

theorem read_seek (hw : ∀ c, 0 < w c) (hend : ∀ c, F.isEnd c = true → w c = 1) (hbad : F.isEnd b = false)
    (s : ℕ) (x : List α) :
    (read F (seek w b s x)).map Record.behind
      = ((all F x).find? fun r => s + weight w r.upto < weight w x).map Record.behind := by
  induction x using reads_induction (F := F) generalizing s with
  | hnone x hr =>
    have hends := read_none.1 hr
    have hnone : read F (seek w b s x) = none := by
      rw [read_none]
      by_cases hs : s < weight w x
      · obtain ⟨q, hq, heq⟩ := seek_ends (b := b) hend hends [] hs
        simp only [List.append_nil] at heq
        rwa [heq]
      · have := seek_append_of_le (b := b) hw [] (Nat.le_of_not_lt hs)
        rw [List.append_nil] at this
        rw [this]
        cases s - weight w x <;> simp [seek]
    rw [hnone, all_of_none hr]
    rfl
  | hsome x r hr ih =>
    have h := read_spec hr
    rw [all_of_some hr]
    by_cases hs : s + weight w r.upto < weight w x
    · obtain ⟨r', hr', hb⟩ := read_seek_inside (b := b) hw hend hbad h hs
      rw [hr', List.find?_cons_of_pos (by simpa using hs)]
      exact congrArg some hb
    · rw [List.find?_cons_of_neg (by simpa using hs)]
      obtain ⟨p, -, hx⟩ := h.suffix
      obtain ⟨e, he, hupto⟩ := h.upto_suffix
      have hsp : weight w p ≤ s := by
        rw [hx, weight_append] at hs
        omega
      -- the seek lands in the line ending, or behind it
      by_cases hse : s - weight w p < weight w e
      · obtain ⟨q, hq, heq⟩ := seek_ends (b := b) hend he r.behind hse
        rw [hx, seek_append_of_le hw _ hsp, hupto, heq, read_append_ends hq]
        have hfirst := ih 0
        rw [seek] at hfirst
        refine hfirst.trans (congrArg _ (List.find?_congr fun r' hr' => ?_))
        obtain ⟨p', hp', hb⟩ := (suffix_of_mem_all hr').1
        have := weight_pos hw hp'
        rw [hb]
        simp only [weight_append, decide_eq_decide]
        omega
      · rw [hx, seek_append_of_le hw _ hsp, hupto, seek_append_of_le hw _ (Nat.le_of_not_lt hse)]
        refine (ih _).trans (congrArg _ (List.find?_congr fun r' hr' => ?_))
        simp only [weight_append, decide_eq_decide]
        omega

end Seek

/-! ## Readers with a border -/

/-- every record with the one behind it -/
def followers (rs : List (Record α)) : List (Record α × Record α) := rs.zip rs.tail

/-- the records that are read while the reader stands in reach; `x` is where it stands -/
def due (reach : List α → Bool) : List α → List (Record α) → List (Record α)
  | _, [] => []
  | x, r :: rs => if reach x then r :: due reach r.behind rs else []

variable (F) in
/-- what a reader reads that drops the first record it finds -/
def dueBehindFirst (reach : List α → Bool) (x : List α) : List (Record α) :=
  match read F x with
  | none => []
  | some r => due reach r.behind (all F r.behind)

section Border

variable {reach : List α → Bool} (hreach : ∀ p y, reach y = true → reach (p ++ y) = true)

theorem due_of_not_reach {x : List α} (h : reach x = false) (rs : List (Record α)) : due reach x rs = [] := by
  cases rs with
  | nil => rfl
  | cons r rs => simp [due, h]

include hreach in
/-- out of reach once, out of reach for good -/
theorem not_reach_of_mem_all {x : List α} (h : reach x = false) {r : Record α} (hr : r ∈ all F x) :
    reach r.behind = false := by
  obtain ⟨⟨p, -, hx⟩, e, he⟩ := suffix_of_mem_all hr
  by_contra hb
  have := hreach (p ++ e) r.behind (by simpa using hb)
  rw [List.append_assoc, ← he, ← hx, h] at this
  cases this

include hreach in
theorem due_all (prev : Record α) :
    due reach prev.behind (all F prev.behind)
      = ((followers (prev :: all F prev.behind)).filter fun p => reach p.1.behind).map Prod.snd := by
  induction hx : prev.behind using reads_induction (F := F) generalizing prev with
  | hnone x hr => simp [all_of_none hr, due, followers]
  | hsome x r hr ih =>
    rw [all_of_some hr]
    have hcons : followers (prev :: r :: all F r.behind) = (prev, r) :: followers (r :: all F r.behind) := rfl
    rw [hcons]
    by_cases hin : reach x = true
    · rw [List.filter_cons_of_pos (by simpa [hx] using hin), List.map_cons, due, if_pos hin, ih r rfl]
    · have hout : ∀ p ∈ (prev, r) :: followers (r :: all F r.behind), reach p.1.behind = false := by
        intro p hp
        rcases List.mem_cons.1 hp with rfl | hp
        · simpa [hx] using hin
        · have hmem : p.1 ∈ all F x := all_of_some hr ▸ (List.of_mem_zip hp).1
          exact not_reach_of_mem_all hreach (by simpa using hin) hmem
      rw [due_of_not_reach (by simpa using hin), List.filter_eq_nil_iff.2 fun p hp => by simp [hout p hp], List.map_nil]

theorem filter_followers_append (q : Record α × Record α → Bool) (A l : List (Record α))
    (hA : ∀ a ∈ A, ∀ b, q (a, b) = false) : (followers (A ++ l)).filter q = (followers l).filter q := by
  induction A with
  | nil => rfl
  | cons a A ih =>
    rw [List.cons_append, ← ih fun a ha => hA a (List.mem_cons_of_mem _ ha)]
    cases hAl : A ++ l with
    | nil => simp [followers]
    | cons b bs =>
      have hcons : followers (a :: b :: bs) = (a, b) :: followers (b :: bs) := rfl
      rw [hcons, List.filter_cons_of_neg (by simp [hA a List.mem_cons_self b])]

/-- the records behind one of a stream are those of the stream behind it -/
theorem all_split {x : List α} {A B : List (Record α)} {r : Record α} (h : all F x = A ++ r :: B) :
    B = all F r.behind := by
  induction A generalizing x with
  | nil =>
    cases hr : read F x with
    | none => simp [all_of_none hr] at h
    | some r' =>
      rw [all_of_some hr] at h
      obtain ⟨rfl, rfl⟩ := List.cons.inj h
      rfl
  | cons a A ih =>
    cases hr : read F x with
    | none => simp [all_of_none hr] at h
    | some r' =>
      rw [all_of_some hr] at h
      exact ih (List.cons.inj h).2

include hreach in
/-- a reader that starts at `s` and drops the first record reads what follows a record that ends behind `s`, as long
as this is in reach -/
theorem dueBehindFirst_seek {w : α → ℕ} {b : α} (hw : ∀ c, 0 < w c) (hend : ∀ c, F.isEnd c = true → w c = 1)
    (hbad : F.isEnd b = false) (s : ℕ) (x : List α) :
    dueBehindFirst F reach (seek w b s x)
      = ((followers (all F x)).filter fun p =>
          decide (s + weight w p.1.upto < weight w x) && reach p.1.behind).map Prod.snd := by
  have hread := read_seek (b := b) hw hend hbad s x
  unfold dueBehindFirst
  cases hfind : (all F x).find? fun r => decide (s + weight w r.upto < weight w x) with
  | none =>
    rw [hfind, Option.map_none, Option.map_eq_none_iff] at hread
    rw [hread]
    have hnone : ∀ p ∈ followers (all F x),
        ¬ (decide (s + weight w p.1.upto < weight w x) && reach p.1.behind) = true := by
      intro p hp
      have := List.find?_eq_none.1 hfind p.1 (List.of_mem_zip hp).1
      simp only [Bool.and_eq_true, not_and]
      exact fun h => absurd h this
    rw [List.filter_eq_nil_iff.2 hnone, List.map_nil]
  | some r =>
    rw [hfind, Option.map_some] at hread
    obtain ⟨r', hr', hb⟩ := Option.map_eq_some_iff.1 hread
    obtain ⟨hin, A, B, hsplit, hA⟩ := List.find?_eq_some_iff_append.1 hfind
    have hB := all_split hsplit
    rw [hr']
    simp only [hb]
    rw [due_all hreach r, hsplit, hB, filter_followers_append]
    · refine congrArg _ (List.filter_congr fun p hp => ?_)
      have hmem : p.1 = r ∨ p.1 ∈ all F r.behind := List.mem_cons.1 (List.of_mem_zip hp).1
      have hle : weight w p.1.upto ≤ weight w r.upto := by
        rcases hmem with heq | hmem
        · rw [heq]
        · obtain ⟨⟨q, -, hq⟩, -⟩ := suffix_of_mem_all hmem
          have hrx : r ∈ all F x := by simp [hsplit]
          obtain ⟨-, e, he⟩ := suffix_of_mem_all hrx
          rw [he, hq]
          simp only [weight_append]
          omega
      have hlt : s + weight w p.1.upto < weight w x := by
        have := of_decide_eq_true hin
        omega
      simp [hlt]
    · intro a ha b
      simpa using fun h => absurd h (by simpa using hA a ha)

end Border

/-! ## Shares -/

theorem map_snd_followers (rs : List (Record α)) : (followers rs).map Prod.snd = rs.tail := by
  unfold followers
  refine List.map_snd_zip ?_
  simp

/-- a list cut into shares by one condition for each -/
theorem shares_perm_iff {β γ : Type*} (l : List (β × γ)) (hl : (l.map Prod.snd).Nodup) (n : ℕ)
    (t : ℕ → β × γ → Bool) :
    ((List.range n).flatMap fun i => (l.filter (t i)).map Prod.snd).Perm (l.map Prod.snd)
      ↔ ∀ p ∈ l, ∃! i, i < n ∧ t i p = true := by
  have hshare : ∀ {i : ℕ} {p}, p ∈ l → (p.2 ∈ (l.filter (t i)).map Prod.snd ↔ t i p = true) := by
    intro i p hp
    constructor
    · intro hm
      obtain ⟨q, hq, heq⟩ := List.mem_map.1 hm
      have hqp : q = p := List.inj_on_of_nodup_map hl (List.mem_filter.1 hq).1 hp heq
      exact hqp ▸ (List.mem_filter.1 hq).2
    · exact fun h => List.mem_map_of_mem (List.mem_filter.2 ⟨hp, h⟩)
  constructor
  · intro hperm p hp
    have hnodup := List.nodup_flatMap.1 (hperm.nodup_iff.2 hl)
    obtain ⟨i, hi, hm⟩ := List.mem_flatMap.1 (hperm.mem_iff.2 (List.mem_map_of_mem hp))
    refine ⟨i, ⟨List.mem_range.1 hi, (hshare hp).1 hm⟩, ?_⟩
    rintro j ⟨hj, htj⟩
    by_contra hne
    have hsymm : Std.Symm (Function.onFun List.Disjoint fun i => (l.filter (t i)).map Prod.snd) :=
      ⟨fun _ _ hd => hd.symm⟩
    have hdis := hnodup.2.forall (List.mem_range.2 hj) hi hne
    exact hdis ((hshare hp).2 htj) hm
  · intro h
    have hnodup : ((List.range n).flatMap fun i => (l.filter (t i)).map Prod.snd).Nodup := by
      refine List.nodup_flatMap.2 ⟨fun i _ => hl.sublist (List.filter_sublist.map _), ?_⟩
      refine List.nodup_range.pairwise_of_forall_ne fun i hi j hj hne c hci hcj => hne ?_
      obtain ⟨p, hp, rfl⟩ := List.mem_map.1 hci
      have hpl := (List.mem_filter.1 hp).1
      exact (h p hpl).unique ⟨List.mem_range.1 hi, (hshare hpl).1 hci⟩ ⟨List.mem_range.1 hj, (hshare hpl).1 hcj⟩
    refine (List.perm_ext_iff_of_nodup hnodup hl).2 fun c => ?_
    constructor
    · intro hc
      obtain ⟨i, -, hc⟩ := List.mem_flatMap.1 hc
      exact (List.filter_sublist.map _).subset hc
    · intro hc
      obtain ⟨p, hp, rfl⟩ := List.mem_map.1 hc
      obtain ⟨i, ⟨hi, hti⟩, -⟩ := h p hp
      exact List.mem_flatMap.2 ⟨i, List.mem_range.2 hi, (hshare hp).2 hti⟩

end Records
